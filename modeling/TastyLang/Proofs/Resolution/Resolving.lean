import Mathlib.Logic.Relation
import TastyLang.Proofs.Resolution.Regimes

/-!
# The regime of the third pass

The third pass declares no type, it notes written types in values and bodies only, and what it finds for
a name is unknown only if nothing declares the name (`bind_run`). A function is done once all that it
holds is noted, and that lasts (`State.Settled.run`).
-/

namespace TastyLang

/-- What is said about a name fits the file: it is unknown only if neither the file nor anything
outside declares it. Where functions of the file stand in no scope, their bodies do not see what it
declares. -/
structure File.Identifies (file : File) (table : Table) (name : String) (unknown : Bool) :
    Prop where
  outside : unknown = true → ¬ file.OuterNamespace table name
  own : unknown = true → ¬ file.Detaches → ∀ d ∈ file.decls, name ∉ d.own
  known : unknown = false → file.Binds name ∨ file.OuterNamespace table name

namespace Resolution

variable {table : Table} {file : File}

/-! ### The regime of the third pass -/

def Change.Resolves (table : Table) (file : File) (s : State) : Change → Prop
  | declare _ id => file.BindsLocally (s.info.symbols.symbol id).name
  | type id _ => (s.info.symbols.symbol id).kind = .var
  | written span _ => ∃ t, .type t ∈ file.late ∧ t.span = span
  | var _ id => (s.info.symbols.symbol id).type.isSome
  | use span id => ∃ name, .expr (.ident span name) ∈ file.late ∧
      id < s.info.symbols.symbols.size ∧ (s.info.symbols.symbol id).name = name ∧
      file.Identifies table name (s.info.symbols.symbol id).unknown
  | phase span p => p = .done → ∀ st, s.funcs[span]? = some st → s.Finished file st.decl
  | members _ _ | newClass _ | addBase _ _ | className _ _ | classAt _ _ _ | capabilities _
  | extension _ | extended _ | func _ _ | assume _ _ | refurbish _ _ _ | param _ _ => False
  | _ => True

/-- What the third pass relies on: parameters have symbols, and the names that the file declares
itself are in its scope. -/
structure State.Prepared (file : File) (s : State) : Prop where
  params : ∀ f ∈ file.funcs, ∀ q ∈ f.params, q.span ∈ s.info.params
  own : ∀ d ∈ file.decls, ∀ name ∈ d.own,
    s.info.symbols.Declares SymbolTable.global name ∨ ∃ id, (name, id) ∈ s.assumed
  assumed : ∀ full, file.Assumes full → ∃ id, (full, id) ∈ s.assumed

variable {s s' : State}

theorem State.Prepared.mono (h : s.Prepared file) (formed : s.Formed file)
    (grown : s.Grows s') : s'.Prepared file where
  params f listed q member := grown.params _ (h.params f listed q member)
  own d listed name member := by
    rcases h.own d listed name member with ⟨id, ordered, lt, named⟩ | ⟨id, found⟩
    · refine .inl ⟨id, ?_, Nat.lt_of_lt_of_le lt grown.symbols.symbols, ?_⟩
      · exact (grown.symbols.scope _ formed.root).order.subset ordered
      · exact (grown.symbols.symbol id lt).name.trans named
    · exact .inr ⟨id, grown.assumed.subset found⟩
  assumed full h' := by
    obtain ⟨id, found⟩ := h.assumed full h'
    exact ⟨id, grown.assumed.subset found⟩

def resolving (table : Table) (file : File) : Regime file where
  may s c := c.Legal file s ∧ c.Resolves table file s
  relies s := s.Prepared file
  legal _ _ h := h.1
  steady s c h := by
    cases c with
    | var span id => exact h.2
    | _ => trivial
  lasting _ _ h formed prepared := prepared.mono formed (Change.grows h.1)

variable {sc : ScopeId} {p : Place} {id : SymbolId} {u : Unit}

/-! ### Single steps -/

theorem alloc_run_of {x : Symbol} (plain : x.members = none) (run : alloc x s = .ok (id, s')) :
    s.Run (resolving table file).may s' := by
  cases (alloc_run x s).symm.trans run
  exact .one (c := .alloc x) ⟨plain, trivial⟩

theorem declare_run_of {pos : Pos} (ready : (resolving table file).Ready sc s)
    (lt : id < s.info.symbols.symbols.size) (unknown : (s.info.symbols.symbol id).unknown = false)
    (binds : file.BindsLocally (s.info.symbols.symbol id).name)
    (run : declare sc id pos s = .ok (u, s')) : s.Run (resolving table file).may s' := by
  obtain ⟨t, declared, rfl⟩ := declare_run run
  obtain ⟨rfl, -⟩ := SymbolTable.declare_ok declared
  exact .one (c := .declare sc id) ⟨⟨ready.inside, lt, unknown, binds.binds⟩, binds⟩

theorem setType_run {t : Ty} (kind : (s.info.symbols.symbol id).kind = .var)
    (lt : id < s.info.symbols.symbols.size)
    (run : setType id t s = .ok (u, s')) : s.Run (resolving table file).may s' ∧
      (s'.info.symbols.symbol id).type.isSome := by
  cases run
  refine ⟨.one (c := .type id t) ⟨.inr (by rw [kind]; rfl), kind⟩, ?_⟩
  simp [SymbolTable.symbol_modifySymbol, lt]

theorem access_run {span : Span} {name : String} {accessor : Accessor} {receiver : Ty} {x : Expr}
    {found : Option SymbolId}
    (run : access span x name accessor receiver s = .ok (found, s')) :
    span ∈ s'.info.access := by
  obtain ⟨onTypeName, _, read, run⟩ := bind_ok run
  cases read
  obtain ⟨_, _, noted, run⟩ := bind_ok run
  cases noted
  obtain ⟨_, _, read, run⟩ := bind_ok run
  cases read
  have same : s' = (Change.access span
      (accessForm accessor (s.info.typeNames.contains x.span) receiver)).apply s := by
    split at run <;> cases run <;> rfl
  rw [same]
  exact Std.TreeMap.mem_insert_self

/-! ### Names -/

variable {name : String}

theorem Formed.lookup? {s : State} (formed : s.Formed file) {sc : ScopeId}
    (found : s.info.symbols.lookupLocal? sc name = some id) :
    id < s.info.symbols.symbols.size ∧ (s.info.symbols.symbol id).unknown = false ∧
      (s.info.symbols.symbol id).name = name ∧ file.Binds name := by
  obtain ⟨member, named⟩ := SymbolTable.lookupLocal?_mem found
  obtain ⟨lt, unknown, binds⟩ := formed.orders sc id member
  exact ⟨lt, unknown, named, named ▸ binds⟩

/-- The symbol of a name among the members of the class itself. -/
def State.own? (s : State) (c : SymbolId) (name : String) : Option SymbolId :=
  (s.info.symbols.symbol c).members.bind fun m => s.info.symbols.lookupLocal? m name

/-- A base of the class names the other class. -/
def State.Parent (s : State) (c d : SymbolId) : Prop :=
  ∃ b ∈ s.info.hierarchy.basesOf ((s.info.symbols.symbol c).type.getD .absent),
    s.classes.lookup b.name = some d

/-- The classes that a class inherits from, itself among them. -/
def State.Inherits (s : State) : SymbolId → SymbolId → Prop := Relation.ReflTransGen s.Parent

/-- The search goes on through bases, unless it has found something. -/
def State.searchBases (s : State) (name : String) (n : Nat) (start : List SymbolId × Option SymbolId)
    (bases : List Ty) : List SymbolId × Option SymbolId :=
  bases.foldl (fun (seen, found) b =>
    match found, s.classes.lookup b.name with
    | some f, _ => (seen, some f)
    | none, some base => s.searchMember name n seen base
    | none, none => (seen, none)) start

theorem searchBases_found {s : State} {n : Nat} {seen : List SymbolId}
    (bases : List Ty) : s.searchBases name n (seen, some id) bases = (seen, some id) := by
  induction bases with
  | nil => rfl
  | cons b bases ih => exact ih

theorem searchBases_cons (s : State) (name : String) (n : Nat) (seen : List SymbolId) (b : Ty)
    (bases : List Ty) : s.searchBases name n (seen, none) (b :: bases) =
      match s.classes.lookup b.name with
      | some d => s.searchBases name n (s.searchMember name n seen d) bases
      | none => s.searchBases name n (seen, none) bases := by
  unfold State.searchBases
  rw [List.foldl_cons]
  dsimp only
  cases s.classes.lookup b.name <;> rfl

theorem searchMember_succ {s : State} {c : SymbolId} {m : ScopeId}
    (members : (s.info.symbols.symbol c).members = some m) (name : String) (n : Nat) (seen : List SymbolId) :
    s.searchMember name (n + 1) seen c = if seen.contains c then (seen, none) else
      match s.own? c name with
      | some found => (c :: seen, some found)
      | none => s.searchBases name n (c :: seen, none)
          (s.info.hierarchy.basesOf ((s.info.symbols.symbol c).type.getD .absent)) := by
  rw [State.searchMember, State.own?, members]
  rfl

theorem searchMember_sound {s : State} (n : Nat) {seen : List SymbolId} {c : SymbolId}
    (found : (s.searchMember name n seen c).2 = some id) :
    ∃ e, s.Inherits c e ∧ s.own? e name = some id := by
  induction n generalizing seen c with
  | zero => cases found
  | succ n ih =>
    cases members : (s.info.symbols.symbol c).members with
    | none =>
      rw [State.searchMember, members] at found
      cases found
    | some m =>
      rw [searchMember_succ members] at found
      split at found
      · cases found
      · split at found
        · next own =>
          cases found
          exact ⟨c, .refl, own⟩
        · -- each base is searched in turn until something is found
          generalize c :: seen = visited at found
          generalize bases : s.info.hierarchy.basesOf ((s.info.symbols.symbol c).type.getD .absent) = bs at found
          have parents : ∀ b ∈ bs, ∀ d, s.classes.lookup b.name = some d → s.Parent c d :=
            fun b member d named => ⟨b, bases ▸ member, named⟩
          clear bases
          induction bs generalizing visited with
          | nil => cases found
          | cons b bs inner =>
            have later := fun b member => parents b (List.mem_cons_of_mem _ member)
            rw [searchBases_cons] at found
            split at found
            · next d named =>
              cases searched : s.searchMember name n visited d with
              | mk visited' result =>
                rw [searched] at found
                cases result with
                | none => exact inner visited' found later
                | some f =>
                  rw [searchBases_found] at found
                  obtain ⟨e, inherits, own⟩ := ih (searched ▸ found)
                  exact ⟨e, .head (parents b List.mem_cons_self d named) inherits, own⟩
            · exact inner visited found later

theorem own?_found {s : State} {c id : SymbolId} (own : s.own? c name = some id) :
    ∃ m, s.info.symbols.lookupLocal? m name = some id := by
  obtain ⟨m, -, here⟩ := Option.bind_eq_some_iff.mp own
  exact ⟨m, here⟩

theorem bind_run (own : p.table = table) (ready : (resolving table file).Ready p.scope s)
    (run : bind p name s = .ok (id, s')) :
    s.Run (resolving table file).may s' ∧ id < s'.info.symbols.symbols.size ∧
      (s'.info.symbols.symbol id).name = name ∧
      file.Identifies table name (s'.info.symbols.symbol id).unknown := by
  have formed := ready.formed
  have known : ∀ {id : SymbolId}, id < s.info.symbols.symbols.size →
      (s.info.symbols.symbol id).unknown = false → (s.info.symbols.symbol id).name = name →
      file.Binds name → s.Run (resolving table file).may s ∧ id < s.info.symbols.symbols.size ∧
        (s.info.symbols.symbol id).name = name ∧
        file.Identifies table name (s.info.symbols.symbol id).unknown := by
    intro id lt unknown named binds
    refine ⟨.refl _, lt, named, ?_, ?_, fun _ => .inl binds⟩
    · rw [unknown]
      exact fun h => by cases h
    · rw [unknown]
      exact fun h => by cases h
  obtain ⟨_, _, read, run⟩ := bind_ok run
  cases read
  dsimp only at run
  obtain ⟨m, same, run⟩ := exists_step run
  split at same
  · next found =>
    subst same
    cases run
    rcases Option.or_eq_some_iff.mp found with found | ⟨-, found⟩
    · rcases Option.or_eq_some_iff.mp found with found | ⟨-, found⟩
      · obtain ⟨c, -, here⟩ := List.exists_of_findSome?_eq_some found
        obtain ⟨lt, unknown, named, binds⟩ := Formed.lookup? formed here
        exact known lt unknown named binds
      · obtain ⟨c, -, inherited⟩ := Option.bind_eq_some_iff.mp found
        obtain ⟨e, -, own⟩ := searchMember_sound _ inherited
        obtain ⟨m, here⟩ := own?_found own
        obtain ⟨lt, unknown, named, binds⟩ := Formed.lookup? formed here
        exact known lt unknown named binds
    · obtain ⟨before, after, same, -⟩ := List.lookup_eq_some_iff.mp found
      obtain ⟨assumes, lt, unknown, named⟩ := formed.assumed (name, id) (by simp [same])
      exact known lt unknown named (assumes.binds)
  · next missing =>
    subst same
    obtain ⟨missing, unassumed⟩ := Option.or_eq_none_iff.mp missing
    obtain ⟨missing, -⟩ := Option.or_eq_none_iff.mp missing
    split at run
    · next outer =>
      obtain ⟨lt, same⟩ := alloc_ok run
      refine ⟨alloc_run_of rfl run, lt, by rw [same], ?_⟩
      rw [same]
      refine ⟨fun h => (by cases h), fun h => (by cases h), fun _ => .inr ?_⟩
      rw [State.isOuterNamespace, Bool.or_eq_true, own] at outer
      refine outer.imp_right fun head => ?_
      obtain ⟨⟨full, i⟩, member, starts⟩ := List.any_eq_true.mp head
      exact ⟨full, (formed.assumed _ member).1, starts⟩
    · next inner =>
      obtain ⟨lt, same⟩ := alloc_ok run
      refine ⟨alloc_run_of rfl run, lt, by rw [same], ?_⟩
      rw [same]
      refine ⟨fun _ outer => inner ?_, fun _ attached d listed member => ?_, fun h => by cases h⟩
      · rw [State.isOuterNamespace, Bool.or_eq_true, own]
        refine outer.imp_right ?_
        rintro ⟨full, assumes, starts⟩
        obtain ⟨i, found⟩ := ready.relies.assumed full assumes
        exact List.any_eq_true.mpr ⟨(full, i), found, starts⟩
      · rcases ready.relies.own d listed name member with declared | ⟨i, found⟩
        · have root := (formed.chains _ ready.inside).root.resolve_right attached
          exact SymbolTable.lookupLocal?_none (List.findSome?_eq_none_iff.mp missing _ root) declared
        · have := List.lookup_eq_none_iff.mp unassumed (name, i) found
          simp at this

/-! ### Functions that are done -/

variable {f : FuncDecl}

theorem State.Finished.run (h : s.Finished file f) (formed : s.Formed file)
    (run : s.Run (resolving table file).may s') : s'.Finished file f where
  late n member := Regime.noted formed run (h.late n member)
  result := (Regime.grows run).results _ h.result
  rangeless := h.rangeless

theorem FuncDecl.mem_late {n : Node} : n ∈ f.late ↔
    (∃ q ∈ f.params, n ∈ nodesIn Expr.nodes q.value) ∨ n ∈ nodesIn Block.nodes f.body := by
  simp only [FuncDecl.late, List.mem_append, List.mem_flatMap]

mutual

theorem Decl.late_of_func {f : FuncDecl} {n : Node} (inside : n ∈ f.late) : (d : Decl) →
    f ∈ d.funcs → n ∈ d.late
  | .item i, listed => by
    cases i with
    | func g =>
      obtain rfl := List.mem_singleton.mp listed
      exact inside
    | var d => cases listed
    | enum d => cases listed
    | inject info text => cases listed
  | .scope _ _ ds, listed => Decl.lateOf_of_func inside ds listed
  | .cls _ _ _ items, listed => by
    obtain ⟨i, member, listed⟩ := List.mem_flatMap.mp listed
    refine List.mem_flatMap.mpr ⟨i, member, ?_⟩
    cases i with
    | func g =>
      obtain rfl := List.mem_singleton.mp listed
      exact inside
    | var d => cases listed
    | enum d => cases listed
    | inject info text => cases listed
  | .abstraction _ _ _ fs, listed | .refurbish _ _ fs, listed =>
    List.mem_flatMap.mpr ⟨f, listed, inside⟩
  | .includes _ _ _ _, listed | .assume _ _ _, listed | .attributeDef _ _ _ _, listed => by
    cases listed

theorem Decl.lateOf_of_func {f : FuncDecl} {n : Node} (inside : n ∈ f.late) : (ds : List Decl) →
    f ∈ Decl.funcsOf ds → n ∈ Decl.lateOf ds
  | d :: ds, listed => by
    rcases List.mem_append.mp listed with listed | listed
    · exact List.mem_append_left _ (Decl.late_of_func inside d listed)
    · exact List.mem_append_right _ (Decl.lateOf_of_func inside ds listed)

end

theorem File.late_of_func (listed : f ∈ file.funcs) : ∀ n ∈ f.late, n ∈ file.late :=
  fun _ inside => Decl.lateOf_of_func inside _ listed

/-- The functions of the file start at different places. -/
def Apart (file : File) : Prop :=
  ∀ f ∈ file.funcs, ∀ g ∈ file.funcs, f.info.span = g.info.span → f = g

/-- Functions that are done are finished. -/
def State.Settled (file : File) (s : State) : Prop :=
  ∀ (span : Span) (st : FuncState), s.funcs[span]? = some st → st.phase = .done →
    s.Finished file st.decl

theorem State.Settled.run (h : s.Settled file) (formed : s.Formed file)
    (run : s.Run (resolving table file).may s') : s'.Settled file := by
  induction run with
  | refl => exact h
  | @step s s' c allowed _ ih =>
    have formed' := Change.formed allowed.1 formed
    refine ih ?_ formed'
    have keeps : ∀ {f : FuncDecl}, s.Finished file f → (c.apply s).Finished file f :=
      fun finished => finished.run formed (.one allowed : s.Run (resolving table file).may _)
    have same : (c.apply s).funcs = s.funcs → (c.apply s).Settled file := by
      intro same span st found done
      exact keeps (h span st (same ▸ found) done)
    cases c with
    | phase span p =>
      intro k st found done
      obtain ⟨st', was, ⟨-, rfl⟩ | ⟨rfl, rfl⟩⟩ := getElem?_modify_or found
      · exact keeps (h k _ was done)
      · exact keeps (allowed.2 done st' was)
    | extended e => exact absurd allowed.2 id
    | func span st => exact absurd allowed.2 id
    | _ => exact same rfl

end Resolution

end TastyLang
