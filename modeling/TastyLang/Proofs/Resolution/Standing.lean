import TastyLang.Proofs.Resolution.Regimes
import TastyLang.Resolution.Signatures

/-!
# Declarations stand in their scopes

After the first pass every declaration stands where later passes look for it (`Decl.Stands`): a
namespace and an abstract binding under their names, a class under its place, variables and functions
under theirs. The first pass only makes legal changes, so this lasts.
-/

namespace TastyLang

variable {id : SymbolId}

theorem SymbolTable.lookupLocal?_entered {t : SymbolTable} {sc : ScopeId}
    (inside : sc < t.scopes.size) (none : t.lookupLocal? sc (t.symbol id).name = none) :
    (t.entered sc id).lookupLocal? sc (t.symbol id).name = some id := by
  have names : ∀ i, ((t.entered sc id).symbol i).name = (t.symbol i).name := by
    intro i
    rw [symbol_entered]
    split <;> rfl
  unfold SymbolTable.lookupLocal? at none ⊢
  rw [scope_entered, if_pos ⟨rfl, inside⟩]
  simp only [names, List.find?_append, none]
  simp

/-- A scope declares a namespace that has no scope for members. -/
def SymbolTable.Bare (t : SymbolTable) (sc : ScopeId) (id : SymbolId) : Prop :=
  id ∈ (t.scope sc).order ∧ (t.symbol id).kind = .scope ∧ (t.symbol id).members = none

theorem SymbolTable.bare_of_isBare {t : SymbolTable} {sc : ScopeId} {name : String}
    (h : t.isBare sc name = true) : ∃ id, t.lookupLocal? sc name = some id ∧ t.Bare sc id := by
  obtain ⟨x, found, bare⟩ := (Option.any_eq_true _ _).mp h
  obtain ⟨id, here, rfl⟩ := Option.map_eq_some_iff.mp found
  simp only [Bool.and_eq_true, beq_iff_eq, Option.isNone_iff_eq_none] at bare
  exact ⟨id, here, (lookupLocal?_mem here).1, bare⟩

namespace Resolution

variable {file : File} {s s' : State} {sc : ScopeId}

/-! ### What stands -/

/-- A variable has a symbol, a function is noted. -/
def Item.Stands (s : State) : Item → Prop
  | .var d => d.info.span ∈ s.info.vars
  | .func f => f.info.span ∈ s.funcs
  | .enum _ | .inject _ _ => True

mutual

def Decl.Stands (s : State) (sc : ScopeId) : Decl → Prop
  | .item i => Item.Stands s i
  | .assume _ name _ => '.' ∈ name.toList → ∃ id, (name, id) ∈ s.assumed
  | .scope _ name ds => ∃ id inner, s.info.symbols.lookupLocal? sc name = some id ∧
      (s.info.symbols.symbol id).kind = .scope ∧ inner < s.info.symbols.scopes.size ∧
      Decl.StandAll s inner ds ∧
      ((s.info.symbols.symbol id).members = some inner ∨ ds.any needsScope = false)
  | .cls info _ _ items => (s.info.classSymbol? info.span).isSome ∧ ∀ i ∈ items, Item.Stands s i
  | .abstraction _ name _ fs => (∃ id, s.info.symbols.lookupLocal? sc name = some id ∧
      (s.info.symbols.symbol id).kind = .abstraction) ∧ ∀ f ∈ fs, f.info.span ∈ s.funcs
  | .includes _ _ _ _ | .refurbish _ _ _ | .attributeDef _ _ _ _ => True

def Decl.StandAll (s : State) (sc : ScopeId) : List Decl → Prop
  | [] => True
  | d :: ds => Decl.Stands s sc d ∧ Decl.StandAll s sc ds

end

theorem Item.Stands.mono (grown : s.Grows s') {i : Item} (h : Item.Stands s i) :
    Item.Stands s' i := by
  cases i with
  | var d => exact grown.vars _ h
  | func f => exact grown.funcs _ h
  | enum d => trivial
  | inject info text => trivial

theorem classSymbol?_mono (grown : s.Grows s') {span : Span}
    (h : s.info.classSymbol? span = some id) : s'.info.classSymbol? span = some id := by
  obtain ⟨later, same⟩ := grown.classes
  obtain ⟨x, found, rfl⟩ := Option.map_eq_some_iff.mp h
  rw [Info.classSymbol?, ← same, List.lookup_append, found]
  rfl

theorem State.Formed.classSymbol? (formed : s.Formed file) {span : Span}
    (found : s.info.classSymbol? span = some id) : s.info.symbols.IsClass id := by
  obtain ⟨x, listed, rfl⟩ := Option.map_eq_some_iff.mp found
  obtain ⟨before, after, same, -⟩ := List.lookup_eq_some_iff.mp listed
  exact formed.classes (span, x) (by simp [same])

variable {name : String}

theorem lookupLocal?_mono (formed : s.Formed file) (grown : s.Grows s')
    (inside : sc < s.info.symbols.scopes.size)
    (found : s.info.symbols.lookupLocal? sc name = some id) :
    s'.info.symbols.lookupLocal? sc name = some id ∧
      (s.info.symbols.symbol id).Grows (s'.info.symbols.symbol id) := by
  have known := fun i member => (formed.orders sc i member).1
  refine ⟨grown.symbols.lookupLocal? inside known found, ?_⟩
  exact grown.symbols.symbol id (known id (SymbolTable.lookupLocal?_mem found).1)

mutual

theorem Decl.Stands.mono (formed : s.Formed file) (grown : s.Grows s') : (d : Decl) →
    {sc : ScopeId} → sc < s.info.symbols.scopes.size → Decl.Stands s sc d → Decl.Stands s' sc d
  | .item i, _, _, h => Item.Stands.mono grown h
  | .assume _ name _, _, _, h => fun dotted => by
    obtain ⟨id, found⟩ := h dotted
    exact ⟨id, grown.assumed.subset found⟩
  | .scope _ name ds, _, inside, h => by
    obtain ⟨id, inner, found, kind, known, stand, members⟩ := h
    obtain ⟨found', later⟩ := lookupLocal?_mono formed grown inside found
    exact ⟨id, inner, found', later.kind.trans kind,
      Nat.lt_of_lt_of_le known grown.symbols.scopes,
      Decl.StandAll.mono formed grown ds known stand, members.imp_left (later.members inner)⟩
  | .cls info _ _ items, _, _, h => by
    obtain ⟨id, found⟩ := Option.isSome_iff_exists.mp h.1
    refine ⟨?_, fun i member => Item.Stands.mono grown (h.2 i member)⟩
    rw [classSymbol?_mono grown found]
    rfl
  | .abstraction _ name _ fs, _, inside, h => by
    obtain ⟨⟨id, found, kind⟩, funcs⟩ := h
    obtain ⟨found', later⟩ := lookupLocal?_mono formed grown inside found
    exact ⟨⟨id, found', later.kind.trans kind⟩, fun f member => grown.funcs _ (funcs f member)⟩
  | .includes _ _ _ _, _, _, _ | .refurbish _ _ _, _, _, _ | .attributeDef _ _ _ _, _, _, _ =>
    trivial

theorem Decl.StandAll.mono (formed : s.Formed file) (grown : s.Grows s') : (ds : List Decl) →
    {sc : ScopeId} → sc < s.info.symbols.scopes.size → Decl.StandAll s sc ds →
    Decl.StandAll s' sc ds
  | [], _, _, _ => trivial
  | d :: ds, _, inside, h =>
    ⟨Decl.Stands.mono formed grown d inside h.1, Decl.StandAll.mono formed grown ds inside h.2⟩

end

/-! ### Legal steps -/

/-- No function was resolved yet, and no name was used. -/
structure State.Fresh (s : State) : Prop where
  funcs : ∀ (span : Span) (st : FuncState), s.funcs[span]? = some st → st.phase = .fresh
  uses : ∀ span : Span, span ∉ s.info.uses

/-- A change that resolves nothing. -/
def Change.Still : Change → Prop
  | phase _ _ | use _ _ => False
  | _ => True

theorem Change.fresh {c : Change} (legal : c.Legal file s) (still : c.Still) (fresh : s.Fresh) :
    (c.apply s).Fresh := by
  cases c with
  | phase span p => exact absurd still id
  | use span x => exact absurd still id
  | func span st =>
    refine ⟨fun k st' found => ?_, fresh.uses⟩
    rcases getElem?_insert_cases found with ⟨-, rfl⟩ | old
    · exact legal.2.2.1
    · exact fresh.funcs k st' old
  | extended e =>
    refine ⟨fun k st' found => ?_, fresh.uses⟩
    obtain ⟨st, was, ⟨-, rfl⟩ | ⟨-, rfl⟩⟩ := getElem?_modify_or found
    · exact fresh.funcs k _ was
    · exact fresh.funcs k st was
  | _ => exact ⟨fresh.funcs, fresh.uses⟩

/-- What a step of the first pass leads to. -/
structure Leading (file : File) (s s' : State) : Prop where
  grown : s.Grows s'
  formed : s'.Formed file
  fresh : s.Fresh → s'.Fresh

theorem Leading.refl (formed : s.Formed file) : Leading file s s := ⟨.refl s, formed, id⟩

theorem Leading.trans {s'' : State} (h : Leading file s s') (h' : Leading file s' s'') :
    Leading file s s'' := ⟨h.grown.trans h'.grown, h'.formed, h'.fresh ∘ h.fresh⟩

theorem Leading.change (formed : s.Formed file) {c : Change} (still : c.Still)
    (legal : c.Legal file s) : Leading file s (c.apply s) :=
  ⟨Change.grows legal, Change.formed legal formed, Change.fresh legal still⟩

variable {x : Symbol}

theorem alloc_leads (formed : s.Formed file) (none : x.members = none)
    (run : alloc x s = .ok (id, s')) : Leading file s s' := by
  cases (alloc_run x s).symm.trans run
  exact .change (c := .alloc x) formed trivial none

variable {u : Unit} {pos : Pos}

theorem declare_leads (formed : s.Formed file) (inside : sc < s.info.symbols.scopes.size)
    (known : id < s.info.symbols.symbols.size)
    (unknown : (s.info.symbols.symbol id).unknown = false)
    (binds : file.Binds (s.info.symbols.symbol id).name)
    (run : declare sc id pos s = .ok (u, s')) : Leading file s s' ∧
      s' = s.withSymbols (s.info.symbols.entered sc id) ∧
      ((s.info.symbols.symbol id).kind ≠ .func →
        s'.info.symbols.lookupLocal? sc (s.info.symbols.symbol id).name = some id) := by
  obtain ⟨t, declared, rfl⟩ := declare_run run
  obtain ⟨rfl, first⟩ := SymbolTable.declare_ok declared
  refine ⟨.change (c := .declare sc id) formed trivial ⟨inside, known, unknown, binds⟩, rfl,
    fun other => ?_⟩
  exact SymbolTable.lookupLocal?_entered inside (first.resolve_right other)

/-- A name is in scope. -/
def State.Owns (s : State) (sc : ScopeId) (name : String) : Prop :=
  s.info.symbols.Declares sc name ∨ ∃ id, (name, id) ∈ s.assumed

theorem State.Owns.mono (grown : s.Grows s') (inside : sc < s.info.symbols.scopes.size)
    : s.Owns sc name → s'.Owns sc name := by
  rintro (⟨id, member, lt, named⟩ | ⟨id, found⟩)
  · exact .inl ⟨id, (grown.symbols.scope sc inside).order.subset member,
      Nat.lt_of_lt_of_le lt grown.symbols.symbols, (grown.symbols.symbol id lt).name.trans named⟩
  · exact .inr ⟨id, grown.assumed.subset found⟩

theorem introduce_leads (formed : s.Formed file) (inside : sc < s.info.symbols.scopes.size)
    (none : x.members = none) (unknown : x.unknown = false) (binds : file.Binds x.name) {s₁ : State}
    (made : alloc x s = .ok (id, s₁)) (declared : declare sc id pos s₁ = .ok (u, s')) :
    Leading file s s' ∧ id < s'.info.symbols.symbols.size ∧
      s'.info.symbols.symbol id = { x with home := some sc } ∧ s'.Owns sc x.name ∧
      (x.kind ≠ .func → s'.info.symbols.lookupLocal? sc x.name = some id) := by
  have first := alloc_leads formed none made
  obtain ⟨known, same⟩ := alloc_ok made
  have inside₁ := Nat.lt_of_lt_of_le inside first.grown.symbols.scopes
  obtain ⟨second, after, found⟩ := declare_leads first.formed inside₁ known (by rw [same]; exact unknown)
    (by rw [same]; exact binds) declared
  rw [same] at found
  obtain ⟨t, ok, rfl⟩ := declare_run declared
  have owns := SymbolTable.declare_declares ok inside₁ known
  rw [same] at owns
  refine ⟨first.trans second, Nat.lt_of_lt_of_le known second.grown.symbols.symbols, ?_, .inl owns,
    found⟩
  rw [after]
  change (SymbolTable.entered _ _ _).symbol id = _
  rw [SymbolTable.symbol_entered, if_pos ⟨rfl, known⟩, same]

theorem declareOwner_leads {inner : ScopeKind} (formed : s.Formed file)
    (inside : sc < s.info.symbols.scopes.size) (none : x.members = none)
    (unknown : x.unknown = false) (binds : file.Binds x.name) (other : x.kind ≠ .func) {m : ScopeId}
    (run : declareOwner sc x inner pos s = .ok ((id, m), s')) :
    Leading file s s' ∧ id < s'.info.symbols.symbols.size ∧ m < s'.info.symbols.scopes.size ∧
      s'.info.symbols.symbol id = { x with home := some sc, members := some m } ∧
      s'.Owns sc x.name ∧ s'.info.symbols.lookupLocal? sc x.name = some id := by
  obtain ⟨id', s₁, made, run⟩ := bind_ok run
  obtain ⟨_, s₂, declared, run⟩ := bind_ok run
  obtain ⟨first, known, same, owns, found⟩ :=
    introduce_leads formed inside none unknown binds made declared
  have inside₂ := Nat.lt_of_lt_of_le inside first.grown.symbols.scopes
  obtain ⟨m', s₃, opened, run⟩ := bind_ok run
  have lt := newScope_ok opened
  cases (newScope_run sc inner (some id') s₂).symm.trans opened
  have second : Leading file s₂ _ :=
    .change (c := .child sc inner (some id')) first.formed trivial inside₂
  obtain ⟨_, s₄, filled, run⟩ := bind_ok run
  cases filled
  cases run
  have kept : (s₂.withSymbols (s₂.info.symbols.child sc inner (some id)).1).info.symbols.symbol
      id = { x with home := some sc } := same
  have third : Leading file _ _ := .change (c := .members id s₂.info.symbols.scopes.size)
    second.formed trivial ⟨(congrArg Symbol.members kept).trans none, lt⟩
  have rest := second.trans third
  obtain ⟨found', -⟩ := lookupLocal?_mono first.formed rest.grown inside₂ (found other)
  refine ⟨first.trans rest, Nat.lt_of_lt_of_le known rest.grown.symbols.symbols,
    Nat.lt_of_lt_of_le lt third.grown.symbols.scopes, ?_, owns.mono rest.grown inside₂, found'⟩
  change (SymbolTable.modifySymbol _ _ _).symbol id = _
  rw [SymbolTable.symbol_modifySymbol, if_pos ⟨rfl, known⟩, kept]

theorem declareOwner_opens {inner : ScopeKind} {m : ScopeId}
    (run : declareOwner sc x inner pos s = .ok ((id, m), s')) :
    (s'.info.symbols.scope m).kind = inner ∧ (s'.info.symbols.scope m).owner = some id ∧
      s'.info.classes = s.info.classes := by
  obtain ⟨id', s₁, made, run⟩ := bind_ok run
  obtain ⟨_, s₂, declared, run⟩ := bind_ok run
  obtain ⟨m', s₃, opened, run⟩ := bind_ok run
  obtain ⟨_, s₄, filled, run⟩ := bind_ok run
  cases (alloc_run x s).symm.trans made
  obtain ⟨t, -, rfl⟩ := declare_run declared
  cases (newScope_run sc inner (some _) _).symm.trans opened
  cases filled
  cases run
  have scope := t.scope_child sc inner (some s.info.symbols.symbols.size) t.scopes.size
  rw [if_pos rfl] at scope
  exact ⟨congrArg Scope.kind scope, congrArg Scope.owner scope, rfl⟩

theorem setType_leads {t : Ty} (formed : s.Formed file)
    (none : (s.info.symbols.symbol id).type = none) (known : id < s.info.symbols.symbols.size)
    (run : setType id t s = .ok (u, s')) : Leading file s s' ∧
      s'.info.symbols.symbol id = { s.info.symbols.symbol id with type := some t } := by
  cases run
  refine ⟨.change (c := .type id t) formed trivial (.inl none), ?_⟩
  change (SymbolTable.modifySymbol _ _ _).symbol id = _
  rw [SymbolTable.symbol_modifySymbol, if_pos ⟨rfl, known⟩]

/-! ### The first pass -/

theorem methodClass_kind {t : SymbolTable} {sc : ScopeId} {c : SymbolId}
    (own : (match (t.scope sc).kind, (t.scope sc).owner with
      | .cls, some o => if (t.symbol o).kind == .cls then some o else none
      | _, _ => none) = some c) : c < t.symbols.size ∧ (t.symbol c).kind = .cls := by
  have kind : (t.symbol c).kind = .cls := by
    split at own
    · split at own
      · next isClass =>
        cases own
        exact eq_of_beq isClass
      · cases own
    · cases own
  refine ⟨Nat.lt_of_not_le fun beyond => ?_, kind⟩
  rw [SymbolTable.symbol_of_le beyond] at kind
  cases kind

theorem forM_leads {α : Type} (stands : α → State → Prop) {f : α → Resolver Unit} {xs : List α}
    (formed : s.Formed file)
    (lasting : ∀ x {s₁ s₂ : State}, s₁.Grows s₂ → stands x s₁ → stands x s₂)
    (each : ∀ x ∈ xs, ∀ {s₁ s₂ : State}, s.Grows s₁ → s₁.Formed file →
      f x s₁ = .ok ((), s₂) → Leading file s₁ s₂ ∧ stands x s₂)
    (run : xs.forM f s = .ok (u, s')) : Leading file s s' ∧ ∀ x ∈ xs, stands x s' := by
  induction xs generalizing s with
  | nil =>
    cases run
    exact ⟨.refl formed, by simp⟩
  | cons x xs ih =>
    obtain ⟨_, s₁, first, rest⟩ := bind_ok run
    obtain ⟨here, stands⟩ := each x List.mem_cons_self (.refl s) formed first
    obtain ⟨later, others⟩ := ih here.formed (fun y member _ _ grown => each y
      (List.mem_cons_of_mem _ member) (here.grown.trans grown)) rest
    refine ⟨here.trans later, ?_⟩
    simp only [List.mem_cons, forall_eq_or_imp]
    exact ⟨lasting x later.grown stands, others⟩

theorem assumedSymbol_leads {kind : AssumeKind} (formed : s.Formed file)
    (run : assumedSymbol name kind pos s = .ok (x, s')) :
    Leading file s s' ∧ x.name = name ∧ x.members = none ∧ x.unknown = false := by
  unfold assumedSymbol at run
  cases kind with
  | cls =>
    obtain ⟨_, s₁, made, run⟩ := bind_ok run
    obtain ⟨number, s₂, numbered, made⟩ := bind_ok made
    cases numbered
    cases made
    cases run
    exact ⟨.change (c := .newClass []) formed trivial trivial, rfl, rfl, rfl⟩
  | scope | func | var =>
    cases run
    exact ⟨.refl formed, rfl, rfl, rfl⟩

section

variable (formed : s.Formed file) (inside : sc < s.info.symbols.scopes.size)

include formed inside

theorem declareFunc_leads {f : FuncDecl} (listed : f ∈ file.funcs) (binds : file.Binds f.name)
    (run : declareFunc sc f s = .ok (u, s')) :
    Leading file s s' ∧ f.info.span ∈ s'.funcs ∧
      (f.kind ≠ .constructor → f.kind ≠ .destructor → s'.Owns sc f.name) := by
  have last : ∀ {s₁ : State} {cls : Option SymbolId}, Leading file s s₁ →
      (∀ c, cls = some c → c < s₁.info.symbols.symbols.size ∧ (s₁.info.symbols.symbol c).kind = .cls) →
      noteFunc f { decl := f, scope := sc, cls } s₁ = .ok (u, s') →
      Leading file s₁ s' ∧ f.info.span ∈ s'.funcs := by
    intro s₁ cls first method noted
    cases noted
    refine ⟨.change (c := .func f.info.span { decl := f, scope := sc, cls }) first.formed trivial
      ?_, Std.TreeMap.mem_insert_self⟩
    exact ⟨listed, rfl, rfl, Nat.lt_of_lt_of_le inside first.grown.symbols.scopes, method⟩
  unfold declareFunc at run
  split at run
  · next special =>
    obtain ⟨_, _, read, run⟩ := bind_ok run
    cases read
    obtain ⟨rest, noted⟩ := last (.refl formed) (fun _ => methodClass_kind) run
    refine ⟨rest, noted, fun c d => ?_⟩
    simp only [Bool.or_eq_true, beq_iff_eq] at special
    exact (special.elim c d).elim
  · obtain ⟨id, s₁, made, run⟩ := bind_ok run
    obtain ⟨_, s₂, declared, run⟩ := bind_ok run
    obtain ⟨first, -, -, owns, -⟩ :=
      introduce_leads formed inside (by rfl) (by rfl) binds made declared
    obtain ⟨_, _, read, run⟩ := bind_ok run
    cases read
    obtain ⟨rest, noted⟩ := last first (fun _ => methodClass_kind) run
    have inside₂ := Nat.lt_of_lt_of_le inside first.grown.symbols.scopes
    exact ⟨first.trans rest, noted, fun _ _ => owns.mono rest.grown inside₂⟩

theorem declareVar_leads {d : VarDecl} (binds : file.Binds d.name)
    (run : declareVar sc d s = .ok (u, s')) :
    Leading file s s' ∧ d.info.span ∈ s'.info.vars ∧ s'.Owns sc d.name := by
  obtain ⟨id, s₁, made, run⟩ := bind_ok run
  obtain ⟨_, s₂, declared, run⟩ := bind_ok run
  obtain ⟨first, known, same, owns, -⟩ :=
    introduce_leads formed inside (by rfl) (by rfl) binds made declared
  cases run
  have last : Leading file s₂ _ :=
    .change (c := .var d.info.span id) first.formed trivial ⟨known, by rw [same]⟩
  have inside₂ := Nat.lt_of_lt_of_le inside first.grown.symbols.scopes
  exact ⟨first.trans last, Std.TreeMap.mem_insert_self, owns.mono last.grown inside₂⟩

theorem declareEnum_leads {d : EnumDecl} (listed : .enum d ∈ file.nodes)
    (run : declareEnum sc d s = .ok (u, s')) : Leading file s s' ∧ s'.Owns sc d.name := by
  unfold declareEnum at run
  obtain ⟨⟨id, members⟩, s₁, made, run⟩ := bind_ok run
  obtain ⟨first, known, lt, same, owns, -⟩ := declareOwner_leads formed inside (by rfl) (by rfl)
    ⟨_, listed, List.mem_cons_self⟩ (by exact fun h => by cases h) made
  obtain ⟨full, _, named, run⟩ := bind_ok run
  cases named
  obtain ⟨_, s₂, typed, run⟩ := bind_ok run
  obtain ⟨second, -⟩ := setType_leads first.formed (by rw [same]) known typed
  have before := first.trans second
  obtain ⟨rest, -⟩ := forM_leads (fun _ _ => True) second.formed (fun _ _ _ _ h => h)
    (fun m member s₃ s₄ grown formed₃ turn => by
      obtain ⟨i, s₅, made, turn⟩ := bind_ok turn
      have lt₃ := Nat.lt_of_lt_of_le lt (second.grown.trans grown).symbols.scopes
      refine ⟨(introduce_leads formed₃ lt₃ (by rfl) (by rfl) ⟨_, listed, ?_⟩ made turn).1, trivial⟩
      exact List.mem_cons_of_mem _ (List.mem_map_of_mem member)) run
  have inside₁ := Nat.lt_of_lt_of_le inside first.grown.symbols.scopes
  exact ⟨before.trans rest, owns.mono (second.trans rest).grown inside₁⟩

theorem declareAssumed_leads {kind : AssumeKind} (binds : file.Binds name)
    (assumes : name ∈ Decl.assumesOf file.decls)
    (run : declareAssumed sc name kind pos s = .ok (u, s')) :
    Leading file s s' ∧ s'.Owns sc name ∧
      ('.' ∈ name.toList → ∃ id, (name, id) ∈ s'.assumed) := by
  obtain ⟨x, s₁, made, run⟩ := bind_ok run
  obtain ⟨first, rfl, none, unknown⟩ := assumedSymbol_leads formed made
  obtain ⟨id, s₂, made, run⟩ := bind_ok run
  split at run
  · next dotted =>
    cases run
    have dotted := List.contains_iff_mem.mp dotted
    have second := alloc_leads first.formed none made
    obtain ⟨known, same⟩ := alloc_ok made
    have third : Leading file s₂ _ := .change (c := .assume x.name id) second.formed trivial
      ⟨⟨dotted, assumes⟩, known, by rw [same]; exact unknown, by rw [same]⟩
    exact ⟨first.trans (second.trans third), .inr ⟨id, List.mem_cons_self⟩,
      fun _ => ⟨id, List.mem_cons_self⟩⟩
  · next plain =>
    have inside₁ := Nat.lt_of_lt_of_le inside first.grown.symbols.scopes
    obtain ⟨second, -, -, owns, -⟩ :=
      introduce_leads first.formed inside₁ none unknown binds made run
    exact ⟨first.trans second, owns, fun dotted => absurd (List.contains_iff_mem.mpr dotted) plain⟩

theorem namespaceScope_leads {ds : List Decl} {m : ScopeId} (binds : file.Binds name)
    (run : namespaceScope sc name pos ds s = .ok (m, s')) :
    Leading file s s' ∧ m < s'.info.symbols.scopes.size ∧ s'.Owns sc name ∧
      ∃ id, s'.info.symbols.lookupLocal? sc name = some id ∧
        (s'.info.symbols.symbol id).kind = .scope ∧
        ((s'.info.symbols.symbol id).members = some m ∨ ds.any needsScope = false) := by
  have owns : ∀ {id : SymbolId}, s.info.symbols.lookupLocal? sc name = some id →
      s.Owns sc name := by
    intro id found
    obtain ⟨member, named⟩ := SymbolTable.lookupLocal?_mem found
    exact .inl ⟨id, member, (formed.orders sc id member).1, named⟩
  obtain ⟨_, _, read, run⟩ := bind_ok run
  cases read
  dsimp only at run
  obtain ⟨step, same, run⟩ := exists_step run
  split at same
  · next found =>
    obtain ⟨id, first, symbol⟩ := Option.map_eq_some_iff.mp found
    subst same
    cases run
    refine ⟨.refl formed, formed.members id m (by rw [symbol]), owns first, id, first, ?_, .inl ?_⟩
    · rw [symbol]
    · rw [symbol]
  · next found =>
    obtain ⟨id, first, symbol⟩ := Option.map_eq_some_iff.mp found
    subst same
    split at run
    · cases run
    · next idle =>
      cases run
      refine ⟨.refl formed, inside, owns first, id, first, by rw [symbol], .inr ?_⟩
      exact Bool.not_eq_true _ ▸ idle
  · subst same
    obtain ⟨⟨id, members⟩, s₁, made, run⟩ := bind_ok run
    obtain ⟨first, known, lt, same, owns, found⟩ := declareOwner_leads formed inside (by rfl)
      (by rfl) binds (by exact fun h => by cases h) made
    obtain ⟨full, _, named, run⟩ := bind_ok run
    cases named
    obtain ⟨_, s₂, typed, run⟩ := bind_ok run
    obtain ⟨second, after⟩ := setType_leads first.formed (by rw [same]) known typed
    cases run
    have inside₁ := Nat.lt_of_lt_of_le inside first.grown.symbols.scopes
    obtain ⟨found', -⟩ := lookupLocal?_mono first.formed second.grown inside₁ found
    refine ⟨first.trans second, Nat.lt_of_lt_of_le lt second.grown.symbols.scopes,
      owns.mono second.grown inside₁, id, found', ?_, .inl ?_⟩
    · rw [after, same]
    · rw [after, same]

theorem declareItem_leads {i : Item} (nodes : ∀ n ∈ i.nodes, n ∈ file.nodes)
    (listed : ∀ f ∈ i.funcs, f ∈ file.funcs) (run : declareItem sc i s = .ok (u, s')) :
    Leading file s s' ∧ Item.Stands s' i ∧ ∀ name ∈ (Decl.item i).own, s'.Owns sc name := by
  cases i with
  | var d =>
    have listed : .var d ∈ file.nodes := nodes _ List.mem_cons_self
    obtain ⟨leads, stands, owns⟩ :=
      declareVar_leads formed inside ⟨_, listed, List.mem_cons_self⟩ run
    exact ⟨leads, stands, by simpa [Decl.own] using owns⟩
  | func f =>
    have node : .func f ∈ file.nodes := nodes _ List.mem_cons_self
    obtain ⟨leads, stands, owns⟩ := declareFunc_leads formed inside
      (listed f List.mem_cons_self) ⟨_, node, List.mem_cons_self⟩ run
    refine ⟨leads, stands, fun name member => ?_⟩
    simp only [Decl.own] at member
    split at member
    · cases member
    · next plain =>
      obtain rfl := List.mem_singleton.mp member
      exact owns (fun h => plain (.inl h)) (fun h => plain (.inr h))
  | enum d =>
    obtain ⟨leads, owns⟩ := declareEnum_leads formed inside (nodes _ List.mem_cons_self) run
    exact ⟨leads, trivial, by simpa [Decl.own] using owns⟩
  | inject info text =>
    cases run
    exact ⟨.refl formed, trivial, by simp [Decl.own]⟩

theorem declareItems_leads {items : List Item}
    (nodes : ∀ n ∈ items.flatMap Item.nodes, n ∈ file.nodes)
    (listed : ∀ f ∈ items.flatMap Item.funcs, f ∈ file.funcs)
    (run : items.forM (declareItem sc) s = .ok (u, s')) :
    Leading file s s' ∧ ∀ i ∈ items, Item.Stands s' i := by
  refine forM_leads (fun i s => Item.Stands s i) formed
    (fun _ _ _ grown h => h.mono grown) (fun i member s₁ s₂ grown formed₁ turn => ?_) run
  obtain ⟨leads, stands, -⟩ := declareItem_leads formed₁
    (Nat.lt_of_lt_of_le inside grown.symbols.scopes)
    (fun n h => nodes n (List.mem_flatMap.mpr ⟨i, member, h⟩))
    (fun f h => listed f (List.mem_flatMap.mpr ⟨i, member, h⟩)) turn
  exact ⟨leads, stands⟩

theorem declareFuncs_leads {fs : List FuncDecl}
    (nodes : ∀ n ∈ fs.flatMap FuncDecl.nodes, n ∈ file.nodes) (listed : ∀ f ∈ fs, f ∈ file.funcs)
    (run : fs.forM (declareFunc sc) s = .ok (u, s')) :
    Leading file s s' ∧ ∀ f ∈ fs, f.info.span ∈ s'.funcs := by
  refine forM_leads (fun f s => f.info.span ∈ s.funcs) formed
    (fun _ _ _ grown h => grown.funcs _ h) (fun f member s₁ s₂ grown formed₁ turn => ?_) run
  have node : .func f ∈ file.nodes :=
    nodes _ (List.mem_flatMap.mpr ⟨f, member, List.mem_cons_self⟩)
  obtain ⟨leads, noted, -⟩ := declareFunc_leads formed₁
    (Nat.lt_of_lt_of_le inside grown.symbols.scopes) (listed f member)
    ⟨_, node, List.mem_cons_self⟩ turn
  exact ⟨leads, noted⟩

/-- A class gets a symbol and a scope for its members, and is noted, before its items are declared. -/
theorem declareClass_leads {info : DeclInfo} {bases : List TypeExpr} {items : List Item}
    (binds : file.Binds name) (run : declareDecl sc (.cls info name bases items) s = .ok (u, s')) :
    ∃ id m s₁, Leading file s s₁ ∧ m < s₁.info.symbols.scopes.size ∧ s₁.info.symbols.IsClass id ∧
      (s₁.info.symbols.symbol id).members = some m ∧ (s₁.info.symbols.scope m).kind = .cls ∧
      (s₁.info.symbols.scope m).owner = some id ∧
      s₁.info.classes = s.info.classes ++ [(info.span, name, id)] ∧ s₁.Owns sc name ∧
      items.forM (declareItem m) s₁ = .ok (u, s') := by
  obtain ⟨⟨id, m⟩, s₁, made, run⟩ := bind_ok run
  obtain ⟨first, known, lt, same, owns, -⟩ := declareOwner_leads formed inside (by rfl) (by rfl)
    binds (by exact fun h => by cases h) made
  obtain ⟨kind, owner, classes⟩ := declareOwner_opens made
  have inside₁ := Nat.lt_of_lt_of_le inside first.grown.symbols.scopes
  obtain ⟨full, _, named, run⟩ := bind_ok run
  cases named
  obtain ⟨number, _, numbered, run⟩ := bind_ok run
  cases numbered
  have second : Leading file s₁ _ := .change (c := .newClass []) first.formed trivial trivial
  obtain ⟨_, s₂, typed, run⟩ := bind_ok run
  have untyped := congrArg Symbol.type same
  obtain ⟨third, after⟩ := setType_leads second.formed untyped known typed
  obtain ⟨_, s₃, noted, run⟩ := bind_ok run
  cases noted
  have members : (s₂.info.symbols.symbol id).members = some m :=
    (congrArg Symbol.members after).trans (congrArg Symbol.members same)
  have isClass : s₂.info.symbols.IsClass id :=
    ⟨Nat.lt_of_lt_of_le known third.grown.symbols.symbols,
      (congrArg Symbol.kind after).trans (congrArg Symbol.kind same),
      ⟨_, _, congrArg Symbol.type after⟩, ⟨m, members⟩⟩
  have fourth : Leading file s₂ _ := .change (c := .className
    (s₁.info.symbols.qualified id) id) third.formed trivial isClass
  obtain ⟨_, s₄, noted, run⟩ := bind_ok run
  cases noted
  have fifth : Leading file _ _ :=
    .change (c := .classAt info.span name id) fourth.formed trivial isClass
  have before := (second.trans third).trans (fourth.trans fifth)
  refine ⟨id, m, _, first.trans before, Nat.lt_of_lt_of_le lt before.grown.symbols.scopes, isClass,
    members, ?_, ?_, ?_, owns.mono before.grown inside₁, run⟩
  all_goals cases typed
  · exact kind
  · exact owner
  · exact congrArg (· ++ [(info.span, name, id)]) classes

end

mutual

theorem declareDecl_leads {u : Unit} {s s' : State} {sc : ScopeId} (formed : s.Formed file)
    (inside : sc < s.info.symbols.scopes.size) : (d : Decl) → (∀ n ∈ d.nodes, n ∈ file.nodes) →
    (∀ f ∈ d.funcs, f ∈ file.funcs) → (∀ name ∈ d.assumes, name ∈ Decl.assumesOf file.decls) →
    declareDecl sc d s = .ok (u, s') →
    Leading file s s' ∧ Decl.Stands s' sc d ∧ ∀ name ∈ d.own, s'.Owns sc name
  | .item i, nodes, listed, _, run => by
    rw [Decl.nodes] at nodes
    exact declareItem_leads formed inside nodes listed run
  | .assume info name kind, nodes, _, assumed, run => by
    have node : .decl (.assume info name kind) ∈ file.nodes := nodes _ (by simp [Decl.nodes])
    have binds : file.Binds name := ⟨_, node, List.mem_singleton_self _⟩
    obtain ⟨leads, owns, dotted⟩ :=
      declareAssumed_leads formed inside binds (assumed name List.mem_cons_self) run
    exact ⟨leads, dotted, by simpa [Decl.own] using owns⟩
  | .scope info name ds, nodes, listed, assumed, run => by
    rw [Decl.nodes] at nodes
    obtain ⟨m, s₁, found, run⟩ := bind_ok run
    have binds : file.Binds name := ⟨_, nodes _ List.mem_cons_self, List.mem_singleton_self _⟩
    obtain ⟨first, lt, owns, id, named, kind, members⟩ :=
      namespaceScope_leads formed inside binds found
    obtain ⟨second, stand, -⟩ := declareDecls_leads first.formed lt ds
      (fun n member => nodes n (List.mem_cons_of_mem _ member)) listed assumed run
    have inside₁ := Nat.lt_of_lt_of_le inside first.grown.symbols.scopes
    obtain ⟨named', later⟩ := lookupLocal?_mono first.formed second.grown inside₁ named
    refine ⟨first.trans second, ⟨id, m, named', later.kind.trans kind,
      Nat.lt_of_lt_of_le lt second.grown.symbols.scopes, stand,
      members.imp_left (later.members m)⟩, ?_⟩
    simpa [Decl.own] using owns.mono second.grown inside₁
  | .cls info name bases items, nodes, listed, _, run => by
    rw [Decl.nodes] at nodes
    have binds : file.Binds name := ⟨_, nodes _ List.mem_cons_self, List.mem_singleton_self _⟩
    obtain ⟨id, members, s₁, first, lt, -, -, -, -, classes, owns, run⟩ :=
      declareClass_leads formed inside binds run
    obtain ⟨rest, stand⟩ := declareItems_leads first.formed lt
      (fun n h => nodes n (List.mem_cons_of_mem _ (List.mem_append_right _ h))) listed run
    have inside₁ := Nat.lt_of_lt_of_le inside first.grown.symbols.scopes
    refine ⟨first.trans rest, ⟨?_, stand⟩, ?_⟩
    · obtain ⟨later, same⟩ := rest.grown.classes
      rw [Info.classSymbol?, ← same, classes, Option.isSome_map, List.lookup_append, Option.isSome_or]
      simp [List.lookup_append]
    · simpa [Decl.own] using owns.mono rest.grown inside₁
  | .abstraction info name target fs, nodes, listed, _, run => by
    rw [Decl.nodes] at nodes
    obtain ⟨⟨id, members⟩, s₁, made, run⟩ := bind_ok run
    obtain ⟨first, known, lt, same, owns, found⟩ := declareOwner_leads formed inside (by rfl)
      (by rfl) ⟨_, nodes _ List.mem_cons_self, List.mem_singleton_self _⟩
      (by exact fun h => by cases h) made
    have inside₁ := Nat.lt_of_lt_of_le inside first.grown.symbols.scopes
    obtain ⟨_, s₂, declared, run⟩ := bind_ok run
    obtain ⟨second, stand⟩ := declareFuncs_leads first.formed lt
      (fun n h => nodes n (List.mem_cons_of_mem _ (List.mem_append_right _ h))) listed declared
    have third : Leading file s₂ s' := by
      cases run
      exact .change (c := .capabilities ((name, { name }) :: s₂.info.capabilities)) second.formed
        trivial trivial
    have rest := second.trans third
    obtain ⟨found', later⟩ := lookupLocal?_mono first.formed rest.grown inside₁ found
    refine ⟨first.trans rest, ⟨⟨id, found', ?_⟩, fun f member => ?_⟩, ?_⟩
    · rw [later.kind, same]
    · exact third.grown.funcs _ (stand f member)
    · simpa [Decl.own] using owns.mono rest.grown inside₁
  | .attributeDef info name params directives, nodes, _, _, run => by
    obtain ⟨id, s₁, made, run⟩ := bind_ok run
    obtain ⟨leads, -, -, owns, -⟩ := introduce_leads formed inside (by rfl) (by rfl)
      ⟨.decl (.attributeDef info name params directives), nodes _ (by simp [Decl.nodes]),
        List.mem_singleton_self _⟩ made run
    exact ⟨leads, trivial, by simpa [Decl.own] using owns⟩
  | .includes _ _ _ _, _, _, _, run | .refurbish _ _ _, _, _, _, run => by
    cases run
    exact ⟨.refl formed, trivial, by simp [Decl.own]⟩

theorem declareDecls_leads {u : Unit} {s s' : State} {sc : ScopeId} (formed : s.Formed file)
    (inside : sc < s.info.symbols.scopes.size) : (ds : List Decl) →
    (∀ n ∈ Decl.nodesOf ds, n ∈ file.nodes) → (∀ f ∈ Decl.funcsOf ds, f ∈ file.funcs) →
    (∀ name ∈ Decl.assumesOf ds, name ∈ Decl.assumesOf file.decls) →
    declareDecls sc ds s = .ok (u, s') →
    Leading file s s' ∧ Decl.StandAll s' sc ds ∧ ∀ d ∈ ds, ∀ name ∈ d.own, s'.Owns sc name
  | [], _, _, _, run => by
    cases run
    exact ⟨.refl formed, trivial, by simp⟩
  | d :: ds, nodes, listed, assumed, run => by
    simp only [Decl.nodesOf, Decl.funcsOf, Decl.assumesOf, List.mem_append] at nodes listed assumed
    obtain ⟨_, s₁, here, run⟩ := bind_ok run
    obtain ⟨first, stands, owns⟩ := declareDecl_leads formed inside d
      (fun n h => nodes n (.inl h)) (fun f h => listed f (.inl h))
      (fun name h => assumed name (.inl h)) here
    have inside₁ := Nat.lt_of_lt_of_le inside first.grown.symbols.scopes
    obtain ⟨second, stand, later⟩ := declareDecls_leads first.formed inside₁ ds
      (fun n h => nodes n (.inr h)) (fun f h => listed f (.inr h))
      (fun name h => assumed name (.inr h)) run
    refine ⟨first.trans second,
      ⟨Decl.Stands.mono first.formed second.grown d inside₁ stands, stand⟩, ?_⟩
    simp only [List.mem_cons, forall_eq_or_imp]
    exact ⟨fun name member => (owns name member).mono second.grown inside₁, later⟩

end

end Resolution

end TastyLang
