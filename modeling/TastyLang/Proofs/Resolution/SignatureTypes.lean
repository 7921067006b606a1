import TastyLang.Proofs.Resolution.Charting
import TastyLang.Proofs.Resolution.Readings
import TastyLang.Proofs.Resolution.Signing

/-!
# The second pass over a chart

In a state that knows a chart, a written type stands for what the chart gives it, the numbers of
classes and the bindings it is named through aside (`typeExpr_reads`). The second pass declares
nothing, so it keeps the chart, and bindings stand for what was read for them (`State.Known`). So it
notes for the written types of a file what the chart says (`signatures_reads`).
-/

namespace TastyLang

theorem Ty.bare_ofPrimitive (p : Primitive) : (Ty.ofPrimitive p).bare = .ofPrimitive p := by
  unfold ofPrimitive
  split <;> rfl

/-! ### Readings outside of any scope -/

theorem TypeExpr.mem_wordsOf {ts : List TypeExpr} {w : String} :
    w ∈ wordsOf ts ↔ ∃ t ∈ ts, w ∈ t.words := by
  induction ts with
  | nil => simp [wordsOf]
  | cons t ts ih => simp [wordsOf, ih]

namespace Chart

variable {c : Chart} {table : Table} {seen : Bindings}

/-- A name that a file knows without a scope means the same wherever it stands. -/
theorem nameType_found {w : String}
    (found : (table.primitive? w).isSome ∨ (c.assumed.reverse.lookup w).isSome) (π π' : Path) :
    c.nameType table seen π w = c.nameType table seen π' w := by
  unfold nameType binding? plainType lookup?
  cases primitive : table.primitive? w with
  | some _ => rfl
  | none =>
    obtain ⟨kind, assumed⟩ := Option.isSome_iff_exists.mp
      (found.resolve_left fun h => by simp [primitive] at h)
    rw [assumed]

theorem readAll_plain {rs : List Reading} (plain : ∀ r ∈ rs, r.binds = none) :
    c.readAll table seen rs = seen := by
  induction rs with
  | nil => rfl
  | cons r rs ih =>
    have none : c.read table seen r = seen := by
      simp [read, Reading.key?, plain r List.mem_cons_self]
    change c.readAll table (c.read table seen r) rs = seen
    rw [none, ih fun x h => plain x (List.mem_cons_of_mem _ h)]

theorem notes_plain {rs : List Reading} (plain : ∀ r ∈ rs, r.binds = none) :
    c.notes table seen rs = rs.flatMap fun r => r.type.notes (c.nameType table seen r.path) := by
  induction rs with
  | nil => rfl
  | cons r rs ih =>
    have none : c.read table seen r = seen := by
      simp [read, Reading.key?, plain r List.mem_cons_self]
    rw [notes, none, ih fun x h => plain x (List.mem_cons_of_mem _ h), List.flatMap_cons]

end Chart

theorem FuncDecl.readings_eq (π : Path) (f : FuncDecl) : f.readings π =
    (f.params.map (·.type) ++ f.result.toList).map fun t => { path := π, type := t } := by
  simp [FuncDecl.readings]

/-- The written types of a declaration that adds functions to a type. -/
theorem Decl.readings_refurbish (π : Path) (info : DeclInfo) (target : TypeExpr)
    (fs : List FuncDecl) : (Decl.refurbish info target fs).readings π =
      (target :: fs.flatMap fun f => f.params.map (·.type) ++ f.result.toList).map
        fun t => { path := π, type := t } := by
  rw [Decl.readings, List.map_cons, List.map_flatMap]
  congr 2
  funext f
  exact f.readings_eq π

namespace Resolution

variable {c : Chart} {table : Table} {seen : Bindings} {s s' s'' : State} {sc : ScopeId} {π : Path}
  {p : Place} {rs rs' : List Reading} {u : Unit}

/-- A state of the second pass. It knows a chart, and what the bindings on it stand for so far. -/
structure State.Known (c : Chart) (seen : Bindings) (s : State) : Prop where
  charted : s.Charted c
  vars : ∀ (span : Span) id, s.info.vars[span]? = some id → (s.info.symbols.symbol id).kind = .var
  bound : ∀ {sc id π name}, s.info.symbols.At sc π →
    s.info.symbols.lookupLocal? sc name = some id →
    (s.info.symbols.symbol id).kind = .abstraction →
    (s.info.symbols.symbol id).type.map Ty.bare = seen.lookup (π, name)

/-! ### Names -/

theorem State.Known.lookupDotted? (known : s.Known c seen) (here : s.info.symbols.At sc π)
    (name : String) : Paired (fun id l => l.meant.Fits (s.info.symbols.symbol id) ∧
      ((s.info.symbols.symbol id).kind = .abstraction →
        (s.info.symbols.symbol id).type.map Ty.bare = seen.lookup (l.path, l.name)))
      (s.lookupDotted? sc name) (c.lookup? π name) := by
  have charted := known.charted.table
  unfold State.lookupDotted? Chart.lookup?
  have assumed : Paired _ (s.assumed.lookup name) (c.assumed.reverse.lookup name) :=
    Paired.lookup (r := fun name id kind => (AssumeKind.meant name kind).Fits
      (s.info.symbols.symbol id))
      (known.charted.assumed.imp fun x a h => ⟨h.1, h.1 ▸ h.2.2⟩) name
  revert assumed
  generalize s.assumed.lookup name = id, c.assumed.reverse.lookup name = kind
  rintro (⟨fits⟩ | _)
  · next id kind =>
    refine .some ⟨fits, fun abstraction => ?_⟩
    cases kind <;> simp [AssumeKind.meant, Meant.Fits, abstraction] at fits
  · dsimp only
    cases Text.cut '.' name with
    | nil => exact .none
    | cons first parts =>
      refine Paired.bind (charted.lookup? here first) fun id l stands => ?_
      refine (charted.through? stands parts).imp fun id l stands => ?_
      obtain ⟨sc, there, found⟩ := stands.found
      exact ⟨stands.fits, known.bound there found⟩

theorem State.Known.nameType (known : s.Known c seen) (here : s.info.symbols.At sc π) :
    (fun name => (s.nameType table sc name).bare) = c.nameType table seen π := by
  funext name
  unfold State.nameType Chart.nameType Chart.binding? Chart.plainType
  cases table.primitive? name with
  | some prim => exact Ty.bare_ofPrimitive prim
  | none =>
    dsimp only
    have found := known.lookupDotted? here name
    revert found
    generalize s.lookupDotted? sc name = id, c.lookup? π name = l
    rintro (⟨fits, bound⟩ | _)
    · next id l =>
      dsimp only [Option.map_some]
      cases meant : l.meant with
      | type t =>
        rw [meant] at fits
        obtain ⟨kind, u, type, rfl⟩ := fits
        rw [type]
        rcases kind with kind | kind <;> (rw [kind]; rfl)
      | binding target =>
        rw [meant] at fits
        have bound := bound fits.1
        rw [fits.1]
        dsimp only [Option.bind_some]
        rw [← bound]
        cases (s.info.symbols.symbol id).type <;> rfl
      | other =>
        rw [meant] at fits
        obtain ⟨cls, enum, abstraction⟩ := fits
        split
        · next t kind type => exact absurd kind cls
        · next t kind type => exact absurd kind enum
        · next t kind type => exact absurd kind abstraction
        · rfl
    · rfl

/-! ### Steps of the second pass -/

/-- A step that changes neither what names lead to nor what they stand for. -/
structure State.Still (s s' : State) : Prop where
  scopes : s'.info.symbols.scopes = s.info.symbols.scopes
  assumed : s'.assumed = s.assumed
  classes : s'.info.classes = s.info.classes
  vars : s'.info.vars = s.info.vars
  size : s.info.symbols.symbols.size ≤ s'.info.symbols.symbols.size
  symbol : ∀ id < s.info.symbols.symbols.size,
    s'.info.symbols.symbol id = s.info.symbols.symbol id ∨
      (s.info.symbols.symbol id).kind = .var ∧
        ∃ t, s'.info.symbols.symbol id = { s.info.symbols.symbol id with type := some t }

theorem State.Still.of_same (symbols : s'.info.symbols = s.info.symbols)
    (assumed : s'.assumed = s.assumed) (classes : s'.info.classes = s.info.classes)
    (vars : s'.info.vars = s.info.vars) : s.Still s' :=
  ⟨by rw [symbols], assumed, classes, vars, Nat.le_of_eq (by rw [symbols]),
    fun _ _ => .inl (by rw [symbols])⟩

theorem State.Still.order (still : s.Still s') (sc : ScopeId) :
    (s'.info.symbols.scope sc).order = (s.info.symbols.scope sc).order := by
  unfold SymbolTable.scope
  rw [still.scopes]

theorem State.Still.grows (still : s.Still s') : s.info.symbols.Grows s'.info.symbols := by
  refine ⟨still.size, Nat.le_of_eq (by rw [still.scopes]), fun id lt => ?_, fun sc _ => ?_⟩
  · rcases still.symbol id lt with same | ⟨kind, t, same⟩
    · rw [same]
      exact .refl _
    · rw [same]
      refine ⟨rfl, rfl, rfl, fun _ h => h, fun _ => rfl, fun settles => ?_⟩
      simp [kind, SymbolKind.settles] at settles
  · unfold SymbolTable.scope
    rw [still.scopes]
    exact .refl _

variable {id : SymbolId}

theorem State.Still.members (still : s.Still s') (lt : id < s.info.symbols.symbols.size) :
    (s'.info.symbols.symbol id).members = (s.info.symbols.symbol id).members := by
  rcases still.symbol id lt with same | ⟨-, t, same⟩ <;> rw [same]

theorem State.Still.charted (still : s.Still s') (charted : s.Charted c) : s'.Charted c :=
  charted.grow still.grows
    (charted.table.keep still.grows still.order fun _ lt => still.members lt)
    still.assumed still.classes

variable {name : String}

theorem found_before (charted : s.Charted c) (later : s'.Charted c)
    (grown : s.info.symbols.Grows s'.info.symbols) (here : s'.info.symbols.At sc π)
    (found : s'.info.symbols.lookupLocal? sc name = some id) :
    s.info.symbols.At sc π ∧ s.info.symbols.lookupLocal? sc name = some id := by
  have rooted := charted.table.rooted
  obtain ⟨member, named⟩ := SymbolTable.lookupLocal?_mem found
  obtain ⟨l, listed, there, own, -⟩ := later.table.declared sc id member
  obtain rfl := there.path_unique later.table.rooted here
  obtain ⟨sc', id', there', found'⟩ := charted.table.found l listed
  obtain rfl := (there'.mono rooted grown).scope_unique here
  have after := grown.lookupLocal? (there'.known rooted) (rooted.known sc') found'
  rw [← own, named, found] at after
  obtain rfl := Option.some.inj after
  exact ⟨there', by rw [← named, own]; exact found'⟩

theorem State.Still.known (still : s.Still s') (known : s.Known c seen) : s'.Known c seen := by
  have charted := known.charted
  refine ⟨still.charted charted, fun span id found => ?_, fun {sc id π name} here found kind => ?_⟩
  · rw [still.vars] at found
    have kind := known.vars span id found
    have lt : id < s.info.symbols.symbols.size := by
      by_contra out
      rw [SymbolTable.symbol_of_le (Nat.le_of_not_lt out)] at kind
      cases kind
    rw [(still.grows.symbol id lt).kind, kind]
  · obtain ⟨here, found⟩ := found_before charted (still.charted charted) still.grows here found
    have lt := charted.table.rooted.known sc id (SymbolTable.lookupLocal?_mem found).1
    rcases still.symbol id lt with same | ⟨var, t, same⟩
    · rw [same] at kind ⊢
      exact known.bound here found kind
    · rw [same] at kind
      rw [var] at kind
      cases kind

theorem State.Known.bind (known : s.Known c seen) (here : s.info.symbols.At sc π)
    (found : s.info.symbols.lookupLocal? sc name = some id)
    (kind : (s.info.symbols.symbol id).kind = .abstraction)
    (members : (s.info.symbols.symbol id).members.isSome) {t : Ty} :
    let t' := s.info.symbols.modifySymbol id fun x => { x with type := some t }
    s.info.symbols.Grows t' ∧ (s.withSymbols t').Known c (((π, name), t.bare) :: seen) := by
  intro t'
  have charted := known.charted
  have rooted := charted.table.rooted
  have symbol := fun i => s.info.symbols.symbol_modifySymbol id i fun x => { x with type := some t }
  have grown : s.info.symbols.Grows t' := by
    refine s.info.symbols.modifySymbol_grows id ⟨rfl, rfl, rfl, fun _ h => h, fun _ => rfl, ?_⟩
    intro settles
    simp [kind, SymbolKind.settles] at settles
  have later : (s.withSymbols t').Charted c := by
    have table : t'.Charted c.landmarks := by
      refine charted.table.keep grown (fun _ => rfl) fun i _ => ?_
      rw [symbol]
      split <;> rfl
    exact charted.grow grown table rfl rfl
  refine ⟨grown, later, fun span i listed => ?_, fun {sc' i π' name'} there₁ found₁ kind' => ?_⟩
  · have var := known.vars span i listed
    change (t'.symbol i).kind = .var
    rw [symbol]
    split <;> exact var
  · obtain ⟨there, found'⟩ := found_before charted later grown there₁ found₁
    obtain ⟨member, named⟩ := SymbolTable.lookupLocal?_mem found
    obtain ⟨member', named'⟩ := SymbolTable.lookupLocal?_mem found'
    have lt := rooted.known sc' i member'
    change (t'.symbol i).kind = _ at kind'
    change (t'.symbol i).type.map Ty.bare = _
    rw [symbol] at kind' ⊢
    by_cases same : i = id
    · subst same
      obtain ⟨m, members⟩ := Option.isSome_iff_exists.mp members
      obtain rfl := here.home_unique rooted there member member' members
      obtain rfl := here.path_unique rooted there
      obtain rfl := named.symm.trans named'
      rw [if_pos ⟨rfl, lt⟩]
      simp
    · rw [if_neg fun h => same h.1] at kind' ⊢
      rw [known.bound there found' kind', List.lookup_cons]
      have apart : ((π', name') == (π, name)) = false := by
        rw [beq_eq_false_iff_ne]
        intro keys
        obtain ⟨rfl, rfl⟩ := Prod.mk.inj keys
        obtain rfl := there.scope_unique here
        exact same (Option.some.inj (found'.symm.trans found))
      rw [apart]

/-! ### Readings -/

/-- Steps of the second pass that read some written types, and note what these stand for. -/
structure Reads (c : Chart) (table : Table) (seen : Bindings) (rs : List Reading) (s s' : State) :
    Prop where
  grown : s.info.symbols.Grows s'.info.symbols
  known : s'.Known c (c.readAll table seen rs)
  notes : ∃ notes, s'.info.typeExprs = (s.noting notes).info.typeExprs ∧
    notes.map bareNote = c.notes table seen rs

namespace Reads

theorem here (known : s.Known c seen) (reads : Reads c table seen rs s s')
    (here : s.info.symbols.At sc π) : s'.info.symbols.At sc π :=
  here.mono known.charted.table.rooted reads.grown

theorem still (known : s.Known c seen) (still : s.Still s')
    (typeExprs : s'.info.typeExprs = s.info.typeExprs) : Reads c table seen [] s s' :=
  ⟨still.grows, still.known known, [], typeExprs, rfl⟩

theorem trans (first : Reads c table seen rs s s')
    (second : Reads c table (c.readAll table seen rs) rs' s' s'') :
    Reads c table seen (rs ++ rs') s s'' := by
  obtain ⟨notes, typeExprs, bare⟩ := first.notes
  obtain ⟨notes', typeExprs', bare'⟩ := second.notes
  refine ⟨first.grown.trans second.grown, ?_, notes ++ notes', ?_, ?_⟩
  · have known := second.known
    rwa [Chart.readAll, Chart.readAll, ← List.foldl_append] at known
  · rw [typeExprs', State.noting_append]
    unfold State.noting
    rw [typeExprs]
    rfl
  · rw [List.map_append, bare, bare', Chart.notes_append]

theorem then_still (first : Reads c table seen rs s s') (still : s'.Still s'')
    (typeExprs : s''.info.typeExprs = s'.info.typeExprs) : Reads c table seen rs s s'' := by
  have whole := first.trans (.still first.known still typeExprs)
  rwa [List.append_nil] at whole

/-- Types whose names are found without a scope are read alike at any path. -/
theorem moved {ts : List TypeExpr} (found : ∀ t ∈ ts, ∀ w ∈ t.words,
      (table.primitive? w).isSome ∨ (c.assumed.reverse.lookup w).isSome) {π π' : Path}
    (reads : Reads c table seen (ts.map fun t => { path := π, type := t }) s s') :
    Reads c table seen (ts.map fun t => { path := π', type := t }) s s' := by
  have plain : ∀ π : Path, ∀ r ∈ ts.map fun t => ({ path := π, type := t } : Reading),
      r.binds = none := by simp
  refine ⟨reads.grown, ?_, ?_⟩
  · have known := reads.known
    rw [Chart.readAll_plain (plain π)] at known
    rwa [Chart.readAll_plain (plain π')]
  · obtain ⟨notes, typeExprs, bare⟩ := reads.notes
    refine ⟨notes, typeExprs, bare.trans ?_⟩
    rw [Chart.notes_plain (plain π), Chart.notes_plain (plain π'), List.flatMap_map,
      List.flatMap_map]
    refine List.flatMap_congr fun t listed => TypeExpr.notes_congr t fun w word => ?_
    exact Chart.nameType_found (found t listed w word) π π'

theorem forM {α : Type} (part : α → List Reading) {f : α → Resolver Unit} {xs : List α}
    (known : s.Known c seen) (here : s.info.symbols.At sc π)
    (each : ∀ x ∈ xs, ∀ {s₁ s₂ : State} {seen : Bindings}, s₁.Known c seen →
      s₁.info.symbols.At sc π → f x s₁ = .ok ((), s₂) → Reads c table seen (part x) s₁ s₂)
    (run : xs.forM f s = .ok (u, s')) : Reads c table seen (xs.flatMap part) s s' := by
  induction xs generalizing s seen with
  | nil =>
    cases run
    exact .still known (.of_same rfl rfl rfl rfl) rfl
  | cons x xs ih =>
    obtain ⟨_, s₁, first, rest⟩ := bind_ok run
    have step := each x List.mem_cons_self known here first
    exact step.trans (ih step.known (step.here known here)
      (fun y member => each y (List.mem_cons_of_mem _ member)) rest)

end Reads

theorem alloc_still {x : Symbol} (run : alloc x s = .ok (id, s')) : s.Still s' := by
  cases (alloc_run x s).symm.trans run
  refine ⟨rfl, rfl, rfl, rfl, ?_, fun i lt => .inl ?_⟩
  · exact (s.info.symbols.alloc_grows x).symbols
  · exact (s.info.symbols.symbol_alloc x i).trans (if_neg (Nat.ne_of_lt lt))

variable {binding : String}

theorem modifyCapabilities_still {f : Capabilities → Capabilities}
    (run : modifyCapabilities binding f s = .ok (u, s')) :
    s.Still s' ∧ s'.info.typeExprs = s.info.typeExprs := by
  cases run
  dsimp only
  split <;> exact ⟨.of_same rfl rfl rfl rfl, rfl⟩

theorem addExtension_still {e : Extension} (run : addExtension e s = .ok (u, s')) :
    s.Still s' ∧ s'.info.typeExprs = s.info.typeExprs := by
  cases run
  exact ⟨.of_same rfl rfl rfl rfl, rfl⟩

theorem named_still {t self : Ty} (run : named t binding s = .ok (self, s')) :
    s.Still s' ∧ s'.info.typeExprs = s.info.typeExprs ∧ self.bare = t.bare := by
  unfold named at run
  obtain ⟨step, same, run⟩ := exists_step run
  split at same
  · next name number core =>
    subst same
    obtain ⟨_, _, read, run⟩ := bind_ok run
    cases read
    obtain ⟨copy, s₁, made, run⟩ := bind_ok run
    obtain ⟨_, _, read, made⟩ := bind_ok made
    cases read
    cases made
    cases run
    refine ⟨.of_same rfl rfl rfl rfl, rfl, ?_⟩
    rw [← t.bare_core, core]
    rfl
  · subst same
    cases run
    exact ⟨.of_same rfl rfl rfl rfl, rfl, t.bare_viaBinding binding⟩

/-- A class of the chart has its symbol, and its members stand behind its name. -/
theorem State.Known.classSymbol? (known : s.Known c seen) (apart : c.Apart) {span : Span}
    (listed : (span, π, name) ∈ c.classes) : ∃ id full number m,
      s.info.classSymbol? span = some id ∧
      (s.info.symbols.symbol id).type = some (.cls full number) ∧
      (s.info.symbols.symbol id).members = some m ∧ s.info.symbols.At m (name :: π) := by
  have related := Paired.lookup (r := fun (_ : Span) (x : String × SymbolId)
    (y : Path × String) => s.info.symbols.IsClass x.2 ∧
    ∃ sc, s.info.symbols.At sc y.1 ∧ s.info.symbols.lookupLocal? sc y.2 = some x.2)
    known.charted.classes span
  cases found : c.classes.lookup span with
  | none =>
    have := List.lookup_eq_none_iff.mp found _ listed
    simp at this
  | some y =>
    obtain ⟨before, after, same, -⟩ := List.lookup_eq_some_iff.mp found
    have own := apart (span, y) (by simp [same]) (span, π, name) listed rfl
    obtain rfl := congrArg Prod.snd own
    rw [found] at related
    unfold Info.classSymbol?
    cases symbol : s.info.classes.lookup span with
    | none =>
      rw [symbol] at related
      cases related
    | some x =>
      rw [symbol] at related
      cases related with
      | some related =>
        obtain ⟨cls, sc', there, found'⟩ := related
        obtain ⟨full, number, type⟩ := cls.type
        obtain ⟨m, members⟩ := cls.members
        exact ⟨x.2, full, number, m, rfl, type, members, .inner there found' members⟩

section

variable (known : s.Known c seen) (here : s.info.symbols.At p.scope π)

include known here

theorem typeExpr_reads {te : TypeExpr} {t : Ty} (run : typeExpr p te s = .ok (t, s')) :
    Reads c p.table seen [{ path := π, type := te }] s s' ∧
      t.bare = te.meaning (c.nameType p.table seen π) := by
  cases (typeExpr_run p te s).symm.trans run
  have names : (fun name => (s.nameType p.table p.scope name).bare) = c.nameType p.table seen π :=
    known.nameType here
  have still : s.Still (s.noting (te.notes (s.nameType p.table p.scope))) :=
    .of_same rfl rfl rfl rfl
  refine ⟨⟨still.grows, still.known known, _, rfl, ?_⟩, ?_⟩
  · rw [TypeExpr.bare_notes, names]
    exact (List.append_nil _).symm
  · rw [TypeExpr.bare_meaning, names]

theorem param_reads {q : Param}
    (run : (do
      let t ← typeExpr p q.type
      let id ← alloc { name := q.name, kind := .param, type := some (q.storage.settled.typeOf t)
                       origin := .other q.span.start }
      modifyInfo fun i => { i with params := i.params.insert q.span id } : Resolver Unit) s =
        .ok (u, s')) : Reads c p.table seen [{ path := π, type := q.type }] s s' := by
  obtain ⟨t, s₁, read, run⟩ := bind_ok run
  obtain ⟨first, -⟩ := typeExpr_reads known here read
  obtain ⟨id, s₂, made, run⟩ := bind_ok run
  have second : Reads c p.table seen [{ path := π, type := q.type }] s s₂ := by
    refine first.then_still (alloc_still made) ?_
    cases (alloc_run _ s₁).symm.trans made
    rfl
  cases run
  exact second.then_still (.of_same rfl rfl rfl rfl) rfl

theorem funcSignature_reads {f : FuncDecl} (run : funcSignature p f s = .ok (u, s')) :
    Reads c p.table seen (f.readings π) s s' := by
  obtain ⟨_, s₁, params, run⟩ := bind_ok run
  have first : Reads c p.table seen (f.params.map fun q => { path := π, type := q.type }) s s₁ := by
    have each := Reads.forM (fun q : Param => [{ path := π, type := q.type }]) known here
      (fun q _ _ _ _ known here turn => param_reads known here turn) params
    rwa [← List.map_eq_flatMap] at each
  have known₁ := first.known
  have here₁ := first.here known here
  have write : ∀ (result : Option Ty) {s₂ s' : State} {u : Unit},
      noteResult? f.info.span result s₂ = .ok (u, s') →
        s₂.Still s' ∧ s'.info.typeExprs = s₂.info.typeExprs := by
    intro result s₂ s' u run
    cases result <;> (cases run; exact ⟨.of_same rfl rfl rfl rfl, rfl⟩)
  refine first.trans ?_
  cases written : f.result with
  | some r =>
    rw [written] at run
    obtain ⟨result, s₂, read, run⟩ := bind_ok run
    obtain ⟨t, got, -⟩ := map_ok read
    obtain ⟨still, same⟩ := write result run
    exact (typeExpr_reads known₁ here₁ got).1.then_still still same
  | none =>
    rw [written] at run
    dsimp only at run
    split at run
    · obtain ⟨still, same⟩ := write (some .void) run
      exact .still known₁ still same
    · cases run
      exact .still known₁ (.of_same rfl rfl rfl rfl) rfl

theorem bindingFunc_reads {self : Ty} {f : FuncDecl} (run : bindingFunc p binding self f s = .ok (u, s')) :
    Reads c p.table seen (f.readings π) s s' := by
  obtain ⟨_, s₁, signed, run⟩ := bind_ok run
  have first := funcSignature_reads known here signed
  cases bodyless : f.body.isNone with
  | true =>
    rw [bodyless] at run
    obtain ⟨still, same⟩ := modifyCapabilities_still run
    exact first.then_still still same
  | false =>
    rw [bodyless] at run
    obtain ⟨_, s₂, noted, run⟩ := bind_ok run
    obtain ⟨still, same⟩ := modifyCapabilities_still noted
    obtain ⟨still', same'⟩ := addExtension_still run
    exact (first.then_still still same).then_still still' same'

variable {fs : List FuncDecl} {target : TypeExpr}

/-- The target of a binding is read, and the binding stands for it from then on. -/
theorem abstractionSignature_reads (listed : ⟨π, name, .binding target⟩ ∈ c.landmarks)
    (run : abstractionSignature p name target fs s = .ok (u, s')) :
    Reads c p.table seen ((Decl.abstraction info name target fs).readings π) s s' := by
  obtain ⟨t, s₁, read, run⟩ := bind_ok run
  obtain ⟨first, bare⟩ := typeExpr_reads known here read
  obtain ⟨_, s₂, noted, run⟩ := bind_ok run
  obtain ⟨still, same⟩ := modifyCapabilities_still noted
  obtain ⟨self, s₃, made, run⟩ := bind_ok run
  obtain ⟨still', same', own⟩ := named_still made
  have before : Reads c p.table seen [{ path := π, type := target }] s s₃ :=
    (first.then_still still same).then_still still' same'
  have known₃ : s₃.Known c seen := before.known
  have here₃ := before.here known here
  have charted := known₃.charted.table
  obtain ⟨sc, id, there, found⟩ := charted.found _ listed
  obtain rfl := there.scope_unique here₃
  obtain ⟨kind, members⟩ := charted.fits listed here₃ found
  obtain ⟨m, opened⟩ := Option.isSome_iff_exists.mp members
  obtain ⟨_, _, got, run⟩ := bind_ok run
  cases got
  dsimp only at run
  rw [found] at run
  obtain ⟨_, s₄, typed, run⟩ := bind_ok run
  cases typed
  obtain ⟨grown, bound⟩ := known₃.bind here₃ found kind members (t := self)
  have start : Reads c p.table seen [{ path := π, type := target, binds := some name }] s
      (s₃.withSymbols (s₃.info.symbols.modifySymbol id fun x => { x with type := some self })) := by
    rw [own, bare] at bound
    exact ⟨before.grown.trans grown, bound, before.notes⟩
  rw [opened] at run
  have inside := SymbolTable.At.inner (here₃.mono charted.rooted grown)
    (grown.lookupLocal? (here₃.known charted.rooted) (charted.rooted.known _) found)
    ((grown.symbol id (charted.rooted.known _ _ (SymbolTable.lookupLocal?_mem found).1)).members
      m opened)
  exact start.trans <| Reads.forM (FuncDecl.readings (name :: π)) start.known inside
    (fun f _ _ _ _ known here turn => bindingFunc_reads (p := { p with scope := m }) known here turn)
    run

theorem refurbishSignature_reads (run : refurbishSignature p target fs s = .ok (u, s')) :
    Reads c p.table seen ((Decl.refurbish info target fs).readings π) s s' := by
  obtain ⟨_, _, found, rest⟩ := bind_ok run
  obtain ⟨rfl, -⟩ := requireFound_ok found
  obtain ⟨t, s₁, read, run⟩ := bind_ok rest
  obtain ⟨first, -⟩ := typeExpr_reads known here read
  refine first.trans <| Reads.forM (FuncDecl.readings π) first.known (first.here known here)
    (fun f _ s₁ s₂ seen known here turn => ?_) run
  obtain ⟨_, s₃, noted, turn⟩ := bind_ok turn
  cases noted
  have quiet : s₁.Still
      { s₁ with funcs := s₁.funcs.insert f.info.span { decl := f, scope := p.home } } :=
    .of_same rfl rfl rfl rfl
  have start : Reads c p.table seen [] s₁ _ := .still known quiet rfl
  obtain ⟨_, s₄, signed, turn⟩ := bind_ok turn
  have middle := funcSignature_reads start.known (start.here known here) signed
  obtain ⟨_, s₅, noted, turn⟩ := bind_ok turn
  obtain ⟨still, same⟩ := addExtension_still turn
  have quiet : s₄.Still s₅ ∧ s₅.info.typeExprs = s₄.info.typeExprs := by
    cases noted
    exact ⟨.of_same rfl rfl rfl rfl, rfl⟩
  exact start.trans ((middle.then_still quiet.1 quiet.2).then_still still same)

/-- In a block without a scope, the types of such a declaration are read as they are anywhere. -/
theorem refurbishSignature_reads_bare (bare : p.bare.isSome) (π' : Path)
    (run : refurbishSignature p target fs s = .ok (u, s')) :
    Reads c p.table seen ((Decl.refurbish info target fs).readings π') s s' := by
  have reads : Reads c p.table seen ((Decl.refurbish info target fs).readings π) s s' :=
    refurbishSignature_reads known here run
  obtain ⟨_, _, found, -⟩ := bind_ok run
  obtain ⟨-, found⟩ := requireFound_ok found
  rw [Decl.readings_refurbish] at reads ⊢
  refine reads.moved fun t listed w word => ?_
  have listed : w ∈ target.words ++ fs.flatMap (·.words) := by
    rcases List.mem_cons.mp listed with rfl | listed
    · exact List.mem_append_left _ word
    · obtain ⟨f, inside, listed⟩ := List.mem_flatMap.mp listed
      refine List.mem_append_right _ (List.mem_flatMap.mpr ⟨f, inside, ?_⟩)
      exact TypeExpr.mem_wordsOf.mpr ⟨t, listed, word⟩
  refine (Bool.or_eq_true _ _ ▸ found bare w listed).imp_right fun assumed => ?_
  have related := Paired.lookup (r := fun name id kind => (AssumeKind.meant name kind).Fits
    (s.info.symbols.symbol id))
    (known.charted.assumed.imp fun x a h => ⟨h.1, h.1 ▸ h.2.2⟩) w
  revert related assumed
  generalize s.assumed.lookup w = id, c.assumed.reverse.lookup w = kind
  rintro assumed (_ | _)
  · rfl
  · exact assumed

theorem varSignature_reads {d : VarDecl} (run : varSignature p d s = .ok (u, s')) :
    Reads c p.table seen ((Item.var d).readings π) s s' := by
  unfold varSignature at run
  cases written : d.type with
  | none =>
    rw [written] at run
    have none : (Item.var d).readings π = [] := by simp [Item.readings, written]
    rw [none]
    cases run
    exact .still known (.of_same rfl rfl rfl rfl) rfl
  | some te =>
    rw [written] at run
    have some : (Item.var d).readings π = [{ path := π, type := te }] := by
      simp [Item.readings, written]
    rw [some]
    obtain ⟨t, s₁, read, run⟩ := bind_ok run
    obtain ⟨first, -⟩ := typeExpr_reads known here read
    obtain ⟨_, _, got, run⟩ := bind_ok run
    cases got
    cases found : s₁.info.vars[d.info.span]? with
    | none =>
      rw [found] at run
      cases run
      exact first
    | some id =>
      rw [found] at run
      cases run
      have kind := first.known.vars _ id found
      refine first.then_still ⟨rfl, rfl, rfl, rfl, ?_, fun i lt => ?_⟩ rfl
      · exact Nat.le_of_eq Array.size_modify.symm
      change (SymbolTable.modifySymbol _ _ _).symbol i = _ ∨ _
      rw [SymbolTable.symbol_modifySymbol]
      split
      · next same => exact .inr ⟨same.1 ▸ kind, _, rfl⟩
      · exact .inl rfl

theorem itemSignature_reads {i : Item} (run : itemSignature p i s = .ok (u, s')) :
    Reads c p.table seen (i.readings π) s s' := by
  cases i with
  | var d => exact varSignature_reads known here run
  | func f => exact funcSignature_reads known here run
  | enum _ | inject _ _ =>
    cases run
    exact .still known (.of_same rfl rfl rfl rfl) rfl

/-! ### Declarations -/

theorem baseSignature_reads {number : Nat} {base : TypeExpr} (run : baseSignature p number base s = .ok (u, s')) :
    Reads c p.table seen [{ path := π, type := base }] s s' := by
  obtain ⟨t, s₁, read, run⟩ := bind_ok run
  obtain ⟨first, -⟩ := typeExpr_reads known here read
  obtain ⟨step, same, run⟩ := exists_step run
  split at same
  · subst same
    cases run
    exact first.then_still (.of_same rfl rfl rfl rfl) rfl
  · subst same
    cases run
    exact first

theorem classSignature_reads {info : DeclInfo} {bases : List TypeExpr} {items : List Item}
    {full : String} {number : Nat} {m : ScopeId}
    (type : (s.info.symbols.symbol id).type = some (.cls full number))
    (members : (s.info.symbols.symbol id).members = some m)
    (inside : s.info.symbols.At m (name :: π))
    (run : classSignature p id bases items s = .ok (u, s')) :
    Reads c p.table seen ((Decl.cls info name bases items).readings π) s s' := by
  obtain ⟨_, _, read, run⟩ := bind_ok run
  cases read
  dsimp only at run
  rw [type, members] at run
  obtain ⟨_, s₁, based, run⟩ := bind_ok run
  have first := Reads.forM (fun t : TypeExpr => [{ path := π, type := t }]) known here
    (fun t _ _ _ _ known here turn => baseSignature_reads known here turn) based
  rw [← List.map_eq_flatMap] at first
  exact first.trans <| Reads.forM (Item.readings (name :: π)) first.known (first.here known inside)
    (fun i _ _ _ _ known here turn => itemSignature_reads (p := { p with scope := m }) known here turn)
    run

end

theorem namespaceScope_found {pos : Pos} {ds : List Decl} {m : ScopeId} (charted : s.Charted c)
    (here : s.info.symbols.At sc π) (listed : ⟨π, name, .other⟩ ∈ c.landmarks)
    (run : namespaceScope sc name pos ds s = .ok (m, s')) :
    s' = s ∧ (s.info.symbols.At m (name :: π) ∨ s.info.symbols.At m π ∧
      ds.any needsScope = false ∧ s.info.symbols.isBare sc name = true) := by
  obtain ⟨_, _, read, run⟩ := bind_ok run
  cases read
  dsimp only at run
  obtain ⟨sc', id, there, found⟩ := charted.table.found _ listed
  obtain rfl := there.scope_unique here
  rw [found] at run
  obtain ⟨step, same, run⟩ := exists_step run
  split at same
  · next known =>
    subst same
    cases run
    exact ⟨rfl, .inl (.inner here found (by rw [Option.some.inj known]))⟩
  · next bare =>
    subst same
    split at run
    · cases run
    · next idle =>
      cases run
      refine ⟨rfl, .inr ⟨here, Bool.not_eq_true _ ▸ idle, ?_⟩⟩
      simp [SymbolTable.isBare, found, Option.some.inj bare]
  · subst same
    obtain ⟨⟨id', members⟩, s₁, made, -⟩ := bind_ok run
    have new := (declareOwner_run charted.table.rooted (here.known charted.table.rooted) (by simp)
      made).2.2.2
    rw [found] at new
    cases new

/-- A block without a scope is read as it would be at any path. -/
theorem signatures_reads_bare {p : Place} {s s' : State} {u : Unit} (known : s.Known c seen)
    (here : s.info.symbols.At p.scope π) (bare : p.bare.isSome) {ds : List Decl}
    (idle : ds.any needsScope = false) (π' : Path) (run : signatures p ds s = .ok (u, s')) :
    Reads c p.table seen (Decl.readingsOf π' ds) s s' := by
  have quiet : ∀ {s : State} {seen : Bindings}, s.Known c seen → Reads c p.table seen [] s s :=
    fun known => .still known (.of_same rfl rfl rfl rfl) rfl
  induction ds generalizing s seen with
  | nil =>
    cases run
    exact quiet known
  | cons d ds ih =>
    simp only [List.any_cons, Bool.or_eq_false_iff] at idle
    obtain ⟨_, s₁, first, rest⟩ := bind_ok run
    have step : Reads c p.table seen (d.readings π') s s₁ := by
      cases d with
      | refurbish info target fs => exact refurbishSignature_reads_bare known here bare π' first
      | includes _ _ _ _ | assume _ _ _ =>
        cases first
        exact quiet known
      | item i =>
        cases i with
        | inject info text =>
          cases first
          exact quiet known
        | _ => exact absurd idle.1 (by simp [needsScope])
      | _ => exact absurd idle.1 (by simp [needsScope])
    exact step.trans (ih step.known (step.here known here) idle.2 rest)

mutual

theorem signature_reads {p : Place} {seen : Bindings} {s s' : State} {π : Path} {u : Unit}
    (apart : c.Apart) (known : s.Known c seen) (here : s.info.symbols.At p.scope π) :
    (d : Decl) → (∀ l ∈ d.landmarks π, l ∈ c.landmarks) → (∀ x ∈ d.classesAt π, x ∈ c.classes) →
    signature p d s = .ok (u, s') → Reads c p.table seen (d.readings π) s s'
  | .item i, _, _, run => itemSignature_reads known here run
  | .scope info name ds, listed, classes, run => by
    obtain ⟨_, _, read, run⟩ := bind_ok run
    cases read
    obtain ⟨m, s₁, found, rest⟩ := bind_ok run
    obtain ⟨same, inside⟩ := namespaceScope_found known.charted here
      (listed _ List.mem_cons_self) found
    subst same
    have listed : ∀ l ∈ Decl.landmarksOf (name :: π) ds, l ∈ c.landmarks :=
      fun l member => listed l (List.mem_cons_of_mem _ member)
    let inner := p.within s₁.info.symbols name info.span.start m
    rcases inside with inside | ⟨outside, idle, bare⟩
    · exact signatures_reads (p := inner) apart known inside ds listed classes rest
    · refine signatures_reads_bare (p := inner) known outside ?_ idle _ rest
      simp [inner, Place.within, bare]
  | .cls info name bases items, listed, classes, run => by
    obtain ⟨_, _, read, run⟩ := bind_ok run
    cases read
    obtain ⟨id, full, number, m, found, type, members, inside⟩ :=
      known.classSymbol? apart (classes _ List.mem_cons_self)
    rw [found] at run
    exact classSignature_reads known here type members inside run
  | .abstraction info name target fs, listed, _, run =>
    abstractionSignature_reads known here (listed _ List.mem_cons_self) run
  | .refurbish info target fs, _, _, run => refurbishSignature_reads known here run
  | .includes _ _ _ _, _, _, run | .assume _ _ _, _, _, run | .attributeDef _ _ _ _, _, _, run => by
    cases run
    exact .still known (.of_same rfl rfl rfl rfl) rfl

theorem signatures_reads {p : Place} {seen : Bindings} {s s' : State} {π : Path} {u : Unit}
    (apart : c.Apart) (known : s.Known c seen) (here : s.info.symbols.At p.scope π) :
    (ds : List Decl) → (∀ l ∈ Decl.landmarksOf π ds, l ∈ c.landmarks) →
    (∀ x ∈ Decl.classesAtOf π ds, x ∈ c.classes) → signatures p ds s = .ok (u, s') →
    Reads c p.table seen (Decl.readingsOf π ds) s s'
  | [], _, _, run => by
    cases run
    exact .still known (.of_same rfl rfl rfl rfl) rfl
  | d :: ds, listed, classes, run => by
    obtain ⟨_, s₁, first, run⟩ := bind_ok run
    have step := signature_reads apart known here d
      (fun l member => listed l (List.mem_append_left _ member))
      (fun x member => classes x (List.mem_append_left _ member)) first
    exact step.trans (signatures_reads apart step.known (step.here known here) ds
      (fun l member => listed l (List.mem_append_right _ member))
      (fun x member => classes x (List.mem_append_right _ member)) run)

end

end Resolution

end TastyLang
