import TastyLang.Proofs.Resolution.Visits

/-!
# What the first pass lays

The first pass opens a table of capabilities for every abstract binding, in the order of the text
(`declareDecls_lay`). It says nothing about an expression, and the variables that it notes have symbols
of their own.
-/

namespace TastyLang

mutual

/-- The names of the abstract bindings of a declaration. -/
def Decl.bindings : Decl → List String
  | .scope _ _ ds => Decl.bindingsOf ds
  | .abstraction _ name _ _ => [name]
  | .item _ | .includes _ _ _ _ | .assume _ _ _ | .cls _ _ _ _ | .refurbish _ _ _
  | .attributeDef _ _ _ _ => []

def Decl.bindingsOf : List Decl → List String
  | [] => []
  | d :: ds => d.bindings ++ Decl.bindingsOf ds

end

namespace Resolution

def blankTables (names : List String) : List (String × Capabilities) :=
  (names.map fun name => (name, { name })).reverse

theorem blankTables_append (ns ms : List String) :
    blankTables (ns ++ ms) = blankTables ms ++ blankTables ns := by
  simp [blankTables]

structure State.Lays (names : List String) (s s' : State) : Prop where
  capabilities : s'.info.capabilities = blankTables names ++ s.info.capabilities
  refurbished : s'.refurbished = s.refurbished
  silent : ∀ k, s'.entry (.expr k) = s.entry (.expr k)
  rooted : s.Rooted → s'.Rooted

variable {s s' s'' : State} {ns ns' : List String}

theorem State.Lays.refl (s : State) : s.Lays [] s := ⟨rfl, rfl, fun _ => rfl, id⟩

theorem State.Lays.trans (h : s.Lays ns s') (h' : s'.Lays ns' s'') : s.Lays (ns ++ ns') s'' where
  capabilities := by
    rw [h'.capabilities, h.capabilities, blankTables_append, List.append_assoc]
  refurbished := h'.refurbished.trans h.refurbished
  silent k := (h'.silent k).trans (h.silent k)
  rooted := h'.rooted ∘ h.rooted

theorem State.Lays.withSymbols {t : SymbolTable}
    (size : s.info.symbols.symbols.size ≤ t.symbols.size)
    (origin : ∀ id < s.info.symbols.symbols.size,
      (t.symbol id).origin = (s.info.symbols.symbol id).origin) : s.Lays [] (s.withSymbols t) := by
  refine ⟨rfl, rfl, fun _ => rfl, fun rooted span id found => ?_⟩
  obtain ⟨lt, own⟩ := rooted span id found
  exact ⟨Nat.lt_of_lt_of_le lt size, (origin id lt).trans own⟩

variable {α β : Type} {m : Resolver α}

structure Lays (names : List String) (m : Resolver α) : Prop where
  run {s a s'} : m s = .ok (a, s') → s.Lays names s'

namespace Lays

theorem pure {a : α} : Lays [] (pure a) := by
  refine ⟨fun {s a s'} run => ?_⟩
  cases run
  exact .refl s

theorem bind {f : α → Resolver β} (first : Lays ns m) (rest : ∀ a, Lays ns' (f a)) :
    Lays (ns ++ ns') (m >>= f) := by
  refine ⟨fun {s a s'} run => ?_⟩
  obtain ⟨a, s₁, ran, run⟩ := bind_ok run
  exact (first.run ran).trans ((rest a).run run)

theorem after {f : α → Resolver β} (first : Lays [] m) (rest : ∀ a, Lays ns (f a)) :
    Lays ns (m >>= f) := first.bind rest

theorem get : Lays [] (get : Resolver State) := by
  refine ⟨fun {s a s'} run => ?_⟩
  cases run
  exact .refl s

theorem fail {e : ResolveError} : Lays ns (fail e : Resolver α) := by
  refine ⟨fun {s a s'} run => ?_⟩
  cases run

theorem forM {f : α → Resolver Unit} {xs : List α} (each : ∀ x, Lays [] (f x)) :
    Lays [] (xs.forM f) := by
  induction xs with
  | nil => exact pure
  | cons x xs ih => exact (each x).after fun _ => ih

theorem modify {f : State → State} (lays : ∀ s : State, s.Lays ns (f s)) : Lays ns (modify f) := by
  refine ⟨fun {s a s'} run => ?_⟩
  cases run
  exact lays s

end Lays

/-! ### Symbols -/

theorem alloc_lays (x : Symbol) : Lays [] (alloc x) := by
  refine ⟨fun {s id s'} run => ?_⟩
  cases (alloc_run x s).symm.trans run
  have size : (s.info.symbols.alloc x).1.symbols.size = s.info.symbols.symbols.size + 1 :=
    Array.size_push x
  refine .withSymbols (by omega) fun id lt => ?_
  rw [s.info.symbols.symbol_alloc x id, if_neg (Nat.ne_of_lt lt)]

theorem declare_lays (sc : ScopeId) (id : SymbolId) (pos : Pos) : Lays [] (declare sc id pos) := by
  refine ⟨fun {s _ s'} run => ?_⟩
  obtain ⟨t, declared, rfl⟩ := declare_run run
  obtain ⟨rfl, -⟩ := SymbolTable.declare_ok declared
  have size : (s.info.symbols.entered sc id).symbols.size = s.info.symbols.symbols.size :=
    Array.size_modify
  refine State.Lays.withSymbols (t := s.info.symbols.entered sc id) (Nat.le_of_eq size.symm)
    fun i _ => ?_
  rw [SymbolTable.symbol_entered]
  split <;> rfl

theorem newScope_lays (parent : Option ScopeId) (kind : ScopeKind) (owner : Option SymbolId) :
    Lays [] (newScope parent kind owner) := by
  refine ⟨fun {s _ s'} run => ?_⟩
  cases (newScope_run parent kind owner s).symm.trans run
  exact .withSymbols (Nat.le_refl _) fun _ _ => rfl

theorem modifySymbol_lays (id : SymbolId) {f : Symbol → Symbol}
    (origin : ∀ x, (f x).origin = x.origin) : Lays [] (modifySymbol id f) := by
  refine ⟨fun {s _ s'} run => ?_⟩
  cases run
  have size : (s.info.symbols.modifySymbol id f).symbols.size = s.info.symbols.symbols.size :=
    Array.size_modify
  refine State.Lays.withSymbols (t := s.info.symbols.modifySymbol id f) (Nat.le_of_eq size.symm)
    fun i _ => ?_
  rw [SymbolTable.symbol_modifySymbol]
  split
  · next same =>
    rw [same.1]
    exact origin _
  · rfl

theorem setType_lays (id : SymbolId) (t : Ty) : Lays [] (setType id t) :=
  modifySymbol_lays id fun _ => rfl

theorem newClass_lays (bases : List Ty) : Lays [] (newClass bases) := by
  refine Lays.get.after fun s => Lays.after (.modify fun s => ?_) fun _ => .pure
  exact ⟨rfl, rfl, fun _ => rfl, id⟩

theorem qualifiedName_lays (id : SymbolId) : Lays [] (qualifiedName id) :=
  Lays.get.after fun _ => .pure

theorem declareOwner_lays (sc : ScopeId) (x : Symbol) (inner : ScopeKind) (pos : Pos) :
    Lays [] (declareOwner sc x inner pos) := by
  refine (alloc_lays x).after fun id => (declare_lays sc id pos).after fun _ => ?_
  refine (newScope_lays sc inner (some id)).after fun members => ?_
  exact Lays.after (modifySymbol_lays id fun _ => rfl) fun _ => .pure

/-! ### Declarations -/

theorem declareFunc_lays (sc : ScopeId) (d : FuncDecl) : Lays [] (declareFunc sc d) := by
  have last : ∀ st, Lays [] (noteFunc d st) := fun st => .modify fun s => ⟨rfl, rfl, fun _ => rfl, id⟩
  unfold declareFunc
  split
  · exact Lays.get.after fun _ => last _
  · refine (alloc_lays _).after fun id => (declare_lays sc id _).after fun _ => ?_
    exact Lays.get.after fun _ => last _

theorem declareVar_lays (sc : ScopeId) (d : VarDecl) : Lays [] (declareVar sc d) := by
  refine ⟨fun {s u s'} run => ?_⟩
  obtain ⟨id, s₁, made, run⟩ := bind_ok run
  obtain ⟨_, s₂, declared, run⟩ := bind_ok run
  obtain ⟨lt, same⟩ := alloc_ok made
  have lays := ((alloc_lays _).run made).trans ((declare_lays sc id _).run declared)
  have quiet : s₁.Quiet [] s₂ := (declare_quiet sc id _).run declared
  cases run
  refine { lays with rooted := fun rooted span i found => ?_ }
  change (s₂.info.vars.insert d.info.span id)[span]? = some i at found
  rw [Std.TreeMap.getElem?_insert] at found
  split at found
  · next there =>
    cases found
    refine ⟨Nat.lt_of_lt_of_le lt quiet.size, ?_⟩
    rw [← Std.LawfulEqOrd.eq_of_compare there, quiet.origin id lt, same]
  · exact lays.rooted rooted span i found

theorem declareEnum_lays (sc : ScopeId) (d : EnumDecl) : Lays [] (declareEnum sc d) := by
  refine (declareOwner_lays sc _ .cls _).after fun own => ?_
  refine (qualifiedName_lays own.1).after fun full => (setType_lays own.1 _).after fun _ => ?_
  exact .forM fun m => (alloc_lays _).after fun id => declare_lays own.2 id _

theorem declareItem_lays (sc : ScopeId) (i : Item) : Lays [] (declareItem sc i) := by
  cases i with
  | var d => exact declareVar_lays sc d
  | func d => exact declareFunc_lays sc d
  | enum d => exact declareEnum_lays sc d
  | inject info text => exact .pure

theorem declareAssumed_lays (sc : ScopeId) (name : String) (kind : AssumeKind) (pos : Pos) :
    Lays [] (declareAssumed sc name kind pos) := by
  have symbol : Lays [] (assumedSymbol name kind pos) := by
    cases kind with
    | cls => exact (newClass_lays []).after fun _ => .pure
    | _ => exact .pure
  refine symbol.after fun x => (alloc_lays x).after fun id => ?_
  split
  · exact .modify fun s => ⟨rfl, rfl, fun _ => rfl, fun h => h⟩
  · exact declare_lays sc id pos

theorem namespaceScope_lays (sc : ScopeId) (name : String) (pos : Pos) (ds : List Decl) :
    Lays [] (namespaceScope sc name pos ds) := by
  refine Lays.get.after fun s => ?_
  dsimp only
  split
  · exact .pure
  · split
    · exact .fail
    · exact .pure
  · refine (declareOwner_lays sc _ .scope pos).after fun own => ?_
    refine (qualifiedName_lays own.1).after fun full => (setType_lays own.1 _).after fun _ => .pure

mutual

theorem declareDecl_lays (sc : ScopeId) : (d : Decl) → Lays d.bindings (declareDecl sc d)
  | .item i => declareItem_lays sc i
  | .assume info name kind => declareAssumed_lays sc name kind info.span.start
  | .scope info name ds =>
    (namespaceScope_lays sc name info.span.start ds).after fun members => declareDecls_lay members ds
  | .cls info name _ items => by
    refine (declareOwner_lays sc _ .cls _).after fun own => (qualifiedName_lays own.1).after fun full => ?_
    refine (newClass_lays []).after fun n => (setType_lays own.1 _).after fun _ => ?_
    refine Lays.after (.modify fun s => ⟨rfl, rfl, fun _ => rfl, fun h => h⟩) fun _ => ?_
    refine Lays.after (.modify fun s => ⟨rfl, rfl, fun _ => rfl, fun h => h⟩) fun _ => ?_
    exact .forM (declareItem_lays own.2)
  | .abstraction info name _ fs => by
    refine (declareOwner_lays sc _ .cls _).after fun own => ?_
    refine (Lays.forM fun f => declareFunc_lays own.2 f).after fun _ => ?_
    exact .modify fun s => ⟨rfl, rfl, fun _ => rfl, fun h => h⟩
  | .attributeDef info name _ _ => (alloc_lays _).after fun id => declare_lays sc id info.span.start
  | .includes _ _ _ _ | .refurbish _ _ _ => .pure

theorem declareDecls_lay (sc : ScopeId) : (ds : List Decl) →
    Lays (Decl.bindingsOf ds) (declareDecls sc ds)
  | [] => .pure
  | d :: ds => (declareDecl_lays sc d).bind fun _ => declareDecls_lay sc ds

end

end Resolution

end TastyLang
