import TastyLang.Proofs.Resolution.Changes
import TastyLang.Resolution.Declare

/-!
# Classes and their numbers

A class is known by its number, and a number by one name (`State.Numbered`). The first pass numbers
every class anew and gives none of them a base (`State.Blank`).
-/

namespace TastyLang

/-- A type that is no class. -/
def Ty.Plain (t : Ty) : Prop := ∀ x n, t.core ≠ .cls x n

namespace Resolution

variable {s s' : State} {x : String} {n : Nat}

/-- A class of the number is called `x`, by a symbol that names it or as a base. -/
def State.Calls (s : State) (x : String) (n : Nat) : Prop :=
  (∃ id t, (s.info.symbols.symbol id).kind.isTypeName = true ∧
    (s.info.symbols.symbol id).type = some t ∧ t.core = .cls x n) ∨
  ∃ bs ∈ s.info.hierarchy.bases, ∃ t ∈ bs, t.core = .cls x n

structure State.Numbered (s : State) : Prop where
  bounded : ∀ x n, s.Calls x n → n < s.info.hierarchy.bases.length
  unique : ∀ x y n, s.Calls x n → s.Calls y n → x = y

theorem State.Numbered.fewer (numbered : s.Numbered)
    (more : s.info.hierarchy.bases.length ≤ s'.info.hierarchy.bases.length)
    (calls : ∀ x n, s'.Calls x n → s.Calls x n) : s'.Numbered where
  bounded x n h := Nat.lt_of_lt_of_le (numbered.bounded x n (calls x n h)) more
  unique x y n h h' := numbered.unique x y n (calls x n h) (calls y n h')

theorem State.Numbered.call (numbered : s.Numbered)
    (same : s'.info.hierarchy = s.info.hierarchy) (known : n < s.info.hierarchy.bases.length)
    (unused : ∀ y, ¬ s.Calls y n)
    (calls : ∀ y m, s'.Calls y m → s.Calls y m ∨ y = x ∧ m = n) : s'.Numbered where
  bounded y m h := by
    rw [same]
    rcases calls y m h with old | ⟨rfl, rfl⟩
    · exact numbered.bounded y m old
    · exact known
  unique y z m h h' := by
    rcases calls y m h with old | ⟨rfl, rfl⟩ <;> rcases calls z _ h' with old' | ⟨rfl, same⟩
    · exact numbered.unique y z m old old'
    · exact absurd old (same ▸ unused y)
    · exact absurd old' (unused z)
    · rfl

/-- No class has a base yet, and no written type is noted. -/
structure State.Blank (s : State) : Prop where
  numbered : s.Numbered
  rootless : ∀ bs ∈ s.info.hierarchy.bases, bs = []
  unwritten : ∀ span : Span, s.info.typeExprs[span]? = none

theorem State.blank_initial : State.Blank {} := by
  have none : ∀ x n, ¬ State.Calls {} x n := by
    rintro x n (⟨id, t, -, typed, -⟩ | ⟨bs, listed, -⟩)
    · rw [SymbolTable.symbol_of_le (by simp)] at typed
      cases typed
    · cases listed
  exact ⟨⟨fun x n h => absurd h (none x n), fun x y n h => absurd h (none x n)⟩, by simp,
    by simp⟩

theorem State.Blank.withSymbols (blank : s.Blank) {t : SymbolTable}
    (old : ∀ id u, (t.symbol id).type = some u → u.Plain ∨
      (s.info.symbols.symbol id).type = some u ∧
        (t.symbol id).kind = (s.info.symbols.symbol id).kind) : (s.withSymbols t).Blank := by
  refine ⟨blank.numbered.fewer (Nat.le_refl _) ?_, blank.rootless, blank.unwritten⟩
  rintro x n (⟨id, u, named, typed, core⟩ | base)
  · rcases old id u typed with plain | ⟨same, kind⟩
    · exact absurd core (plain x n)
    · exact .inl ⟨id, u, kind ▸ named, same, core⟩
  · exact .inr base

/-! ### Steps that keep a state blank -/

variable {α β : Type} {m : Resolver α}

structure Numbers (m : Resolver α) : Prop where
  run {s a s'} : s.Blank → m s = .ok (a, s') → s'.Blank

namespace Numbers

theorem pure {a : α} : Numbers (pure a) := by
  refine ⟨fun blank run => ?_⟩
  cases run
  exact blank

theorem bind {f : α → Resolver β} (first : Numbers m) (rest : ∀ a, Numbers (f a)) :
    Numbers (m >>= f) := by
  refine ⟨fun blank run => ?_⟩
  obtain ⟨a, s₁, ran, run⟩ := bind_ok run
  exact (rest a).run (first.run blank ran) run

theorem get : Numbers (get : Resolver State) := by
  refine ⟨fun blank run => ?_⟩
  cases run
  exact blank

theorem fail {e : ResolveError} : Numbers (fail e : Resolver α) := by
  refine ⟨fun _ run => ?_⟩
  cases run

theorem forM {f : α → Resolver Unit} {xs : List α} (each : ∀ x, Numbers (f x)) :
    Numbers (xs.forM f) := by
  induction xs with
  | nil => exact pure
  | cons x xs ih => exact (each x).bind fun _ => ih

theorem note {f : State → State} (symbols : ∀ s, (f s).info.symbols = s.info.symbols)
    (hierarchy : ∀ s, (f s).info.hierarchy = s.info.hierarchy)
    (typeExprs : ∀ s, (f s).info.typeExprs = s.info.typeExprs) : Numbers (modify f) := by
  refine ⟨fun {s _ _} blank run => ?_⟩
  cases run
  refine ⟨blank.numbered.fewer (Nat.le_of_eq (by rw [hierarchy])) fun x n h => ?_, ?_, ?_⟩
  · simpa only [State.Calls, symbols, hierarchy] using h
  · rw [hierarchy]
    exact blank.rootless
  · rw [typeExprs]
    exact blank.unwritten

end Numbers

theorem alloc_numbers {x : Symbol} (plain : ∀ t, x.type = some t → t.Plain) :
    Numbers (alloc x) := by
  refine ⟨fun {s _ _} blank run => ?_⟩
  cases (alloc_run x s).symm.trans run
  refine blank.withSymbols fun id u typed => ?_
  rw [SymbolTable.symbol_alloc] at typed ⊢
  split at typed
  · exact .inl (plain u typed)
  · next other => exact .inr ⟨typed, by rw [if_neg other]⟩

theorem modifySymbol_numbers (id : SymbolId) {f : Symbol → Symbol} (kind : ∀ x, (f x).kind = x.kind)
    (type : ∀ x u, (f x).type = some u → u.Plain ∨ x.type = some u) :
    Numbers (modifySymbol id f) := by
  refine ⟨fun {s _ _} blank run => ?_⟩
  cases run
  refine blank.withSymbols fun i u typed => ?_
  rw [SymbolTable.symbol_modifySymbol] at typed ⊢
  split at typed
  · next same => exact (type _ u typed).imp_right fun old => ⟨old, by rw [if_pos same, kind]⟩
  · next other => exact .inr ⟨typed, by rw [if_neg other]⟩

theorem setType_numbers (id : SymbolId) {t : Ty} (plain : t.Plain) : Numbers (setType id t) := by
  refine modifySymbol_numbers id (fun _ => rfl) fun x u typed => .inl ?_
  cases typed
  exact plain

theorem declare_numbers (sc : ScopeId) (id : SymbolId) (pos : Pos) :
    Numbers (declare sc id pos) := by
  refine ⟨fun {s _ _} blank run => ?_⟩
  obtain ⟨t, declared, rfl⟩ := declare_run run
  obtain ⟨rfl, -⟩ := SymbolTable.declare_ok declared
  refine State.Blank.withSymbols (t := s.info.symbols.entered sc id) blank fun i u typed => ?_
  rw [SymbolTable.symbol_entered] at typed ⊢
  split at typed
  · next same => exact .inr ⟨typed, by rw [if_pos same]⟩
  · next other => exact .inr ⟨typed, by rw [if_neg other]⟩

theorem newScope_numbers (parent : Option ScopeId) (kind : ScopeKind) (owner : Option SymbolId) :
    Numbers (newScope parent kind owner) := by
  refine ⟨fun {s _ _} blank run => ?_⟩
  cases (newScope_run parent kind owner s).symm.trans run
  exact blank.withSymbols fun i u typed => .inr ⟨typed, rfl⟩

theorem declareOwner_numbers (sc : ScopeId) {x : Symbol} (untyped : x.type = none)
    (inner : ScopeKind) (pos : Pos) : Numbers (declareOwner sc x inner pos) := by
  refine (alloc_numbers fun t typed => ?_).bind fun id => (declare_numbers sc id pos).bind fun _ =>
    (newScope_numbers sc inner _).bind fun m => ?_
  · rw [untyped] at typed
    cases typed
  · refine Numbers.bind (modifySymbol_numbers id (fun _ => rfl) fun _ _ typed => ?_) fun _ => .pure
    exact .inr typed

theorem qualifiedName_numbers (id : SymbolId) : Numbers (qualifiedName id) :=
  Numbers.get.bind fun _ => .pure

theorem newClass_blank (blank : s.Blank) {k : Nat} (run : newClass [] s = .ok (k, s')) :
    s'.Blank ∧ k < s'.info.hierarchy.bases.length ∧ ∀ y, ¬ s'.Calls y k := by
  cases run
  have rootless : ∀ bs ∈ s.info.hierarchy.bases ++ [[]], bs = ([] : List Ty) := by
    intro bs listed
    rcases List.mem_append.mp listed with old | new
    · exact blank.rootless bs old
    · exact List.mem_singleton.mp new
  have calls : ∀ y m, State.Calls { s with info := { s.info with
      hierarchy := ⟨s.info.hierarchy.bases ++ [[]]⟩ } } y m → s.Calls y m := by
    rintro y m (named | ⟨bs, listed, t, member, -⟩)
    · exact .inl named
    · rw [rootless bs listed] at member
      cases member
  refine ⟨⟨blank.numbered.fewer (by simp) calls, rootless, blank.unwritten⟩, by simp, fun y h => ?_⟩
  exact absurd (blank.numbered.bounded y _ (calls y _ h)) (Nat.lt_irrefl _)

theorem State.Blank.call {t : SymbolTable} (blank : s.Blank)
    (known : n < s.info.hierarchy.bases.length) (unused : ∀ y, ¬ s.Calls y n)
    (old : ∀ id u, (t.symbol id).type = some u → u = .cls x n ∨
      (s.info.symbols.symbol id).type = some u ∧
        (t.symbol id).kind = (s.info.symbols.symbol id).kind) : (s.withSymbols t).Blank := by
  refine ⟨blank.numbered.call (x := x) rfl known unused ?_, blank.rootless, blank.unwritten⟩
  rintro y m (⟨id, u, named, typed, core⟩ | base)
  · rcases old id u typed with rfl | ⟨same, kind⟩
    · cases core
      exact .inr ⟨rfl, rfl⟩
    · exact .inl (.inl ⟨id, u, kind ▸ named, same, core⟩)
  · exact .inl (.inr base)

/-! ### The first pass -/

theorem noteFunc_numbers (d : FuncDecl) (st : FuncState) : Numbers (noteFunc d st) :=
  .note (fun _ => rfl) (fun _ => rfl) fun _ => rfl

theorem declareFunc_numbers (sc : ScopeId) (d : FuncDecl) : Numbers (declareFunc sc d) := by
  unfold declareFunc
  split
  · exact Numbers.get.bind fun _ => noteFunc_numbers d _
  · refine (alloc_numbers fun t typed => by cases typed).bind fun id => ?_
    exact (declare_numbers sc id _).bind fun _ => Numbers.get.bind fun _ => noteFunc_numbers d _

theorem declareVar_numbers (sc : ScopeId) (d : VarDecl) : Numbers (declareVar sc d) := by
  refine (alloc_numbers fun t typed => by cases typed).bind fun id => ?_
  exact (declare_numbers sc id _).bind fun _ => .note (fun _ => rfl) (fun _ => rfl) fun _ => rfl

theorem declareEnum_numbers (sc : ScopeId) (d : EnumDecl) : Numbers (declareEnum sc d) := by
  unfold declareEnum
  refine (declareOwner_numbers sc rfl _ _).bind fun (id, members) => ?_
  refine (qualifiedName_numbers id).bind fun full => ?_
  have plain : Ty.Plain (.enum full) := fun x n h => by cases h
  refine (setType_numbers id plain).bind fun _ => .forM fun m => ?_
  refine (alloc_numbers fun t typed => ?_).bind fun i => declare_numbers members i _
  cases typed
  exact plain

theorem declareItem_numbers (sc : ScopeId) (i : Item) : Numbers (declareItem sc i) := by
  cases i with
  | var d => exact declareVar_numbers sc d
  | func d => exact declareFunc_numbers sc d
  | enum d => exact declareEnum_numbers sc d
  | inject info text => exact .pure

theorem assumedSymbol_blank {name : String} {kind : AssumeKind} {pos : Pos} {y : Symbol}
    {id : SymbolId} {s₁ : State} (blank : s.Blank)
    (made : assumedSymbol name kind pos s = .ok (y, s₁)) (run : alloc y s₁ = .ok (id, s')) :
    s'.Blank := by
  unfold assumedSymbol at made
  cases kind with
  | cls =>
    obtain ⟨k, s₂, numbered, made⟩ := bind_ok made
    obtain ⟨blank, known, unused⟩ := newClass_blank blank numbered
    cases made
    cases (alloc_run _ _).symm.trans run
    refine blank.call (x := name) known unused fun i u typed => ?_
    rw [SymbolTable.symbol_alloc] at typed ⊢
    split at typed
    · exact .inl (Option.some.inj typed).symm
    · next other => exact .inr ⟨typed, by rw [if_neg other]⟩
  | scope | func | var =>
    cases made
    refine (alloc_numbers fun t typed => ?_).run blank run
    cases typed
    exact fun y m h => by cases h

theorem declareAssumed_numbers (sc : ScopeId) (name : String) (kind : AssumeKind) (pos : Pos) :
    Numbers (declareAssumed sc name kind pos) := by
  refine ⟨fun {s _ _} blank run => ?_⟩
  obtain ⟨x, s₁, made, run⟩ := bind_ok run
  obtain ⟨id, s₂, allocated, run⟩ := bind_ok run
  have blank₂ := assumedSymbol_blank blank made allocated
  split at run
  · refine Numbers.run (?_ : Numbers _) blank₂ run
    exact .note (fun _ => rfl) (fun _ => rfl) fun _ => rfl
  · exact (declare_numbers sc id pos).run blank₂ run

theorem namespaceScope_numbers (sc : ScopeId) (name : String) (pos : Pos) (ds : List Decl) :
    Numbers (namespaceScope sc name pos ds) := by
  refine Numbers.get.bind fun s => ?_
  dsimp only
  split
  · exact .pure
  · split
    · exact .fail
    · exact .pure
  · refine (declareOwner_numbers sc rfl _ _).bind fun (id, members) => ?_
    refine (qualifiedName_numbers id).bind fun full => ?_
    exact (setType_numbers id fun x n h => by cases h).bind fun _ => .pure

theorem classType_blank {id : SymbolId} {full : String} {k : Nat} {u : Unit} {s₁ : State}
    (blank : s.Blank) (numbered : newClass [] s = .ok (k, s₁))
    (run : setType id (.cls full k) s₁ = .ok (u, s')) : s'.Blank := by
  obtain ⟨blank, known, unused⟩ := newClass_blank blank numbered
  cases run
  refine blank.call (x := full) known unused fun i u typed => ?_
  rw [SymbolTable.symbol_modifySymbol] at typed ⊢
  split at typed
  · exact .inl (Option.some.inj typed).symm
  · next other => exact .inr ⟨typed, by rw [if_neg other]⟩

mutual

theorem declareDecl_numbers (sc : ScopeId) : (d : Decl) → Numbers (declareDecl sc d)
  | .item i => declareItem_numbers sc i
  | .assume _ name kind => declareAssumed_numbers sc name kind _
  | .scope _ name ds =>
    (namespaceScope_numbers sc name _ ds).bind fun m => declareDecls_numbers m ds
  | .cls _ name _ items => by
    refine (declareOwner_numbers sc rfl _ _).bind fun (id, members) => ?_
    refine (qualifiedName_numbers id).bind fun full => ?_
    refine ⟨fun blank run => ?_⟩
    obtain ⟨k, s₁, numbered, run⟩ := bind_ok run
    obtain ⟨_, s₂, typed, run⟩ := bind_ok run
    refine Numbers.run ?_ (classType_blank blank numbered typed) run
    refine Numbers.bind (.note (fun _ => rfl) (fun _ => rfl) fun _ => rfl) fun _ => ?_
    refine Numbers.bind (.note (fun _ => rfl) (fun _ => rfl) fun _ => rfl) fun _ => ?_
    exact .forM fun i => declareItem_numbers members i
  | .abstraction _ name _ fs => by
    refine (declareOwner_numbers sc rfl _ _).bind fun (_, members) => ?_
    refine (Numbers.forM fun f => declareFunc_numbers members f).bind fun _ => ?_
    exact .note (fun _ => rfl) (fun _ => rfl) fun _ => rfl
  | .attributeDef _ name _ _ =>
    (alloc_numbers fun t typed => by cases typed).bind fun id => declare_numbers sc id _
  | .includes _ _ _ _ | .refurbish _ _ _ => .pure

theorem declareDecls_numbers (sc : ScopeId) : (ds : List Decl) → Numbers (declareDecls sc ds)
  | [] => .pure
  | d :: ds => (declareDecl_numbers sc d).bind fun _ => declareDecls_numbers sc ds

end

end Resolution

end TastyLang
