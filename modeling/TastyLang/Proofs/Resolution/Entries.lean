import TastyLang.Proofs.Resolution.Keys
import TastyLang.Proofs.Resolution.Resolving

/-!
# Entries

What the third pass notes about a node stands under the key of the node (`State.entry`). Most of its
steps resolve no function, settle no type and touch a few keys only (`State.Quiet`).
-/

namespace TastyLang.Resolution

/-! ### Entries -/

/-- What is noted under a key. -/
structure Entry where
  type : Option Ty := none
  named : Option Unit := none
  use : Option SymbolId := none
  access : Option Access := none
  call : Option ExtensionCall := none
  written : Option Ty := none
  var : Option SymbolId := none
  /-- the symbols that stand for the variable, with their types -/
  held : SymbolId → Option (Option Ty) := fun _ => none

/-- The type of a symbol, if the symbol stands for the variable. -/
def State.held (s : State) (span : Span) (id : SymbolId) : Option (Option Ty) :=
  if (s.info.symbols.symbol id).origin = .var span then some (s.info.symbols.symbol id).type else none

def State.entry (s : State) : Key → Entry
  | .expr k => {
    type := s.info.types[k]?, named := s.info.typeNames[k]?, use := s.info.uses[k]?
    access := s.info.access[k]?, call := s.info.extensionCalls[k]? }
  | .type k => { written := s.info.typeExprs[k]? }
  | .var k => { var := s.info.vars[k]?, held := s.held k }

/-- The keys whose entries a change may touch. -/
def Change.keys : Change → List Key
  | expr span _ | typeName span | use span _ | access span _ | call span _ => [.expr span]
  | written span _ => [.type span]
  | var span _ => [.var span]
  | _ => []

/-- The change leaves functions alone and settles no variable's type. -/
def Change.Mild : Change → Prop
  | alloc x => ∀ span, x.origin ≠ .var span
  | type _ _ | extended _ | func _ _ | phase _ _ => False
  | _ => True

theorem getElem?_insert_of_ne {α : Type} {m : SpanMap α} {k span : Span} {v : α} (h : k ≠ span) :
    (m.insert span v)[k]? = m[k]? := by
  have apart : compare span k ≠ .eq := fun same => h (Std.LawfulEqOrd.eq_of_compare same).symm
  rw [Std.TreeMap.getElem?_insert, if_neg apart]

section
variable {s s' : State}

/-- Symbols keep their origins, and their types unless a type is settled. -/
theorem Change.Mild.symbol {c : Change} (mild : c.Mild) (id : SymbolId) :
    ((c.apply s).info.symbols.symbol id).origin = (s.info.symbols.symbol id).origin ∧
      ((c.apply s).info.symbols.symbol id).type = (s.info.symbols.symbol id).type ∨
    id = s.info.symbols.symbols.size ∧ ∃ x, c = .alloc x := by
  cases c with
  | alloc x =>
    have symbol := s.info.symbols.symbol_alloc x id
    by_cases new : id = s.info.symbols.symbols.size
    · exact .inr ⟨new, x, rfl⟩
    · rw [if_neg new] at symbol
      exact .inl ⟨congrArg Symbol.origin symbol, congrArg Symbol.type symbol⟩
  | declare sc i =>
    refine .inl ?_
    change ((SymbolTable.entered _ _ _).symbol id).origin = _ ∧
      ((SymbolTable.entered _ _ _).symbol id).type = _
    rw [SymbolTable.symbol_entered]
    split <;> exact ⟨rfl, rfl⟩
  | members i m =>
    refine .inl ?_
    change ((SymbolTable.modifySymbol _ _ _).symbol id).origin = _ ∧
      ((SymbolTable.modifySymbol _ _ _).symbol id).type = _
    rw [SymbolTable.symbol_modifySymbol]
    split <;> exact ⟨rfl, rfl⟩
  | type _ _ | extended _ | func _ _ | phase _ _ => exact absurd mild not_false
  | _ => exact .inl ⟨rfl, rfl⟩

theorem Change.Mild.size {c : Change} (mild : c.Mild) :
    s.info.symbols.symbols.size ≤ (c.apply s).info.symbols.symbols.size := by
  cases c with
  | alloc x => exact Nat.le_trans (Nat.le_succ _) (Nat.le_of_eq (Array.size_push x).symm)
  | declare sc i => exact Nat.le_of_eq Array.size_modify.symm
  | members i m => exact Nat.le_of_eq Array.size_modify.symm
  | type _ _ | extended _ | func _ _ | phase _ _ => exact absurd mild not_false
  | _ => exact Nat.le_refl _

theorem State.held_size (span : Span) : s.held span s.info.symbols.symbols.size = none := by
  have blank : s.info.symbols.symbol s.info.symbols.symbols.size = default := by
    simp [SymbolTable.symbol]
  rw [held, blank, if_neg (by rintro ⟨⟩)]

theorem Change.Mild.held {c : Change} (mild : c.Mild) (span : Span) :
    (c.apply s).held span = s.held span := by
  funext id
  unfold State.held
  rcases mild.symbol (s := s) id with ⟨origin, type⟩ | ⟨rfl, x, rfl⟩
  · rw [origin, type]
  · have symbol := s.info.symbols.symbol_alloc x s.info.symbols.symbols.size
    rw [if_pos rfl] at symbol
    change (if ((s.info.symbols.alloc x).1.symbol _).origin = _ then _ else _) = _
    rw [symbol, if_neg (mild span)]
    exact (State.held_size span).symm

theorem Change.entry {c : Change} (mild : c.Mild) {k : Key} (away : k ∉ c.keys) :
    (c.apply s).entry k = s.entry k := by
  have held := fun span => mild.held (s := s) span
  cases c with
  | expr span _ | typeName span | use span _ | access span _ | call span _ =>
    cases k with
    | expr k =>
      have differ : k ≠ span := fun same => away (by rw [same]; exact List.mem_singleton_self _)
      simp only [State.entry, apply, getElem?_insert_of_ne differ]
    | type k | var k => rfl
  | written span _ =>
    cases k with
    | type k =>
      have differ : k ≠ span := fun same => away (by rw [same]; exact List.mem_singleton_self _)
      simp only [State.entry, apply, getElem?_insert_of_ne differ]
    | expr k | var k => rfl
  | var span _ =>
    cases k with
    | var k =>
      have differ : k ≠ span := fun same => away (by rw [same]; exact List.mem_singleton_self _)
      change ({ var := (s.info.vars.insert span _)[k]?, held := s.held k } : Entry) = _
      rw [getElem?_insert_of_ne differ]
      rfl
    | expr k | type k => rfl
  | type _ _ | extended _ | func _ _ | phase _ _ => exact absurd mild not_false
  | _ =>
    cases k with
    | var k => exact congrArg (Entry.mk _ _ _ _ _ _ _) (held k)
    | expr k | type k => rfl

end

/-! ### Steps without functions -/

structure State.Quiet (own : List Key) (s s' : State) : Prop where
  entry : ∀ k ∉ own, s'.entry k = s.entry k
  funcs : s'.funcs = s.funcs
  size : s.info.symbols.symbols.size ≤ s'.info.symbols.symbols.size
  origin : ∀ id < s.info.symbols.symbols.size,
    (s'.info.symbols.symbol id).origin = (s.info.symbols.symbol id).origin
  held : ∀ span, s'.held span = s.held span

variable {own own' : List Key} {s s' s'' : State}

theorem State.Quiet.refl (own : List Key) (s : State) : s.Quiet own s :=
  ⟨fun _ _ => rfl, rfl, Nat.le_refl _, fun _ _ => rfl, fun _ => rfl⟩

theorem State.Quiet.trans (h : s.Quiet own s') (h' : s'.Quiet own s'') : s.Quiet own s'' where
  entry k away := (h'.entry k away).trans (h.entry k away)
  funcs := h'.funcs.trans h.funcs
  size := Nat.le_trans h.size h'.size
  origin id lt := (h'.origin id (Nat.lt_of_lt_of_le lt h.size)).trans (h.origin id lt)
  held span := (h'.held span).trans (h.held span)

theorem State.Quiet.mono (h : s.Quiet own s') (more : ∀ k ∈ own, k ∈ own') : s.Quiet own' s' :=
  { h with entry := fun k away => h.entry k fun member => away (more k member) }

theorem Change.quiet {c : Change} (mild : c.Mild) : s.Quiet c.keys (c.apply s) := by
  refine ⟨fun k away => Change.entry mild away, ?_, mild.size, fun id lt => ?_, mild.held⟩
  · cases c with
    | type _ _ | extended _ | func _ _ | phase _ _ => exact absurd mild not_false
    | _ => rfl
  · obtain ⟨origin, -⟩ | ⟨rfl, -⟩ := mild.symbol (s := s) id
    · exact origin
    · exact absurd lt (Nat.lt_irrefl _)

variable {α β : Type} {m : Resolver α}

/-- Every run of `m` resolves no function and touches the keys `own` at most. -/
structure Quiet (own : List Key) (m : Resolver α) : Prop where
  run {s a s'} : m s = .ok (a, s') → s.Quiet own s'

namespace Quiet

theorem pure {a : α} : Quiet own (pure a) := by
  refine ⟨fun {s a s'} run => ?_⟩
  cases run
  exact .refl _ _

theorem bind {f : α → Resolver β} (first : Quiet own m) (rest : ∀ a, Quiet own (f a)) :
    Quiet own (m >>= f) := by
  refine ⟨fun {s a s'} run => ?_⟩
  obtain ⟨a, s₁, ran, run⟩ := bind_ok run
  exact (first.run ran).trans ((rest a).run run)

theorem get : Quiet own (get : Resolver State) := by
  refine ⟨fun {s a s'} run => ?_⟩
  cases run
  exact .refl _ _

theorem mono (h : Quiet own m) (more : ∀ k ∈ own, k ∈ own') : Quiet own' m :=
  ⟨fun run => (h.run run).mono more⟩

theorem change {f : State → State} (c : Change) (same : ∀ s, f s = c.apply s) (mild : c.Mild) :
    Quiet c.keys (modify f) := by
  refine ⟨fun {s _ s'} run => ?_⟩
  cases run
  rw [same]
  exact c.quiet mild

theorem change' {f : State → State} (c : Change) (mild : c.Mild) (plain : c.keys = [])
    (same : ∀ s, f s = c.apply s) : Quiet own (modify f) :=
  (change c same mild).mono (by simp [plain])

end Quiet

theorem alloc_quiet {x : Symbol} (other : ∀ span, x.origin ≠ .var span) : Quiet own (alloc x) := by
  refine ⟨fun {s _ s'} run => ?_⟩
  cases (alloc_run x s).symm.trans run
  exact (Change.quiet (c := .alloc x) other).mono (by simp [Change.keys])

theorem declare_quiet (sc : ScopeId) (id : SymbolId) (pos : Pos) : Quiet own (declare sc id pos) := by
  refine ⟨fun {s _ s'} run => ?_⟩
  obtain ⟨t, declared, rfl⟩ := declare_run run
  obtain ⟨rfl, -⟩ := SymbolTable.declare_ok declared
  exact (Change.quiet (c := .declare sc id) trivial).mono (by simp [Change.keys])

theorem newScope_quiet (parent : Option ScopeId) (kind : ScopeKind) (owner : Option SymbolId) :
    Quiet own (newScope parent kind owner) := by
  refine ⟨fun {s _ s'} run => ?_⟩
  cases (newScope_run parent kind owner s).symm.trans run
  exact (Change.quiet (c := .child parent kind owner) trivial).mono (by simp [Change.keys])

variable {p : Place}

theorem bind_quiet (name : String) : Quiet own (bind p name) := by
  refine Quiet.get.bind fun s => ?_
  dsimp only
  split
  · exact .pure
  · split <;> exact alloc_quiet fun _ h => by cases h

theorem loopVar_quiet (span : Span) (name : String) (t : Ty) :
    Quiet own (loopVar p span name t) := by
  refine (newScope_quiet _ _ _).bind fun sc => ?_
  refine (alloc_quiet fun _ h => by cases h).bind fun id => ?_
  refine (declare_quiet sc id span.start).bind fun _ => ?_
  exact (Quiet.change' (.loopVar span id) trivial rfl fun _ => rfl).bind fun _ => .pure

theorem typeExpr_written {te : TypeExpr} {t : Ty} (run : typeExpr p te s = .ok (t, s')) :
    s'.info.typeExprs[te.span]? = some t := by
  have last : ∀ {span : Span} {u : Ty} {s₁ : State}, noteType span u s₁ = .ok (t, s') →
      s'.info.typeExprs[span]? = some t := by
    intro span u s₁ run
    cases run
    exact Std.TreeMap.getElem?_insert_self
  cases te with
  | tuple span elems stars =>
    obtain ⟨ts, s₁, -, run⟩ := bind_ok run
    exact last run
  | func span params result stars =>
    cases result <;>
    · obtain ⟨ts, s₁, -, run⟩ := bind_ok run
      obtain ⟨r, s₂, -, run⟩ := bind_ok run
      exact last run
  | named span name args stars =>
    obtain ⟨t, s₁, -, run⟩ := bind_ok run
    obtain ⟨ts, s₂, -, run⟩ := bind_ok run
    exact last run

end TastyLang.Resolution
