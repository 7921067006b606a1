import TastyLang.Proofs.Resolution.Entries
import TastyLang.Proofs.Resolution.Expressions
import TastyLang.Proofs.Resolution.Walks

/-!
# What the third pass leaves of a node

While the third pass goes over some nodes it notes them, and it touches the entries of these alone and
those of the functions that it enters (`State.Steps`). So what it finds out about a node is what is known
in the end (`State.Visited`). `Visits sc own ns m` says so of every run of `m` in the scope `sc`, which goes
over the nodes `ns` and may touch the keys `own` besides.
-/

namespace TastyLang

/-- The keys that are spoken of when a node is visited. -/
def Node.keys : Node → List Key
  | .expr (.call span (.member _ x _ _) _) => [.expr span, .expr x.span]
  | .expr (.ident span _) => [.expr span]
  | .expr (.new span te _) => [.expr span, .type te.span]
  | .type t => [.type t.span]
  | .var d =>
    .var d.info.span :: ((d.type.map fun t => Key.type t.span).toList ++
      (d.value.map fun v => Key.expr v.span).toList)
  | _ => []

/-- The head of a statement or of a block, of which nothing is noted. -/
def Node.Silent : Node → Prop
  | .stmt (.each _ _ _ _ _) => False
  | .stmt _ | .block _ => True
  | _ => False

namespace Resolution

variable {table : Table} {file : File} {s s' s'' : State} {own own' : List Key} {ns ns' : List Node}
  {sc : ScopeId} {p : Place}

/-! ### Variables -/

/-- Symbols stay those of their declarations. A symbol of a variable with a written type keeps the type
that it is made with. -/
structure State.Firm (file : File) (s s' : State) : Prop where
  size : s.info.symbols.symbols.size ≤ s'.info.symbols.symbols.size
  origin : ∀ id < s.info.symbols.symbols.size,
    (s'.info.symbols.symbol id).origin = (s.info.symbols.symbol id).origin
  held : ∀ d, .var d ∈ file.nodes → d.type ≠ none → ∀ id,
    s'.held d.info.span id = s.held d.info.span id ∨
      s.held d.info.span id = none ∧ ∃ t, s'.held d.info.span id = some (some t)

theorem State.Firm.refl (s : State) : s.Firm file s :=
  ⟨Nat.le_refl _, fun _ _ => rfl, fun _ _ _ _ => .inl rfl⟩

theorem State.Firm.trans (h : s.Firm file s') (h' : s'.Firm file s'') : s.Firm file s'' where
  size := Nat.le_trans h.size h'.size
  origin id lt := (h'.origin id (Nat.lt_of_lt_of_le lt h.size)).trans (h.origin id lt)
  held d node written id := by
    rcases h'.held d node written id with same | ⟨none, t, made⟩
    · rw [same]
      exact h.held d node written id
    · rcases h.held d node written id with same | ⟨-, t', made'⟩
      · exact .inr ⟨same.symm.trans none, t, made⟩
      · cases none.symm.trans made'

theorem State.Quiet.firm (h : s.Quiet own s') : s.Firm file s' :=
  ⟨h.size, h.origin, fun _ _ _ id => .inl (congrFun (h.held _) id)⟩

variable {id : SymbolId}

theorem State.Firm.type_of_held {span : Span} (firm : s.Firm file s')
    (lt : id < s.info.symbols.symbols.size) (origin : (s.info.symbols.symbol id).origin = .var span)
    (same : s'.held span id = s.held span id) :
    (s'.info.symbols.symbol id).type = (s.info.symbols.symbol id).type := by
  unfold State.held at same
  rw [if_pos origin, if_pos ((firm.origin id lt).trans origin)] at same
  exact Option.some.inj same

theorem State.Firm.type {span : Span} (firm : s.Firm file s')
    (lt : id < s.info.symbols.symbols.size) (origin : (s.info.symbols.symbol id).origin = .var span)
    (same : s'.entry (.var span) = s.entry (.var span)) :
    (s'.info.symbols.symbol id).type = (s.info.symbols.symbol id).type :=
  firm.type_of_held lt origin (congrFun (congrArg Entry.held same) id)

variable {d : VarDecl}

theorem State.Firm.type_of_written (firm : s.Firm file s') (node : .var d ∈ file.nodes)
    (written : d.type ≠ none) (lt : id < s.info.symbols.symbols.size)
    (origin : (s.info.symbols.symbol id).origin = .var d.info.span) :
    (s'.info.symbols.symbol id).type = (s.info.symbols.symbol id).type := by
  rcases firm.held d node written id with same | ⟨none, -⟩
  · exact firm.type_of_held lt origin same
  · rw [State.held, if_pos origin] at none
    cases none

/-- The symbols of variables are known to be theirs. -/
def State.Rooted (s : State) : Prop :=
  ∀ (span : Span) (id : SymbolId), s.info.vars[span]? = some id →
    id < s.info.symbols.symbols.size ∧ (s.info.symbols.symbol id).origin = .var span

theorem State.Quiet.rooted (h : s.Quiet own s') (plain : ∀ span, .var span ∉ own) (rooted : s.Rooted) :
    s'.Rooted := by
  intro span id found
  have same : s'.info.vars[span]? = s.info.vars[span]? :=
    congrArg Entry.var (h.entry (.var span) (plain span))
  obtain ⟨lt, origin⟩ := rooted span id (same ▸ found)
  exact ⟨Nat.lt_of_lt_of_le lt h.size, (h.origin id lt).trans origin⟩

/-- The symbol has the type that is written for the variable, or inferred from its value. -/
structure State.Carries (s : State) (d : VarDecl) (id : SymbolId) : Prop where
  written : ∀ te, d.type = some te → ∃ t, s.info.typeExprs[te.span]? = some t ∧
    (s.info.symbols.symbol id).type = some (d.storage.typeOf t)
  inferred : d.type = none → (s.info.symbols.symbol id).type =
    some (inferredType d.storage (d.value.map fun v => (v, s.info.typeOf v)))

theorem State.Carries.typed (h : s.Carries d id) :
    (s.info.symbols.symbol id).type.isSome := by
  cases given : d.type with
  | none => rw [h.inferred given]; rfl
  | some te =>
    obtain ⟨t, -, type⟩ := h.written te given
    rw [type]
    rfl

theorem State.Carries.kept (h : s.Carries d id) (firm : s.Firm file s')
    (lt : id < s.info.symbols.symbols.size)
    (origin : (s.info.symbols.symbol id).origin = .var d.info.span)
    (same : ∀ k ∈ (Node.var d).keys, s'.entry k = s.entry k) : s'.Carries d id := by
  have type := firm.type lt origin (same _ List.mem_cons_self)
  refine ⟨fun te written => ?_, fun none => ?_⟩
  · obtain ⟨t, noted, held⟩ := h.written te written
    have kept : s'.entry (.type te.span) = s.entry (.type te.span) :=
      same _ (by simp [Node.keys, written])
    exact ⟨t, (congrArg Entry.written kept).trans noted, type.trans held⟩
  · rw [type, h.inferred none]
    cases value : d.value with
    | none => rfl
    | some v =>
      have kept : s'.entry (.expr v.span) = s.entry (.expr v.span) :=
        same _ (by simp [Node.keys, value])
      have known : s'.info.types[v.span]? = s.info.types[v.span]? := congrArg Entry.type kept
      have typed : s'.info.typeOf v = s.info.typeOf v := by
        simp only [Info.typeOf, Std.TreeMap.getD_eq_getD_getElem?, known]
      rw [Option.map_some, Option.map_some, typed]

/-! ### Nodes that were visited -/

/-- The third pass gets from one state to the other. -/
structure State.Reaches (table : Table) (file : File) (s s' : State) : Prop where
  run : s.Run (resolving table file).may s'
  firm : s.Firm file s'

theorem State.Reaches.refl (s : State) : s.Reaches table file s := ⟨.refl s, .refl s⟩

theorem State.Reaches.trans (h : s.Reaches table file s') (h' : s'.Reaches table file s'') :
    s.Reaches table file s'' := ⟨h.run.trans h'.run, h.firm.trans h'.firm⟩

/-- Between two states a node was visited, and its entries are as they were left then. -/
def State.Visited (table : Table) (file : File) (s s' : State) : Node → Prop
  | .expr (.call span (.member _ x name _) _) =>
    ∃ p receiver s₁, s.Reaches table file s₁ ∧ s₁.info.types[x.span]? = some receiver ∧
      s'.entry (.expr x.span) = s₁.entry (.expr x.span) ∧ s₁.Admits p x name receiver ∧
      (s'.entry (.expr span)).call =
        (s₁.extensionCall? x name receiver).or (s.entry (.expr span)).call
  | .expr (.ident span _) =>
    ∃ id t s₁, s.Reaches table file s₁ ∧ id < s₁.info.symbols.symbols.size ∧
      s₁.Reaches table file s' ∧ s'.info.uses[span]? = some id ∧ s'.info.types[span]? = some t ∧
      ((s₁.info.symbols.symbol id).kind = .var →
        t = (s₁.info.symbols.symbol id).type.getD (.unknown "") ∧
        s'.info.typeNames[span]? = s.info.typeNames[span]?)
  | .type te =>
    ∃ p t s₁ s₂, p.table = table ∧ s.Reaches table file s₁ ∧ typeExpr p te s₁ = .ok (t, s₂) ∧
      s₂.Reaches table file s' ∧ s'.info.typeExprs[te.span]? = some t
  | .expr (.new span te _) =>
    ∃ t, s'.info.typeExprs[te.span]? = some t ∧ s'.info.types[span]? = some (t.pointerTo 1)
  | .var d =>
    ∃ id, s'.info.vars[d.info.span]? = some id ∧ id < s'.info.symbols.symbols.size ∧
      (s'.info.symbols.symbol id).origin = .var d.info.span ∧ s'.Carries d id
  | _ => True

variable {n : Node}

theorem State.Visited.before (reach : s.Reaches table file s')
    (same : ∀ k ∈ n.keys, s'.entry k = s.entry k) (h : s'.Visited table file s'' n) :
    s.Visited table file s'' n := by
  unfold State.Visited at h ⊢
  split at h
  · obtain ⟨p, receiver, s₁, reach₁, typed, kept, admits, call⟩ := h
    refine ⟨p, receiver, s₁, reach.trans reach₁, typed, kept, admits, call.trans ?_⟩
    rw [same _ (by simp [Node.keys])]
  · obtain ⟨id, t, s₁, reach₁, lt, reach₂, used, typed, value⟩ := h
    have entry := congrArg Entry.named (same _ (List.mem_singleton_self _))
    exact ⟨id, t, s₁, reach.trans reach₁, lt, reach₂, used, typed,
      fun kind => ⟨(value kind).1, (value kind).2.trans entry⟩⟩
  · obtain ⟨p, t, s₁, s₂, own, reach₁, rest⟩ := h
    exact ⟨p, t, s₁, s₂, own, reach.trans reach₁, rest⟩
  · exact h
  · exact h
  · trivial

theorem State.Visited.after (h : s.Visited table file s' n) (reach : s'.Reaches table file s'')
    (same : ∀ k ∈ n.keys, s''.entry k = s'.entry k) :
    s.Visited table file s'' n := by
  unfold State.Visited at h ⊢
  split at h
  · next span at' x name accessor args =>
    obtain ⟨p, receiver, s₁, reach₁, typed, kept, admits, call⟩ := h
    refine ⟨p, receiver, s₁, reach₁, typed, ?_, admits, ?_⟩
    · exact (same _ (by simp [Node.keys])).trans kept
    · exact (congrArg Entry.call (same (.expr span) (by simp [Node.keys]))).trans call
  · next span name =>
    obtain ⟨id, t, s₁, reach₁, lt, reach₂, used, typed, value⟩ := h
    have entry : s''.entry (.expr span) = s'.entry (.expr span) := same _ (List.mem_singleton_self _)
    exact ⟨id, t, s₁, reach₁, lt, reach₂.trans reach, (congrArg Entry.use entry).trans used,
      (congrArg Entry.type entry).trans typed,
      fun kind => ⟨(value kind).1, (congrArg Entry.named entry).trans (value kind).2⟩⟩
  · next te =>
    obtain ⟨p, t, s₁, s₂, own, reach₁, run, reach₂, written⟩ := h
    have entry : s''.entry (.type te.span) = s'.entry (.type te.span) :=
      same _ (List.mem_singleton_self _)
    exact ⟨p, t, s₁, s₂, own, reach₁, run, reach₂.trans reach, (congrArg Entry.written entry).trans written⟩
  · next span te args =>
    obtain ⟨t, written, typed⟩ := h
    have entry : s''.entry (.expr span) = s'.entry (.expr span) := same _ (by simp [Node.keys])
    have entry' : s''.entry (.type te.span) = s'.entry (.type te.span) := same _ (by simp [Node.keys])
    exact ⟨t, (congrArg Entry.written entry').trans written, (congrArg Entry.type entry).trans typed⟩
  · next d =>
    obtain ⟨id, found, lt, origin, typed⟩ := h
    have entry : s''.entry (.var d.info.span) = s'.entry (.var d.info.span) :=
      same _ List.mem_cons_self
    exact ⟨id, (congrArg Entry.var entry).trans found, Nat.lt_of_lt_of_le lt reach.firm.size,
      (reach.firm.origin id lt).trans origin, typed.kept reach.firm lt origin same⟩
  · trivial

/-! ### Steps of the third pass -/

/-- The function is noted and not resolved yet. -/
def State.Waits (s : State) (span : Span) (st : FuncState) : Prop :=
  s.funcs[span]? = some st ∧ st.phase = .fresh

/-- Between two states the function was resolved. -/
def State.Enters (s s' : State) (span : Span) (st : FuncState) : Prop :=
  s.Waits span st ∧ ¬ s'.Waits span st

/-- All of the nodes were visited and noted, and no other keys than theirs were spoken of. -/
def State.VisitedAll (table : Table) (file : File) (s s' : State) (ns : List Node) : Prop :=
  ∀ n ∈ ns, (∀ k ∈ n.keys, k ∈ keysOf ns) ∧ s.Visited table file s' n ∧ s'.Noted file n

/-- What going over some nodes does to a state. -/
structure State.Steps (table : Table) (file : File) (own : List Key) (ns : List Node) (s s' : State) :
    Prop where
  reaches : s.Reaches table file s'
  rooted : s'.Rooted
  waits : ∀ span st, s'.Waits span st → s.Waits span st
  active : ∀ span, s'.isActive span → s.isActive span
  entry : ∀ k ∉ own, k ∉ keysOf ns → (∀ span st, s.Enters s' span st → k ∉ keysOf st.decl.late) →
    s'.entry k = s.entry k
  visited : s.VisitedAll table file s' ns
  entered : ∀ span st, s.Enters s' span st → s.VisitedAll table file s' st.decl.late

/-- A state in which the third pass can go over some nodes: they are not those of a function that
waits to be resolved. -/
structure State.Open (table : Table) (file : File) (sc : ScopeId) (own : List Key) (ns : List Node)
    (s : State) : Prop where
  zoned : file.Zoned
  ready : (resolving table file).Ready sc s
  rooted : s.Rooted
  once : (keysOf ns).Nodup
  away : ∀ k ∈ own, k ∉ keysOf ns
  apart : ∀ span st, s.Waits span st → ∀ k ∈ keysOf st.decl.late, k ∉ own ∧ k ∉ keysOf ns

theorem State.Open.first (h : s.Open table file sc own (ns ++ ns')) : s.Open table file sc own ns := by
  obtain ⟨zoned, ready, rooted, once, away, apart⟩ := h
  simp only [keysOf_append, List.mem_append, not_or] at once away apart
  exact ⟨zoned, ready, rooted, (List.nodup_append.mp once).1, fun k member => (away k member).1,
    fun span st waits k member => ⟨(apart span st waits k member).1, (apart span st waits k member).2.1⟩⟩

theorem State.Open.second (h : s.Open table file sc own (ns ++ ns'))
    (steps : s.Steps table file own ns s') : s'.Open table file sc own ns' := by
  obtain ⟨zoned, ready, rooted, once, away, apart⟩ := h
  simp only [keysOf_append, List.mem_append, not_or] at once away apart
  refine ⟨zoned, ready.run steps.reaches.run, steps.rooted,
    (List.nodup_append.mp once).2.1,
    fun k member => (away k member).2, fun span st waits k member => ?_⟩
  have before := apart span st (steps.waits span st waits) k member
  exact ⟨before.1, before.2.2⟩

theorem State.Open.idle (h : s.Open table file sc own ns) : s.Open table file sc own [] :=
  (show s.Open table file sc own ([] ++ ns) from h).first

theorem State.Open.after (h : s.Open table file sc own ns) (steps : s.Steps table file own [] s') :
    s'.Open table file sc own ns :=
  (show s.Open table file sc own ([] ++ ns) from h).second steps

theorem State.Open.fewer (h : s.Open table file sc own' ns) (fewer : ∀ k ∈ own, k ∈ own') :
    s.Open table file sc own ns :=
  { h with
    away := fun k member => h.away k (fewer k member)
    apart := fun span st waits k member =>
      ⟨fun own => (h.apart span st waits k member).1 (fewer k own), (h.apart span st waits k member).2⟩ }

variable {k : Key}

theorem keysOf_own (key : n.key? = some k) : keysOf (n :: ns) = k :: keysOf ns := by
  rw [keysOf_cons, key]
  rfl

theorem State.Open.parts (key : n.key? = some k)
    (h : s.Open table file sc own (n :: ns)) : s.Open table file sc (k :: own) ns := by
  obtain ⟨zoned, ready, rooted, once, away, apart⟩ := h
  rw [keysOf_own key] at once away apart
  obtain ⟨other, once⟩ := List.nodup_cons.mp once
  simp only [List.mem_cons, not_or] at away apart
  refine ⟨zoned, ready, rooted, once, ?_,
    fun span st waits k' member => ?_⟩
  · simpa [other] using fun k own => (away k own).2
  · obtain ⟨outside, differ, other⟩ := apart span st waits k' member
    simp [outside, differ, other]

theorem State.VisitedAll.append {ns ns' : List Node} (h : s.VisitedAll table file s' ns)
    (h' : s.VisitedAll table file s' ns') : s.VisitedAll table file s' (ns ++ ns') := by
  intro n member
  rw [keysOf_append]
  rcases List.mem_append.mp member with member | member
  · exact ⟨fun k own => List.mem_append_left _ ((h n member).1 k own), (h n member).2⟩
  · exact ⟨fun k own => List.mem_append_right _ ((h' n member).1 k own), (h' n member).2⟩

theorem State.VisitedAll.before (reach : s.Reaches table file s')
    (same : ∀ k ∈ keysOf ns, s'.entry k = s.entry k) (h : s'.VisitedAll table file s'' ns) :
    s.VisitedAll table file s'' ns :=
  fun n member => ⟨(h n member).1,
    (h n member).2.1.before reach fun k own => same k ((h n member).1 k own), (h n member).2.2⟩

theorem State.VisitedAll.after (h : s.VisitedAll table file s' ns) (formed : s'.Formed file)
    (reach : s'.Reaches table file s'') (same : ∀ k ∈ keysOf ns, s''.entry k = s'.entry k) :
    s.VisitedAll table file s'' ns :=
  fun n member => ⟨(h n member).1, (h n member).2.1.after reach
    fun k own => same k ((h n member).1 k own), Regime.noted formed reach.run (h n member).2.2⟩

theorem Formed.zones (zoned : file.Zoned) (formed : s.Formed file) {span span' : Span}
    {st st' : FuncState} (found : s.funcs[span]? = some st) (found' : s.funcs[span']? = some st')
    (differ : span ≠ span') : ∀ k ∈ keysOf st.decl.late, k ∉ keysOf st'.decl.late := by
  obtain ⟨listed, own, -⟩ := formed.funcs span st found
  obtain ⟨listed', own', -⟩ := formed.funcs span' st' found'
  refine zoned.apart _ listed _ listed' fun same => differ ?_
  rw [← own, ← own', same]

theorem State.Steps.trans (opened : s.Open table file sc own (ns ++ ns'))
    (h : s.Steps table file own ns s') (h' : s'.Steps table file own ns' s'') :
    s.Steps table file own (ns ++ ns') s'' := by
  have formed := opened.ready.formed
  have later := (opened.ready.run h.reaches.run).formed
  obtain ⟨zoned, -, -, once, away, apart⟩ := opened
  simp only [keysOf_append, List.mem_append, not_or] at once away apart
  have disjoint := (List.nodup_append.mp once).2.2
  have early : ∀ span st, s.Enters s' span st → s.Enters s'' span st := fun span st enters =>
    ⟨enters.1, fun waits => enters.2 (h'.waits span st waits)⟩
  have late : ∀ span st, s'.Enters s'' span st → s.Enters s'' span st := fun span st enters =>
    ⟨h.waits span st enters.1, enters.2⟩
  -- a function that waits is not touched by the nodes, nor by another function
  have spared : ∀ {span st span' st'}, s.Waits span st → s.Waits span' st' → span ≠ span' →
      ∀ k ∈ keysOf st.decl.late, k ∉ keysOf st'.decl.late := fun waits waits' differ =>
    Formed.zones zoned formed waits.1 waits'.1 differ
  refine ⟨h.reaches.trans h'.reaches, h'.rooted, fun span st waits => h.waits span st (h'.waits span st waits),
    fun span active => h.active span (h'.active span active), fun k outside others entered => ?_, .append ?_ ?_, fun span st enters => ?_⟩
  · simp only [keysOf_append, List.mem_append, not_or] at others
    rw [h'.entry k outside others.2 fun span st enters => entered span st (late span st enters)]
    exact h.entry k outside others.1 fun span st enters => entered span st (early span st enters)
  · refine h.visited.after later h'.reaches
      fun k member => h'.entry k (fun own => (away k own).1 member)
        (fun there => disjoint k member k there rfl) fun span st enters there => ?_
    exact (apart span st (h.waits span st enters.1) k there).2.1 member
  · refine h'.visited.before h.reaches fun k member => h.entry k (fun own => (away k own).2 member)
      (fun here => disjoint k here k member rfl) fun span st enters there => ?_
    exact (apart span st enters.1 k there).2.2 member
  · by_cases waits : s'.Waits span st
    · refine (h'.entered span st ⟨waits, enters.2⟩).before h.reaches fun k member => ?_
      have outside := apart span st enters.1 k member
      refine h.entry k outside.1 outside.2.1 fun span' st' enters' => ?_
      refine spared enters.1 enters'.1 (fun same => enters'.2 ?_) k member
      subst same
      obtain rfl : st' = st := Option.some.inj (enters'.1.1.symm.trans enters.1.1)
      exact waits
    · refine (h.entered span st ⟨enters.1, waits⟩).after later h'.reaches fun k member => ?_
      have outside := apart span st enters.1 k member
      refine h'.entry k outside.1 outside.2.2 fun span' st' enters' => ?_
      refine spared enters.1 (h.waits span' st' enters'.1) (fun same => waits ?_) k member
      subst same
      obtain rfl : st' = st :=
        Option.some.inj ((h.waits span st' enters'.1).1.symm.trans enters.1.1)
      exact enters'.1

theorem State.Steps.after (h : s.Steps table file own [] s') (opened : s.Open table file sc own ns)
    (h' : s'.Steps table file own ns s'') : s.Steps table file own ns s'' :=
  State.Steps.trans (show s.Open table file sc own ([] ++ ns) from opened) h h'

theorem State.Steps.before (h : s.Steps table file own ns s') (opened : s.Open table file sc own ns)
    (h' : s'.Steps table file own [] s'') : s.Steps table file own ns s'' := by
  have whole : s.Open table file sc own (ns ++ []) := by rwa [List.append_nil]
  simpa using State.Steps.trans whole h h'

theorem State.Steps.more (h : s.Steps table file own ns s') (more : ∀ k ∈ own, k ∈ own') :
    s.Steps table file own' ns s' :=
  { h with entry := fun k outside => h.entry k fun member => outside (more k member) }

theorem State.Steps.refl (opened : s.Open table file sc own []) : s.Steps table file own [] s :=
  ⟨.refl s, opened.rooted, fun _ _ waits => waits, fun _ active => active, fun _ _ _ _ => rfl,
    List.forall_mem_nil _, fun _ _ enters => absurd enters.1 enters.2⟩

theorem State.Steps.of_frame (reaches : s.Reaches table file s') (rooted : s'.Rooted)
    (funcs : s'.funcs = s.funcs) (entry : ∀ k ∉ own, s'.entry k = s.entry k) :
    s.Steps table file own [] s' := by
  have same : ∀ span st, s'.Waits span st ↔ s.Waits span st := by
    intro span st
    rw [State.Waits, funcs, State.Waits]
  have active : ∀ span, s'.isActive span → s.isActive span := fun span active => by
    rwa [State.isActive, funcs] at active
  exact ⟨reaches, rooted, fun span st waits => (same span st).mp waits, active, fun k away _ _ => entry k away,
    List.forall_mem_nil _,
    fun span st enters => absurd ((same span st).mpr enters.1) enters.2⟩

theorem State.Steps.of_quiet (opened : s.Open table file sc own ns)
    (run : s.Run (resolving table file).may s') (quiet : s.Quiet own s')
    (plain : ∀ span, .var span ∉ own) : s.Steps table file own [] s' :=
  .of_frame ⟨run, quiet.firm⟩ (quiet.rooted plain opened.rooted) quiet.funcs quiet.entry

theorem State.Steps.node (key : n.key? = some k) (steps : s.Steps table file (k :: own) ns s')
    (keys : ∀ k' ∈ n.keys, k' ∈ k :: keysOf ns) (visited : s.Visited table file s' n)
    (noted : s'.Noted file n) :
    s.Steps table file own (n :: ns) s' := by
  refine ⟨steps.reaches, steps.rooted, steps.waits, steps.active, fun k' outside others => ?_, ?_, steps.entered⟩
  · rw [keysOf_own key, List.mem_cons, not_or] at others
    exact steps.entry k' (by simp [outside, others.1]) others.2
  · intro c member
    rw [keysOf_own key]
    rcases List.mem_cons.mp member with rfl | member
    · exact ⟨keys, visited, noted⟩
    · exact ⟨fun k' own => List.mem_cons_of_mem _ ((steps.visited c member).1 k' own),
        (steps.visited c member).2⟩

/-! ### Visiting nodes -/

variable {α β : Type} {m : Resolver α}

structure Visits (table : Table) (file : File) (sc : ScopeId) (own : List Key) (ns : List Node)
    (m : Resolver α) : Prop where
  run {s a s'} : s.Open table file sc own ns → m s = .ok (a, s') → s.Steps table file own ns s'

namespace Visits

theorem bind {f : α → Resolver β} (first : Visits table file sc own ns m)
    (rest : ∀ a, Visits table file sc own ns' (f a)) :
    Visits table file sc own (ns ++ ns') (m >>= f) := by
  refine ⟨fun {s a s'} opened run => ?_⟩
  obtain ⟨a, s₁, ran, run⟩ := bind_ok run
  have steps := first.run opened.first ran
  exact steps.trans opened ((rest a).run (opened.second steps) run)

theorem after {f : α → Resolver β} (first : Visits table file sc own [] m)
    (rest : ∀ a, Visits table file sc own ns (f a)) : Visits table file sc own ns (m >>= f) :=
  first.bind rest

theorem before {f : α → Resolver β} (first : Visits table file sc own ns m)
    (rest : ∀ a, Visits table file sc own [] (f a)) : Visits table file sc own ns (m >>= f) := by
  simpa using first.bind rest

theorem pure {a : α} : Visits table file sc own [] (pure a) := by
  refine ⟨fun {s a s'} opened run => ?_⟩
  cases run
  exact .refl opened

theorem get : Visits table file sc own [] (get : Resolver State) := by
  refine ⟨fun {s a s'} opened run => ?_⟩
  cases run
  exact .refl opened

theorem change {f : State → State} (c : Change) (same : ∀ s, f s = c.apply s) (mild : c.Mild)
    (plain : ∀ span, .var span ∉ c.keys)
    (allowed : ∀ s, c.Legal file s ∧ c.Resolves table file s) :
    Visits table file sc c.keys [] (modify f) := by
  refine ⟨fun {s _ s'} opened run => ?_⟩
  cases run
  rw [same]
  exact .of_quiet opened (.one (allowed s)) (Change.quiet mild) plain

theorem map {f : α → β} (h : Visits table file sc own ns m) :
    Visits table file sc own ns (f <$> m) := by
  rw [map_eq_pure_bind]
  exact h.before fun _ => pure

theorem discard (h : Visits table file sc own ns m) : Visits table file sc own ns (discard m) := h.map

theorem fail {e : ResolveError} : Visits table file sc own ns (fail e : Resolver α) := by
  refine ⟨fun {s a s'} _ run => ?_⟩
  cases run

theorem failType {cause : TypeError.Cause} {pos : Pos} :
    Visits table file sc own ns (failType cause pos : Resolver α) := fail

theorem more (h : Visits table file sc own ns m) (more : ∀ k ∈ own, k ∈ own') :
    Visits table file sc own' ns m := by
  refine ⟨fun {s a s'} opened run => ?_⟩
  exact (h.run (opened.fewer more) run).more more

theorem nil (h : Visits table file sc [] ns m) : Visits table file sc own ns m :=
  h.more fun _ member => nomatch member

theorem then_ok {f : α → Resolver β} {b : β} (first : Visits table file sc own ns m)
    (opened : s.Open table file sc own ns) (run : (m >>= f) s = .ok (b, s')) :
    ∃ a s₁, m s = .ok (a, s₁) ∧ s.Steps table file own ns s₁ ∧ s₁.Open table file sc own [] ∧
      f a s₁ = .ok (b, s') := by
  obtain ⟨a, s₁, ran, run⟩ := bind_ok run
  have steps := first.run opened ran
  have whole : s.Open table file sc own (ns ++ []) := by rwa [List.append_nil]
  exact ⟨a, s₁, ran, steps, whole.second steps, run⟩

theorem inspects : Inspects fun {α} (m : Resolver α) => Visits table file sc [] [] m where
  pure _ := pure
  bind first rest := first.bind rest
  get := get
  failType _ _ := fail
  refuse _ _ _ := fail

theorem node (key : n.key? = some k)
    (keys : ∀ k' ∈ n.keys, k' ∈ k :: keysOf ns)
    (step : ∀ {s a s'}, s.Open table file sc (k :: own) ns → m s = .ok (a, s') →
      s.Steps table file (k :: own) ns s' ∧ s.Visited table file s' n ∧ s'.Noted file n) :
    Visits table file sc own (n :: ns) m := by
  refine ⟨fun {s a s'} opened run => ?_⟩
  obtain ⟨steps, visited, noted⟩ := step (opened.parts key) run
  exact steps.node key keys visited noted

theorem head (key : n.key? = none) (keys : n.keys = [])
    (silent : ∀ s s' : State, s.Visited table file s' n) (h : Visits table file sc own ns m)
    (noted : ∀ {s a s'}, s.Open table file sc own ns → m s = .ok (a, s') → s'.Noted file n) :
    Visits table file sc own (n :: ns) m := by
  have same : keysOf (n :: ns) = keysOf ns := by
    rw [keysOf_cons, key]
    rfl
  refine ⟨fun {s a s'} opened run => ?_⟩
  obtain ⟨zoned, ready, rooted, once, away, apart⟩ := opened
  rw [same] at once away apart
  have opened : s.Open table file sc own ns := ⟨zoned, ready, rooted, once, away, apart⟩
  have steps := h.run opened run
  refine { steps with entry := fun k outside others => ?_, visited := fun c member => ?_ }
  · rw [same] at others
    exact steps.entry k outside others
  · rw [same]
    rcases List.mem_cons.mp member with rfl | member
    · exact ⟨fun k own => (by rw [keys] at own; cases own), silent s s', noted opened run⟩
    · exact steps.visited c member

theorem plain (silent : n.Silent) (h : Visits table file sc own ns m) :
    Visits table file sc own (n :: ns) m := by
  cases n with
  | block b => exact h.head rfl rfl (fun _ _ => trivial) fun _ _ => trivial
  | stmt st =>
    cases st with
    | each span name storage items body => exact absurd silent not_false
    | _ => exact h.head rfl rfl (fun _ _ => trivial) fun _ _ => trivial
  | _ => exact absurd silent not_false

theorem perm (h : Visits table file sc own ns m) (perm : ns.Perm ns') :
    Visits table file sc own ns' m := by
  have keys : ∀ k, k ∈ keysOf ns ↔ k ∈ keysOf ns' := fun k => (perm.filterMap _).mem_iff
  refine ⟨fun {s a s'} opened run => ?_⟩
  obtain ⟨zoned, ready, rooted, once, away, apart⟩ := opened
  simp only [← keys] at away apart
  have steps := h.run ⟨zoned, ready, rooted, (perm.filterMap _).nodup_iff.mpr once, away, apart⟩ run
  refine { steps with entry := fun k outside others => ?_, visited := fun n member => ?_ }
  · exact steps.entry k outside fun member => others ((keys k).mp member)
  · obtain ⟨own, visited⟩ := steps.visited n (perm.mem_iff.mpr member)
    exact ⟨fun k member => (keys k).mp (own k member), visited⟩

theorem forM {f : α → Resolver Unit} {xs : List α} {parts : α → List Node}
    (each : ∀ x ∈ xs, Visits table file sc own (parts x) (f x)) :
    Visits table file sc own (xs.flatMap parts) (xs.forM f) := by
  induction xs with
  | nil => exact pure
  | cons x xs ih =>
    refine (each x List.mem_cons_self).bind fun _ => ih ?_
    exact fun y member => each y (List.mem_cons_of_mem _ member)

theorem forM_turn {f : α → Resolver Unit} {xs : List α} {parts : α → List Node} {u : Unit}
    (each : ∀ x ∈ xs, Visits table file sc own (parts x) (f x))
    (opened : s.Open table file sc own (xs.flatMap parts)) (run : xs.forM f s = .ok (u, s')) {x : α}
    (member : x ∈ xs) : ∃ s₁ s₂, s.Reaches table file s₁ ∧ f x s₁ = .ok ((), s₂) := by
  induction xs generalizing s with
  | nil => cases member
  | cons y ys ih =>
    obtain ⟨_, s₁, first, rest⟩ := bind_ok run
    have steps := (each y List.mem_cons_self).run opened.first first
    rcases List.mem_cons.mp member with rfl | member
    · exact ⟨s, s₁, .refl s, first⟩
    · obtain ⟨s₂, s₃, reaches, turn⟩ :=
        ih (fun z later => each z (List.mem_cons_of_mem _ later)) (opened.second steps) rest member
      exact ⟨s₂, s₃, steps.reaches.trans reaches, turn⟩

end Visits

end Resolution

end TastyLang
