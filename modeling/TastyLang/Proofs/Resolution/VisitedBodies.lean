import TastyLang.Proofs.Resolution.Visiting

/-!
# Bodies are visited

Statements visit all of their nodes, and a function that is asked for is visited as a whole the first
time (`resolveFunc_visits`).
-/

namespace TastyLang.Resolution

variable {table : Table} {file : File} {s s' : State} {own : List Key} {ns ns' : List Node}
  {sc : ScopeId} {p : Place}

theorem State.Open.scoped {inner : ScopeId} (h : s.Open table file sc own ns)
    (inside : inner < s.info.symbols.scopes.size) : s.Open table file inner own ns :=
  { h with ready := ⟨h.ready.formed, h.ready.relies, inside⟩ }

/-! ### Variables -/

variable {d : VarDecl} {id : SymbolId} {u : Unit}

theorem setType_steps {t : Ty} (node : .var d ∈ file.nodes) (untyped : d.type = none)
    (opened : s.Open table file sc own []) (lt : id < s.info.symbols.symbols.size)
    (kind : (s.info.symbols.symbol id).kind = .var)
    (own_ : (s.info.symbols.symbol id).origin = .var d.info.span) (member : .var d.info.span ∈ own)
    (run : setType id t s = .ok (u, s')) :
    s.Steps table file own [] s' ∧ (s'.info.symbols.symbol id).type = some t ∧
      s'.info.types = s.info.types ∧ s'.info.vars = s.info.vars := by
  have run' : s.Run (resolving table file).may s' := (setType_run kind lt run).1
  cases run
  have symbol := fun i =>
    SymbolTable.symbol_modifySymbol s.info.symbols id i fun x => { x with type := some t }
  have origin : ∀ i, ((s.info.symbols.modifySymbol id fun x => { x with type := some t }).symbol i).origin =
      (s.info.symbols.symbol i).origin := by
    intro i
    rw [symbol]
    split <;> rfl
  have size : (s.info.symbols.modifySymbol id fun x => { x with type := some t }).symbols.size =
      s.info.symbols.symbols.size := Array.size_modify
  -- the symbol stands for no other variable
  have held : ∀ span ≠ d.info.span, ∀ i,
      ((Change.type id t).apply s).held span i = s.held span i := by
    intro span other i
    change (if ((SymbolTable.modifySymbol _ _ _).symbol i).origin = _ then
      some ((SymbolTable.modifySymbol _ _ _).symbol i).type else none) = _
    rw [origin i, State.held]
    split
    · next same =>
      rw [symbol, if_neg]
      rintro ⟨rfl, -⟩
      exact other (Origin.var.inj (same.symm.trans own_))
    · rfl
  have firm : s.Firm file ((Change.type id t).apply s) := by
    refine ⟨Nat.le_of_eq size.symm, fun i _ => origin i, fun e listed written i => .inl (held _ ?_ i)⟩
    intro same
    exact written (opened.zoned.vars e d listed node same ▸ untyped)
  refine ⟨.of_frame ⟨run', firm⟩ (fun k i found => ?_) rfl fun k away => ?_, ?_, rfl, rfl⟩
  · obtain ⟨known, same⟩ := opened.rooted k i found
    exact ⟨Nat.lt_of_lt_of_le known (Nat.le_of_eq size.symm), (origin i).trans same⟩
  · cases k with
    | var k =>
      refine congrArg (Entry.mk _ _ _ _ _ _ _) (funext (held k ?_))
      rintro rfl
      exact away member
    | expr k | type k => rfl
  · change ((SymbolTable.modifySymbol _ _ _).symbol id).type = _
    rw [symbol, if_pos ⟨rfl, lt⟩]

/-- The value of a variable is visited; the type is settled only if it is not written. -/
theorem settledVar_steps (value : Option (Expr × Ty))
    (node : .var d ∈ file.nodes) (opened : s.Open table file p.scope own [])
    (lt : id < s.info.symbols.symbols.size) (kind : (s.info.symbols.symbol id).kind = .var)
    (origin : (s.info.symbols.symbol id).origin = .var d.info.span)
    (free : d.type = none → .var d.info.span ∈ own)
    (same : value = d.value.map fun v => (v, s.info.typeOf v))
    (run : (match d.type, value with
      | some _, some (v, t) => do
        unless v.isNew do
          requireAssignable ((← symbolOf id).type.getD (.unknown "")) t v.pos
      | some _, none => pure ()
      | none, value => setType id (inferredType d.storage value)) s = .ok (u, s')) :
    s.Steps table file own [] s' ∧ (d.type = none →
      s'.Carries d id ∧ s'.info.vars[d.info.span]? = s.info.vars[d.info.span]?) := by
  cases written : d.type with
  | none =>
    rw [written] at run
    obtain ⟨steps, type, types, vars⟩ :=
      setType_steps node written opened lt kind origin (free written) run
    refine ⟨steps, fun _ => ⟨⟨fun te given => ?_, fun _ => ?_⟩, ?_⟩⟩
    · cases written.symm.trans given
    · simp only [type, same, Info.typeOf, types]
    · rw [vars]
  | some te =>
    rw [written] at run
    refine ⟨?_, by rintro ⟨⟩⟩
    cases value with
    | none =>
      cases run
      exact .refl opened
    | some x =>
      dsimp only at run
      refine Visits.run (?_ : Visits table file p.scope own [] _) opened run
      split
      · exact .pure
      · exact ((Visits.inspects.symbolOf id).after fun _ => Visits.inspects.requireAssignable _ _ _).nil

theorem varValue_steps (place : p.Enters table file) (node : .var d ∈ file.nodes)
    (inside : ∀ n ∈ nodesIn Expr.nodes d.value, n ∈ file.late)
    (opened : s.Open table file p.scope own (nodesIn Expr.nodes d.value))
    (lt : id < s.info.symbols.symbols.size) (kind : (s.info.symbols.symbol id).kind = .var)
    (origin : (s.info.symbols.symbol id).origin = .var d.info.span)
    (free : d.type = none → .var d.info.span ∈ own) (run : varValue p d id s = .ok (u, s')) :
    s.Steps table file own (nodesIn Expr.nodes d.value) s' ∧ (d.type = none →
      s'.Carries d id ∧ s'.info.vars[d.info.span]? = s.info.vars[d.info.span]?) := by
  unfold varValue at run
  cases given : d.value with
  | none =>
    rw [given] at run opened
    exact settledVar_steps none node opened lt kind origin free (by rw [given]; rfl) run
  | some v =>
    rw [given] at run inside opened
    simp only [nodesIn] at inside opened ⊢
    obtain ⟨t, s₁, ran, run⟩ := bind_ok run
    have whole : s.Open table file p.scope own (v.nodes ++ []) := by rwa [List.append_nil]
    have steps := (expr_visits place v inside).nil.run opened ran
    have opened₁ := whole.second steps
    have typed : s₁.info.typeOf v = t := by
      rw [Info.typeOf, Std.TreeMap.getD_eq_getD_getElem?, (expr_notes v).run ran]
      rfl
    have noted : d.type = none → s₁.info.vars[d.info.span]? = s.info.vars[d.info.span]? := by
      intro none
      have held := (expr_visits place v inside).run (opened.fewer (by simp)) ran
      refine congrArg Entry.var (held.entry (.var d.info.span) (by simp) (opened.away _ (free none)) ?_)
      exact fun span st enters member => (opened.apart span st enters.1 _ member).1 (free none)
    have reach := steps.reaches
    have later := (Regime.grows reach.run).symbols.symbol id lt
    obtain ⟨rest, type⟩ := settledVar_steps (some (v, t)) node opened₁ (Nat.lt_of_lt_of_le lt reach.firm.size)
      (later.kind.trans kind) ((reach.firm.origin id lt).trans origin) free
      (by rw [given, ← typed]; rfl) run
    refine ⟨by simpa using steps.trans whole rest, fun none => ?_⟩
    obtain ⟨carries, vars⟩ := type none
    exact ⟨carries, vars.trans (noted none)⟩

theorem writtenType_visits (own : p.table = table)
    (inside : ∀ n ∈ nodesIn TypeExpr.nodes d.type, n ∈ file.late) :
    Visits table file sc [] (nodesIn TypeExpr.nodes d.type) (writtenType p d) := by
  unfold writtenType
  cases written : d.type with
  | none => exact .pure
  | some te =>
    rw [written] at inside
    exact (typeExpr_visits own te inside).before fun _ => .pure

theorem writtenType_written {type : Option Ty} {te : TypeExpr} (written : d.type = some te)
    (run : writtenType p d s = .ok (type, s')) :
    ∃ t, s'.info.typeExprs[te.span]? = some t ∧ type = some (d.storage.typeOf t) := by
  unfold writtenType at run
  rw [written] at run
  obtain ⟨t, s₁, ran, run⟩ := bind_ok run
  cases run
  exact ⟨t, typeExpr_written ran, rfl⟩

/-- A variable gets a symbol that is its own, with the type that is written for it. -/
theorem allocVar_steps {x : Symbol} (node : .var d ∈ file.nodes)
    (opened : s.Open table file sc own ns) (plain : x.members = none)
    (origin : x.origin = .var d.info.span) (typed : d.type ≠ none → x.type.isSome)
    (member : .var d.info.span ∈ own) (run : alloc x s = .ok (id, s')) :
    s.Steps table file own [] s' := by
  have run' : s.Run (resolving table file).may s' := alloc_run_of plain run
  cases (alloc_run x s).symm.trans run
  have symbol := s.info.symbols.symbol_alloc x
  have size : (s.info.symbols.alloc x).1.symbols.size = s.info.symbols.symbols.size + 1 :=
    Array.size_push x
  have old : ∀ i < s.info.symbols.symbols.size,
      (s.info.symbols.alloc x).1.symbol i = s.info.symbols.symbol i := fun i lt =>
    (symbol i).trans (if_neg (Nat.ne_of_lt lt))
  have held : ∀ span i, ((Change.alloc x).apply s).held span i =
      if i = s.info.symbols.symbols.size ∧ span = d.info.span then some x.type else s.held span i := by
    intro span i
    change (if ((s.info.symbols.alloc x).1.symbol i).origin = _ then
      some ((s.info.symbols.alloc x).1.symbol i).type else none) = _
    rw [symbol]
    by_cases new : i = s.info.symbols.symbols.size
    · rw [if_pos new, origin, new, State.held_size]
      by_cases own : span = d.info.span
      · rw [if_pos (by rw [own]), if_pos ⟨rfl, own⟩]
      · rw [if_neg fun same => own (Origin.var.inj same).symm, if_neg fun both => own both.2]
    · rw [if_neg new]
      exact (if_neg fun both : _ ∧ _ => new both.1).symm
  have grown : s.info.symbols.symbols.size ≤ (s.info.symbols.alloc x).1.symbols.size :=
    Nat.le_trans (Nat.le_succ _) (Nat.le_of_eq size.symm)
  have firm : s.Firm file ((Change.alloc x).apply s) := by
    refine ⟨grown, fun i lt => congrArg Symbol.origin (old i lt), fun e listed written i => ?_⟩
    rw [held]
    split
    · next here =>
      obtain ⟨rfl, same⟩ := here
      obtain rfl := opened.zoned.vars e d listed node same
      obtain ⟨t, type⟩ := Option.isSome_iff_exists.mp (typed written)
      exact .inr ⟨State.held_size _, t, congrArg some type⟩
    · exact .inl rfl
  refine .of_frame ⟨run', firm⟩ (fun k i found => ?_) rfl fun k away => ?_
  · obtain ⟨known, same⟩ := opened.rooted k i found
    exact ⟨Nat.lt_of_lt_of_le known grown, (congrArg Symbol.origin (old i known)).trans same⟩
  · cases k with
    | var k =>
      refine congrArg (Entry.mk _ _ _ _ _ _ _) (funext fun i => (held k i).trans (if_neg ?_))
      rintro ⟨-, rfl⟩
      exact away member
    | expr k | type k => rfl

theorem noteVar_steps {span : Span} (opened : s.Open table file sc [.var span] ns)
    (run' : s.Run (resolving table file).may s') (lt : id < s.info.symbols.symbols.size)
    (origin : (s.info.symbols.symbol id).origin = .var span)
    (run : modifyInfo (fun i => { i with vars := i.vars.insert span id }) s = .ok (u, s')) :
    s.Steps table file [.var span] [] s' := by
  cases run
  have quiet : s.Quiet _ _ := Change.quiet (c := .var span id) trivial
  refine .of_frame ⟨run', quiet.firm⟩ (fun k i found => ?_) rfl fun k away =>
    Change.entry (c := .var span id) trivial away
  change (s.info.vars.insert span id)[k]? = some i at found
  rw [Std.TreeMap.getElem?_insert] at found
  split at found
  · next same =>
    cases found
    rw [← Std.LawfulEqOrd.eq_of_compare same]
    exact ⟨lt, origin⟩
  · exact opened.rooted k i found

/-- A variable whose symbol is made is given its value, declared and noted. A written type stays. -/
theorem settleVar_steps (place : p.Enters table file) {type : Option Ty}
    (inside : ∀ n ∈ nodesIn Expr.nodes d.value, n ∈ file.late) (node : .var d ∈ file.late)
    (opened : s.Open table file p.scope [.var d.info.span] (nodesIn Expr.nodes d.value))
    (lt : id < s.info.symbols.symbols.size) (made : s.info.symbols.symbol id =
      { name := d.name, kind := .var, type, origin := .var d.info.span })
    (written : d.type ≠ none → type.isSome) (run : (do
      varValue p d id
      declare p.scope id d.info.span.start
      modifyInfo fun i => { i with vars := i.vars.insert d.info.span id }) s = .ok (u, s')) :
    s.Steps table file [.var d.info.span] (nodesIn Expr.nodes d.value) s' ∧
      s'.info.vars[d.info.span]? = some id ∧
      (d.type ≠ none → (s'.info.symbols.symbol id).type = type) ∧ (d.type = none → s'.Carries d id) := by
  have kind : (s.info.symbols.symbol id).kind = .var := by rw [made]
  have origin : (s.info.symbols.symbol id).origin = .var d.info.span := by rw [made]
  obtain ⟨_, s₁, ran, run⟩ := bind_ok run
  obtain ⟨steps₁, inferred⟩ := varValue_steps place (File.late_subset node) inside opened lt kind origin
    (fun _ => List.mem_singleton_self _) ran
  have kept : d.type ≠ none → (s₁.info.symbols.symbol id).type = type := by
    intro given
    have fewer : s.Open table file p.scope [] (nodesIn Expr.nodes d.value) := opened.fewer (by simp)
    obtain ⟨steps, -⟩ := varValue_steps place (File.late_subset node) inside fewer lt kind origin
      (fun none => absurd none given) ran
    have own := List.mem_singleton_self (Key.var d.info.span)
    have same : s₁.entry (.var d.info.span) = s.entry (.var d.info.span) := by
      refine steps.entry _ (by simp) (opened.away _ own) fun span st enters held => ?_
      exact (opened.apart span st enters.1 _ held).1 own
    rw [steps.reaches.firm.type lt origin same, made]
  have whole : s.Open table file p.scope [.var d.info.span] (nodesIn Expr.nodes d.value ++ []) := by
    rwa [List.append_nil]
  have opened₁ := whole.second steps₁
  have later := (Regime.grows steps₁.reaches.run).symbols.symbol id lt
  have lt₁ := Nat.lt_of_lt_of_le lt steps₁.reaches.firm.size
  have origin₁ := (steps₁.reaches.firm.origin id lt).trans origin
  have typed : (s₁.info.symbols.symbol id).type.isSome := by
    by_cases none : d.type = none
    · rw [(inferred none).1.inferred none]
      rfl
    · rw [kept none]
      exact written none
  obtain ⟨_, s₂, declared, run⟩ := bind_ok run
  have binds : file.BindsLocally d.name := ⟨.var d, File.late_subset node, List.mem_singleton_self _⟩
  have run₂ := declare_run_of opened₁.ready lt₁ (by rw [later.unknown, made])
    (by rw [later.name, made]; exact binds) declared
  have quiet : s₁.Quiet [] s₂ := (declare_quiet _ id _).run declared
  have steps₂ : s₁.Steps table file [.var d.info.span] [] s₂ :=
    (State.Steps.of_quiet (opened₁.fewer (by simp)) run₂ quiet (by simp)).more (by simp)
  have opened₂ := opened₁.after steps₂
  have later₂ := (Regime.grows run₂).symbols.symbol id lt₁
  have lt₂ := Nat.lt_of_lt_of_le lt₁ quiet.size
  have last : (resolving table file).may s₂ (.var d.info.span id) :=
    ⟨⟨lt₂, by rw [later₂.kind, later.kind, made]⟩, later₂.typed typed⟩
  have same : ∀ k, s₂.entry k = s₁.entry k := fun k => quiet.entry k (by simp)
  have firm : s₁.Firm file s₂ := quiet.firm
  have type₂ := firm.type lt₁ origin₁ (same _)
  have steps₃ := noteVar_steps opened₂ (by cases run; exact .one last) lt₂
    ((quiet.origin id lt₁).trans origin₁) run
  have rest := steps₁.trans whole (steps₂.after opened₁ steps₃)
  rw [List.append_nil] at rest
  cases run
  refine ⟨rest, Std.TreeMap.getElem?_insert_self, fun given => type₂.trans (kept given), fun none => ?_⟩
  have typed₂ := (inferred none).1.kept firm lt₁ origin₁ fun k _ => same k
  exact ⟨typed₂.written, typed₂.inferred⟩

theorem keys_of_var (d : VarDecl) : ∀ k ∈ (Node.var d).keys, k ∈ Key.var d.info.span ::
    keysOf (nodesIn TypeExpr.nodes d.type ++ nodesIn Expr.nodes d.value) := by
  intro k own
  rw [Node.keys, List.mem_cons, List.mem_append] at own
  rw [List.mem_cons, keysOf_append, List.mem_append]
  refine own.imp_right (.imp (fun own => ?_) fun own => ?_)
  · obtain ⟨te, written, rfl⟩ := Option.map_eq_some_iff.mp (Option.mem_toList.mp own)
    rw [written]
    exact te.own_key
  · obtain ⟨v, value, rfl⟩ := Option.map_eq_some_iff.mp (Option.mem_toList.mp own)
    rw [value]
    exact v.own_key

theorem localVar_visits (place : p.Enters table file) (inside : ∀ n ∈ d.nodes, n ∈ file.late) :
    Visits table file p.scope [] d.nodes (localVar p d) := by
  simp only [VarDecl.nodes, List.mem_cons, forall_eq_or_imp, List.mem_append] at inside ⊢
  obtain ⟨node, parts⟩ := inside
  have values : ∀ n ∈ nodesIn Expr.nodes d.value, n ∈ file.late := fun n h => parts n (.inr h)
  refine Visits.node rfl (keys_of_var d) fun {s _ s'} opened run => ?_
  obtain ⟨type, s₁, ran, run⟩ := bind_ok run
  have typing : Visits table file p.scope _ _ (writtenType p d) :=
    writtenType_visits place.sameTable fun n h => parts n (.inl h)
  have steps₁ := typing.nil.run opened.first ran
  have opened₁ := opened.second steps₁
  have given : d.type ≠ none → type.isSome := fun some => by
    obtain ⟨te, written⟩ := Option.ne_none_iff_exists'.mp some
    obtain ⟨t, -, rfl⟩ := writtenType_written written ran
    rfl
  obtain ⟨id, s₂, made, run⟩ := bind_ok run
  obtain ⟨lt, same⟩ := alloc_ok made
  have steps₂ := allocVar_steps (File.late_subset node) opened₁ rfl rfl given
    (List.mem_singleton_self _) made
  have opened₂ := opened₁.after steps₂
  obtain ⟨steps₃, noted, kept, inferred⟩ := settleVar_steps place values node opened₂ lt same given run
  have rest := steps₂.after opened₁ steps₃
  have origin : (s'.info.symbols.symbol id).origin = .var d.info.span := by
    rw [steps₃.reaches.firm.origin id lt, same]
  have carries : s'.Carries d id := by
    refine ⟨fun te written => ?_, fun none => (inferred none).inferred none⟩
    obtain ⟨t, noted, typed⟩ := writtenType_written written ran
    have here : .type te.span ∈ keysOf (nodesIn TypeExpr.nodes d.type) := by
      rw [written]
      exact te.own_key
    have once := opened.once
    rw [keysOf_append] at once
    have still : s'.entry (.type te.span) = s₁.entry (.type te.span) := by
      refine rest.entry _ (by simp) ?_ fun span st enters member => ?_
      · exact fun there => (List.nodup_append.mp once).2.2 _ here _ there rfl
      · have waits := steps₁.waits span st enters.1
        exact (opened.first.apart span st waits _ member).2 here
    refine ⟨t, (congrArg Entry.written still).trans noted, (kept ?_).trans typed⟩
    rw [written]
    exact Option.some_ne_none te
  exact ⟨steps₁.trans opened rest, ⟨id, noted, Nat.lt_of_lt_of_le lt steps₃.reaches.firm.size, origin,
    carries⟩, id, noted, carries.typed⟩

/-! ### Statements -/

theorem newScope_opens {α : Type} {outer : Option ScopeId} {kind : ScopeKind}
    {owner : Option SymbolId} {f : ScopeId → Resolver α} {a : α} (opened : s.Open table file sc [] ns)
    (known : file.Encloses s.info.symbols outer)
    (run : (newScope outer kind owner >>= f) s = .ok (a, s')) :
    ∃ inner s₁, s.Steps table file [] [] s₁ ∧ s₁.Open table file inner [] ns ∧
      f inner s₁ = .ok (a, s') := by
  obtain ⟨inner, s₁, made, run⟩ := bind_ok run
  have quiet : s.Quiet [] s₁ := (newScope_quiet outer kind owner).run made
  have once : s.Run (resolving table file).may s₁ := by
    cases (newScope_run outer kind owner s).symm.trans made
    exact .one (c := .child outer kind owner) ⟨known, trivial⟩
  have steps : s.Steps table file [] [] s₁ := .of_quiet opened once quiet (by simp)
  exact ⟨inner, s₁, steps, (opened.after steps).scoped (newScope_ok made), run⟩

theorem newScope_visits {α : Type} {outer : ScopeId} {kind : ScopeKind} {owner : Option SymbolId}
    {f : ScopeId → Resolver α} (rest : ∀ inner, Visits table file inner [] ns (f inner)) :
    Visits table file outer [] ns (newScope outer kind owner >>= f) := by
  refine ⟨fun {s _ s'} opened run => ?_⟩
  have known : file.Encloses s.info.symbols (some outer) := opened.ready.inside
  obtain ⟨inner, s₁, steps, opened₁, run⟩ := newScope_opens opened known run
  exact steps.after opened ((rest inner).run opened₁ run)

theorem loopVar_run {span : Span} {name : String} (binds : file.BindsLocally name) {t : Ty}
    {inner : Place} (ready : (resolving table file).Ready p.scope s)
    (run : loopVar p span name t s = .ok (inner, s')) :
    ∃ sc, inner = { p with scope := sc } ∧ s.Run (resolving table file).may s' ∧
      (resolving table file).Ready sc s' ∧ span ∈ s'.info.loopVars := by
  obtain ⟨sc, s₁, made, run⟩ := bind_ok run
  have lt := newScope_ok made
  cases (newScope_run p.scope .block none s).symm.trans made
  have once : (resolving table file).may s (.child p.scope .block none) := ⟨ready.inside, trivial⟩
  have ready₁ := ready.run (.one once)
  have inside₁ : (resolving table file).Ready s.info.symbols.scopes.size _ :=
    ⟨ready₁.formed, ready₁.relies, lt⟩
  obtain ⟨id, s₂, made, run⟩ := bind_ok run
  have run₂ : State.Run (resolving table file).may _ s₂ := alloc_run_of rfl made
  obtain ⟨known, same⟩ := alloc_ok made
  obtain ⟨_, s₃, declared, run⟩ := bind_ok run
  have run₃ := declare_run_of (inside₁.run run₂) known (by rw [same]) (by rw [same]; exact binds)
    declared
  obtain ⟨_, s₄, noted, run⟩ := bind_ok run
  cases noted
  cases run
  have last : (resolving table file).may s₃ (.loopVar span id) := ⟨trivial, trivial⟩
  exact ⟨_, rfl, .step once ((run₂.trans run₃).trans (.one last)),
    ((inside₁.run run₂).run run₃).run (.one last), Std.TreeMap.mem_insert_self⟩

theorem loop_steps {span : Span} {name : String} (binds : file.BindsLocally name) {t : Ty}
    {f : Place → Resolver Unit} (rest : ∀ sc, Visits table file sc [] ns (f { p with scope := sc }))
    (opened : s.Open table file p.scope [] ns) (run : (loopVar p span name t >>= f) s = .ok (u, s')) :
    s.Steps table file [] ns s' ∧ span ∈ s'.info.loopVars := by
  obtain ⟨inner, s₁, made, run⟩ := bind_ok run
  have quiet : s.Quiet [] s₁ := (loopVar_quiet span name t).run made
  obtain ⟨sc, rfl, run₁, ready₁, known⟩ := loopVar_run binds opened.ready made
  have steps₁ : s.Steps table file [] [] s₁ := .of_quiet opened run₁ quiet (by simp)
  have steps := (rest sc).run ((opened.after steps₁).scoped ready₁.inside) run
  exact ⟨steps₁.after opened steps, (Regime.grows steps.reaches.run).loopVars _ known⟩

theorem part_visits {α : Type} (place : p.Enters table file) {part : Option Expr}
    (inside : ∀ n ∈ nodesIn Expr.nodes part, n ∈ file.late) {rest : Resolver α}
    (visits : Visits table file p.scope [] ns rest) :
    Visits table file p.scope [] (nodesIn Expr.nodes part ++ ns) (do
      match part with
      | some e => discard (expr p e)
      | none => pure ()
      rest) := by
  cases part with
  | none => exact visits
  | some e => exact (expr_visits place e inside).discard.bind fun _ => visits

theorem iterated_visits (place : p.Enters table file) {e : Expr}
    (inside : ∀ n ∈ e.nodes, n ∈ file.late) :
    Visits table file p.scope [] e.nodes (iterated p e) := by
  cases e with
  | range span low high =>
    simp only [Expr.nodes, List.mem_cons, forall_eq_or_imp, List.mem_append] at inside ⊢
    have notes : Notes span (iterated p (.range span low high)) := by
      refine .last fun l => .last fun h => .last fun s => ?_
      split
      · exact noteExpr_notes span _
      · exact ⟨fun run => by cases run⟩
    refine plain_visits trivial notes
      ((expr_visits place low fun n h => inside.2 n (.inl h)).nil.bind fun l => ?_)
    refine (expr_visits place high fun n h => inside.2 n (.inr h)).nil.before fun h => ?_
    refine Visits.get.after fun s => ?_
    split
    · exact noteExpr_visits span _
    · exact .failType
  | _ => exact expr_visits place _ inside

theorem noteReturn_visits (t : Ty) : Visits table file sc [] [] (noteReturn t) :=
  ⟨fun {s _ s'} opened run => by
    cases run
    exact .of_quiet opened (.one (c := .returns (s.returns ++ [t])) ⟨trivial, trivial⟩)
      (Change.quiet (c := .returns _) trivial) (by simp)⟩

theorem returned_visits (place : p.Enters table file) {value : Option Expr}
    (inside : ∀ n ∈ nodesIn Expr.nodes value, n ∈ file.late) (implicit : Bool) :
    Visits table file p.scope [] (nodesIn Expr.nodes value) (returned p value implicit) := by
  unfold returned
  cases value with
  | none => exact noteReturn_visits .void
  | some v =>
    refine (expr_visits place v inside).before fun t => ?_
    split
    · exact .pure
    · refine (noteReturn_visits t).after fun _ => ?_
      split
      · split
        · exact Visits.get.after fun _ => Visits.inspects.requireAssignable _ _ _
        · exact .pure
      · exact .pure

mutual

theorem stmt_visits {p : Place} (place : p.Enters table file) : (s : Stmt) →
    (∀ n ∈ s.nodes, n ∈ file.late) → Visits table file p.scope [] s.nodes (stmt p s)
  | .block b, inside => by
    simp only [Stmt.nodes] at inside ⊢
    exact block_visits place b inside
  | .expr span x, inside => by
    simp only [Stmt.nodes, List.mem_cons, forall_eq_or_imp] at inside ⊢
    exact (expr_visits place x inside.2).discard.plain trivial
  | .decl span d, inside => by
    simp only [Stmt.nodes, List.mem_cons, forall_eq_or_imp] at inside ⊢
    exact (localVar_visits place inside.2).plain trivial
  | .branch span negate cond yes none, inside => by
    simp only [Stmt.nodes, List.mem_cons, forall_eq_or_imp, List.mem_append, List.append_nil]
      at inside ⊢
    refine Visits.plain trivial
      ((expr_visits place cond fun n h => inside.2 n (.inl h)).discard.bind
      fun _ => ?_)
    exact (block_visits place yes fun n h => inside.2 n (.inr h)).before fun _ => .pure
  | .branch span negate cond yes (some no), inside => by
    simp only [Stmt.nodes, List.mem_cons, forall_eq_or_imp, List.mem_append, List.append_assoc]
      at inside ⊢
    refine Visits.plain trivial
      ((expr_visits place cond fun n h => inside.2 n (.inl h)).discard.bind
      fun _ => ?_)
    refine (block_visits place yes fun n h => inside.2 n (.inr (.inl h))).bind fun _ => ?_
    exact stmt_visits place no fun n h => inside.2 n (.inr (.inr h))
  | .loop span negate cond body, inside => by
    simp only [Stmt.nodes, List.mem_cons, forall_eq_or_imp, List.mem_append] at inside ⊢
    refine Visits.plain trivial
      (part_visits place (fun n h => inside.2 n (.inl h)) ?_)
    exact block_visits place body fun n h => inside.2 n (.inr h)
  | .count span kind name low high step body, inside => by
    simp only [Stmt.nodes, List.mem_cons, forall_eq_or_imp, List.mem_append, List.append_assoc]
      at inside ⊢
    have binds : file.BindsLocally name := ⟨_, File.late_subset inside.1, List.mem_singleton_self _⟩
    refine Visits.plain trivial
      ((expr_visits place low fun n h => inside.2 n (.inl h)).bind fun l =>
      (expr_visits place high fun n h => inside.2 n (.inr (.inl h))).bind fun h => ?_)
    refine part_visits place (fun n h => inside.2 n (.inr (.inr (.inl h)))) ?_
    refine (Visits.inspects.countType l h).after fun t => ⟨fun opened run => ?_⟩
    exact (loop_steps binds (fun sc => block_visits (place.scoped sc) body fun n h =>
      inside.2 n (.inr (.inr (.inr h)))) opened run).1
  | .each span name storage items body, inside => by
    simp only [Stmt.nodes, List.mem_cons, forall_eq_or_imp, List.mem_append] at inside ⊢
    have binds : file.BindsLocally name := ⟨_, File.late_subset inside.1, List.mem_singleton_self _⟩
    have rest := fun sc => block_visits (place.scoped sc) body fun n h => inside.2 n (.inr h)
    have iterates := iterated_visits place fun n h => inside.2 n (.inl h)
    refine Visits.head rfl rfl (fun _ _ => trivial)
      (iterates.bind fun t => ⟨fun opened run => (loop_steps binds rest opened run).1⟩) fun opened run => ?_
    obtain ⟨t, s₁, ran, run⟩ := bind_ok run
    exact (loop_steps binds rest (opened.second (iterates.run opened.first ran)) run).2
  | .ret span value implicit effect exit, inside => by
    simp only [Stmt.nodes, List.mem_cons, forall_eq_or_imp] at inside ⊢
    exact (returned_visits place inside.2 implicit).plain trivial
  | .brk _ _, _ | .cont _ _, _ | .inject _ _, _ => by
    simp only [Stmt.nodes]
    exact Visits.pure.plain trivial

theorem block_visits {p : Place} (place : p.Enters table file) : (b : Block) →
    (∀ n ∈ b.nodes, n ∈ file.late) → Visits table file p.scope [] b.nodes (block p b)
  | .mk span ss owned, inside => by
    simp only [Block.nodes, List.mem_cons, forall_eq_or_imp] at inside ⊢
    refine Visits.plain trivial (newScope_visits fun sc => ?_)
    exact stmts_visits (place.scoped sc) ss inside.2

theorem stmts_visits {p : Place} (place : p.Enters table file) : (ss : List Stmt) →
    (∀ n ∈ Stmt.nodesOf ss, n ∈ file.late) →
    Visits table file p.scope [] (Stmt.nodesOf ss) (stmts p ss)
  | [], _ => by
    simp only [Stmt.nodesOf]
    exact .pure
  | s :: ss, inside => by
    simp only [Stmt.nodesOf, List.mem_append] at inside ⊢
    refine (stmt_visits place s fun n h => inside n (.inl h)).bind fun _ => ?_
    exact stmts_visits place ss fun n h => inside n (.inr h)

end

/-! ### Functions -/

theorem bodyParam_visits (place : p.Enters table file) {f : FuncDecl} (listed : f ∈ file.funcs)
    {q : Param} (member : q ∈ f.params) (inside : ∀ n ∈ nodesIn Expr.nodes q.value, n ∈ file.late) :
    Visits table file p.scope [] (nodesIn Expr.nodes q.value) (bodyParam p q) := by
  refine ⟨fun {s _ s'} opened run => ?_⟩
  have signed := opened.ready.relies.params f listed q member
  obtain ⟨id, found⟩ := mem_iff_found.mp signed
  obtain ⟨_, _, read, run⟩ := bind_ok run
  cases read
  rw [found] at run
  obtain ⟨lt, unknown, binds⟩ := opened.ready.formed.params _ _ found
  obtain ⟨_, s₁, declared, run⟩ := bind_ok run
  have quiet : s.Quiet [] s₁ := (declare_quiet _ id _).run declared
  have steps₁ : s.Steps table file [] [] s₁ :=
    .of_quiet opened (declare_run_of opened.ready lt unknown binds declared) quiet (by simp)
  have opened₁ := opened.after steps₁
  refine steps₁.after opened (Visits.run (?_ : Visits table file p.scope [] _ _) opened₁ run)
  cases given : q.value with
  | none => exact .pure
  | some v =>
    rw [given] at inside
    refine (expr_visits place v inside).before fun t => ?_
    exact (Visits.inspects.symbolOf id).after fun _ => Visits.inspects.requireAssignable _ _ _

theorem funcBody_visits (place : p.Enters table file) {st : FuncState} (listed : st.decl ∈ file.funcs) :
    Visits table file p.scope [] st.decl.late (funcBody p st) := by
  have inside := File.late_of_func listed
  have params : Visits table file p.scope [] _ (st.decl.params.forM (bodyParam p)) :=
    .forM fun q member => bodyParam_visits place listed member fun n h =>
      inside n (FuncDecl.mem_late.mpr (.inl ⟨q, member, h⟩))
  have result : Visits table file p.scope [] [] (do
      unless (← get).info.results.contains st.decl.info.span do
        let t ← inferResult p.table st (← get).returns
        modifyInfo fun i => { i with results := i.results.insert st.decl.info.span t }) := by
    refine Visits.get.after fun s => ?_
    split
    · exact .pure
    · refine Visits.get.after fun s => ?_
      rw [place.sameTable]
      refine (Visits.inspects.inferResult table st _).after fun t => ?_
      exact .change (.result st.decl.info.span t) (fun _ => rfl) trivial (by simp [Change.keys])
        fun _ => ⟨trivial, trivial⟩
  refine params.bind fun _ => ?_
  cases given : st.decl.body with
  | none => exact result
  | some b =>
    have body := block_visits place b fun n h =>
      inside n (FuncDecl.mem_late.mpr (.inr (by rw [given]; exact h)))
    exact body.before fun _ => result

/-- The values of parameters and the body of a function hold no ranges where none may stand. -/
theorem funcBody_rangeless (place : p.Enters table file) {st : FuncState} (listed : st.decl ∈ file.funcs)
    (opened : s.Open table file p.scope [] st.decl.late) (run : funcBody p st s = .ok (u, s')) :
    st.decl.Rangeless := by
  obtain ⟨_, s₁, params, run⟩ := bind_ok run
  refine ⟨fun q member => ?_, fun b given => ?_⟩
  · obtain ⟨s₂, s₃, reaches, turn⟩ := Visits.forM_turn (fun q member =>
      bodyParam_visits place listed member fun n h =>
        File.late_of_func listed n (FuncDecl.mem_late.mpr (.inl ⟨q, member, h⟩))) opened.first params member
    have signed := (Regime.grows reaches.run).params _ (opened.ready.relies.params _ listed q member)
    obtain ⟨id, found⟩ := mem_iff_found.mp signed
    obtain ⟨_, _, read, turn⟩ := bind_ok turn
    cases read
    rw [found] at turn
    obtain ⟨_, s₄, -, turn⟩ := bind_ok turn
    intro v value
    rw [value] at turn
    obtain ⟨t, s₅, ran, -⟩ := bind_ok turn
    exact expr_rangeless v ran
  · rw [given] at run
    obtain ⟨_, s₂, ran, -⟩ := bind_ok run
    exact block_rangeless b ran

theorem funcBody_result (st : FuncState) :
    Ensures (funcBody p st) fun _ s => st.decl.info.span ∈ s.info.results := by
  have last : Ensures (do
      unless (← get).info.results.contains st.decl.info.span do
        let t ← inferResult p.table st (← get).returns
        modifyInfo fun i => { i with results := i.results.insert st.decl.info.span t })
      fun _ s => st.decl.info.span ∈ s.info.results := by
    refine ⟨fun run => ?_⟩
    obtain ⟨_, _, read, run⟩ := bind_ok run
    cases read
    split at run
    · next has =>
      cases run
      exact Std.TreeMap.mem_iff_contains.mpr has
    · obtain ⟨_, _, read, run⟩ := bind_ok run
      cases read
      obtain ⟨t, s₁, -, run⟩ := bind_ok run
      cases run
      exact Std.TreeMap.mem_insert_self
  refine .last fun _ => ?_
  cases st.decl.body with
  | none => exact last
  | some b => exact .last fun _ => last

theorem enterFunc_steps {demand : Span → Resolver Unit}
    (visits : ∀ sc span, Visits table file sc [] [] (demand span)) {st : FuncState}
    (listed : st.decl ∈ file.funcs) (opened : s.Open table file sc [] st.decl.late)
    (known : file.Encloses s.info.symbols st.scope)
    (run : enterFunc table demand st s = .ok (u, s')) :
    s.Steps table file [] st.decl.late s' ∧ s'.Finished file st.decl := by
  have returns : ∀ sc ts, Visits table file sc [] [] (modify fun s => { s with returns := ts }) :=
    fun sc ts => .change (.returns ts) (fun _ => rfl) trivial (by simp [Change.keys]) fun _ => ⟨trivial, trivial⟩
  obtain ⟨_, _, read, run⟩ := bind_ok run
  cases read
  obtain ⟨_, s₁, cleared, run⟩ := bind_ok run
  have steps₁ := (returns sc []).run opened.idle cleared
  cases cleared
  have opened₁ := opened.after steps₁
  obtain ⟨inner, s₂, steps₂, opened₂, run⟩ := newScope_opens opened₁ known run
  have place : Place.Enters table file { table, scope := inner, fn := some st, demand } := ⟨rfl, visits⟩
  obtain ⟨_, s₃, ran, steps₃, opened₃, run⟩ := (funcBody_visits place listed).then_ok opened₂ run
  have steps₄ := (returns inner s.returns).run opened₃ run
  have whole := steps₁.after opened (steps₂.after opened₁ (steps₃.before opened₂ steps₄))
  refine ⟨whole, fun n member => (whole.visited n member).2.2, ?_, funcBody_rangeless place listed opened₂ ran⟩
  exact (Regime.grows steps₄.reaches.run).results _ ((funcBody_result st).run ran)

end TastyLang.Resolution
