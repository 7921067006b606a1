import TastyLang.Proofs.Resolution.Visits

/-!
# Values and bodies are visited

Every expression, every statement and every written type that the third pass goes over is visited, and
all steps keep to the keys of the nodes they go over.
-/

namespace TastyLang

/-- Nothing but its type is noted for the expression. -/
def Expr.Plain : Expr → Prop
  | .ident _ _ | .member _ _ _ _ | .new _ _ _ | .call _ (.member _ _ _ _) _ => False
  | _ => True

namespace Resolution

variable {table : Table} {file : File} {s s' : State} {own : List Key} {ns : List Node}
  {sc : ScopeId} {p : Place}

/-- A place of the third pass where the functions that are asked for are visited. -/
structure Place.Enters (table : Table) (file : File) (p : Place) : Prop where
  sameTable : p.table = table
  demand : ∀ sc span, Visits table file sc [] [] (p.demand span)

theorem Place.Enters.scoped (h : p.Enters table file) (sc : ScopeId) :
    Place.Enters table file { p with scope := sc } := ⟨h.sameTable, h.demand⟩

/-! ### What a last step notes -/

/-- What every run of a computation leaves. -/
structure Ensures {α : Type} (m : Resolver α) (holds : α → State → Prop) : Prop where
  run {s a s'} : m s = .ok (a, s') → holds a s'

theorem Ensures.last {α β : Type} {m : Resolver α} {f : α → Resolver β} {holds : β → State → Prop}
    (h : ∀ a, Ensures (f a) holds) : Ensures (m >>= f) holds := by
  refine ⟨fun run => ?_⟩
  obtain ⟨a, s₁, -, run⟩ := bind_ok run
  exact (h a).run run

/-- The type of an expression is noted with the result. -/
abbrev Notes (span : Span) (m : Resolver Ty) : Prop :=
  Ensures m fun t s => s.info.types[span]? = some t

theorem noteExpr_notes (span : Span) (t : Ty) : Notes span (noteExpr span t) := by
  refine ⟨fun run => ?_⟩
  cases run
  exact Std.TreeMap.getElem?_insert_self

variable {accessor : Accessor} {name : String}

theorem memberCall_types (m x : Expr) {receiver : Ty} :
    Ensures (memberCall p m x name accessor receiver) fun _ s => m.span ∈ s.info.types := by
  have last : ∀ t, Ensures (do return callResult (← noteExpr m.span t))
      fun _ s => m.span ∈ s.info.types := fun t => by
    refine ⟨fun run => ?_⟩
    cases run
    exact Std.TreeMap.mem_insert_self
  refine .last fun found => ?_
  split
  · refine .last fun _ => ?_
    split <;> exact .last last
  · refine .last fun sym => ?_
    split
    · refine .last fun _ => ⟨fun run => ?_⟩
      cases run
      exact Std.TreeMap.mem_insert_self
    · exact .last last

theorem expr_notes (e : Expr) : Notes e.span (expr p e) := by
  have done := noteExpr_notes e.span
  cases e with
  | literal span kind value => exact done _
  | ident span name => exact .last done
  | self span => exact .last done
  | paren span x => exact .last done
  | binary span op l r => exact .last fun _ => .last fun _ => .last done
  | unary span op x trailing => exact .last fun t => done _
  | call span fn args =>
    cases fn with
    | member at' x name accessor => exact .last fun _ => .last fun t => .last fun _ => done t
    | _ => exact .last fun _ => .last fun t => .last fun _ => done t
  | member span x name accessor => exact .last fun _ => .last done
  | index span x i => exact .last fun t => .last fun _ => done _
  | new span type args => exact .last fun _ => .last fun t => done _
  | delete span x => exact .last fun _ => done _
  | cast span x kind type =>
    refine .last fun src => .last fun dst => ?_
    split
    · exact done dst
    · exact ⟨fun run => by cases run⟩
  | tuple span elems => exact .last fun ts => done _
  | tupleIndex span x i => exact .last fun _ => .last done
  | range span low high => exact ⟨fun run => by cases run⟩
  | ternary span c y n => exact .last fun _ => .last fun a => .last fun b => .last fun _ => done _

/-! ### Functions, symbols and members -/

theorem noteExpr_visits (span : Span) (t : Ty) :
    Visits table file sc [.expr span] [] (noteExpr span t) :=
  (Visits.change (.expr span t) (fun _ => rfl) trivial (by simp [Change.keys])
    fun _ => ⟨trivial, trivial⟩).after fun _ => .pure

theorem noteTypeName_visits (span : Span) :
    Visits table file sc [.expr span] [] (noteTypeName span) :=
  .change (.typeName span) (fun _ => rfl) trivial (by simp [Change.keys]) fun _ => ⟨trivial, trivial⟩

theorem funcResult_visits (place : p.Enters table file) (span : Span) :
    Visits table file sc own [] (funcResult p span) := by
  refine Visits.get.after fun s => ?_
  split
  · exact .pure
  · exact (place.demand sc span).nil.after fun _ => Visits.get.after fun _ => .pure

theorem funcType_visits (place : p.Enters table file) (span : Span) :
    Visits table file sc own [] (funcType p span) :=
  (funcResult_visits place span).after fun _ => Visits.get.after fun _ => .pure

theorem useType_visits (place : p.Enters table file) (span : Span) (id : SymbolId) :
    Visits table file sc [.expr span] [] (useType p span id) := by
  refine (Visits.inspects.symbolOf id).nil.after fun sym => ?_
  split
  · exact (noteTypeName_visits span).after fun _ => .pure
  · split
    · exact funcType_visits place _
    · exact .pure

theorem outerMember_visits (place : p.Enters table file) (m : Expr) :
    Visits table file sc [.expr m.span] [] (outerMember p m) := by
  unfold outerMember
  dsimp only
  split
  · exact .pure
  · refine Visits.get.after fun s => ?_
    split
    · exact (noteTypeName_visits _).after fun _ => .pure
    · split
      · exact useType_visits place _ _
      · exact .pure

variable {span : Span}

theorem access_then {α : Type} {x : Expr} {receiver : Ty} {f : Option SymbolId → Resolver α} {a : α}
    (rest : ∀ found, Visits table file sc [.expr span] [] (f found))
    (opened : s.Open table file sc [.expr span] [])
    (run : (access span x name accessor receiver >>= f) s = .ok (a, s')) :
    s.Steps table file [.expr span] [] s' ∧ span ∈ s'.info.access := by
  have visits : Visits table file sc [.expr span] [] (access span x name accessor receiver) := by
    refine (Visits.inspects.isTypeName x).nil.after fun named => ?_
    refine (Visits.change (.access span (accessForm accessor named receiver)) (fun _ => rfl) trivial
      (by simp [Change.keys]) fun _ => ⟨trivial, trivial⟩).after fun _ => Visits.get.after fun s => ?_
    split <;> exact .pure
  obtain ⟨found, s₁, accessed, steps, opened₁, run⟩ := visits.then_ok opened run
  have steps₁ := (rest found).run opened₁ run
  exact ⟨steps.after opened steps₁, (Regime.grows steps₁.reaches.run).access _ (access_run accessed)⟩

variable {receiver t : Ty} {m x : Expr}

theorem memberType_steps (place : p.Enters table file)
    (opened : s.Open table file sc [.expr m.span] [])
    (run : memberType p m x name accessor receiver s = .ok (t, s')) :
    s.Steps table file [.expr m.span] [] s' ∧ m.span ∈ s'.info.access := by
  refine access_then (fun found => ?_) opened run
  split
  · refine (Visits.inspects.isTypeName x).nil.after fun _ => ?_
    split
    · exact outerMember_visits place m
    · exact .pure
  · exact useType_visits place m.span _

theorem selfType_visits (span : Span) : Visits table file sc [] [] (selfType p span) := by
  unfold selfType
  split
  · exact .pure
  · split
    · exact .pure
    · refine Visits.after (.change (.this span) (fun _ => rfl) trivial (by simp [Change.keys])
        fun _ => ⟨trivial, trivial⟩) fun _ => (Visits.inspects.symbolOf _).after fun _ => .pure
    · exact .pure

theorem forwardedType_visits (place : p.Enters table file) (receiver : Ty) (name : String) :
    Visits table file sc own [] (forwardedType p receiver name) := by
  refine (Visits.inspects.capabilitiesOf? receiver).nil.after fun c => ?_
  split
  · exact funcType_visits place _
  · exact .pure

theorem memberCall_steps (place : p.Enters table file)
    (opened : s.Open table file sc [.expr m.span] [])
    (run : memberCall p m x name accessor receiver s = .ok (t, s')) :
    s.Steps table file [.expr m.span] [] s' ∧ m.span ∈ s'.info.access ∧ m.span ∈ s'.info.types := by
  have last : ∀ {own : Resolver Ty}, Visits table file sc [.expr m.span] [] own →
      Visits table file sc [.expr m.span] [] (own >>= fun t => do
        return callResult (← noteExpr m.span t)) := fun first =>
    first.after fun t => (noteExpr_visits m.span t).after fun _ => .pure
  refine and_assoc.mp ⟨access_then (fun found => ?_) opened run, (memberCall_types m x).run run⟩
  split
  · refine (Visits.inspects.isTypeName x).nil.after fun _ => ?_
    split
    · exact last (outerMember_visits place m)
    · exact last (forwardedType_visits place receiver name)
  · refine (Visits.inspects.symbolOf _).nil.after fun sym => ?_
    split
    · exact (noteTypeName_visits m.span).after fun _ => noteExpr_visits m.span _
    · exact last (useType_visits place m.span _)

theorem callNote_visits (call : Span) (c : ExtensionCall) : Visits table file sc [.expr call] []
    (modifyInfo fun i => { i with extensionCalls := i.extensionCalls.insert call c }) :=
  .change (.call call c) (fun _ => rfl) trivial (by simp [Change.keys]) fun _ => ⟨trivial, trivial⟩

/-- The member that a call is made through is noted, with its form or as an extension. -/
theorem receiverCall_steps (place : p.Enters table file) {call span : Span} {x : Expr}
    {args : List Expr}
    (listed : .expr (.call call (.member span x name accessor) args) ∈ file.nodes)
    (opened : s.Open table file sc [.expr span, .expr call] [])
    (run : receiverCall p call (.member span x name accessor) x name accessor receiver s =
      .ok (t, s')) :
    s.Steps table file [.expr span, .expr call] [] s' ∧
      s'.Noted file (.expr (.member span x name accessor)) := by
  have member : ∀ {s₁ : State}, s₁.Open table file sc [.expr span, .expr call] [] →
      memberCall p (.member span x name accessor) x name accessor receiver s₁ = .ok (t, s') →
      s₁.Steps table file [.expr span, .expr call] [] s' ∧
        s'.Noted file (.expr (.member span x name accessor)) := by
    intro s₁ opened₁ run
    obtain ⟨steps, accessed, typed⟩ :=
      memberCall_steps place (m := .member span x name accessor) (opened₁.fewer (by simp [Expr.span])) run
    exact ⟨steps.more (by simp [Expr.span]), typed, .inl accessed⟩
  obtain ⟨b, s₁, -, steps₁, opened₁, run⟩ := (Visits.inspects.isTypeName x).nil.then_ok opened run
  split at run
  · obtain ⟨steps, noted⟩ := member opened₁ run
    exact ⟨steps₁.after opened steps, noted⟩
  obtain ⟨e, s₂, -, steps₂, opened₂, run⟩ :=
    (Visits.inspects.extension? receiver name).nil.then_ok opened₁ run
  have before := steps₁.after opened steps₂
  split at run
  · next e =>
    obtain ⟨_, s₃, marked, steps₃, opened₃, run⟩ :=
      ((callNote_visits call ⟨e, receiver.pointerDepth⟩).more (by simp)).then_ok opened₂ run
    obtain ⟨_, s₄, noted, steps₄, opened₄, run⟩ :=
      ((noteExpr_visits span _).discard.more (by simp)).then_ok opened₃ run
    have steps₅ := (funcResult_visits place e.decl).run opened₄ run
    have called : call ∈ s₃.info.extensionCalls := by
      cases marked
      exact Std.TreeMap.mem_insert_self
    have typed : span ∈ s₄.info.types := by
      cases noted
      exact Std.TreeMap.mem_insert_self
    have later := (Regime.grows steps₄.reaches.run).trans (Regime.grows steps₅.reaches.run)
    refine ⟨before.after opened (steps₃.after opened₂ (steps₄.after opened₃ steps₅)), ?_, .inr ?_⟩
    · exact (Regime.grows steps₅.reaches.run).types _ typed
    · exact ⟨call, args, listed, later.calls _ called⟩
  · obtain ⟨_, s₃, -, steps₃, opened₃, run⟩ := (Visits.inspects.requireForwarded (.member span x name accessor) x name receiver).nil.then_ok opened₂ run
    obtain ⟨steps, noted⟩ := member opened₃ run
    exact ⟨before.after opened (steps₃.after opened₂ steps), noted⟩

/-! ### Written types -/

theorem noteType_visits {t : TypeExpr} (inside : .type t ∈ file.late) (u : Ty) :
    Visits table file sc [.type t.span] [] (noteType t.span u) :=
  (Visits.change (.written t.span u) (fun _ => rfl) trivial (by simp [Change.keys])
    fun _ => ⟨trivial, t, inside, rfl⟩).after fun _ => .pure

theorem type_visits {te : TypeExpr} (own : p.table = table)
    (parts : Visits table file sc [.type te.span] ns (typeExpr p te)) :
    Visits table file sc [] (.type te :: ns) (typeExpr p te) := by
  refine Visits.node rfl (by simp [Node.keys]) fun {s t s'} opened run => ?_
  have written := typeExpr_written run
  refine ⟨parts.run opened run, ⟨p, t, s, s', own, .refl s, run, .refl s', written⟩, ?_⟩
  exact mem_iff_found.mpr ⟨_, written⟩

mutual

theorem typeExpr_visits (own : p.table = table) : (t : TypeExpr) → (∀ n ∈ t.nodes, n ∈ file.late) →
    Visits table file sc [] t.nodes (typeExpr p t)
  | .tuple span elems stars, inside => by
    simp only [TypeExpr.nodes, List.mem_cons, forall_eq_or_imp] at inside ⊢
    refine type_visits own ((typeExprs_visits own elems inside.2).nil.before fun ts => ?_)
    exact noteType_visits inside.1 _
  | .func span params none stars, inside => by
    simp only [TypeExpr.nodes, List.mem_cons, forall_eq_or_imp, List.append_nil] at inside ⊢
    refine type_visits own ((typeExprs_visits own params inside.2).nil.before fun ts => ?_)
    exact Visits.pure.after fun r => noteType_visits inside.1 _
  | .func span params (some result) stars, inside => by
    simp only [TypeExpr.nodes, List.mem_cons, forall_eq_or_imp, List.mem_append] at inside ⊢
    refine type_visits own ((typeExprs_visits own params fun n h => inside.2 n (.inl h)).nil.bind fun ts => ?_)
    refine (typeExpr_visits own result fun n h => inside.2 n (.inr h)).nil.before fun r => ?_
    exact noteType_visits inside.1 _
  | .named span name args stars, inside => by
    simp only [TypeExpr.nodes, List.mem_cons, forall_eq_or_imp] at inside ⊢
    refine type_visits own ((Visits.inspects.namedType name).nil.after fun t => ?_)
    exact (typeExprs_visits own args inside.2).nil.before fun ts => noteType_visits inside.1 _

theorem typeExprs_visits (own : p.table = table) : (ts : List TypeExpr) → (∀ n ∈ TypeExpr.nodesOf ts, n ∈ file.late) →
    Visits table file sc [] (TypeExpr.nodesOf ts) (typeExprs p ts)
  | [], _ => .pure
  | t :: ts, inside => by
    simp only [TypeExpr.nodesOf, List.mem_append] at inside ⊢
    refine (typeExpr_visits own t fun n h => inside n (.inl h)).bind fun u => ?_
    exact (typeExprs_visits own ts fun n h => inside n (.inr h)).before fun _ => .pure

end

/-! ### Expressions -/

theorem plain_visits {m : Resolver Ty} {e : Expr} (plain : e.Plain) (notes : Notes e.span m)
    (parts : Visits table file sc (.expr e.span :: own) ns m) :
    Visits table file sc own (.expr e :: ns) m := by
  obtain ⟨keys, silent, noted⟩ : (Node.expr e).keys = [] ∧
      (∀ s s' : State, s.Visited table file s' (.expr e)) ∧
      ∀ s : State, e.span ∈ s.info.types → s.Noted file (.expr e) := by
    cases e with
    | ident _ _ | member _ _ _ _ | new _ _ _ => exact absurd plain not_false
    | call span fn args =>
      cases fn with
      | member _ _ _ _ => exact absurd plain not_false
      | _ => exact ⟨rfl, fun _ _ => trivial, fun _ typed => ⟨typed, trivial⟩⟩
    | _ => exact ⟨rfl, fun _ _ => trivial, fun _ typed => ⟨typed, trivial⟩⟩
  refine Visits.node rfl (by simp [keys]) fun {s t s'} opened run => ?_
  refine ⟨parts.run opened run, silent s s', noted s' ?_⟩
  exact mem_iff_found.mpr ⟨_, notes.run run⟩

/-- A use of a symbol keeps what the name refers to, and a value is given its type. -/
theorem useType_run (place : p.Enters table file) {id : SymbolId} {t : Ty}
    (opened : s.Open table file sc [.expr span] []) (run : useType p span id s = .ok (t, s')) :
    s'.info.uses[span]? = s.info.uses[span]? ∧ ((s.info.symbols.symbol id).kind = .var →
      t = (s.info.symbols.symbol id).type.getD (.unknown "") ∧
      s'.info.typeNames[span]? = s.info.typeNames[span]?) := by
  obtain ⟨sym, _, read, run⟩ := bind_ok run
  cases read
  split at run
  · next named =>
    obtain ⟨_, _, noted, run⟩ := bind_ok run
    cases noted
    cases run
    refine ⟨rfl, fun kind => ?_⟩
    rw [kind] at named
    cases named
  · obtain ⟨step, same, run⟩ := exists_step run
    split at same
    · next f kind _ =>
      subst same
      have type : Visits table file sc [] [] _ := funcType_visits place f
      have steps := type.run ⟨opened.zoned, opened.ready, opened.rooted, opened.once, by simp, by simp⟩ run
      have entry : s'.entry (.expr span) = s.entry (.expr span) := by
        refine steps.entry _ (by simp) (by simp) fun span' st enters member => ?_
        exact (opened.apart span' st enters.1 _ member).1 (List.mem_singleton_self _)
      refine ⟨congrArg Entry.use entry, fun var => ?_⟩
      rw [var] at kind
      cases kind
    · subst same
      cases run
      exact ⟨rfl, fun _ => ⟨rfl, rfl⟩⟩

theorem ident_visits (place : p.Enters table file) (inside : .expr (.ident span name) ∈ file.late) :
    Visits table file p.scope [] [.expr (.ident span name)] (expr p (.ident span name)) := by
  refine Visits.node rfl (fun _ own => own) fun {s t s'} opened run => ?_
  obtain ⟨u, s₃, ran, noted⟩ := bind_ok run
  obtain ⟨id, s₁, bound, ran⟩ := bind_ok ran
  obtain ⟨run₁, lt, named, fits⟩ := bind_run place.sameTable opened.ready bound
  have names : s.Quiet [] s₁ := (bind_quiet name).run bound
  obtain ⟨_, s₂, marked, ran⟩ := bind_ok ran
  have once : (resolving table file).may s₁ (.use span id) :=
    ⟨trivial, name, inside, lt, named, fits⟩
  obtain rfl := modify_ok marked
  have quiet : s.Quiet [.expr span] ((Change.use span id).apply s₁) :=
    (names.mono (by simp)).trans (Change.quiet (c := .use span id) trivial)
  have steps₂ : s.Steps table file [.expr span] [] ((Change.use span id).apply s₁) :=
    .of_quiet opened (run₁.trans (.one once)) quiet (by simp)
  have opened₂ := opened.after steps₂
  have steps₃ := (useType_visits place span id).run opened₂ ran
  have steps₄ := (noteExpr_visits span u).run (opened₂.after steps₃) noted
  have rest := steps₃.trans opened₂ steps₄
  obtain ⟨kept, value⟩ := useType_run place opened₂ ran
  have used : ((Change.use span id).apply s₁).info.uses[span]? = some id :=
    Std.TreeMap.getElem?_insert_self
  have later := kept.trans used
  cases noted
  refine ⟨steps₂.trans opened rest, ⟨id, t, _, steps₂.reaches, lt, rest.reaches, later,
    Std.TreeMap.getElem?_insert_self, fun kind => ⟨(value kind).1, (value kind).2.trans ?_⟩⟩,
    Std.TreeMap.mem_insert_self, ?_⟩
  · exact congrArg Entry.named (names.entry (.expr span) (by simp))
  · exact mem_iff_found.mpr ⟨_, later⟩

/-- The tables decide what is noted for the call of a member. -/
theorem receiverCall_notes (place : p.Enters table file) {call : Span} (apart : m.span ≠ call)
    (opened : s.Open table file p.scope [.expr m.span, .expr call] [])
    (run : receiverCall p call m x name accessor receiver s = .ok (t, s')) :
    s.Admits p x name receiver ∧ (s'.entry (.expr call)).call =
      (s.extensionCall? x name receiver).or (s.entry (.expr call)).call := by
  have member : memberCall p m x name accessor receiver s = .ok (t, s') →
      s'.entry (.expr call) = s.entry (.expr call) := fun run => by
    have steps := (memberCall_steps place (opened.fewer (by simp)) run).1
    refine steps.entry _ (by simpa using Ne.symm apart) (by simp) fun span st enters held => ?_
    exact (opened.apart span st enters.1 _ held).1 (by simp)
  unfold State.Admits State.extensionCall?
  by_cases named : s.info.typeNames.contains x.span = true
  · rw [receiverCall_eq_of_name named] at run
    rw [if_pos named]
    refine ⟨fun value => ?_, congrArg Entry.call (member run)⟩
    rw [value] at named
    cases named
  rw [if_neg named]
  have value := eq_false_of_ne_true named
  rw [receiverCall_eq value] at run
  cases found : s.extension? receiver name with
  | none =>
    rw [found] at run
    dsimp only at run
    cases refused : s.refusal? p x name receiver with
    | some c =>
      rw [refused] at run
      cases run
    | none =>
      rw [refused] at run
      exact ⟨fun _ _ => rfl, congrArg Entry.call (member run)⟩
  | some e =>
    rw [found] at run
    refine ⟨fun _ none => (by cases none), ?_⟩
    obtain ⟨_, s₁, marked, run⟩ := bind_ok run
    obtain ⟨_, s₂, noted, run⟩ := bind_ok run
    have mark : Visits table file p.scope [.expr m.span, .expr call] [] (modifyInfo fun i => { i with
        extensionCalls := i.extensionCalls.insert call ⟨e, receiver.pointerDepth⟩ }) :=
      (callNote_visits call ⟨e, receiver.pointerDepth⟩).more (by simp)
    have opened₁ := opened.after (mark.run opened marked)
    have note : Visits table file p.scope [.expr m.span, .expr call] []
        (discard (noteExpr m.span (.unknown ""))) := (noteExpr_visits m.span _).discard.more (by simp)
    have opened₂ := opened₁.after (note.run opened₁ noted)
    have unheld : s₂.Open table file p.scope [] [] := opened₂.fewer (by simp)
    have steps := (funcResult_visits place e.decl).run unheld run
    have after : s'.entry (.expr call) = s₂.entry (.expr call) := by
      refine steps.entry _ (by simp) (by simp) fun span st enters held => ?_
      exact (opened₂.apart span st enters.1 _ held).1 (by simp)
    refine (congrArg Entry.call after).trans ?_
    cases marked
    cases noted
    exact Std.TreeMap.getElem?_insert_self

/-- A call of a member that is met with its receiver's type, as its parts are visited. -/
theorem call_steps (place : p.Enters table file) {span at' : Span} {x : Expr} {args : List Expr}
    {t : Ty} (apart : at' ≠ span)
    (listed : .expr (.call span (.member at' x name accessor) args) ∈ file.nodes)
    (receiver : Visits table file p.scope [] x.nodes (expr p x))
    (values : Visits table file p.scope [] (Expr.nodesOf args) (exprs p args))
    (opened : s.Open table file p.scope [.expr at', .expr span] (x.nodes ++ Expr.nodesOf args))
    (run : expr p (.call span (.member at' x name accessor) args) s = .ok (t, s')) :
    s.Steps table file [.expr at', .expr span] (x.nodes ++ Expr.nodesOf args) s' ∧
      s'.Noted file (.expr (.member at' x name accessor)) ∧
      s.Visited table file s' (.expr (.call span (.member at' x name accessor) args)) := by
  have own : Key.expr span ∈ [Key.expr at', .expr span] := by simp
  obtain ⟨r, s₁, first, run⟩ := bind_ok run
  obtain ⟨u, s₂, called, run⟩ := bind_ok run
  have steps₁ := receiver.run (opened.first.fewer (by simp)) first
  have steps₁' := receiver.nil.run opened.first first
  have opened₁ := opened.second steps₁'
  obtain ⟨steps₂, noted⟩ := receiverCall_steps place listed opened₁.idle called
  have opened₂ := opened₁.after steps₂
  have last : Visits table file p.scope [.expr at', .expr span] (Expr.nodesOf args) (do
      exprs p args
      noteExpr span u) :=
    values.nil.before fun _ => (noteExpr_visits span u).more (by simp)
  have steps₃ := last.run opened₂ run
  have rest := steps₂.after opened₁ steps₃
  obtain ⟨admits, call⟩ := receiverCall_notes place (m := .member at' x name accessor) apart opened₁.idle called
  refine ⟨steps₁'.trans opened rest, Regime.noted opened₂.ready.formed steps₃.reaches.run noted,
    p, r, s₁, steps₁.reaches, (expr_notes x).run first, ?_, admits, ?_⟩
  · have here := x.own_key
    have once := opened.once
    rw [keysOf_append] at once
    refine rest.entry _ (fun member => opened.first.away _ member here)
      (fun there => (List.nodup_append.mp once).2.2 _ here _ there rfl) fun span' st enters member => ?_
    have waits := steps₁.waits span' st enters.1
    exact (opened.first.apart span' st waits _ member).2 here
  · have before : s₁.entry (.expr span) = s.entry (.expr span) := by
      refine steps₁.entry _ (by simp) (opened.first.away _ own) fun span' st enters member => ?_
      exact (opened.apart span' st enters.1 _ member).1 own
    obtain ⟨_, s₃, ran, run⟩ := bind_ok run
    have steps := values.run (opened₂.fewer (by simp)) ran
    have after : s₃.entry (.expr span) = s₂.entry (.expr span) := by
      refine steps.entry _ (by simp) (opened₂.away _ own) fun span' st enters member => ?_
      exact (opened₂.apart span' st enters.1 _ member).1 own
    rw [before, ← congrArg Entry.call after] at call
    cases run
    exact call

mutual

theorem expr_visits (place : p.Enters table file) : (e : Expr) → (∀ n ∈ e.nodes, n ∈ file.late) →
    Visits table file p.scope [] e.nodes (expr p e)
  | .literal span kind value, _ => by
    simp only [Expr.nodes]
    exact plain_visits trivial (expr_notes _) (noteExpr_visits span _)
  | .ident span name, inside => by
    simp only [Expr.nodes, List.mem_singleton, forall_eq] at inside ⊢
    exact ident_visits place inside
  | .self span, _ => by
    simp only [Expr.nodes]
    exact plain_visits trivial (expr_notes _) ((selfType_visits span).nil.after fun t => noteExpr_visits span t)
  | .paren span x, inside => by
    simp only [Expr.nodes, List.mem_cons, forall_eq_or_imp] at inside ⊢
    exact plain_visits trivial (expr_notes _)
      ((expr_visits place x inside.2).nil.before fun t => noteExpr_visits span t)
  | .binary span op l r, inside => by
    simp only [Expr.nodes, List.mem_cons, forall_eq_or_imp, List.mem_append] at inside ⊢
    refine plain_visits trivial (expr_notes _)
      ((expr_visits place l fun n h => inside.2 n (.inl h)).nil.bind fun lt => ?_)
    refine (expr_visits place r fun n h => inside.2 n (.inr h)).nil.before fun rt => ?_
    exact (Visits.inspects.binaryType span op r lt rt).nil.after fun t => noteExpr_visits span t
  | .unary span op x trailing, inside => by
    simp only [Expr.nodes, List.mem_cons, forall_eq_or_imp] at inside ⊢
    exact plain_visits trivial (expr_notes _)
      ((expr_visits place x inside.2).nil.before fun t => noteExpr_visits span _)
  | .call span fn args, inside => by
    simp only [Expr.nodes, List.mem_cons, forall_eq_or_imp, List.mem_append] at inside ⊢
    have callee := fun n h => inside.2 n (.inl h)
    have values := exprs_visits place args fun n h => inside.2 n (.inr h)
    cases fn with
    | member at' x name accessor =>
      simp only [Expr.nodes, List.mem_cons, forall_eq_or_imp] at callee ⊢
      refine Visits.node rfl ?_ fun opened run => ?_
      · have here := x.own_key
        change ∀ k ∈ [Key.expr span, .expr x.span], k ∈ Key.expr span :: keysOf _
        simp [here]
      have apart : at' ≠ span := fun same => by
        refine opened.away (.expr span) (List.mem_singleton_self _) ?_
        rw [List.cons_append, keysOf_own rfl, ← same]
        exact List.mem_cons_self
      obtain ⟨steps, noted, visited⟩ := call_steps place apart (File.late_subset inside.1)
        (expr_visits place x callee.2) values (opened.parts rfl) run
      refine ⟨steps.node rfl (fun _ own => nomatch own) trivial noted, visited, ?_, trivial⟩
      exact mem_iff_found.mpr ⟨_, (expr_notes _).run run⟩
    | _ =>
      refine plain_visits trivial (expr_notes _) ((expr_visits place _ callee).nil.bind fun ft => ?_)
      exact (Visits.inspects.plainCall _ ft).nil.after fun t => values.nil.before fun _ => noteExpr_visits span t
  | .member span x name accessor, inside => by
    simp only [Expr.nodes, List.mem_cons, forall_eq_or_imp] at inside ⊢
    refine Visits.node rfl (fun _ own => nomatch own) fun opened run => ?_
    obtain ⟨r, s₁, -, steps, opened₁, run⟩ := (expr_visits place x inside.2).nil.then_ok opened run
    obtain ⟨t, s₂, ran, run⟩ := bind_ok run
    obtain ⟨steps₁, accessed⟩ := memberType_steps place (m := .member span x name accessor) opened₁ ran
    have steps₂ := (noteExpr_visits span t).run (opened₁.after steps₁) run
    refine ⟨steps.before opened (steps₁.after opened₁ steps₂), trivial, ?_, .inl ?_⟩
    · cases run
      exact Std.TreeMap.mem_insert_self
    · exact (Regime.grows steps₂.reaches.run).access _ accessed
  | .index span x i, inside => by
    simp only [Expr.nodes, List.mem_cons, forall_eq_or_imp, List.mem_append] at inside ⊢
    refine plain_visits trivial (expr_notes _)
      ((expr_visits place x fun n h => inside.2 n (.inl h)).nil.bind fun t => ?_)
    refine (expr_visits place i fun n h => inside.2 n (.inr h)).discard.nil.before fun _ => ?_
    exact noteExpr_visits span _
  | .new span type args, inside => by
    simp only [Expr.nodes, List.mem_cons, forall_eq_or_imp, List.mem_append] at inside ⊢
    have parts : Visits table file p.scope [.expr span] (Expr.nodesOf args ++ type.nodes)
        (expr p (.new span type args)) := by
      refine (exprs_visits place args fun n h => inside.2 n (.inr h)).nil.bind fun _ => ?_
      refine (typeExpr_visits place.sameTable type fun n h => inside.2 n (.inl h)).nil.before fun t => ?_
      exact noteExpr_visits span (t.pointerTo 1)
    refine Visits.node rfl ?_ fun {s t s'} opened run => ⟨(parts.perm List.perm_append_comm).run opened run, ?_⟩
    · have here := type.own_key
      change ∀ k ∈ [Key.expr span, .type type.span], k ∈ Key.expr span :: keysOf _
      simp [here]
    · obtain ⟨_, s₁, -, run⟩ := bind_ok run
      obtain ⟨u, s₂, ran, run⟩ := bind_ok run
      have written := typeExpr_written ran
      cases run
      exact ⟨⟨u, written, Std.TreeMap.getElem?_insert_self⟩, Std.TreeMap.mem_insert_self, trivial⟩
  | .delete span x, inside => by
    simp only [Expr.nodes, List.mem_cons, forall_eq_or_imp] at inside ⊢
    exact plain_visits trivial (expr_notes _)
      ((expr_visits place x inside.2).discard.nil.before fun _ =>
      noteExpr_visits span _)
  | .cast span x kind type, inside => by
    simp only [Expr.nodes, List.mem_cons, forall_eq_or_imp, List.mem_append] at inside ⊢
    refine plain_visits trivial (expr_notes _)
      ((expr_visits place x fun n h => inside.2 n (.inl h)).nil.bind fun src => ?_)
    refine (typeExpr_visits place.sameTable type fun n h => inside.2 n (.inr h)).nil.before fun dst => ?_
    split
    · exact noteExpr_visits span dst
    · exact .failType
  | .tuple span elems, inside => by
    simp only [Expr.nodes, List.mem_cons, forall_eq_or_imp] at inside ⊢
    exact plain_visits trivial (expr_notes _)
      ((exprTypes_visits place elems inside.2).nil.before fun ts =>
      noteExpr_visits span _)
  | .tupleIndex span x i, inside => by
    simp only [Expr.nodes, List.mem_cons, forall_eq_or_imp] at inside ⊢
    refine plain_visits trivial (expr_notes _)
      ((expr_visits place x inside.2).nil.before fun t => ?_)
    exact (Visits.inspects.tupleIndexType span i t).nil.after fun u => noteExpr_visits span u
  | .range _ _ _, _ => .failType
  | .ternary span c y n, inside => by
    simp only [Expr.nodes, List.mem_cons, forall_eq_or_imp, List.mem_append, List.append_assoc]
      at inside ⊢
    refine plain_visits trivial (expr_notes _)
      ((expr_visits place c fun k h => inside.2 k (.inl h)).discard.nil.bind
      fun _ => ?_)
    refine (expr_visits place y fun k h => inside.2 k (.inr (.inl h))).nil.bind fun a => ?_
    refine (expr_visits place n fun k h => inside.2 k (.inr (.inr h))).nil.before fun b => ?_
    exact Visits.get.after fun _ => noteExpr_visits span _

theorem exprs_visits (place : p.Enters table file) : (es : List Expr) →
    (∀ n ∈ Expr.nodesOf es, n ∈ file.late) →
    Visits table file p.scope [] (Expr.nodesOf es) (exprs p es)
  | [], _ => .pure
  | e :: es, inside => by
    simp only [Expr.nodesOf, List.mem_append] at inside ⊢
    refine (expr_visits place e fun n h => inside n (.inl h)).discard.bind fun _ => ?_
    exact exprs_visits place es fun n h => inside n (.inr h)

theorem exprTypes_visits (place : p.Enters table file) : (es : List Expr) →
    (∀ n ∈ Expr.nodesOf es, n ∈ file.late) →
    Visits table file p.scope [] (Expr.nodesOf es) (exprTypes p es)
  | [], _ => .pure
  | e :: es, inside => by
    simp only [Expr.nodesOf, List.mem_append] at inside ⊢
    refine (expr_visits place e fun n h => inside n (.inl h)).bind fun t => ?_
    exact (exprTypes_visits place es fun n h => inside n (.inr h)).before fun _ => .pure

end

end Resolution

end TastyLang
