import TastyLang.Proofs.Resolution.Sound
import TastyLang.Resolution.Bodies
import TastyLang.Syntax.Nodes

/-!
# What holds of all steps holds of expressions

Expressions are resolved in steps that look at the state, take notes, make new symbols, break a rule of
types or ask for a function; only names are noted as uses. A property of computations that holds of these
steps and of whatever is put together from them (`Composes`) holds of every expression of whose names it
holds (`Composes.expr`).
-/

namespace TastyLang.Resolution

/-- What the notes on expressions leave as it is: what is declared, what names refer to, and the results
of functions. -/
def State.core (s : State) :=
  (s.info.symbols, s.info.hierarchy, s.info.params, s.info.vars, s.info.uses, s.info.results, s.classes,
    s.assumed, s.funcs, s.returns)

/-- The property holds of steps that change nothing and of what is put together from them. -/
structure Inspects (P : {α : Type} → Resolver α → Prop) : Prop where
  pure : ∀ {α : Type} (a : α), P (pure a : Resolver α)
  bind : ∀ {α β : Type} {m : Resolver α} {f : α → Resolver β}, P m → (∀ a, P (f a)) → P (m >>= f)
  get : P (get : Resolver State)
  failType : ∀ {α : Type} (cause : TypeError.Cause) (pos : Pos), P (failType cause pos : Resolver α)
  refuse : ∀ (binding member : String) (pos : Pos), P (fail (.notForwarded binding member pos) : Resolver Unit)

/-- The property holds of the notes on expressions and of new symbols too. -/
structure Composes (P : {α : Type} → Resolver α → Prop) : Prop extends Inspects P where
  alloc : ∀ x, P (alloc x)
  note : ∀ {f : State → State}, (∀ s, (f s).core = s.core) → P (modify f : Resolver Unit)

variable {P : {α : Type} → Resolver α → Prop} {p : Place}

/-! ### Steps that change nothing -/

namespace Inspects

variable (c : Inspects P)
include c

theorem symbolOf (id : SymbolId) : P (symbolOf id) := c.bind c.get fun _ => c.pure _

theorem requireAssignable (dst src : Ty) (pos : Pos) : P (requireAssignable dst src pos) := by
  refine c.bind c.get fun s => ?_
  split
  · exact c.pure _
  · exact c.failType _ _

theorem namedType (name : String) : P (namedType p name) := by
  unfold Resolution.namedType
  split
  · exact c.pure _
  · refine c.bind c.get fun s => ?_
    split
    · split <;> exact c.pure _
    · exact c.pure _

theorem isTypeName (e : Expr) : P (isTypeName e) := c.bind c.get fun _ => c.pure _

theorem binaryType (span : Span) (op : Operator) (right : Expr) (l r : Ty) :
    P (binaryType p span op right l r) := by
  unfold Resolution.binaryType
  split
  · dsimp only
    split
    · exact c.pure _
    · exact c.bind (c.requireAssignable _ _ _) fun _ => c.pure _
  all_goals first
    | exact c.pure _
    | exact c.bind c.get fun _ => c.pure _

theorem tupleIndexType (span : Span) (i : Nat) (x : Ty) : P (tupleIndexType span i x) := by
  unfold Resolution.tupleIndexType
  split
  · split
    · exact c.pure _
    · exact c.failType _ _
  · exact c.pure _

theorem capabilitiesOf? (receiver : Ty) : P (capabilitiesOf? receiver) := by
  unfold Resolution.capabilitiesOf?
  dsimp only
  split
  · exact c.pure _
  · exact c.bind c.get fun _ => c.pure _

theorem extension? (receiver : Ty) (name : String) : P (extension? receiver name) := by
  refine c.bind (c.capabilitiesOf? receiver) fun found => ?_
  dsimp only
  split
  · exact c.pure _
  · exact c.bind c.get fun _ => c.pure _

theorem requireForwarded (m x : Expr) (name : String) (receiver : Ty) :
    P (requireForwarded p m x name receiver) := by
  refine c.bind (c.capabilitiesOf? receiver) fun found => ?_
  split
  · exact c.pure _
  · dsimp only
    split
    · exact c.pure _
    · exact c.refuse _ _ _

theorem plainCall (fn : Expr) (t : Ty) : P (plainCall fn t) := by
  unfold Resolution.plainCall
  split
  · refine c.bind c.get fun s => ?_
    split <;> exact c.pure _
  · exact c.pure _

theorem countType (low high : Ty) : P (countType p low high) := by
  refine c.bind c.get fun s => ?_
  split <;> exact c.pure _

theorem inferResult (table : Table) (st : FuncState) (returns : List Ty) :
    P (inferResult table st returns) := by
  unfold Resolution.inferResult
  split
  · split <;> exact c.pure _
  · refine c.bind c.get fun s => ?_
    split
    · exact c.pure _
    · exact c.failType _ _

end Inspects

namespace Composes

variable (c : Composes P) {α : Type}
include c

theorem map {β : Type} {m : Resolver α} (f : α → β) (h : P m) : P (f <$> m) := by
  rw [map_eq_pure_bind]
  exact c.bind h fun _ => c.pure _

theorem discard {m : Resolver α} (h : P m) : P (discard m) := c.map _ h

/-! ### Single steps -/

theorem noteType (span : Span) (t : Ty) : P (noteType span t) :=
  c.bind (c.note fun _ => rfl) fun _ => c.pure _

mutual

theorem typeExpr : (te : TypeExpr) → P (typeExpr p te)
  | .tuple _ elems _ => c.bind (typeExprs elems) fun _ => c.noteType _ _
  | .func _ params none _ => c.bind (typeExprs params) fun _ => c.bind (c.pure _) fun _ => c.noteType _ _
  | .func _ params (some result) _ =>
    c.bind (typeExprs params) fun _ => c.bind (typeExpr result) fun _ => c.noteType _ _
  | .named _ name args _ =>
    c.bind (c.namedType name) fun _ => c.bind (typeExprs args) fun _ => c.noteType _ _

theorem typeExprs : (ts : List TypeExpr) → P (typeExprs p ts)
  | [] => c.pure _
  | t :: ts => c.bind (typeExpr t) fun _ => c.bind (typeExprs ts) fun _ => c.pure _

end

theorem noteExpr (span : Span) (t : Ty) : P (noteExpr span t) :=
  c.bind (c.note fun _ => rfl) fun _ => c.pure _

theorem noteTypeName (span : Span) : P (noteTypeName span) := c.note fun _ => rfl

theorem bindName (name : String) : P (Resolution.bind p name) := by
  refine c.bind c.get fun s => ?_
  dsimp only
  split
  · exact c.pure _
  · split <;> exact c.alloc _

theorem selfType (span : Span) : P (selfType p span) := by
  unfold Resolution.selfType
  split
  · exact c.pure _
  · split
    · exact c.pure _
    · exact c.bind (c.note fun _ => rfl) fun _ => c.bind (c.symbolOf _) fun _ => c.pure _
    · exact c.pure _

theorem access (span : Span) (x : Expr) (name : String) (accessor : Accessor) (receiver : Ty) :
    P (access span x name accessor receiver) := by
  refine c.bind (c.isTypeName x) fun named => c.bind (c.note fun _ => rfl) fun _ => c.bind c.get fun s => ?_
  split <;> exact c.pure _

/-! ### Steps that may ask for a function -/

section

variable (demand : ∀ span, P (p.demand span))
include demand

theorem funcResult (span : Span) : P (funcResult p span) := by
  refine c.bind c.get fun s => ?_
  split
  · exact c.pure _
  · exact c.bind (demand span) fun _ => c.bind c.get fun _ => c.pure _

theorem funcType (span : Span) : P (funcType p span) :=
  c.bind (c.funcResult demand span) fun _ => c.bind c.get fun _ => c.pure _

theorem useType (span : Span) (id : SymbolId) : P (useType p span id) := by
  refine c.bind (c.symbolOf id) fun sym => ?_
  split
  · exact c.bind (c.noteTypeName span) fun _ => c.pure _
  · split
    · exact c.funcType demand _
    · exact c.pure _

theorem outerMember (m : Expr) : P (outerMember p m) := by
  unfold Resolution.outerMember
  dsimp only
  split
  · exact c.pure _
  · refine c.bind c.get fun s => ?_
    split
    · exact c.bind (c.noteTypeName _) fun _ => c.pure _
    · split
      · exact c.useType demand _ _
      · exact c.pure _

theorem memberType (m x : Expr) (name : String) (accessor : Accessor) (receiver : Ty) :
    P (memberType p m x name accessor receiver) := by
  refine c.bind (c.access m.span x name accessor receiver) fun found => ?_
  split
  · refine c.bind (c.isTypeName x) fun _ => ?_
    split
    · exact c.outerMember demand m
    · exact c.pure _
  · exact c.useType demand _ _

theorem forwardedType (receiver : Ty) (name : String) : P (forwardedType p receiver name) := by
  refine c.bind (c.capabilitiesOf? receiver) fun found => ?_
  split
  · exact c.funcType demand _
  · exact c.pure _

theorem memberCall (m x : Expr) (name : String) (accessor : Accessor) (receiver : Ty) :
    P (memberCall p m x name accessor receiver) := by
  have last : ∀ t, P (do return callResult (← Resolution.noteExpr m.span t)) := fun t =>
    c.bind (c.noteExpr m.span t) fun _ => c.pure _
  refine c.bind (c.access m.span x name accessor receiver) fun found => ?_
  split
  · refine c.bind (c.isTypeName x) fun _ => ?_
    split
    · exact c.bind (c.outerMember demand m) last
    · exact c.bind (c.forwardedType demand receiver name) last
  · refine c.bind (c.symbolOf _) fun sym => ?_
    split
    · exact c.bind (c.noteTypeName m.span) fun _ => c.noteExpr m.span _
    · exact c.bind (c.useType demand _ _) last

theorem receiverCall (call : Span) (m x : Expr) (name : String) (accessor : Accessor) (receiver : Ty) :
    P (receiverCall p call m x name accessor receiver) := by
  have member := c.memberCall demand m x name accessor receiver
  refine c.bind (c.isTypeName x) fun named => ?_
  split
  · exact member
  refine c.bind (c.extension? receiver name) fun found => ?_
  split
  · refine c.bind (c.note fun _ => rfl) fun _ => ?_
    exact c.bind (c.discard (c.noteExpr m.span _)) fun _ => c.funcResult demand _
  · exact c.bind (c.requireForwarded m x name receiver) fun _ => member

end

/-! ### Expressions -/

mutual

theorem expr (demand : ∀ span, P (p.demand span)) : (e : Expr) → (∀ span name, .expr (.ident span name) ∈ e.nodes → P (ident p span name)) →
    P (Resolution.expr p e)
  | .literal _ _ _, _ => c.noteExpr _ _
  | .ident span name, names => by
    refine c.bind (names span name ?_) fun _ => c.noteExpr _ _
    simp [Expr.nodes]
  | .self span, _ => c.bind (c.selfType span) fun _ => c.noteExpr _ _
  | .paren _ x, names => by
    simp only [Expr.nodes, List.mem_cons] at names
    exact c.bind (expr demand x fun span name h => names span name (.inr h)) fun _ => c.noteExpr _ _
  | .binary span op l r, names => by
    simp only [Expr.nodes, List.mem_cons, List.mem_append] at names
    refine c.bind (expr demand l fun span name h => names span name (.inr (.inl h))) fun lt => ?_
    refine c.bind (expr demand r fun span name h => names span name (.inr (.inr h))) fun rt => ?_
    exact c.bind (c.binaryType span op r lt rt) fun _ => c.noteExpr _ _
  | .unary _ _ x _, names => by
    simp only [Expr.nodes, List.mem_cons] at names
    exact c.bind (expr demand x fun span name h => names span name (.inr h)) fun _ => c.noteExpr _ _
  | .call span fn args, names => by
    simp only [Expr.nodes, List.mem_cons, List.mem_append] at names
    have arguments := exprs demand args fun span name h => names span name (.inr (.inr h))
    have last : ∀ t, P (do
        Resolution.exprs p args
        Resolution.noteExpr span t) := fun t => c.bind arguments fun _ => c.noteExpr span t
    have plain : P (do
        let ft ← Resolution.expr p fn
        let t ← Resolution.plainCall fn ft
        Resolution.exprs p args
        Resolution.noteExpr span t) :=
      c.bind (expr demand fn fun span name h => names span name (.inr (.inl h))) fun ft =>
        c.bind (c.plainCall fn ft) last
    cases fn with
    | member at' x name accessor =>
      refine c.bind (expr demand x fun span name h => names span name (.inr (.inl ?_))) fun receiver => ?_
      · exact List.mem_cons_of_mem _ h
      · exact c.bind (c.receiverCall demand span _ x name accessor receiver) last
    | _ => exact plain
  | .member _ x name accessor, names => by
    simp only [Expr.nodes, List.mem_cons] at names
    refine c.bind (expr demand x fun span name h => names span name (.inr h)) fun receiver => ?_
    exact c.bind (c.memberType demand _ _ _ _ _) fun _ => c.noteExpr _ _
  | .index _ x i, names => by
    simp only [Expr.nodes, List.mem_cons, List.mem_append] at names
    refine c.bind (expr demand x fun span name h => names span name (.inr (.inl h))) fun t => ?_
    refine c.bind (c.discard (expr demand i fun span name h => names span name (.inr (.inr h)))) fun _ => ?_
    exact c.noteExpr _ _
  | .new _ type args, names => by
    simp only [Expr.nodes, List.mem_cons, List.mem_append] at names
    refine c.bind (exprs demand args fun span name h => names span name (.inr (.inr h))) fun _ => ?_
    exact c.bind (c.typeExpr type) fun _ => c.noteExpr _ _
  | .delete _ x, names => by
    simp only [Expr.nodes, List.mem_cons] at names
    exact c.bind (c.discard (expr demand x fun span name h => names span name (.inr h))) fun _ => c.noteExpr _ _
  | .cast _ x kind type, names => by
    simp only [Expr.nodes, List.mem_cons, List.mem_append] at names
    refine c.bind (expr demand x fun span name h => names span name (.inr (.inl h))) fun src => ?_
    refine c.bind (c.typeExpr type) fun dst => ?_
    split
    · exact c.noteExpr _ _
    · exact c.failType _ _
  | .tuple _ elems, names => by
    simp only [Expr.nodes, List.mem_cons] at names
    exact c.bind (exprTypes demand elems fun span name h => names span name (.inr h)) fun _ => c.noteExpr _ _
  | .tupleIndex span x i, names => by
    simp only [Expr.nodes, List.mem_cons] at names
    refine c.bind (expr demand x fun span name h => names span name (.inr h)) fun t => ?_
    exact c.bind (c.tupleIndexType span i t) fun _ => c.noteExpr _ _
  | .range _ _ _, _ => c.failType _ _
  | .ternary _ cond y n, names => by
    simp only [Expr.nodes, List.mem_cons, List.mem_append] at names
    refine c.bind (c.discard (expr demand cond fun span name h => names span name (.inr (.inl (.inl h))))) fun _ => ?_
    refine c.bind (expr demand y fun span name h => names span name (.inr (.inl (.inr h)))) fun a => ?_
    refine c.bind (expr demand n fun span name h => names span name (.inr (.inr h))) fun b => ?_
    exact c.bind c.get fun _ => c.noteExpr _ _

theorem exprs (demand : ∀ span, P (p.demand span)) : (es : List Expr) →
    (∀ span name, .expr (.ident span name) ∈ Expr.nodesOf es → P (ident p span name)) →
    P (Resolution.exprs p es)
  | [], _ => c.pure _
  | e :: es, names => by
    simp only [Expr.nodesOf, List.mem_append] at names
    exact c.bind (c.discard (expr demand e fun span name h => names span name (.inl h))) fun _ =>
      exprs demand es fun span name h => names span name (.inr h)

theorem exprTypes (demand : ∀ span, P (p.demand span)) : (es : List Expr) →
    (∀ span name, .expr (.ident span name) ∈ Expr.nodesOf es → P (ident p span name)) →
    P (Resolution.exprTypes p es)
  | [], _ => c.pure _
  | e :: es, names => by
    simp only [Expr.nodesOf, List.mem_append] at names
    exact c.bind (expr demand e fun span name h => names span name (.inl h)) fun _ =>
      c.bind (exprTypes demand es fun span name h => names span name (.inr h)) fun _ => c.pure _

end

/-! ### Parts of statements -/

theorem iterated (demand : ∀ span, P (p.demand span)) {e : Expr}
    (names : ∀ span name, .expr (.ident span name) ∈ e.nodes → P (ident p span name)) :
    P (iterated p e) := by
  cases e with
  | range span low high =>
    simp only [Expr.nodes, List.mem_cons, List.mem_append] at names
    refine c.bind (c.expr demand low fun span name h => names span name (.inr (.inl h))) fun l => ?_
    refine c.bind (c.expr demand high fun span name h => names span name (.inr (.inr h))) fun h => ?_
    refine c.bind c.get fun s => ?_
    split
    · exact c.noteExpr _ _
    · exact c.failType _ _
  | _ => exact c.expr demand _ names

theorem returned (demand : ∀ span, P (p.demand span)) (notes : ∀ t, P (noteReturn t))
    {value : Option Expr} (implicit : Bool)
    (names : ∀ span name, .expr (.ident span name) ∈ nodesIn Expr.nodes value → P (ident p span name)) :
    P (returned p value implicit) := by
  cases value with
  | none => exact notes _
  | some v =>
    refine c.bind (c.expr demand v names) fun t => ?_
    split
    · exact c.pure _
    · refine c.bind (notes t) fun _ => ?_
      split
      · split
        · exact c.bind c.get fun _ => c.requireAssignable _ _ _
        · exact c.pure _
      · exact c.pure _

theorem writtenType (d : VarDecl) : P (writtenType p d) := by
  unfold Resolution.writtenType
  split
  · exact c.bind (c.typeExpr _) fun _ => c.pure _
  · exact c.pure _

theorem settledVar {d : VarDecl} {id : SymbolId} (sets : ∀ t, P (setType id t))
    (value : Option (Expr × Ty)) :
    P (match d.type, value with
      | some _, some (v, t) => do
        unless v.isNew do
          Resolution.requireAssignable ((← Resolution.symbolOf id).type.getD (.unknown "")) t v.pos
      | some _, none => Pure.pure ()
      | none, value => setType id (inferredType d.storage value)) := by
  split
  · split
    · exact c.pure _
    · exact c.bind (c.symbolOf id) fun _ => c.requireAssignable _ _ _
  · exact c.pure _
  · exact sets _

theorem varValue (demand : ∀ span, P (p.demand span)) {d : VarDecl} {id : SymbolId}
    (sets : ∀ t, P (setType id t))
    (names : ∀ span name, .expr (.ident span name) ∈ nodesIn Expr.nodes d.value → P (ident p span name)) :
    P (varValue p d id) := by
  unfold Resolution.varValue
  cases given : d.value with
  | none => exact c.settledVar sets none
  | some v =>
    rw [given] at names
    exact c.bind (c.expr demand v names) fun t => c.settledVar sets (some (v, t))

end Composes

end TastyLang.Resolution
