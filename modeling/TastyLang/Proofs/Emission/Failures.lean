import TastyLang.Emission.Unit
import TastyLang.Proofs.Resolution.Ranges
import TastyLang.Syntax.Nodes

/-!
# When writing fails

A tree whose storages are settled and whose ranges stand only where loops iterate over them can be
written, unless it binds a reference to a new object (`unit_sparing`).
-/

namespace TastyLang

/-- The storages that a node declares are settled. -/
def Node.Settled : Node → Prop
  | .var d => d.storage.isUnresolved = false
  | .func f => ∀ p ∈ f.params, p.storage.isUnresolved = false
  | .stmt (.each _ _ storage _ _) => storage.isUnresolved = false
  | _ => True

/-- All storages among some nodes are settled. -/
abbrev SettledAll (ns : List Node) : Prop := ∀ n ∈ ns, n.Settled

theorem settledAll_nil : SettledAll [] := List.forall_mem_nil _

theorem settledAll_append {ns ms : List Node} :
    SettledAll (ns ++ ms) ↔ SettledAll ns ∧ SettledAll ms := List.forall_mem_append

theorem settledAll_cons {n : Node} {ns : List Node} :
    SettledAll (n :: ns) ↔ n.Settled ∧ SettledAll ns := List.forall_mem_cons

/-- What is written of a function: its parameters and its body. -/
structure FuncDecl.Ready (f : FuncDecl) : Prop where
  settled : SettledAll f.nodes
  rangeless : f.Rangeless

structure Item.Ready (i : Item) : Prop where
  settled : SettledAll i.nodes
  rangeless : i.Rangeless

theorem FuncDecl.Ready.params {f : FuncDecl} (h : f.Ready) :
    ∀ p ∈ f.params, p.storage.isUnresolved = false := h.settled _ List.mem_cons_self

theorem FuncDecl.Ready.body {f : FuncDecl} (h : f.Ready) {b : Block} (has : f.body = some b) :
    SettledAll b.nodes := by
  intro n member
  refine h.settled n (List.mem_cons_of_mem _ (List.mem_append_right _ ?_))
  rw [has]
  exact member

variable {d : VarDecl}

theorem Item.Ready.var (h : (Item.var d).Ready) :
    d.storage.isUnresolved = false ∧ Expr.RangelessIn d.value :=
  ⟨h.settled _ List.mem_cons_self, h.rangeless⟩

theorem Item.Ready.func {f : FuncDecl} (h : (Item.func f).Ready) : f.Ready :=
  ⟨h.settled, h.rangeless⟩

namespace Emission

variable {σ α β : Type}

/-- A computation fails, if at all, because a reference is bound to a new object. -/
def Sparing (x : Except EmitError α) : Prop :=
  ∀ e, x = .error e → ∃ y, e.cause = .newReference y

/-- A computation with a state is sparing from every state. -/
def SparingFrom (m : StateT σ (Except EmitError) α) : Prop := ∀ s, Sparing (m s)

namespace Sparing

theorem pure {a : α} : Sparing (pure a : Except EmitError α) := by
  rintro e ⟨⟩

theorem bind {x : Except EmitError α} {f : α → Except EmitError β} (first : Sparing x)
    (rest : ∀ a, Sparing (f a)) : Sparing (x >>= f) := by
  intro e failed
  cases x with
  | error e' =>
    cases failed
    exact first e rfl
  | ok a => exact rest a e failed

theorem map {x : Except EmitError α} {f : α → β} (h : Sparing x) : Sparing (f <$> x) := by
  rw [map_eq_pure_bind]
  exact h.bind fun _ => pure

theorem mapM {f : α → Except EmitError β} {xs : List α} (each : ∀ x ∈ xs, Sparing (f x)) :
    Sparing (xs.mapM f) := by
  induction xs with
  | nil => exact pure
  | cons x xs ih =>
    obtain ⟨first, rest⟩ := List.forall_mem_cons.mp each
    rw [List.mapM_cons]
    exact first.bind fun _ => (ih rest).bind fun _ => pure

end Sparing

namespace SparingFrom

variable {m : StateT σ (Except EmitError) α}

theorem pure {a : α} : SparingFrom (pure a : StateT σ (Except EmitError) α) :=
  fun _ => Sparing.pure

theorem modify {f : σ → σ} : SparingFrom (modify f : StateT σ (Except EmitError) Unit) :=
  fun _ => Sparing.pure

theorem bind {f : α → StateT σ (Except EmitError) β} (first : SparingFrom m)
    (rest : ∀ a, SparingFrom (f a)) : SparingFrom (m >>= f) :=
  fun s => (first s).bind fun r => rest r.1 r.2

theorem lift {x : Except EmitError α} (h : Sparing x) :
    SparingFrom (liftM x : StateT σ (Except EmitError) α) := fun _ => h.bind fun _ => Sparing.pure

theorem forM {f : α → StateT σ (Except EmitError) PUnit} {xs : List α}
    (each : ∀ x ∈ xs, SparingFrom (f x)) : SparingFrom (xs.forM f) := by
  induction xs with
  | nil => exact pure
  | cons x xs ih =>
    obtain ⟨first, rest⟩ := List.forall_mem_cons.mp each
    exact first.bind fun _ => ih rest

theorem ite {c : Prop} [Decidable c] {m₁ m₂ : StateT σ (Except EmitError) α}
    (yes : SparingFrom m₁) (no : SparingFrom m₂) : SparingFrom (if c then m₁ else m₂) := by
  split
  · exact yes
  · exact no

end SparingFrom

variable {info : Info}

/-! ### Expressions -/

mutual

theorem expr_sparing : (e : Expr) → e.Rangeless → Sparing (expr info e)
  | .literal _ _ _, _ | .ident _ _, _ | .self _, _ => .pure
  | .paren _ x, h | .unary _ _ x _, h | .member _ x _ _, h | .delete _ x, h | .cast _ x _ _, h
  | .tupleIndex _ x _, h => (expr_sparing x h).bind fun _ => .pure
  | .binary _ _ l r, h | .index _ l r, h =>
    (expr_sparing l h.1).bind fun _ => (expr_sparing r h.2).bind fun _ => .pure
  | .call span fn args, h => by
    have rest := exprs_sparing args h.2
    cases fn with
    | member mspan x y accessor =>
      have receiver := expr_sparing x h.1
      rw [expr]
      split
      · exact receiver.bind fun _ => rest.bind fun _ => .pure
      · exact receiver.bind fun _ => rest.bind fun _ => .pure
    | _ => exact (expr_sparing _ h.1).bind fun _ => rest.bind fun _ => .pure
  | .new _ _ args, h | .tuple _ args, h => (exprs_sparing args h).bind fun _ => .pure
  | .ternary _ c y n, h =>
    (expr_sparing c h.1).bind fun _ => (expr_sparing y h.2.1).bind fun _ =>
      (expr_sparing n h.2.2).bind fun _ => .pure

theorem exprs_sparing : (es : List Expr) → Expr.RangelessAll es → Sparing (exprs info es)
  | [], _ => .pure
  | e :: es, h => (expr_sparing e h.1).bind fun _ => (exprs_sparing es h.2).bind fun _ => .pure

end

/-! ### Variables -/

variable {name : String}

theorem newBinding_sparing {pos : Pos} {type : TypeExpr} {args : List Expr}
    (h : Expr.RangelessAll args) :
    Sparing (newBinding info d pos type args name) := by
  refine (exprs_sparing args h).bind fun xs => ?_
  cases d.storage.kind with
  | reference _ | unresolved =>
    rintro e ⟨⟩
    exact ⟨_, rfl⟩
  | _ => exact .pure

theorem variableText_sparing {ms : Modifiers} {withValue : Bool}
    (settled : d.storage.isUnresolved = false) (rangeless : Expr.RangelessIn d.value) :
    Sparing (variableText info d name ms withValue) := by
  unfold variableText
  rw [settled, if_neg Bool.false_ne_true]
  generalize given : d.value = value
  cases withValue with
  | false => exact .pure
  | true =>
    cases value with
    | none => exact .pure
    | some v =>
      have rangeless := rangeless v given
      cases v with
      | new span type args => exact (newBinding_sparing rangeless).bind fun _ => .pure
      | _ => exact (expr_sparing _ rangeless).bind fun _ => .pure

/-! ### Statements -/

theorem unparen_rangeless : (e : Expr) → e.Rangeless → e.unparen.Rangeless
  | .paren _ x, h => unparen_rangeless x h
  | .literal _ _ _, h | .ident _ _, h | .self _, h | .unary _ _ _ _, h | .member _ _ _ _, h
  | .delete _ _, h | .cast _ _ _ _, h | .tupleIndex _ _ _, h | .binary _ _ _ _, h
  | .index _ _ _, h | .call _ _ _, h | .new _ _ _, h | .tuple _ _, h | .ternary _ _ _ _, h => h

theorem condition_sparing {e : Expr} {negate : Bool} (h : e.Rangeless) :
    Sparing (condition info e negate) :=
  (expr_sparing _ (unparen_rangeless e h)).bind fun _ => .pure

theorem loopCondition_sparing {e : Option Expr} {negate : Bool} (h : Expr.RangelessIn e) :
    Sparing (loopCondition info e negate) := by
  cases e with
  | none => exact .pure
  | some e => exact condition_sparing (h e rfl)

theorem returnText_sparing {value : Option Expr} {effect : Bool} {exit : Option Exit}
    (h : Expr.RangelessIn value) : Sparing (returnText info value effect exit) := by
  cases value with
  | none => exact .pure
  | some v =>
    refine (expr_sparing v (h v rfl)).bind fun x => ?_
    split
    · exact .pure
    · split <;> exact .pure

theorem countHead_sparing {span : Span} {kind : CountKind} {low high : Expr} {step : Option Expr}
    (low_ : low.Rangeless) (high_ : high.Rangeless)
    (step_ : Expr.RangelessIn step) : Sparing (countHead info span kind name low high step) := by
  have next : Sparing (stepText info kind name step) := by
    cases step with
    | none => exact .pure
    | some e => exact (expr_sparing e (step_ e rfl)).bind fun _ => .pure
  exact next.bind fun _ => (expr_sparing low low_).bind fun _ =>
    (expr_sparing high high_).bind fun _ => .pure

theorem eachHead_sparing {span : Span} {storage : Storage} {items : Expr}
    (h : items.Iterable) : Sparing (eachHead info span name storage items) := by
  cases items with
  | range _ low high =>
    exact (expr_sparing low h.1).bind fun _ => (expr_sparing high h.2).bind fun _ => .pure
  | _ => exact (expr_sparing _ h).bind fun _ => .pure

theorem write_sparing {s : String} : SparingFrom (write s) := .modify

variable {line : Int}

theorem align_sparing : SparingFrom (align line) := .modify

theorem written_sparing {x : Except EmitError String} {f : String → String} (h : Sparing x) :
    SparingFrom (do write (f (← x)) : Emitter Unit) :=
  (SparingFrom.lift h).bind fun _ => write_sparing

theorem written_then_sparing {x : Except EmitError String} {f : String → String}
    {rest : Emitter Unit} (h : Sparing x) (later : SparingFrom rest) :
    SparingFrom (do write (f (← x)); rest : Emitter Unit) :=
  (SparingFrom.lift h).bind fun _ => write_sparing.bind fun _ => later

theorem injectFrom_sparing (ls : List (List Char)) (line : Int) :
    SparingFrom (injectFrom line ls) := by
  induction ls generalizing line with
  | nil => exact .pure
  | cons l ls ih =>
    refine SparingFrom.bind ?_ fun _ => ih (line + 1)
    unfold injectLine
    split
    · exact .pure
    · exact align_sparing.bind fun _ => .ite .modify write_sparing

theorem inject_sparing {text : String} : SparingFrom (inject line text) :=
  injectFrom_sparing _ line

mutual

theorem stmt_sparing : (s : Stmt) → SettledAll s.nodes → s.Rangeless → SparingFrom (stmt info s)
  | .block b, settled, h => block_sparing b (by rwa [Stmt.nodes] at settled) h
  | .expr _ x, _, h => written_sparing (expr_sparing x h)
  | .decl _ d, settled, h => by
    simp only [Stmt.nodes, VarDecl.nodes, settledAll_cons] at settled
    exact written_sparing (variableText_sparing settled.2.1 h)
  | .branch _ negate cond yes none, settled, h => by
    simp only [Stmt.nodes, settledAll_cons, settledAll_append] at settled
    exact written_then_sparing (condition_sparing h.1)
      ((block_sparing yes settled.2.1.2 h.2).bind fun _ => .pure)
  | .branch _ negate cond yes (some no), settled, h => by
    simp only [Stmt.nodes, settledAll_cons, settledAll_append] at settled
    exact written_then_sparing (condition_sparing h.1)
      ((block_sparing yes settled.2.1.2 h.2.1).bind fun _ =>
        write_sparing.bind fun _ => stmt_sparing no settled.2.2 h.2.2)
  | .loop _ negate cond body, settled, h => by
    simp only [Stmt.nodes, settledAll_cons, settledAll_append] at settled
    exact written_then_sparing (loopCondition_sparing h.1) (block_sparing body settled.2.2 h.2)
  | .count _ _ _ _ _ _ body, settled, h => by
    simp only [Stmt.nodes, settledAll_cons, settledAll_append] at settled
    obtain ⟨low, high, step, inner⟩ := h
    exact written_then_sparing (countHead_sparing low high step)
      (block_sparing body settled.2.2 inner)
  | .each _ _ _ items body, settled, h => by
    simp only [Stmt.nodes, settledAll_cons, settledAll_append] at settled
    exact written_then_sparing (eachHead_sparing h.1) (block_sparing body settled.2.2 h.2)
  | .ret _ _ _ _ _, _, h => written_sparing (returnText_sparing h)
  | .brk _ _, _, _ | .cont _ _, _, _ => write_sparing
  | .inject _ _, _, _ => inject_sparing

theorem block_sparing : (b : Block) → SettledAll b.nodes → b.Rangeless → SparingFrom (block info b)
  | .mk span ss owned, settled, h => by
    simp only [Block.nodes, settledAll_cons] at settled
    refine write_sparing.bind fun _ => SparingFrom.modify.bind fun _ =>
      (stmts_sparing ss settled.2 h).bind fun _ => align_sparing.bind fun _ =>
      SparingFrom.bind (.forM fun o _ => ?_) fun _ => SparingFrom.modify.bind fun _ => write_sparing
    exact write_sparing.bind fun _ => align_sparing

theorem stmts_sparing : (ss : List Stmt) → SettledAll (Stmt.nodesOf ss) → Stmt.RangelessAll ss →
    SparingFrom (stmts info ss)
  | [], _, _ => .pure
  | s :: ss, settled, h => by
    simp only [Stmt.nodesOf, settledAll_append] at settled
    exact align_sparing.bind fun _ => (stmt_sparing s settled.1 h.1).bind fun _ =>
      stmts_sparing ss settled.2 h.2

end

/-! ### Signatures -/

variable {defaults : Bool}

theorem params_sparing {ps : List Param} (settled : ∀ p ∈ ps, p.storage.isUnresolved = false)
    (rangeless : ∀ p ∈ ps, Expr.RangelessIn p.value) : Sparing (params info defaults ps) := by
  refine Sparing.bind (.mapM fun p member => ?_) fun _ => .pure
  unfold param
  rw [settled p member, if_neg Bool.false_ne_true]
  generalize given : p.value = value
  cases defaults with
  | false => exact .pure
  | true =>
    cases value with
    | none => exact .pure
    | some v => exact (expr_sparing v (rangeless p member v given)).bind fun _ => .pure

section

variable {f : FuncDecl} (ready : f.Ready)

include ready

theorem signature_sparing {owner qualifier : String} :
    Sparing (signature info owner f qualifier defaults) := by
  refine (params_sparing ready.params ready.rangeless.params).bind fun ps => ?_
  dsimp only
  split <;> exact .pure

theorem extensionSignature_sparing {e : Extension} :
    Sparing (extensionSignature info e f defaults) :=
  (params_sparing ready.params ready.rangeless.params).bind fun _ => .pure

theorem definition_sparing {head : Except EmitError String} (writes : Sparing head) {b : Block}
    (has : f.body = some b) : SparingFrom (definition info line head b) :=
  align_sparing.bind fun _ =>
    written_then_sparing writes (block_sparing b (ready.body has) (ready.rangeless.body b has))

end

theorem generatedText_sparing {s : String} : SparingFrom (generatedText s) := by
  unfold generatedText
  dsimp only
  exact .ite .modify .modify

variable {i : DeclInfo}

theorem prepend_sparing : SparingFrom (prepend i) := by
  refine .ite .pure ?_
  exact align_sparing.bind fun _ => .forM fun _ _ => generatedText_sparing

theorem append_sparing : SparingFrom (append i) :=
  .forM fun _ _ => generatedText_sparing

theorem declared_sparing {text : Except EmitError String} (h : Sparing text) :
    SparingFrom (declared i text) :=
  prepend_sparing.bind fun _ => align_sparing.bind fun _ => written_then_sparing h append_sparing

/-! ### Declarations -/

theorem on_sparing {sheet : Sheet} {e : Emitter Unit} (h : SparingFrom e) :
    SparingFrom (on sheet e) := by
  refine SparingFrom.bind (fun _ => .pure) fun s => ?_
  cases sheet with
  | header => exact (SparingFrom.lift (h s.header)).bind fun _ _ => .pure
  | source => exact (SparingFrom.lift (h s.source)).bind fun _ _ => .pure

theorem enumMembers_sparing {ms : List EnumMember}
    (rangeless : ∀ m ∈ ms, Expr.RangelessIn m.value) : SparingFrom (enum.members info ms) := by
  induction ms with
  | nil => exact .pure
  | cons m ms ih =>
    obtain ⟨first, rest⟩ := List.forall_mem_cons.mp rangeless
    have later : ∀ text, SparingFrom (do write text; enum.members info ms) :=
      fun _ => write_sparing.bind fun _ => ih rest
    refine align_sparing.bind fun _ => ?_
    dsimp only
    split
    · next given =>
      exact (SparingFrom.lift (expr_sparing _ (first _ given))).bind fun _ => later _
    · exact later _

theorem enum_sparing {d : EnumDecl} (rangeless : ∀ m ∈ d.members, Expr.RangelessIn m.value) :
    SparingFrom (enum info d) :=
  prepend_sparing.bind fun _ => align_sparing.bind fun _ => write_sparing.bind fun _ =>
    SparingFrom.modify.bind fun _ => (enumMembers_sparing rangeless).bind fun _ =>
    SparingFrom.modify.bind fun _ => align_sparing.bind fun _ => write_sparing.bind fun _ =>
    append_sparing

variable {visible : Bool}

theorem func_sparing {f : FuncDecl} (ready : f.Ready) :
    SparingFrom (func info f visible) := by
  have head : ∀ {defaults}, Sparing (sourceHead info f defaults) :=
    (signature_sparing ready).map
  have prototype : Sparing ((f.info.modifiers.lead ++ ·) <$> signature info "" f "" true) :=
    (signature_sparing ready).map
  unfold func
  split
  · exact on_sparing (declared_sparing prototype)
  · next body =>
    refine .ite ?_ (.ite ?_ ?_)
    · exact on_sparing (prepend_sparing.bind fun _ =>
        (definition_sparing ready prototype body).bind fun _ => append_sparing)
    · exact (on_sparing (declared_sparing prototype)).bind fun _ =>
        on_sparing (definition_sparing ready head body)
    · exact on_sparing (prepend_sparing.bind fun _ =>
        (definition_sparing ready head body).bind fun _ => append_sparing)

theorem global_sparing (settled : d.storage.isUnresolved = false)
    (rangeless : Expr.RangelessIn d.value) :
    SparingFrom (global info d visible) := by
  have text : ∀ {name ms withValue}, Sparing (variableText info d name ms withValue) :=
    variableText_sparing settled rangeless
  refine .ite (.ite (on_sparing (declared_sparing text)) ?_) (on_sparing (declared_sparing text))
  refine (on_sparing (declared_sparing text)).bind fun _ => .ite .pure ?_
  exact on_sparing (align_sparing.bind fun _ => written_sparing text)

theorem item_sparing {i : Item} (ready : i.Ready) :
    SparingFrom (item info visible i) := by
  cases i with
  | var d => exact global_sparing ready.var.1 ready.var.2
  | func f => exact func_sparing ready.func
  | enum d => exact on_sparing (enum_sparing ready.rangeless)
  | inject i text => exact on_sparing inject_sparing

theorem classMember_sparing {i : Item} (ready : i.Ready) {owner : String} :
    SparingFrom (classMember info owner i) := by
  cases i with
  | var d =>
    obtain ⟨settled, rangeless⟩ := ready.var
    exact declared_sparing (variableText_sparing settled rangeless)
  | func f =>
    exact declared_sparing ((signature_sparing ready.func).bind fun _ => .pure)
  | enum d => exact enum_sparing ready.rangeless
  | inject i text => exact inject_sparing

theorem memberDefinition_sparing {i : Item} (ready : i.Ready) {owner : String} :
    SparingFrom (memberDefinition info owner i) := by
  cases i with
  | var d =>
    obtain ⟨settled, rangeless⟩ := ready.var
    refine .ite ?_ .pure
    exact align_sparing.bind fun _ => written_sparing (variableText_sparing settled rangeless)
  | func f =>
    have ready := ready.func
    dsimp only [memberDefinition]
    split
    · next body => exact definition_sparing ready (signature_sparing ready) body
    · exact .pure
  | enum d => exact .pure
  | inject i text => exact .pure

theorem cls_sparing {d : DeclInfo} {bases : List TypeExpr} {items : List Item}
    (ready : ∀ i ∈ items, i.Ready) :
    SparingFrom (cls info d name bases items visible) := by
  refine SparingFrom.bind (on_sparing ?_) fun _ =>
    .forM fun i member => on_sparing (memberDefinition_sparing (ready i member))
  refine prepend_sparing.bind fun _ => align_sparing.bind fun _ => write_sparing.bind fun _ =>
    SparingFrom.modify.bind fun _ => SparingFrom.bind (.forM fun _ _ => generatedText_sparing)
    fun _ => append_sparing.bind fun _ => SparingFrom.modify.bind fun _ =>
    SparingFrom.modify.bind fun _ => SparingFrom.modify.bind fun _ => SparingFrom.bind ?_ fun _ =>
    SparingFrom.modify.bind fun _ => align_sparing.bind fun _ => write_sparing
  exact .forM fun i member => classMember_sparing (ready i member)

theorem extension_sparing {f : FuncDecl} (ready : f.Ready) :
    SparingFrom (extension info visible f) := by
  unfold extension
  split
  · exact .pure
  · have shown : ∀ {e : Extension} {line}, SparingFrom (on .header do
        align line
        write ((← extensionSignature info e f true) ++ ";")) :=
      on_sparing (align_sparing.bind fun _ => written_sparing (extensionSignature_sparing ready))
    refine .ite (shown.bind fun _ => ?_) ?_
    all_goals
      split
      · exact .pure
      · next body =>
        exact on_sparing (definition_sparing ready (extensionSignature_sparing ready) body)

end Emission

open Emission

/-- What is written of a declaration. -/
structure Decl.Ready (d : Decl) : Prop where
  settled : SettledAll d.nodes
  rangeless : d.Rangeless

structure Decl.ReadyAll (ds : List Decl) : Prop where
  settled : SettledAll (Decl.nodesOf ds)
  rangeless : Decl.RangelessAll ds

theorem Decl.ReadyAll.cons {d : Decl} {ds : List Decl} :
    Decl.ReadyAll (d :: ds) ↔ d.Ready ∧ Decl.ReadyAll ds := by
  constructor
  · rintro ⟨settled, first, rest⟩
    rw [Decl.nodesOf, settledAll_append] at settled
    exact ⟨⟨settled.1, first⟩, settled.2, rest⟩
  · rintro ⟨first, rest⟩
    refine ⟨?_, first.rangeless, rest.rangeless⟩
    rw [Decl.nodesOf, settledAll_append]
    exact ⟨first.settled, rest.settled⟩

variable {o : EmitOptions}

namespace Emission

variable {info : Info}

mutual

theorem decl_sparing : (d : Decl) → d.Ready → {visible : Bool} →
    SparingFrom (decl info visible d)
  | .item i, ready, _ => by
    obtain ⟨settled, rangeless⟩ := ready
    rw [Decl.nodes] at settled
    exact item_sparing ⟨settled, rangeless⟩
  | .scope di name ds, ready, _ => by
    obtain ⟨settled, rangeless⟩ := ready
    rw [Decl.nodes, settledAll_cons] at settled
    have opens : SparingFrom (openScope di name) :=
      align_sparing.bind fun _ => write_sparing.bind fun _ => .modify
    have closes : SparingFrom (closeScope di) :=
      SparingFrom.modify.bind fun _ => align_sparing.bind fun _ => write_sparing
    exact SparingFrom.bind (.forM fun _ _ => on_sparing opens) fun _ =>
      (decls_sparing ds ⟨settled.2, rangeless⟩).bind fun _ => .forM fun _ _ => on_sparing closes
  | .cls di name bases items, ready, _ => by
    obtain ⟨settled, rangeless⟩ := ready
    simp only [Decl.nodes, settledAll_cons, settledAll_append] at settled
    refine cls_sparing fun i member => ⟨fun n inside => ?_, rangeless i member⟩
    exact settled.2.2 n (List.mem_flatMap.mpr ⟨i, member, inside⟩)
  | .abstraction _ _ _ fs, ready, _ | .refurbish _ _ fs, ready, _ => by
    obtain ⟨settled, rangeless⟩ := ready
    simp only [Decl.nodes, settledAll_cons, settledAll_append] at settled
    refine .forM fun f member => extension_sparing ⟨fun n inside => ?_, rangeless f member⟩
    exact settled.2.2 n (List.mem_flatMap.mpr ⟨f, member, inside⟩)
  | .includes _ _ _ _, _, _ | .assume _ _ _, _, _ | .attributeDef _ _ _ _, _, _ => .pure

theorem decls_sparing : (ds : List Decl) → Decl.ReadyAll ds → {visible : Bool} →
    SparingFrom (decls info visible ds)
  | [], _, _ => .pure
  | d :: ds, ready, _ => by
    obtain ⟨first, rest⟩ := Decl.ReadyAll.cons.mp ready
    exact (decl_sparing d first).bind fun _ => decls_sparing ds rest

end

theorem preamble_sparing {includes : IncludeSet} :
    SparingFrom (preamble o includes) := by
  have directives : ∀ es : List IncludeEntry, SparingFrom
      (es.forM fun e => modify (·.directive e.directive) : Emitter Unit) :=
    fun es => .forM fun _ _ => .modify
  refine SparingFrom.bind (on_sparing ?_) fun _ => on_sparing (directives _)
  exact .ite (SparingFrom.modify.bind fun _ => directives _)
    (SparingFrom.modify.bind fun _ => SparingFrom.modify.bind fun _ => directives _)

theorem unit_sparing {includes : IncludeSet} {file : File}
    (ready : Decl.ReadyAll file.decls) : SparingFrom (unit info o includes file) :=
  preamble_sparing.bind fun _ => (decls_sparing file.decls ready).bind fun _ =>
    .ite .pure (on_sparing .modify)

end Emission

theorem File.emit_sparing {file : File} {table : Table} {info : Option Info}
    (ready : Decl.ReadyAll file.decls) : Sparing (file.emit table info o) :=
  (unit_sparing ready {}).bind fun _ => .pure

end TastyLang
