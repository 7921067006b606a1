import TastyLang.Ownership.Basic
import TastyLang.Proofs.Reading.Layout

/-!
# Paths through a settled body

`BodyPath` says which departures a path through a body makes. A departure is a place where the path
leaves blocks: an exit statement or a closing brace. It knows the pointers that the path made in
the blocks it leaves and the pointers that are scheduled for deletion there.

A condition may hold or not and a loop may run any number of times. A path may also be cut off
anywhere, so that what is said about all paths is said about runs that never end, too.
-/

namespace TastyLang

mutual

/-- The places of the names that the text of a statement deletes, in order. -/
def Stmt.deletes : Stmt → List Span
  | .block b => b.deletes
  | .expr _ x => x.deleted
  | .decl _ d => (d.value.map Expr.deleted).getD []
  | .branch _ _ cond yes none => cond.deleted ++ yes.deletes
  | .branch _ _ cond yes (some s) => cond.deleted ++ yes.deletes ++ s.deletes
  | .loop _ _ cond body => (cond.map Expr.deleted).getD [] ++ body.deletes
  | .count _ _ _ low high step body =>
    low.deleted ++ high.deleted ++ (step.map Expr.deleted).getD [] ++ body.deletes
  | .each _ _ _ items body => items.deleted ++ body.deletes
  | .ret _ value _ _ _ => (value.map Expr.deleted).getD []
  | .brk _ _ | .cont _ _ | .inject _ _ => []

def Block.deletes : Block → List Span
  | .mk _ ss _ => Stmt.deletesOf ss

def Stmt.deletesOf : List Stmt → List Span
  | [] => []
  | s :: ss => s.deletes ++ Stmt.deletesOf ss

end

mutual

/-- The places of the variables declared in a statement, in the order of the text. -/
def Stmt.declared : Stmt → List Pos
  | .block b => b.declared
  | .decl _ d => [d.info.span.start]
  | .branch _ _ _ yes none => yes.declared
  | .branch _ _ _ yes (some s) => yes.declared ++ s.declared
  | .loop _ _ _ body | .count _ _ _ _ _ _ body | .each _ _ _ _ body => body.declared
  | .expr _ _ | .ret _ _ _ _ _ | .brk _ _ | .cont _ _ | .inject _ _ => []

def Block.declared : Block → List Pos
  | .mk _ ss _ => Stmt.declaredIn ss

def Stmt.declaredIn : List Stmt → List Pos
  | [] => []
  | s :: ss => s.declared ++ Stmt.declaredIn ss

end

namespace Ownership

def Context.varsOf (c : Context) (spans : List Span) : List Pos := spans.filterMap c.varOf?

@[simp]
theorem Context.varsOf_nil (c : Context) : c.varsOf [] = [] := rfl

@[simp]
theorem Context.varsOf_append (c : Context) (a b : List Span) :
    c.varsOf (a ++ b) = c.varsOf a ++ c.varsOf b := List.filterMap_append

def Context.freed (c : Context) (e : Option Expr) : List Pos :=
  c.varsOf ((e.map Expr.deleted).getD [])

/-- A place where a path leaves blocks. -/
structure Departure where
  /-- the pointers that the path made in the blocks it leaves, the innermost block first -/
  left : List Owned
  /-- the variable that is returned as it is -/
  kept : Option Pos
  /-- the variables that some `delete` further up in the text names -/
  mentioned : List Pos
  /-- the variables that a `delete` on the path names -/
  executed : List Pos
  /-- the pointers scheduled for deletion -/
  scheduled : List Owned

/-- The departure when one more block is left, in which the path made `os`. -/
def Departure.leaving (d : Departure) (os : List Owned) : Departure := { d with left := d.left ++ os }

/-- The statements that leave blocks. -/
inductive Way where
  | brk | cont | ret
  deriving DecidableEq

/-- Where control goes: on to what follows, out of blocks, or nowhere as the path is cut off. -/
inductive Flow where
  | next
  | away (way : Way) (d : Departure)
  | cut

/-- The departure that a path is about to make. -/
def Flow.pending : Flow → List Departure
  | away _ d => [d]
  | next | cut => []

def deletesAt (exit : Option Exit) : List Owned := (exit.map Exit.deletes).getD []

mutual

/-- `StmtPath c above ran s made ran' log flow`: a path through `s`, where the text above names the
variables `above` in deletes and the path up to here those of `ran`, makes the pointers `made` in the
block around `s`, makes the departures `log` and goes on to `flow`; by then its deletes named
`ran'`. -/
inductive StmtPath (c : Context) :
    List Pos → List Pos → Stmt → List Owned → List Pos → List Departure → Flow → Prop where
  | cut {above ran s} : StmtPath c above ran s [] ran [] .cut
  | block {above ran b ran' log flow} :
      BlockPath c above ran b ran' log flow → StmtPath c above ran (.block b) [] ran' log flow
  | expr {above ran span x} :
      StmtPath c above ran (.expr span x) [] (ran ++ c.varsOf x.deleted) [] .next
  | decl {above ran span d} :
      StmtPath c above ran (.decl span d) (made? d).toList (ran ++ c.freed d.value) [] .next
  | yes {above ran span negate cond yes no ran' log flow} :
      BlockPath c (above ++ c.varsOf cond.deleted) (ran ++ c.varsOf cond.deleted) yes ran' log flow →
      StmtPath c above ran (.branch span negate cond yes no) [] ran' log flow
  | no {above ran span negate cond yes s made ran' log flow} :
      StmtPath c (above ++ c.varsOf cond.deleted ++ c.varsOf yes.deletes)
        (ran ++ c.varsOf cond.deleted) s made ran' log flow →
      StmtPath c above ran (.branch span negate cond yes (some s)) made ran' log flow
  | skip {above ran span negate cond yes} :
      StmtPath c above ran (.branch span negate cond yes none) [] (ran ++ c.varsOf cond.deleted) []
        .next
  | loop {above ran span negate cond body ran' log flow} :
      LoopPath c (above ++ c.freed cond) (c.freed cond) (ran ++ c.freed cond) body ran' log flow →
      StmtPath c above ran (.loop span negate cond body) [] ran' log flow
  | count {above ran span kind name low high step body ran' log flow} :
      LoopPath c (above ++ c.varsOf (low.deleted ++ high.deleted) ++ c.freed step)
        (c.freed step ++ c.varsOf high.deleted) (ran ++ c.varsOf (low.deleted ++ high.deleted))
        body ran' log flow →
      StmtPath c above ran (.count span kind name low high step body) [] ran' log flow
  | each {above ran span name storage items body ran' log flow} :
      LoopPath c (above ++ c.varsOf items.deleted) [] (ran ++ c.varsOf items.deleted) body
        ran' log flow →
      StmtPath c above ran (.each span name storage items body) [] ran' log flow
  | effect {above ran span value implicit exit} :
      StmtPath c above ran (.ret span value implicit true exit) [] (ran ++ c.freed value) [] .next
  | ret {above ran span value implicit exit} :
      StmtPath c above ran (.ret span value implicit false exit) [] (ran ++ c.freed value) []
        (.away .ret ⟨[], value.bind (kept? c), above ++ c.freed value, ran ++ c.freed value,
          deletesAt exit⟩)
  | brk {above ran span exit} :
      StmtPath c above ran (.brk span exit) [] ran []
        (.away .brk ⟨[], none, above, ran, deletesAt exit⟩)
  | cont {above ran span exit} :
      StmtPath c above ran (.cont span exit) [] ran []
        (.away .cont ⟨[], none, above, ran, deletesAt exit⟩)
  | inject {above ran span text} : StmtPath c above ran (.inject span text) [] ran [] .next

/-- A path through a block. At the closing brace it departs from the block alone. -/
inductive BlockPath (c : Context) :
    List Pos → List Pos → Block → List Pos → List Departure → Flow → Prop where
  | ends {above ran span ss owned made ran' log} :
      StmtsPath c above ran ss made ran' log .next →
      BlockPath c above ran (.mk span ss owned) ran'
        (log ++ [⟨made, none, above ++ c.varsOf (Stmt.deletesOf ss), ran', owned⟩]) .next
  | away {above ran span ss owned made ran' log way d} :
      StmtsPath c above ran ss made ran' log (.away way d) →
      BlockPath c above ran (.mk span ss owned) ran' log (.away way (d.leaving made))
  | cut {above ran span ss owned made ran' log} :
      StmtsPath c above ran ss made ran' log .cut →
      BlockPath c above ran (.mk span ss owned) ran' log .cut

/-- A path through statements, up to the first one that it does not go on from. -/
inductive StmtsPath (c : Context) :
    List Pos → List Pos → List Stmt → List Owned → List Pos → List Departure → Flow → Prop where
  | nil {above ran} : StmtsPath c above ran [] [] ran [] .next
  | cons {above ran s ss made made' ran₁ ran₂ log log' flow} :
      StmtPath c above ran s made ran₁ log .next →
      StmtsPath c (above ++ c.varsOf s.deletes) ran₁ ss made' ran₂ log' flow →
      StmtsPath c above ran (s :: ss) (made ++ made') ran₂ (log ++ log') flow
  | stop {above ran s ss made ran' log flow} :
      StmtPath c above ran s made ran' log flow → flow ≠ .next →
      StmtsPath c above ran (s :: ss) made ran' log flow

/-- A path through the rounds of a loop; `again` is what is deleted between two rounds. -/
inductive LoopPath (c : Context) :
    List Pos → List Pos → List Pos → Block → List Pos → List Departure → Flow → Prop where
  | done {above again ran body} : LoopPath c above again ran body ran [] .next
  | round {above again ran body ran₁ ran₂ log log' flow} :
      BlockPath c above ran body ran₁ log .next →
      LoopPath c above again (ran₁ ++ again) body ran₂ log' flow →
      LoopPath c above again ran body ran₂ (log ++ log') flow
  | cont {above again ran body ran₁ ran₂ log log' flow d} :
      BlockPath c above ran body ran₁ log (.away .cont d) →
      LoopPath c above again (ran₁ ++ again) body ran₂ log' flow →
      LoopPath c above again ran body ran₂ (log ++ d :: log') flow
  | brk {above again ran body ran₁ log d} :
      BlockPath c above ran body ran₁ log (.away .brk d) →
      LoopPath c above again ran body ran₁ (log ++ [d]) .next
  | ret {above again ran body ran₁ log d} :
      BlockPath c above ran body ran₁ log (.away .ret d) →
      LoopPath c above again ran body ran₁ log (.away .ret d)
  | cut {above again ran body ran₁ log} :
      BlockPath c above ran body ran₁ log .cut →
      LoopPath c above again ran body ran₁ log .cut

end

/-- A path through the body of a function makes these departures. -/
def BodyPath (c : Context) (b : Block) (log : List Departure) : Prop :=
  ∃ ran done flow, BlockPath c [] [] b ran done flow ∧ log = done ++ flow.pending

end Ownership

/-! ## What settling notes in its ledger

Settling a statement adds to the ledger the pointers that the statement makes in its own block and
the variables that its text deletes, in whatever order paths run through it; settling a block leaves
the open blocks as they were. What the text deletes and declares is the same before and after settling.
-/

mutual

/-- Only blocks and branches follow `else`. -/
def Stmt.Proper : Stmt → Prop
  | .block b => b.Proper
  | .branch _ _ _ yes none => yes.Proper
  | .branch _ _ _ yes (some s) => yes.Proper ∧ s.isAlternative = true ∧ s.Proper
  | .loop _ _ _ body | .count _ _ _ _ _ _ body | .each _ _ _ _ body => body.Proper
  | .expr _ _ | .decl _ _ | .ret _ _ _ _ _ | .brk _ _ | .cont _ _ | .inject _ _ => True

def Block.Proper : Block → Prop
  | .mk _ ss _ => Stmt.ProperAll ss

def Stmt.ProperAll : List Stmt → Prop
  | [] => True
  | s :: ss => s.Proper ∧ Stmt.ProperAll ss

end

/-- The pointers that a statement makes in the block around it. -/
def Stmt.makes : Stmt → List Owned
  | .decl _ d => (Ownership.made? d).toList
  | _ => []

theorem Stmt.makes_of_isAlternative {s : Stmt} (h : s.isAlternative = true) : s.makes = [] := by
  cases s <;> simp_all [isAlternative, makes]

namespace Ownership

/-- The open blocks when the innermost one has made `os`. -/
def extend (os : List Owned) : List Frame → List Frame
  | [] => []
  | f :: fs => { f with vars := f.vars ++ os } :: fs

@[simp]
theorem extend_nil (fs : List Frame) : extend [] fs = fs := by
  cases fs <;> simp [extend]

@[simp]
theorem extend_extend (os os' : List Owned) (fs : List Frame) :
    extend os' (extend os fs) = extend (os ++ os') fs := by
  cases fs <;> simp [extend]

@[simp]
theorem bind_apply {α β : Type} (x : Settling α) (f : α → Settling β) (l : Ledger) :
    (x >>= f) l = f (x l).1 (x l).2 := rfl

@[simp]
theorem pure_apply {α : Type} (a : α) (l : Ledger) : (pure a : Settling α) l = (a, l) := rfl

@[simp]
theorem map_apply {α β : Type} (f : α → β) (x : Settling α) (l : Ledger) :
    (f <$> x) l = (f (x l).1, (x l).2) := rfl

@[simp]
theorem get_apply (l : Ledger) : (get : Settling Ledger) l = (l, l) := rfl

theorem release_ledger (c : Context) (e : Expr) (l : Ledger) :
    (release c e l).2 = ⟨l.frames, l.released ++ c.varsOf e.deleted⟩ := rfl

theorem releaseIn_ledger (c : Context) (e : Option Expr) (l : Ledger) :
    (releaseIn c e l).2 = ⟨l.frames, l.released ++ c.freed e⟩ := by
  cases e with
  | none => simp [releaseIn, Context.freed]
  | some e => rfl

theorem own_ledger (o : Owned) (l : Ledger) : (own o l).2 = ⟨extend [o] l.frames, l.released⟩ := by
  obtain ⟨frames, released⟩ := l
  cases frames <;> rfl

theorem mem_leftFrames {toLoop : Bool} {f : Frame} {fs : List Frame}
    (left : f ∈ leftFrames toLoop fs) : f ∈ fs := by
  induction fs with
  | nil => exact left
  | cons g fs ih =>
    rw [leftFrames] at left
    split at left
    · rw [List.mem_singleton.mp left]
      exact List.mem_cons_self
    · rcases List.mem_cons.mp left with rfl | left
      · exact List.mem_cons_self
      · exact List.mem_cons_of_mem _ (ih left)

theorem mem_deletes {l : Ledger} {kept : Option Pos} {toLoop : Bool} {o : Owned}
    (due : o ∈ l.deletes kept toLoop) : ∃ f ∈ l.frames, o ∈ f.vars := by
  obtain ⟨f, left, made⟩ := List.mem_flatMap.mp due
  exact ⟨f, mem_leftFrames left, (List.mem_filter.mp made).1⟩

theorem made?_eq {o : Owned} {d : VarDecl} (made : made? d = some o) :
    o.name = d.name ∧ o.pos = d.info.span.start := by
  unfold made? at made
  split at made
  · split at made
    · cases made
      exact ⟨rfl, rfl⟩
    · cases made
  · cases made

theorem exitOf_apply (c : Context) (value : Option Expr) (kept : Option Pos) (toLoop : Bool)
    (l : Ledger) : deletesAt (exitOf c value kept toLoop l).1 = l.deletes kept toLoop ∧
      (exitOf c value kept toLoop l).2 = l := by
  simp only [exitOf, bind_apply, get_apply]
  generalize l.deletes kept toLoop = os
  cases os <;> exact ⟨rfl, rfl⟩

theorem openFrame_apply (loop : Bool) (l : Ledger) :
    openFrame loop l = ((), ⟨{ loop } :: l.frames, l.released⟩) := rfl

theorem closeFrame_apply (f : Frame) (fs : List Frame) (released : List Pos) :
    closeFrame ⟨f :: fs, released⟩ =
      (f.vars.filter (Ledger.isLive ⟨f :: fs, released⟩), ⟨fs, released⟩) := rfl

theorem settleStmt_decl (c : Context) (span : Span) (d : VarDecl) (l : Ledger) :
    (settleStmt c (.decl span d) l).1 = .decl span d := by
  simp only [settleStmt, bind_apply]
  cases made? d <;> rfl

theorem settleStmt_ret (c : Context) (span : Span) (value : Option Expr) (implicit effect : Bool)
    (exit : Option Exit) (l : Ledger) :
    (settleStmt c (.ret span value implicit effect exit) l).1 =
      if isEffect c value implicit then .ret span value implicit true none
      else .ret span value implicit false
        (exitOf c value (value.bind (kept? c)) false (releaseIn c value l).2).1 := by
  simp only [settleStmt, bind_apply]
  split <;> rfl

mutual

theorem settleStmt_ledger (c : Context) (l : Ledger) : (s : Stmt) → s.Proper →
    (settleStmt c s l).2 = ⟨extend s.makes l.frames, l.released ++ c.varsOf s.deletes⟩
  | .block b, proper => by
    simp [settleStmt, settleBlock_ledger c _ _ b proper, Stmt.makes, Stmt.deletes]
  | .expr _ x, _ => by
    simp [settleStmt, release_ledger, Stmt.makes, Stmt.deletes]
  | .decl _ d, _ => by
    simp only [settleStmt, Stmt.makes, Stmt.deletes]
    cases made? d with
    | none => simp [releaseIn_ledger, Context.freed]
    | some o => simp [releaseIn_ledger, own_ledger, Context.freed]
  | .branch _ _ cond yes none, proper => by
    simp [settleStmt, release_ledger, settleBlock_ledger c _ _ yes proper, Stmt.makes, Stmt.deletes]
  | .branch _ _ cond yes (some s), proper => by
    simp only [Stmt.Proper] at proper
    change _ = Ledger.mk (extend [] l.frames) _
    simp [settleStmt, release_ledger, settleBlock_ledger c _ _ yes proper.1,
      settleStmt_ledger c _ s proper.2.2, s.makes_of_isAlternative proper.2.1, Stmt.deletes]
  | .loop _ _ cond body, proper => by
    simp [settleStmt, releaseIn_ledger, settleBlock_ledger c _ _ body proper, Stmt.makes,
      Stmt.deletes, Context.freed]
  | .count _ _ _ low high step body, proper => by
    simp [settleStmt, release_ledger, releaseIn_ledger, settleBlock_ledger c _ _ body proper,
      Stmt.makes, Stmt.deletes, Context.freed]
  | .each _ _ _ items body, proper => by
    simp [settleStmt, release_ledger, settleBlock_ledger c _ _ body proper, Stmt.makes,
      Stmt.deletes]
  | .ret _ value implicit _ _, _ => by
    simp only [settleStmt]
    split <;> simp [releaseIn_ledger, exitOf_apply, Stmt.makes, Stmt.deletes, Context.freed]
  | .brk _ _, _ => by
    simp [settleStmt, exitOf_apply, Stmt.makes, Stmt.deletes]
  | .cont _ _, _ => by
    simp [settleStmt, exitOf_apply, Stmt.makes, Stmt.deletes]
  | .inject _ _, _ => by
    simp [settleStmt, Stmt.makes, Stmt.deletes]

theorem settleBlock_ledger (c : Context) (loop : Bool) (l : Ledger) : (b : Block) → b.Proper →
    (settleBlock c loop b l).2 = ⟨l.frames, l.released ++ c.varsOf b.deletes⟩
  | .mk span ss owned, proper => by
    simp only [settleBlock, bind_apply, pure_apply, openFrame_apply]
    rw [settleStmts_ledger c _ ss proper]
    simp [extend, closeFrame_apply, Block.deletes]

theorem settleStmts_ledger (c : Context) (l : Ledger) : (ss : List Stmt) → Stmt.ProperAll ss →
    (settleStmts c ss l).2 =
      ⟨extend (ss.flatMap Stmt.makes) l.frames, l.released ++ c.varsOf (Stmt.deletesOf ss)⟩
  | [], _ => by
    simp [settleStmts, Stmt.deletesOf]
  | s :: ss, proper => by
    simp only [Stmt.ProperAll] at proper
    simp [settleStmts, settleStmt_ledger c _ s proper.1, settleStmts_ledger c _ ss proper.2,
      Stmt.deletesOf]

end

mutual

theorem settleStmt_text (c : Context) (l : Ledger) : (s : Stmt) →
    (settleStmt c s l).1.deletes = s.deletes ∧ (settleStmt c s l).1.declared = s.declared
  | .block b => by
    simp [settleStmt, Stmt.deletes, Stmt.declared, settleBlock_text c false _ b]
  | .expr _ _ => by
    simp [settleStmt]
  | .decl _ d => by
    simp [settleStmt_decl]
  | .branch _ _ _ yes none => by
    simp [settleStmt, Stmt.deletes, Stmt.declared, settleBlock_text c false _ yes]
  | .branch _ _ _ yes (some s) => by
    simp [settleStmt, Stmt.deletes, Stmt.declared, settleBlock_text c false _ yes,
      settleStmt_text c _ s]
  | .loop _ _ _ body => by
    simp [settleStmt, Stmt.deletes, Stmt.declared, settleBlock_text c true _ body]
  | .count _ _ _ _ _ _ body => by
    simp [settleStmt, Stmt.deletes, Stmt.declared, settleBlock_text c true _ body]
  | .each _ _ _ _ body => by
    simp [settleStmt, Stmt.deletes, Stmt.declared, settleBlock_text c true _ body]
  | .ret _ value implicit _ _ => by
    rw [settleStmt_ret]
    split <;> simp [Stmt.deletes, Stmt.declared]
  | .brk _ _ => by
    simp [settleStmt, Stmt.deletes, Stmt.declared]
  | .cont _ _ => by
    simp [settleStmt, Stmt.deletes, Stmt.declared]
  | .inject _ _ => by
    simp [settleStmt]

theorem settleBlock_text (c : Context) (loop : Bool) (l : Ledger) : (b : Block) →
    (settleBlock c loop b l).1.deletes = b.deletes ∧
      (settleBlock c loop b l).1.declared = b.declared
  | .mk _ ss _ => by
    simp [settleBlock, Block.deletes, Block.declared, settleStmts_text c _ ss]

theorem settleStmts_text (c : Context) (l : Ledger) : (ss : List Stmt) →
    Stmt.deletesOf (settleStmts c ss l).1 = Stmt.deletesOf ss ∧
      Stmt.declaredIn (settleStmts c ss l).1 = Stmt.declaredIn ss
  | [] => ⟨rfl, rfl⟩
  | s :: ss => by
    simp [settleStmts, Stmt.deletesOf, Stmt.declaredIn, settleStmt_text c _ s,
      settleStmts_text c _ ss]

end

end Ownership

end TastyLang
