import TastyLang.Builtin.Basic
import TastyLang.Proofs.Evaluation
import TastyLang.Proofs.Ownership.Departures
import TastyLang.Proofs.Ownership.Walk
import TastyLang.Proofs.Reading.Stretches
import TastyLang.Proofs.Resolution.Completeness

/-!
# The schedule of a function

What is deleted on a path through a function of a text that was read: without a `delete` in the
text, every pointer exactly once when its block is left (`scheduled_exactly_once`); with them, every
pointer that no `delete` further up names (`scheduled_iff_not_mentioned`), whether or not the path
came through that `delete` (`skipped_delete_suppresses`).
-/

namespace TastyLang

section

open Ownership

set_option maxRecDepth 100000

theorem File.read_body {table : Table} {name src : String} {file : File}
    (read : File.read table name src = .ok file) {f : FuncDecl} (member : f ∈ file.funcs)
    {b : Block} (body : f.body = some b) : ∃ p q, b.Lies p q := by
  obtain ⟨_, _, lies⟩ := File.read_lies read
  obtain ⟨_, q, lies⟩ := lies.funcs.lies f member
  obtain ⟨m, _, lies⟩ := lies.body b body
  exact ⟨m, q, lies⟩

theorem FuncDecl.settle_body {f : FuncDecl} {b b' : Block} {info : Info} {atTop : Bool}
    (body : f.body = some b) (settled : (f.settle info atTop).body = some b') :
    b' = (settleBlock (f.ownership info atTop) false b {}).1 := by
  rw [FuncDecl.settle, body] at settled
  exact (Option.some.inj settled).symm

namespace Ownership

theorem Departure.Schedules.mem_iff {d : Departure} (h : d.Schedules []) {o : Owned}
    (left : o ∈ d.left) : o ∈ d.scheduled ↔ d.kept ≠ some o.pos ∧ o.pos ∉ d.mentioned := by
  rw [h, List.append_nil, List.mem_filter]
  simp [left, Departure.isDue, and_comm]

theorem Departure.Schedules.mem_left {d : Departure} (h : d.Schedules []) {o : Owned}
    (due : o ∈ d.scheduled) : o ∈ d.left := by
  rw [h, List.append_nil] at due
  exact List.mem_of_mem_filter due

theorem Departure.Schedules.count {d : Departure} (h : d.Schedules [])
    (distinct : (d.left.map (·.pos)).Nodup) (silent : d.mentioned = []) {o : Owned}
    (left : o ∈ d.left) :
    (d.scheduled.map (·.pos)).count o.pos = if d.kept = some o.pos then 0 else 1 := by
  have sub : (d.scheduled.map (·.pos)).Sublist (d.left.map (·.pos)) := by
    rw [h, List.append_nil]
    exact List.filter_sublist.map _
  have scheduled : o.pos ∈ d.scheduled.map (·.pos) ↔ d.kept ≠ some o.pos := by
    constructor
    · intro member
      obtain ⟨o', due, same⟩ := List.mem_map.mp member
      exact same ▸ ((h.mem_iff (h.mem_left due)).mp due).1
    · intro other
      have due := (h.mem_iff left).mpr ⟨other, by simp [silent]⟩
      exact List.mem_map.mpr ⟨o, due, rfl⟩
  rw [(distinct.sublist sub).count]
  simp [scheduled]

/-- A text whose loop is left in three ways. -/
def loopText : String := "fn f(n: int) {
  ptr a = new W();
  while n > 0 {
    ptr b = new W();
    if n > 5 { continue; }
    ptr c = new W();
    if n > 3 { break; }
  }
  return a;
}
"

/-- A text that deletes a pointer under a condition. -/
def branchText : String := "fn f(c: bool) {
  ptr p = new W();
  if c { delete p; }
}
"

variable {table : Table} {name src : String} {file : File} {f : FuncDecl} {b b' : Block}
  {info : Info} {atTop : Bool} {log : List Departure} {d : Departure}

/-- In a function without a `delete`, a path that leaves a block deletes every pointer that it made
there exactly once, except for the one that it returns, and deletes nothing else. -/
theorem scheduled_exactly_once (read : File.read table name src = .ok file) (func : f ∈ file.funcs)
    (body : f.body = some b) (silent : b.deletes = [])
    (settled : (f.settle info atTop).body = some b')
    (path : BodyPath (f.ownership info atTop) b' log) (member : d ∈ log) :
    (∀ o ∈ d.left, (d.scheduled.map (·.pos)).count o.pos = if d.kept = some o.pos then 0 else 1) ∧
      ∀ o ∈ d.scheduled, o ∈ d.left := by
  obtain ⟨p, q, lies⟩ := File.read_body read func body
  obtain rfl := FuncDecl.settle_body body settled
  have schedules := path.schedules lies.proper member
  have within := path.within member
  rw [(settleBlock_text _ false {} b).1, (settleBlock_text _ false {} b).2, silent] at within
  obtain ⟨places, same, sub⟩ := within.left
  have distinct := same.nodup_iff.mp (lies.declared.nodup.sublist sub)
  have nothing := List.subset_nil.mp within.mentioned
  exact ⟨fun o left => schedules.count distinct nothing left, fun o due => schedules.mem_left due⟩

/-- Two rounds of a loop, left by `continue` and by `break`, and the return of a pointer. -/
theorem scheduled_exactly_once_in_loop :
    ∃ t, trip? Table.default "main.tasty" loopText [2, 1, 0, 1] = some t ∧
      t.log.map (·.left.map (·.name)) = [["b"], ["b", "c"], ["a"]] ∧
      ∀ d ∈ t.log, (∀ o ∈ d.left,
        (d.scheduled.map (·.pos)).count o.pos = if d.kept = some o.pos then 0 else 1) ∧
        ∀ o ∈ d.scheduled, o ∈ d.left := by
  have found : (trip? Table.default "main.tasty" loopText [2, 1, 0, 1]).any (fun t =>
      t.body.deletes.isEmpty && t.log.map (·.left.map (·.name)) == [["b"], ["b", "c"], ["a"]]) =
      true := by
    rw [trip?, loopText, File.read_ofList]
    decide +kernel
  obtain ⟨t, trip, here⟩ := (Option.any_eq_true _ _).mp found
  have follows := trip?_follows trip
  simp only [Bool.and_eq_true, List.isEmpty_iff, beq_iff_eq] at here
  exact ⟨t, trip, here.2, fun d member => scheduled_exactly_once follows.read follows.func
    follows.body here.1 follows.settled follows.path member⟩

/-- A path that leaves a block deletes a pointer that it made there unless it returns the pointer or
some `delete` further up in the text has its name right behind it: a name in parentheses is no such name. -/
theorem scheduled_iff_not_mentioned (read : File.read table name src = .ok file)
    (func : f ∈ file.funcs) (body : f.body = some b)
    (settled : (f.settle info atTop).body = some b')
    (path : BodyPath (f.ownership info atTop) b' log) (member : d ∈ log) :
    ∀ o ∈ d.left, o ∈ d.scheduled ↔ d.kept ≠ some o.pos ∧ o.pos ∉ d.mentioned := by
  obtain ⟨p, q, lies⟩ := File.read_body read func body
  obtain rfl := FuncDecl.settle_body body settled
  exact fun o left => (path.schedules lies.proper member).mem_iff left

theorem trip_around_delete : (trip? Table.default "main.tasty" branchText [0]).any (fun t =>
    t.log.map (·.left.map (·.name)) == [["p"]] && t.log.any fun d => d.left.any fun o =>
      decide (o.pos ∉ d.executed ∧ d.kept ≠ some o.pos ∧ o ∉ d.scheduled)) = true := by
  rw [trip?, branchText, File.read_ofList]
  decide +kernel

/-- The path around the `delete` leaves the pointer that the `delete` names. -/
theorem scheduled_iff_not_mentioned_in_branch :
    ∃ t, trip? Table.default "main.tasty" branchText [0] = some t ∧
      t.log.map (·.left.map (·.name)) = [["p"]] ∧
      ∀ d ∈ t.log, ∀ o ∈ d.left, o ∈ d.scheduled ↔ d.kept ≠ some o.pos ∧ o.pos ∉ d.mentioned := by
  obtain ⟨t, trip, here⟩ := (Option.any_eq_true _ _).mp trip_around_delete
  have follows := trip?_follows trip
  obtain ⟨names, -⟩ := (Bool.and_eq_true _ _).mp here
  exact ⟨t, trip, beq_iff_eq.mp names, fun d member => scheduled_iff_not_mentioned follows.read
    follows.func follows.body follows.settled follows.path member⟩

/-- A `delete` under a condition suppresses the deletion on the path that goes around it, too: the
path leaves the pointer, has not deleted it and does not return it, but it is not scheduled. -/
theorem skipped_delete_suppresses :
    ∃ file info f b log d o, File.read Table.default "main.tasty" branchText = .ok file ∧
      file.resolve Table.default = .ok info ∧ f ∈ file.funcs ∧
      (f.settle info true).body = some b ∧ BodyPath (f.ownership info true) b log ∧
      d ∈ log ∧ o ∈ d.left ∧ o.pos ∉ d.executed ∧ d.kept ≠ some o.pos ∧ o ∉ d.scheduled := by
  obtain ⟨t, trip, here⟩ := (Option.any_eq_true _ _).mp trip_around_delete
  have follows := trip?_follows trip
  obtain ⟨-, here⟩ := (Bool.and_eq_true _ _).mp here
  obtain ⟨d, member, here⟩ := List.any_eq_true.mp here
  obtain ⟨o, left, here⟩ := List.any_eq_true.mp here
  exact ⟨t.file, t.info, t.func, t.settled, t.log, d, o, follows.read, follows.resolved,
    follows.func, follows.settled, follows.path, member, left, of_decide_eq_true here⟩

end Ownership

end

/-! ## What a return deletes

A return keeps the pointer that it returns by its bare name. Behind parentheses the pointer is not
recognised, and is deleted like the others (`return_deletes_iff`).

`Block.returns` lists the returns of a body and what the text around each of them says about
pointers. The exits that settling writes down follow from that list alone (`settleBlock_exits`).
-/

mutual

/-- The exits of the return statements, in the order of the text. -/
def Stmt.exits : Stmt → List (Option Exit)
  | .block b => b.exits
  | .branch _ _ _ yes none => yes.exits
  | .branch _ _ _ yes (some s) => yes.exits ++ s.exits
  | .loop _ _ _ body | .count _ _ _ _ _ _ body | .each _ _ _ _ body => body.exits
  | .ret _ _ _ _ exit => [exit]
  | .expr _ _ | .decl _ _ | .brk _ _ | .cont _ _ | .inject _ _ => []

def Block.exits : Block → List (Option Exit)
  | .mk _ ss _ => Stmt.exitsOf ss

def Stmt.exitsOf : List Stmt → List (Option Exit)
  | [] => []
  | s :: ss => s.exits ++ Stmt.exitsOf ss

end

mutual

/-- The statement without the parentheses around what it returns. -/
def Stmt.unparen : Stmt → Stmt
  | .block b => .block b.unparen
  | .branch span negate cond yes none => .branch span negate cond yes.unparen none
  | .branch span negate cond yes (some s) => .branch span negate cond yes.unparen (some s.unparen)
  | .loop span negate cond body => .loop span negate cond body.unparen
  | .count span kind name low high step body =>
    .count span kind name low high step body.unparen
  | .each span name storage items body => .each span name storage items body.unparen
  | .ret span value implicit effect exit => .ret span (value.map Expr.unparen) implicit effect exit
  | s => s

def Block.unparen : Block → Block
  | .mk span ss owned => .mk span (Stmt.unparenAll ss) owned

def Stmt.unparenAll : List Stmt → List Stmt
  | [] => []
  | s :: ss => s.unparen :: Stmt.unparenAll ss

end

/-- The function without the parentheses around what it returns. -/
def FuncDecl.unparen (f : FuncDecl) : FuncDecl := { f with body := f.body.map Block.unparen }

namespace Ownership

/-- A return statement, and what stands around it in the text. -/
structure Return where
  value : Option Expr
  implicit : Bool
  /-- the pointers made further up in the blocks around it, those of the innermost block first -/
  made : List Owned
  /-- the variables that deletes up to here name -/
  above : List Pos

def Return.isEffect (c : Context) (r : Return) : Bool := Ownership.isEffect c r.value r.implicit

/-- The pointers that are deleted on the way out. -/
def Return.deletes (c : Context) (r : Return) : List Owned :=
  if r.isEffect c then []
  else r.made.filter fun o => !r.above.contains o.pos && r.value.bind (kept? c) != some o.pos

def Return.exit (c : Context) (r : Return) : Option Exit :=
  match r.deletes c with
  | [] => none
  | os => some ⟨os, r.value.any fun v => reads c v os⟩

def Return.unparen (r : Return) : Return := { r with value := r.value.map Expr.unparen }

end Ownership

open Ownership

mutual

/-- The returns of a statement in the order of the text, when the blocks around it and the deletes
further up are those of the ledger. -/
def Stmt.returns (c : Context) (l : Ledger) : Stmt → List Return
  | .block b => b.returns c false l
  | .branch _ _ cond yes none => yes.returns c false ⟨l.frames, l.released ++ c.varsOf cond.deleted⟩
  | .branch _ _ cond yes (some s) =>
    yes.returns c false ⟨l.frames, l.released ++ c.varsOf cond.deleted⟩ ++
      s.returns c ⟨l.frames, l.released ++ c.varsOf cond.deleted ++ c.varsOf yes.deletes⟩
  | .loop _ _ cond body => body.returns c true ⟨l.frames, l.released ++ c.freed cond⟩
  | .count _ _ _ low high step body =>
    body.returns c true ⟨l.frames,
      l.released ++ c.varsOf low.deleted ++ c.varsOf high.deleted ++ c.freed step⟩
  | .each _ _ _ items body => body.returns c true ⟨l.frames, l.released ++ c.varsOf items.deleted⟩
  | .ret _ value implicit _ _ =>
    [⟨value, implicit, l.frames.flatMap Frame.vars, l.released ++ c.freed value⟩]
  | .expr _ _ | .decl _ _ | .brk _ _ | .cont _ _ | .inject _ _ => []

def Block.returns (c : Context) (loop : Bool) (l : Ledger) : Block → List Return
  | .mk _ ss _ => Stmt.returnsOf c ⟨{ loop } :: l.frames, l.released⟩ ss

def Stmt.returnsOf (c : Context) (l : Ledger) : List Stmt → List Return
  | [] => []
  | s :: ss =>
    s.returns c l ++
      Stmt.returnsOf c ⟨extend s.makes l.frames, l.released ++ c.varsOf s.deletes⟩ ss

end

namespace Ownership

variable {c : Context}

/-! ### Settled bodies -/

theorem leftFrames_false (fs : List Frame) : leftFrames false fs = fs := by
  induction fs with
  | nil => rfl
  | cons f fs ih => simp [leftFrames, ih]

theorem exitOf_return (c : Context) (value : Option Expr) (implicit : Bool) (l : Ledger)
    (plain : isEffect c value implicit = false) :
    (exitOf c value (value.bind (kept? c)) false l).1 =
      Return.exit c ⟨value, implicit, l.frames.flatMap Frame.vars, l.released⟩ := by
  unfold Return.exit Return.deletes Return.isEffect
  simp only [plain, exitOf, bind_apply, get_apply, deletes_eq, leftFrames_false]
  rw [if_neg Bool.false_ne_true]
  generalize List.filter _ _ = os
  cases os <;> rfl

mutual

theorem settleStmt_exits (c : Context) (l : Ledger) : (s : Stmt) → s.Proper →
    (settleStmt c s l).1.exits = (s.returns c l).map (Return.exit c)
  | .block b, proper => by
    simp [settleStmt, Stmt.exits, Stmt.returns, settleBlock_exits c false l b proper]
  | .branch _ _ cond yes none, proper => by
    simp [settleStmt, Stmt.exits, Stmt.returns, release_ledger, settleBlock_exits c false _ yes proper]
  | .branch _ _ cond yes (some s), proper => by
    simp only [Stmt.Proper] at proper
    simp [settleStmt, Stmt.exits, Stmt.returns, release_ledger, settleBlock_exits c false _ yes proper.1,
      settleBlock_ledger c false _ yes proper.1, settleStmt_exits c _ s proper.2.2]
  | .loop _ _ cond body, proper => by
    simp [settleStmt, Stmt.exits, Stmt.returns, releaseIn_ledger, settleBlock_exits c true _ body proper]
  | .count _ _ _ low high step body, proper => by
    simp [settleStmt, Stmt.exits, Stmt.returns, release_ledger, releaseIn_ledger,
      settleBlock_exits c true _ body proper]
  | .each _ _ _ items body, proper => by
    simp [settleStmt, Stmt.exits, Stmt.returns, release_ledger, settleBlock_exits c true _ body proper]
  | .ret _ value implicit _ _, _ => by
    rw [settleStmt_ret, releaseIn_ledger]
    split
    · next effect => simp [Stmt.exits, Stmt.returns, Return.exit, Return.deletes, Return.isEffect, effect]
    · next plain =>
      simp only [Bool.not_eq_true] at plain
      simp [Stmt.exits, Stmt.returns, exitOf_return c value implicit _ plain]
  | .expr _ _, _ | .brk _ _, _ | .cont _ _, _ | .inject _ _, _ => by
    simp [settleStmt, Stmt.exits, Stmt.returns]
  | .decl _ _, _ => by
    simp [settleStmt_decl, Stmt.exits, Stmt.returns]

theorem settleBlock_exits (c : Context) (loop : Bool) (l : Ledger) : (b : Block) → b.Proper →
    (settleBlock c loop b l).1.exits = (b.returns c loop l).map (Return.exit c)
  | .mk _ ss _, proper => by
    simp [settleBlock, Block.exits, Block.returns, openFrame_apply, settleStmts_exits c _ ss proper]

theorem settleStmts_exits (c : Context) (l : Ledger) : (ss : List Stmt) → Stmt.ProperAll ss →
    Stmt.exitsOf (settleStmts c ss l).1 = (Stmt.returnsOf c l ss).map (Return.exit c)
  | [], _ => by
    simp [settleStmts, Stmt.exitsOf, Stmt.returnsOf]
  | s :: ss, proper => by
    simp only [Stmt.ProperAll] at proper
    simp [settleStmts, Stmt.exitsOf, Stmt.returnsOf, settleStmt_exits c l s proper.1,
      settleStmt_ledger c l s proper.1, settleStmts_exits c _ ss proper.2]

end

/-! ### Without parentheses -/

theorem deleted_unparen : (e : Expr) → e.unparen.deleted = e.deleted
  | .paren _ x => by
    rw [Expr.unparen, Expr.deleted]
    exact deleted_unparen x
  | .literal _ _ _ | .self _ | .ident _ _ | .binary _ _ _ _ | .unary _ _ _ _ | .member _ _ _ _
  | .delete _ _ | .cast _ _ _ _ | .tupleIndex _ _ _ | .call _ _ _ | .index _ _ _ | .new _ _ _
  | .tuple _ _ | .range _ _ _ | .ternary _ _ _ _ => rfl

theorem idents_unparen : (e : Expr) → e.unparen.idents = e.idents
  | .paren _ x => by
    rw [Expr.unparen, Expr.idents]
    exact idents_unparen x
  | .literal _ _ _ | .self _ | .ident _ _ | .binary _ _ _ _ | .unary _ _ _ _ | .member _ _ _ _
  | .delete _ _ | .cast _ _ _ _ | .tupleIndex _ _ _ | .call _ _ _ | .index _ _ _ | .new _ _ _
  | .tuple _ _ | .range _ _ _ | .ternary _ _ _ _ => rfl

theorem freed_unparen (c : Context) (e : Option Expr) : c.freed (e.map Expr.unparen) = c.freed e := by
  cases e with
  | none => rfl
  | some e => simp [Context.freed, deleted_unparen]

theorem makes_unparen (s : Stmt) : s.unparen.makes = s.makes := by
  unfold Stmt.unparen
  split <;> rfl

theorem isAlternative_unparen (s : Stmt) : s.unparen.isAlternative = s.isAlternative := by
  unfold Stmt.unparen
  split <;> rfl

mutual

theorem deletes_unparen : (s : Stmt) → s.unparen.deletes = s.deletes
  | .block b => by simp [Stmt.unparen, Stmt.deletes, deletes_unparenBlock b]
  | .branch _ _ _ yes none => by simp [Stmt.unparen, Stmt.deletes, deletes_unparenBlock yes]
  | .branch _ _ _ yes (some s) => by
    simp [Stmt.unparen, Stmt.deletes, deletes_unparenBlock yes, deletes_unparen s]
  | .loop _ _ _ body | .count _ _ _ _ _ _ body | .each _ _ _ _ body => by
    simp [Stmt.unparen, Stmt.deletes, deletes_unparenBlock body]
  | .ret _ value _ _ _ => by
    cases value <;> simp [Stmt.unparen, Stmt.deletes, deleted_unparen]
  | .expr _ _ | .decl _ _ | .brk _ _ | .cont _ _ | .inject _ _ => by simp [Stmt.unparen]

theorem deletes_unparenBlock : (b : Block) → b.unparen.deletes = b.deletes
  | .mk _ ss _ => by simp [Block.unparen, Block.deletes, deletes_unparenAll ss]

theorem deletes_unparenAll : (ss : List Stmt) →
    Stmt.deletesOf (Stmt.unparenAll ss) = Stmt.deletesOf ss
  | [] => rfl
  | s :: ss => by
    simp [Stmt.unparenAll, Stmt.deletesOf, deletes_unparen s, deletes_unparenAll ss]

end

mutual

theorem proper_unparen : (s : Stmt) → s.Proper → s.unparen.Proper
  | .block b, proper => proper_unparenBlock b proper
  | .branch _ _ _ yes none, proper => proper_unparenBlock yes proper
  | .branch _ _ _ yes (some s), proper => by
    simp only [Stmt.Proper] at proper
    exact ⟨proper_unparenBlock yes proper.1, (isAlternative_unparen s).trans proper.2.1,
      proper_unparen s proper.2.2⟩
  | .loop _ _ _ body, proper | .count _ _ _ _ _ _ body, proper | .each _ _ _ _ body, proper =>
    proper_unparenBlock body proper
  | .ret _ _ _ _ _, _ | .expr _ _, _ | .decl _ _, _ | .brk _ _, _ | .cont _ _, _
  | .inject _ _, _ => trivial

theorem proper_unparenBlock : (b : Block) → b.Proper → b.unparen.Proper
  | .mk _ ss _, proper => proper_unparenAll ss proper

theorem proper_unparenAll : (ss : List Stmt) → Stmt.ProperAll ss →
    Stmt.ProperAll (Stmt.unparenAll ss)
  | [], _ => trivial
  | s :: ss, proper => by
    simp only [Stmt.ProperAll] at proper
    exact ⟨proper_unparen s proper.1, proper_unparenAll ss proper.2⟩

end

mutual

theorem returns_unparen (c : Context) (l : Ledger) : (s : Stmt) →
    s.unparen.returns c l = (s.returns c l).map Return.unparen
  | .block b => by simp [Stmt.unparen, Stmt.returns, returns_unparenBlock c false l b]
  | .branch _ _ _ yes none => by
    simp [Stmt.unparen, Stmt.returns, returns_unparenBlock c false _ yes]
  | .branch _ _ _ yes (some s) => by
    simp [Stmt.unparen, Stmt.returns, returns_unparenBlock c false _ yes, returns_unparen c _ s,
      deletes_unparenBlock yes]
  | .loop _ _ _ body | .count _ _ _ _ _ _ body | .each _ _ _ _ body => by
    simp [Stmt.unparen, Stmt.returns, returns_unparenBlock c true _ body]
  | .ret _ value _ _ _ => by
    simp [Stmt.unparen, Stmt.returns, Return.unparen, freed_unparen]
  | .expr _ _ | .decl _ _ | .brk _ _ | .cont _ _ | .inject _ _ => by
    simp [Stmt.unparen, Stmt.returns]

theorem returns_unparenBlock (c : Context) (loop : Bool) (l : Ledger) : (b : Block) →
    b.unparen.returns c loop l = (b.returns c loop l).map Return.unparen
  | .mk _ ss _ => by
    simp [Block.unparen, Block.returns, returns_unparenAll c _ ss]

theorem returns_unparenAll (c : Context) (l : Ledger) : (ss : List Stmt) →
    Stmt.returnsOf c l (Stmt.unparenAll ss) = (Stmt.returnsOf c l ss).map Return.unparen
  | [] => rfl
  | s :: ss => by
    simp [Stmt.unparenAll, Stmt.returnsOf, returns_unparen c l s, returns_unparenAll c _ ss,
      makes_unparen, deletes_unparen]

end

theorem reads_unparen (c : Context) (e : Expr) (os : List Owned) :
    reads c e.unparen os = reads c e os := by
  rw [reads, idents_unparen, reads]

/-! ### Returned names -/

theorem deletesAt_exit (c : Context) (r : Return) : deletesAt (r.exit c) = r.deletes c := by
  unfold Return.exit
  cases r.deletes c <;> rfl

theorem mem_deletes_iff {r : Return} {p : Pos} (made : p ∈ r.made.map (·.pos)) :
    p ∈ (r.deletes c).map (·.pos) ↔
      r.isEffect c = false ∧ p ∉ r.above ∧ r.value.bind (kept? c) ≠ some p := by
  obtain ⟨o, inside, rfl⟩ := List.mem_map.mp made
  unfold Return.deletes
  cases effect : r.isEffect c
  · simp only [Bool.false_eq_true, if_false, List.mem_map, List.mem_filter]
    constructor
    · rintro ⟨o', ⟨-, due⟩, same⟩
      simpa [same] using due
    · rintro ⟨-, above, kept⟩
      exact ⟨o, ⟨inside, by simp [above, kept]⟩, rfl⟩
  · simp

theorem exit_congr {r : Return} {p : Pos} (same : r.unparen.isEffect c = r.isEffect c)
    (kept : r.value.bind (kept? c) = none) (kept' : r.unparen.value.bind (kept? c) = some p)
    (idle : r.isEffect c = true ∨ p ∈ r.above) : r.unparen.exit c = r.exit c := by
  have deletes : r.unparen.deletes c = r.deletes c := by
    unfold Return.deletes
    rw [same, kept, kept']
    rcases idle with effect | above
    · rw [if_pos effect, if_pos effect]
    · congr 1
      refine List.filter_congr fun o _ => ?_
      by_cases here : o.pos = p
      · simp [Return.unparen, here, above]
      · have other : (some p != some o.pos) = true := by
          simpa using fun same => here same.symm
        simp [Return.unparen, other]
  have hold (os : List Owned) : (r.unparen.value.any fun v => reads c v os) =
      r.value.any fun v => reads c v os := by
    cases value : r.value with
    | none => simp [Return.unparen, value]
    | some v => simp [Return.unparen, value, reads_unparen]
  unfold Return.exit
  rw [deletes]
  simp only [hold]

theorem kept?_of_unparen {v : Expr} {span : Span} {x : String} (named : v.unparen = .ident span x)
    (other : v ≠ .ident span x) : kept? c v = none := by
  cases v with
  | ident => exact absurd named other
  | _ => rfl

section

variable {table : Table} {name src : String} {file : File} {f : FuncDecl} {b b' b'' : Block}
  {info : Info} {atTop : Bool}

theorem settled_exits (read : File.read table name src = .ok file) (func : f ∈ file.funcs)
    (body : f.body = some b) (settled : (f.settle info atTop).body = some b')
    (plain : (f.unparen.settle info atTop).body = some b'') :
    b'.exits = (b.returns (f.ownership info atTop) false {}).map (Return.exit (f.ownership info atTop)) ∧
      b''.exits = (b.returns (f.ownership info atTop) false {}).map
        fun r => r.unparen.exit (f.ownership info atTop) := by
  obtain ⟨p, q, lies⟩ := File.read_body read func body
  obtain rfl := FuncDecl.settle_body body settled
  have body' : f.unparen.body = some b.unparen := by rw [FuncDecl.unparen, body, Option.map_some]
  obtain rfl := FuncDecl.settle_body body' plain
  have same : f.unparen.ownership info atTop = f.ownership info atTop := rfl
  refine ⟨settleBlock_exits _ false {} b lies.proper, ?_⟩
  rw [same, settleBlock_exits _ false {} _ (proper_unparenBlock b lies.proper), returns_unparenBlock,
    List.map_map]
  rfl

/-- A return of a pointer that was made in the blocks around it, behind any number of parentheses,
deletes the pointer exactly if there is a parenthesis and no `delete` further up names the pointer.
Exactly then the exit is another one than that of the return without parentheses, which never
deletes the pointer. -/
theorem return_deletes_iff (read : File.read table name src = .ok file) (func : f ∈ file.funcs)
    (body : f.body = some b) (settled : (f.settle info atTop).body = some b')
    (plain : (f.unparen.settle info atTop).body = some b'') {n : Nat} {r : Return}
    (here : (b.returns (f.ownership info atTop) false {})[n]? = some r) {v : Expr} {span : Span}
    {x : String} {p : Pos} (value : r.value = some v) (named : v.unparen = .ident span x)
    (var : (f.ownership info atTop).varOf? span = some p) (made : p ∈ r.made.map (·.pos)) :
    ∃ exit exit', b'.exits[n]? = some exit ∧ b''.exits[n]? = some exit' ∧
      (p ∈ (deletesAt exit).map (·.pos) ↔
        r.isEffect (f.ownership info atTop) = false ∧ p ∉ r.above ∧ v ≠ .ident span x) ∧
      p ∉ (deletesAt exit').map (·.pos) ∧
      (r.unparen.isEffect (f.ownership info atTop) = r.isEffect (f.ownership info atTop) →
        (exit' = exit ↔ p ∉ (deletesAt exit).map (·.pos))) := by
  obtain ⟨exits, exits'⟩ := settled_exits read func body settled plain
  have kept' : r.unparen.value.bind (kept? (f.ownership info atTop)) = some p := by
    simp only [Return.unparen, value, Option.map_some, named, Option.bind_some, kept?, var]
  have bare : v = .ident span x → r.unparen = r := by
    intro plain
    rw [plain] at value
    obtain ⟨_, _, _, _⟩ := r
    cases value
    rfl
  have spared : p ∉ (r.unparen.deletes (f.ownership info atTop)).map (·.pos) := by
    intro member
    exact ((mem_deletes_iff (r := r.unparen) made).mp member).2.2 kept'
  have deletes : p ∈ (r.deletes (f.ownership info atTop)).map (·.pos) ↔
      r.isEffect (f.ownership info atTop) = false ∧ p ∉ r.above ∧ v ≠ .ident span x := by
    by_cases plain : v = .ident span x
    · rw [bare plain] at spared
      simp [spared, plain]
    · rw [mem_deletes_iff made, value, Option.bind_some, kept?_of_unparen named plain]
      simp [plain]
  refine ⟨_, _, by rw [exits, List.getElem?_map, here]; rfl, by rw [exits', List.getElem?_map, here]; rfl,
    ?_, ?_, fun effect => ?_⟩
  · rwa [deletesAt_exit]
  · rwa [deletesAt_exit]
  · constructor
    · intro same
      rwa [← same, deletesAt_exit]
    · intro absent
      rw [deletesAt_exit, deletes] at absent
      by_cases plain : v = .ident span x
      · exact congrArg _ (bare plain)
      · refine exit_congr effect ?_ kept' ?_
        · rw [value, Option.bind_some, kept?_of_unparen named plain]
        · cases idle : r.isEffect (f.ownership info atTop)
          · exact .inr (Decidable.byContradiction fun above => absent ⟨idle, above, plain⟩)
          · exact .inl rfl

/-- A pointer that is returned by its bare name, and one behind two parentheses. -/
def parenthesesText : String := "class W {}
fn f(c: bool) -> W* {
    ptr p = new W();
    if c {
        return p;
    }
    ptr q = new W();
    return ((q));
}
"

/-- The function of the text, its body, and the settled bodies with and without parentheses. -/
def parentheses? : Option (File × Info × FuncDecl × Block × Block × Block) := do
  let (file, info) ← resolved? Table.default "main.tasty" parenthesesText
  let f ← file.funcs.head?
  let b ← f.body
  let b' ← (f.settle info true).body
  let b'' ← (f.unparen.settle info true).body
  return (file, info, f, b, b', b'')

theorem parentheses?_some {file : File} {info : Info} {f : FuncDecl} {b b' b'' : Block}
    (h : parentheses? = some (file, info, f, b, b', b'')) :
    File.read Table.default "main.tasty" parenthesesText = .ok file ∧
      file.resolve Table.default = .ok info ∧ f ∈ file.funcs ∧ f.body = some b ∧
      (f.settle info true).body = some b' ∧ (f.unparen.settle info true).body = some b'' := by
  obtain ⟨⟨_, _⟩, steps, h⟩ := Option.bind_eq_some_iff.mp h
  obtain ⟨_, first, h⟩ := Option.bind_eq_some_iff.mp h
  obtain ⟨_, body, h⟩ := Option.bind_eq_some_iff.mp h
  obtain ⟨_, settled, h⟩ := Option.bind_eq_some_iff.mp h
  obtain ⟨_, plain, h⟩ := Option.bind_eq_some_iff.mp h
  cases h
  obtain ⟨read, resolved⟩ := resolved?_some steps
  exact ⟨read, resolved, List.mem_of_head? first, body, settled, plain⟩

theorem parentheses_found : parentheses?.any (fun (_, info, f, b, b', _) =>
    (match (b.returns (f.ownership info true) false {})[1]? with
      | some r => match r.value.map Expr.unparen with
        | some (.ident span "q") => ((f.ownership info true).varOf? span).any fun p =>
          (r.made.map (·.pos)).contains p
        | _ => false
      | none => false) &&
    b'.exits.map (fun exit => (deletesAt exit).map (·.name)) == [[], ["p", "q"]]) = true := by
  rw [parentheses?, resolved?, parenthesesText, File.read_ofList]
  decide +kernel

theorem return_deletes_iff_of_parentheses :
    ∃ file info f b b' b'', parentheses? = some (file, info, f, b, b', b'') ∧
      ∃ r v span p, (b.returns (f.ownership info true) false {})[1]? = some r ∧
        r.value = some v ∧ v.unparen = .ident span "q" ∧
        (f.ownership info true).varOf? span = some p ∧ p ∈ r.made.map (·.pos) ∧
        ∃ exit exit', b'.exits[1]? = some exit ∧ b''.exits[1]? = some exit' ∧
          (p ∈ (deletesAt exit).map (·.pos) ↔
            r.isEffect (f.ownership info true) = false ∧ p ∉ r.above ∧ v ≠ .ident span "q") ∧
          p ∉ (deletesAt exit').map (·.pos) := by
  obtain ⟨⟨file, info, f, b, b', b''⟩, steps, here⟩ :=
    (Option.any_eq_true _ _).mp parentheses_found
  obtain ⟨read, -, func, body, settled, plain⟩ := parentheses?_some steps
  have here := (Bool.and_eq_true_iff.mp here).1
  split at here
  · next r second =>
    split at here
    · next span returned =>
      obtain ⟨v, value, named⟩ := Option.map_eq_some_iff.mp returned
      obtain ⟨p, var, made⟩ := (Option.any_eq_true _ _).mp here
      have made := List.contains_iff_mem.mp made
      obtain ⟨exit, exit', at', at'', deletes, spared, -⟩ :=
        return_deletes_iff read func body settled plain second value named var made
      exact ⟨file, info, f, b, b', b'', steps, r, v, span, p, second, value, named, var, made, exit,
        exit', at', at'', deletes, spared⟩
    · cases here
  · cases here

/-- The pointer behind parentheses is deleted before it is returned. -/
theorem parentheses_delete_returned :
    ∃ file info f b', File.read Table.default "main.tasty" parenthesesText = .ok file ∧
      file.resolve Table.default = .ok info ∧ f ∈ file.funcs ∧
      (f.settle info true).body = some b' ∧
      b'.exits.map (fun exit => (deletesAt exit).map (·.name)) = [[], ["p", "q"]] := by
  obtain ⟨⟨file, info, f, b, b', b''⟩, steps, here⟩ :=
    (Option.any_eq_true _ _).mp parentheses_found
  obtain ⟨read, resolved, func, -, settled, -⟩ := parentheses?_some steps
  exact ⟨file, info, f, b', read, resolved, func, settled,
    beq_iff_eq.mp (Bool.and_eq_true_iff.mp here).2⟩

end

end Ownership

end TastyLang
