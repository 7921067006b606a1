import TastyLang.Proofs.Outcome
import TastyLang.Resolution.Bodies

/-!
# Where ranges stand

A range has a type only as the value that a loop iterates over, so whatever resolves holds none
anywhere else (`Rangeless`).
-/

namespace TastyLang

mutual

/-- No range stands in the expression. -/
def Expr.Rangeless : Expr → Prop
  | .range _ _ _ => False
  | .literal _ _ _ | .ident _ _ | .self _ => True
  | .binary _ _ l r | .index _ l r => l.Rangeless ∧ r.Rangeless
  | .unary _ _ x _ | .member _ x _ _ | .delete _ x | .cast _ x _ _ | .tupleIndex _ x _
  | .paren _ x => x.Rangeless
  | .call _ fn args => fn.Rangeless ∧ Expr.RangelessAll args
  | .new _ _ args | .tuple _ args => Expr.RangelessAll args
  | .ternary _ c y n => c.Rangeless ∧ y.Rangeless ∧ n.Rangeless

def Expr.RangelessAll : List Expr → Prop
  | [] => True
  | e :: es => e.Rangeless ∧ Expr.RangelessAll es

end

/-- The one place for a range: the value that a loop iterates over. -/
def Expr.Iterable : Expr → Prop
  | .range _ low high => low.Rangeless ∧ high.Rangeless
  | e => e.Rangeless

/-- A part that may be missing holds no range. -/
def Expr.RangelessIn (e : Option Expr) : Prop := ∀ x, e = some x → x.Rangeless

mutual

/-- Ranges stand in the statement only where a loop iterates over them. -/
def Stmt.Rangeless : Stmt → Prop
  | .block b => b.Rangeless
  | .expr _ x => x.Rangeless
  | .decl _ d => Expr.RangelessIn d.value
  | .branch _ _ cond yes none => cond.Rangeless ∧ yes.Rangeless
  | .branch _ _ cond yes (some no) => cond.Rangeless ∧ yes.Rangeless ∧ no.Rangeless
  | .loop _ _ cond body => Expr.RangelessIn cond ∧ body.Rangeless
  | .count _ _ _ low high step body =>
    low.Rangeless ∧ high.Rangeless ∧ Expr.RangelessIn step ∧ body.Rangeless
  | .each _ _ _ items body => items.Iterable ∧ body.Rangeless
  | .ret _ value _ _ _ => Expr.RangelessIn value
  | .brk _ _ | .cont _ _ | .inject _ _ => True

def Block.Rangeless : Block → Prop
  | .mk _ ss _ => Stmt.RangelessAll ss

def Stmt.RangelessAll : List Stmt → Prop
  | [] => True
  | s :: ss => s.Rangeless ∧ Stmt.RangelessAll ss

end

structure FuncDecl.Rangeless (f : FuncDecl) : Prop where
  params : ∀ q ∈ f.params, Expr.RangelessIn q.value
  body : ∀ b, f.body = some b → b.Rangeless

/-- No value of an item holds a range, but for those that loops iterate over. -/
def Item.Rangeless : Item → Prop
  | .var d => Expr.RangelessIn d.value
  | .func f => f.Rangeless
  | .enum d => ∀ m ∈ d.members, Expr.RangelessIn m.value
  | .inject _ _ => True

mutual

def Decl.Rangeless : Decl → Prop
  | .item i => i.Rangeless
  | .scope _ _ ds => Decl.RangelessAll ds
  | .cls _ _ _ items => ∀ i ∈ items, i.Rangeless
  | .abstraction _ _ _ fs | .refurbish _ _ fs => ∀ f ∈ fs, f.Rangeless
  | .includes _ _ _ _ | .assume _ _ _ | .attributeDef _ _ _ _ => True

def Decl.RangelessAll : List Decl → Prop
  | [] => True
  | d :: ds => d.Rangeless ∧ Decl.RangelessAll ds

end

theorem Expr.RangelessIn.none : Expr.RangelessIn none := by
  rintro _ ⟨⟩

theorem Expr.RangelessIn.some {e : Expr} (h : e.Rangeless) : Expr.RangelessIn (some e) := by
  rintro _ ⟨⟩
  exact h

namespace Resolution

variable {s s' : State}

/-! ### Expressions -/

mutual

theorem expr_rangeless {p : Place} {s s' : State} {t : Ty} : (e : Expr) →
    expr p e s = .ok (t, s') → e.Rangeless
  | .literal _ _ _, _ | .ident _ _, _ | .self _, _ => trivial
  | .paren _ x, run | .unary _ _ x _, run | .cast _ x _ _, run | .tupleIndex _ x _, run => by
    obtain ⟨_, _, ran, _⟩ := bind_ok run
    exact expr_rangeless x ran
  | .delete _ x, run => by
    obtain ⟨_, _, ran, _⟩ := bind_ok run
    obtain ⟨_, ran⟩ := discard_ok ran
    exact expr_rangeless x ran
  | .member _ x _ _, run => by
    obtain ⟨_, _, ran, _⟩ := bind_ok run
    exact expr_rangeless x ran
  | .binary _ _ l r, run => by
    obtain ⟨_, _, left, run⟩ := bind_ok run
    obtain ⟨_, _, right, _⟩ := bind_ok run
    exact ⟨expr_rangeless l left, expr_rangeless r right⟩
  | .index _ x i, run => by
    obtain ⟨_, _, left, run⟩ := bind_ok run
    obtain ⟨_, _, right, _⟩ := bind_ok run
    obtain ⟨_, right⟩ := discard_ok right
    exact ⟨expr_rangeless x left, expr_rangeless i right⟩
  | .call span fn args, run => by
    -- a member that is called is resolved through its receiver, anything else as a value
    have parts : fn.Rangeless ∧ ∃ s₁ s₂, exprs p args s₁ = .ok ((), s₂) := by
      cases fn with
      | member _ x _ _ =>
        obtain ⟨_, _, ran, run⟩ := bind_ok run
        obtain ⟨_, _, _, run⟩ := bind_ok run
        obtain ⟨_, _, rest, _⟩ := bind_ok run
        exact ⟨expr_rangeless x ran, _, _, rest⟩
      | _ =>
        obtain ⟨_, _, ran, run⟩ := bind_ok run
        obtain ⟨_, _, _, run⟩ := bind_ok run
        obtain ⟨_, _, rest, _⟩ := bind_ok run
        exact ⟨expr_rangeless _ ran, _, _, rest⟩
    obtain ⟨callee, _, _, rest⟩ := parts
    exact ⟨callee, exprs_rangeless args rest⟩
  | .new _ _ args, run => by
    obtain ⟨_, _, ran, _⟩ := bind_ok run
    exact exprs_rangeless args ran
  | .tuple _ elems, run => by
    obtain ⟨_, _, ran, _⟩ := bind_ok run
    exact exprTypes_rangeless elems ran
  | .range _ _ _, run => by cases run
  | .ternary _ c y n, run => by
    obtain ⟨_, _, cond, run⟩ := bind_ok run
    obtain ⟨_, cond⟩ := discard_ok cond
    obtain ⟨_, _, yes, run⟩ := bind_ok run
    obtain ⟨_, _, no, _⟩ := bind_ok run
    exact ⟨expr_rangeless c cond, expr_rangeless y yes, expr_rangeless n no⟩

theorem exprs_rangeless {p : Place} {s s' : State} {u : Unit} : (es : List Expr) →
    exprs p es s = .ok (u, s') → Expr.RangelessAll es
  | [], _ => trivial
  | e :: es, run => by
    obtain ⟨_, _, first, rest⟩ := bind_ok run
    obtain ⟨_, first⟩ := discard_ok first
    exact ⟨expr_rangeless e first, exprs_rangeless es rest⟩

theorem exprTypes_rangeless {p : Place} {s s' : State} {ts : List Ty} : (es : List Expr) →
    exprTypes p es s = .ok (ts, s') → Expr.RangelessAll es
  | [], _ => trivial
  | e :: es, run => by
    obtain ⟨_, _, first, run⟩ := bind_ok run
    obtain ⟨_, _, rest, _⟩ := bind_ok run
    exact ⟨expr_rangeless e first, exprTypes_rangeless es rest⟩

end

variable {p : Place}

theorem iterated_iterable {e : Expr} {t : Ty} (run : iterated p e s = .ok (t, s')) :
    e.Iterable := by
  cases e with
  | range _ low high =>
    obtain ⟨_, _, left, run⟩ := bind_ok run
    obtain ⟨_, _, right, _⟩ := bind_ok run
    exact ⟨expr_rangeless low left, expr_rangeless high right⟩
  | _ => exact expr_rangeless _ run

/-! ### Statements -/

variable {u : Unit}

theorem varValue_rangeless {d : VarDecl} {id : SymbolId}
    (run : varValue p d id s = .ok (u, s')) : Expr.RangelessIn d.value := by
  intro v given
  unfold varValue at run
  rw [given] at run
  obtain ⟨_, _, ran, _⟩ := bind_ok run
  exact expr_rangeless v ran

theorem returned_rangeless {value : Option Expr} {implicit : Bool}
    (run : returned p value implicit s = .ok (u, s')) : Expr.RangelessIn value := by
  rintro v rfl
  obtain ⟨_, _, ran, _⟩ := bind_ok run
  exact expr_rangeless v ran

theorem part_rangeless {part : Option Expr} {rest : Resolver Unit}
    (run : (do
      match part with
      | some e => discard (expr p e)
      | none => pure ()
      rest) s = .ok (u, s')) :
    Expr.RangelessIn part ∧ ∃ s₁, rest s₁ = .ok (u, s') := by
  cases part with
  | none => exact ⟨.none, s, run⟩
  | some e =>
    obtain ⟨_, s₁, ran, run⟩ := bind_ok run
    obtain ⟨_, ran⟩ := discard_ok ran
    exact ⟨.some (expr_rangeless e ran), s₁, run⟩

mutual

theorem stmt_rangeless {p : Place} {s s' : State} {u : Unit} : (st : Stmt) →
    stmt p st s = .ok (u, s') → st.Rangeless
  | .block b, run => block_rangeless b run
  | .expr _ x, run => by
    obtain ⟨_, ran⟩ := discard_ok run
    exact expr_rangeless x ran
  | .decl _ d, run => by
    obtain ⟨_, _, _, run⟩ := bind_ok run
    obtain ⟨_, _, _, run⟩ := bind_ok run
    obtain ⟨_, _, ran, _⟩ := bind_ok run
    exact varValue_rangeless ran
  | .branch _ _ cond yes none, run => by
    obtain ⟨_, _, first, run⟩ := bind_ok run
    obtain ⟨_, first⟩ := discard_ok first
    obtain ⟨_, _, second, _⟩ := bind_ok run
    exact ⟨expr_rangeless cond first, block_rangeless yes second⟩
  | .branch _ _ cond yes (some no), run => by
    obtain ⟨_, _, first, run⟩ := bind_ok run
    obtain ⟨_, first⟩ := discard_ok first
    obtain ⟨_, _, second, third⟩ := bind_ok run
    exact ⟨expr_rangeless cond first, block_rangeless yes second, stmt_rangeless no third⟩
  | .loop _ _ cond body, run => by
    obtain ⟨first, _, second⟩ := part_rangeless run
    exact ⟨first, block_rangeless body second⟩
  | .count _ _ _ low high step body, run => by
    obtain ⟨_, _, first, run⟩ := bind_ok run
    obtain ⟨_, _, second, run⟩ := bind_ok run
    obtain ⟨third, _, run⟩ := part_rangeless run
    obtain ⟨_, _, _, run⟩ := bind_ok run
    obtain ⟨_, _, _, run⟩ := bind_ok run
    exact ⟨expr_rangeless low first, expr_rangeless high second, third, block_rangeless body run⟩
  | .each _ _ _ items body, run => by
    obtain ⟨_, _, first, run⟩ := bind_ok run
    obtain ⟨_, _, _, run⟩ := bind_ok run
    exact ⟨iterated_iterable first, block_rangeless body run⟩
  | .ret _ _ _ _ _, run => returned_rangeless run
  | .brk _ _, _ | .cont _ _, _ | .inject _ _, _ => trivial

theorem block_rangeless {p : Place} {s s' : State} {u : Unit} : (b : Block) →
    block p b s = .ok (u, s') → b.Rangeless
  | .mk _ ss _, run => by
    obtain ⟨_, _, _, run⟩ := bind_ok run
    exact stmts_rangeless ss run

theorem stmts_rangeless {p : Place} {s s' : State} {u : Unit} : (ss : List Stmt) →
    stmts p ss s = .ok (u, s') → Stmt.RangelessAll ss
  | [], _ => trivial
  | st :: ss, run => by
    obtain ⟨_, _, first, rest⟩ := bind_ok run
    exact ⟨stmt_rangeless st first, stmts_rangeless ss rest⟩

end

/-! ### Functions -/

theorem forM_ok {α : Type} {f : α → Resolver Unit} {xs : List α} {s s' : State}
    (run : xs.forM f s = .ok (u, s')) {x : α} (member : x ∈ xs) :
    ∃ s₁ s₂, f x s₁ = .ok ((), s₂) := by
  induction xs generalizing s with
  | nil => cases member
  | cons y ys ih =>
    obtain ⟨_, s₁, first, rest⟩ := bind_ok run
    rcases List.mem_cons.mp member with rfl | member
    · exact ⟨_, _, first⟩
    · exact ih rest member

end Resolution

end TastyLang
