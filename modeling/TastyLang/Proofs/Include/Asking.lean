import Mathlib.Data.String.Basic
import TastyLang.Proofs.Include.Placement
import TastyLang.Syntax.Nodes

/-!
# What the nodes of a tree ask for

The collector goes over a tree by its constructors and keeps what it finds in one list. Every written type
and every variable of the tree has its part in the list (`mem_function`, `mem_variable`). What a name
asks for is looked up under ever shorter heads of it, so the longest one that is listed counts
(`Table.headerFor?_leads`).
-/

namespace TastyLang.Include.Context

variable (c : Context)

/-- What a node asks for by itself. -/
def wanted : Node → List IncludeEntry
  | .type te => c.typeExpr te
  | .var d => c.declared d
  | _ => []

variable {c} {n : Node} {e : IncludeEntry}

mutual

theorem mem_typeExpr : (te : TypeExpr) → n ∈ te.nodes → e ∈ c.wanted n → e ∈ c.typeExpr te
  | .tuple _ elems _, node, wants => by
    rcases List.mem_cons.mp node with rfl | node
    · exact wants
    · rw [typeExpr]
      exact List.mem_append_right _ (mem_typeExprs elems node wants)
  | .func _ params none _, node, wants => by
    rcases List.mem_cons.mp node with rfl | node
    · exact wants
    · rw [List.append_nil] at node
      rw [typeExpr, List.append_nil]
      exact List.mem_append_right _ (mem_typeExprs params node wants)
  | .func _ params (some r) _, node, wants => by
    rcases List.mem_cons.mp node with rfl | node
    · exact wants
    · rw [typeExpr]
      rcases List.mem_append.mp node with node | node
      · exact List.mem_append_left _ (List.mem_append_right _ (mem_typeExprs params node wants))
      · exact List.mem_append_right _ (mem_typeExpr r node wants)
  | .named _ name args _, node, wants => by
    rcases List.mem_cons.mp node with rfl | node
    · exact wants
    · rw [typeExpr]
      exact List.mem_append_right _ (mem_typeExprs args node wants)

theorem mem_typeExprs : (ts : List TypeExpr) → n ∈ TypeExpr.nodesOf ts → e ∈ c.wanted n →
    e ∈ c.typeExprs ts
  | t :: ts, node, wants => by
    rw [typeExprs]
    rcases List.mem_append.mp node with node | node
    · exact List.mem_append_left _ (mem_typeExpr t node wants)
    · exact List.mem_append_right _ (mem_typeExprs ts node wants)

end

theorem wanted_of_qualified : (x : Expr) → x.qualified ≠ "" → n ∈ x.nodes → c.wanted n = []
  | x, dotted, node => by
    cases x with
    | ident span name =>
      obtain rfl := List.mem_singleton.mp node
      rfl
    | member span x name accessor =>
      cases accessor with
      | dot =>
        rcases List.mem_cons.mp node with rfl | node
        · rfl
        · refine wanted_of_qualified x (fun none => dotted ?_) node
          rw [Expr.qualified, none]
          rfl
      | arrow | scope => exact absurd rfl dotted
    | _ => exact absurd rfl dotted

mutual

theorem mem_expr : (x : Expr) → n ∈ x.nodes → e ∈ c.wanted n → e ∈ c.expr x
  | x, node, wants => by
    rw [Expr.nodes.eq_def] at node
    rcases List.mem_cons.mp node with rfl | node
    · cases wants
    cases x with
    | literal | ident | self => cases node
    | binary _ _ l r | index _ l r | range _ l r =>
      rw [expr]
      rcases List.mem_append.mp node with node | node
      · exact List.mem_append_left _ (mem_expr l node wants)
      · exact List.mem_append_right _ (mem_expr r node wants)
    | unary _ _ x _ | delete _ x | paren _ x =>
      rw [expr]
      exact mem_expr x node wants
    | tupleIndex _ x _ =>
      rw [expr]
      exact List.mem_append_right _ (mem_expr x node wants)
    | member span x name accessor =>
      by_cases plain : (Expr.member span x name accessor).qualified = ""
      · simpa [expr, plain] using mem_expr x node wants
      · rw [wanted_of_qualified _ plain (List.mem_cons_of_mem _ node)] at wants
        cases wants
    | call _ fn args =>
      rw [expr]
      rcases List.mem_append.mp node with node | node
      · exact List.mem_append_left _ (mem_expr fn node wants)
      · exact List.mem_append_right _ (mem_exprs args node wants)
    | new _ t args =>
      rw [expr]
      rcases List.mem_append.mp node with node | node
      · exact List.mem_append_left _ (mem_typeExpr t node wants)
      · exact List.mem_append_right _ (mem_exprs args node wants)
    | cast _ x _ t =>
      rw [expr]
      rcases List.mem_append.mp node with node | node
      · exact List.mem_append_left _ (mem_expr x node wants)
      · exact List.mem_append_right _ (mem_typeExpr t node wants)
    | tuple _ elems =>
      rw [expr]
      exact List.mem_append_right _ (mem_exprs elems node wants)
    | ternary _ cond yes no =>
      rw [expr]
      rcases List.mem_append.mp node with node | node
      · rcases List.mem_append.mp node with node | node
        · exact List.mem_append_left _ (List.mem_append_left _ (mem_expr cond node wants))
        · exact List.mem_append_left _ (List.mem_append_right _ (mem_expr yes node wants))
      · exact List.mem_append_right _ (mem_expr no node wants)

theorem mem_exprs : (xs : List Expr) → n ∈ Expr.nodesOf xs → e ∈ c.wanted n → e ∈ c.exprs xs
  | x :: xs, node, wants => by
    rw [exprs]
    rcases List.mem_append.mp node with node | node
    · exact List.mem_append_left _ (mem_expr x node wants)
    · exact List.mem_append_right _ (mem_exprs xs node wants)

end

theorem mem_exprIn {x : Option Expr} (node : n ∈ nodesIn Expr.nodes x) (wants : e ∈ c.wanted n) :
    e ∈ c.exprIn x := by
  cases x with
  | none => cases node
  | some x => exact mem_expr x node wants

theorem mem_variable {d : VarDecl} (node : n ∈ d.nodes) (wants : e ∈ c.wanted n) :
    e ∈ c.declared d ++ c.exprIn d.value := by
  rcases List.mem_cons.mp node with rfl | node
  · exact List.mem_append_left _ wants
  rcases List.mem_append.mp node with node | node
  · cases written : d.type with
    | none =>
      rw [written] at node
      cases node
    | some t =>
      rw [written] at node
      rw [declared, written]
      exact List.mem_append_left _ (List.mem_append_right _ (mem_typeExpr t node wants))
  · exact List.mem_append_right _ (mem_exprIn node wants)

theorem mem_enumeration {d : EnumDecl} (node : n ∈ d.nodes) (wants : e ∈ c.wanted n) :
    e ∈ c.enumUses d := by
  rcases List.mem_cons.mp node with rfl | node
  · cases wants
  obtain ⟨m, member, node⟩ := List.mem_flatMap.mp node
  exact List.mem_flatMap.mpr ⟨m, member, mem_exprIn node wants⟩

mutual

theorem mem_stmt : (s : Stmt) → n ∈ s.nodes → e ∈ c.wanted n → e ∈ c.stmt s
  | .block b, node, wants => by
    rw [stmt]
    exact mem_block b node wants
  | .expr span x, node, wants => by
    rcases List.mem_cons.mp node with rfl | node
    · cases wants
    · exact mem_expr x node wants
  | .decl span d, node, wants => by
    rcases List.mem_cons.mp node with rfl | node
    · cases wants
    · exact mem_variable node wants
  | .branch _ _ cond yes no, node, wants => by
    rw [Stmt.nodes.eq_def] at node
    rcases List.mem_cons.mp node with rfl | node
    · cases wants
    rw [stmt.eq_def]
    rcases List.mem_append.mp node with node | node
    · rcases List.mem_append.mp node with node | node
      · exact List.mem_append_left _ (List.mem_append_left _ (mem_expr cond node wants))
      · exact List.mem_append_left _ (List.mem_append_right _ (mem_block yes node wants))
    · refine List.mem_append_right _ ?_
      cases no with
      | none => cases node
      | some s => exact mem_stmt s node wants
  | .loop _ _ cond body, node, wants => by
    rcases List.mem_cons.mp node with rfl | node
    · cases wants
    rw [stmt]
    rcases List.mem_append.mp node with node | node
    · exact List.mem_append_left _ (mem_exprIn node wants)
    · exact List.mem_append_right _ (mem_block body node wants)
  | .count _ _ _ low high step body, node, wants => by
    rcases List.mem_cons.mp node with rfl | node
    · cases wants
    rw [stmt]
    rcases List.mem_append.mp node with node | node
    · refine List.mem_append_left _ ?_
      rcases List.mem_append.mp node with node | node
      · refine List.mem_append_left _ ?_
        exact List.mem_append.mpr ((List.mem_append.mp node).imp
          (mem_expr low · wants) (mem_expr high · wants))
      · exact List.mem_append_right _ (mem_exprIn node wants)
    · exact List.mem_append_right _ (mem_block body node wants)
  | .each _ _ s items body, node, wants => by
    rcases List.mem_cons.mp node with rfl | node
    · cases wants
    rw [stmt]
    rcases List.mem_append.mp node with node | node
    · exact List.mem_append_left _ (List.mem_append_right _ (mem_expr items node wants))
    · exact List.mem_append_right _ (mem_block body node wants)
  | .ret _ value _ _ _, node, wants => by
    rcases List.mem_cons.mp node with rfl | node
    · cases wants
    · exact mem_exprIn node wants
  | .brk _ _, node, wants | .cont _ _, node, wants | .inject _ _, node, wants => by
    obtain rfl := List.mem_singleton.mp node
    cases wants

theorem mem_block : (b : Block) → n ∈ b.nodes → e ∈ c.wanted n → e ∈ c.block b
  | .mk _ ss _, node, wants => by
    rcases List.mem_cons.mp node with rfl | node
    · cases wants
    · exact mem_stmts ss node wants

theorem mem_stmts : (ss : List Stmt) → n ∈ Stmt.nodesOf ss → e ∈ c.wanted n → e ∈ c.stmts ss
  | s :: ss, node, wants => by
    rw [stmts]
    rcases List.mem_append.mp node with node | node
    · exact List.mem_append_left _ (mem_stmt s node wants)
    · exact List.mem_append_right _ (mem_stmts ss node wants)

end

theorem mem_function {f : FuncDecl} (node : n ∈ f.nodes) (wants : e ∈ c.wanted n) :
    e ∈ c.head true f ++ c.body f := by
  rcases List.mem_cons.mp node with rfl | node
  · cases wants
  rcases List.mem_append.mp node with node | node
  · refine List.mem_append_left _ ?_
    rcases List.mem_append.mp node with node | node
    · obtain ⟨p, param, node⟩ := List.mem_flatMap.mp node
      refine List.mem_append_left _ (List.mem_flatMap.mpr ⟨p, param, ?_⟩)
      rcases List.mem_append.mp node with node | node
      · exact List.mem_append_left _ (List.mem_append_right _ (mem_typeExpr p.type node wants))
      · exact List.mem_append_right _ (mem_exprIn node wants)
    · refine List.mem_append_right _ ?_
      cases written : f.result with
      | none =>
        rw [written] at node
        cases node
      | some t =>
        rw [written] at node
        exact mem_typeExpr t node wants
  · refine List.mem_append_right _ ?_
    rw [body]
    cases written : f.body with
    | none =>
      rw [written] at node
      cases node
    | some b =>
      rw [written] at node
      exact mem_block b node wants

end TastyLang.Include.Context

namespace TastyLang

/-! ### Headers of names -/

/-- A head of a dotted name: the name itself, or what stands in front of one of its dots. -/
def IsHead (head name : String) : Prop := head = name ∨ ∃ rest, name = head ++ "." ++ rest

namespace IsHead

variable {head name : String}

theorem toList_prefix (isHead : IsHead head name) : head.toList <+: name.toList := by
  rcases isHead with rfl | ⟨rest, rfl⟩
  · exact List.prefix_rfl
  · rw [String.append_assoc, String.toList_append]
    exact List.prefix_append _ _

theorem length_le (isHead : IsHead head name) : head.length ≤ name.length := by
  rw [← String.length_toList, ← String.length_toList]
  exact isHead.toList_prefix.length_le

theorem eq_of_length {other : String} (first : IsHead head name) (second : IsHead other name)
    (long : head.length = other.length) : head = other := by
  rw [← String.length_toList, ← String.length_toList] at long
  have inside := List.prefix_of_prefix_length_le first.toList_prefix second.toList_prefix long.le
  exact String.toList_injective (inside.eq_of_length long)

end IsHead

theorem isHead_of_no_dot {head name : String} (plain : '.' ∉ name.toList) :
    IsHead head name ↔ head = name := by
  refine ⟨fun isHead => isHead.elim (·) ?_, .inl⟩
  rintro ⟨rest, rfl⟩
  exact absurd (by simp) plain

theorem isHead_cut {head name : String} {front : List Char}
    (cut : Text.beforeLast? '.' name.toList = some front) :
    IsHead head name ↔ head = name ∨ IsHead head (String.ofList front) := by
  obtain ⟨tail, whole, last⟩ := Text.beforeLast?_some cut
  have name_eq : name = String.ofList front ++ "." ++ String.ofList tail :=
    String.toList_injective (by simp [whole])
  refine or_congr_right ⟨?_, ?_⟩
  · rintro ⟨rest, split⟩
    rw [split] at whole
    have chars : head.toList ++ '.' :: rest.toList = front ++ '.' :: tail := by simpa using whole
    rcases List.append_eq_append_iff.mp chars with ⟨mid, rfl, back⟩ | ⟨mid, long, back⟩
    · cases mid with
      | nil => exact .inl (String.toList_injective (by simp))
      | cons c mid =>
        obtain ⟨rfl, -⟩ := List.cons.inj back
        exact .inr ⟨String.ofList mid, String.toList_injective (by simp)⟩
    · cases mid with
      | nil => exact .inl (String.toList_injective (by simpa using long))
      | cons c mid =>
        obtain ⟨-, rfl⟩ := List.cons.inj back
        exact absurd (by simp) last
  · rintro (rfl | ⟨rest, split⟩)
    · exact ⟨_, name_eq⟩
    · refine ⟨rest ++ "." ++ String.ofList tail, ?_⟩
      rw [name_eq, split]
      simp only [String.append_assoc]

namespace Table

variable {t : Table} {name header : String}

/-- `head` is the longest of the heads of a name that a table lists a header for. -/
structure Leads (t : Table) (name head header : String) : Prop where
  isHead : IsHead head name
  listed : t.includes.lookup head = some header
  longest : ∀ longer, IsHead longer name → head.length < longer.length →
    t.includes.lookup longer = none

theorem Leads.length_le {head other header' : String} (leads : t.Leads name head header)
    (isHead : IsHead other name) (listed : t.includes.lookup other = some header') :
    other.length ≤ head.length := by
  by_contra shorter
  rw [leads.longest other isHead (Nat.lt_of_not_le shorter)] at listed
  cases listed

theorem Leads.header_eq {head head' header' : String} (first : t.Leads name head header)
    (second : t.Leads name head' header') : header = header' := by
  have long : head.length = head'.length :=
    Nat.le_antisymm (second.length_le first.isHead first.listed)
      (first.length_le second.isHead second.listed)
  have same : head = head' := first.isHead.eq_of_length second.isHead long
  have listed := second.listed
  rw [← same, first.listed] at listed
  exact Option.some.inj listed

theorem headerFor?_leads (t : Table) (name : String) :
    match t.headerFor? name with
    | some header => ∃ head, t.Leads name head header
    | none => ∀ head, IsHead head name → t.includes.lookup head = none := by
  fun_induction headerFor? t name with
  | case1 name header found =>
    refine ⟨name, .inl rfl, found, fun longer isHead more => ?_⟩
    exact absurd isHead.length_le (Nat.not_le_of_lt more)
  | case2 name absent plain =>
    intro head isHead
    rw [(isHead_of_no_dot (Text.beforeLast?_eq_none.mp plain)).mp isHead, absent]
  | case3 name absent front cut ih =>
    split at ih
    next header found =>
      obtain ⟨head, isHead, listed, longest⟩ := ih
      refine ⟨head, (isHead_cut cut).mpr (.inr isHead), listed, fun longer isHead more => ?_⟩
      rcases (isHead_cut cut).mp isHead with rfl | isHead
      · exact absent
      · exact longest longer isHead more
    next none =>
      intro head isHead
      rcases (isHead_cut cut).mp isHead with rfl | isHead
      · exact absent
      · exact ih head isHead

/-- The header that a name asks for is the one listed for the longest of its heads that a table
lists, and there is none just where no head is listed. -/
theorem headerFor?_longest (t : Table) (name : String) :
    (∀ header, t.headerFor? name = some header ↔ ∃ head, t.Leads name head header) ∧
      (t.headerFor? name = none ↔ ∀ head, IsHead head name → t.includes.lookup head = none) := by
  have found := headerFor?_leads t name
  cases result : t.headerFor? name with
  | none =>
    rw [result] at found
    refine ⟨fun header => ⟨nofun, ?_⟩, fun _ => found, fun _ => rfl⟩
    rintro ⟨head, leads⟩
    cases leads.listed.symm.trans (found head leads.isHead)
  | some header =>
    rw [result] at found
    obtain ⟨head, leads⟩ := found
    refine ⟨fun header' => ⟨?_, ?_⟩, nofun, fun none => ?_⟩
    · rintro ⟨⟩
      exact ⟨head, leads⟩
    · rintro ⟨head', leads'⟩
      exact congrArg some (leads.header_eq leads')
    · cases leads.listed.symm.trans (none head leads.isHead)

/-- Dots side by side leave a head that ends in a dot, and it counts before the shorter one. -/
example : Table.headerFor? ⟨[], [], [("", "empty"), ("a", "short"), ("a.", "long")], [], []⟩ "a..b" =
    some "long" := by decide +kernel

end Table

end TastyLang
