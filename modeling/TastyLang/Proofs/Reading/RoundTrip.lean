import TastyLang.Proofs.Evaluation
import TastyLang.Proofs.Reading.Climbing
import TastyLang.Proofs.Reading.Precedence
import TastyLang.Proofs.Token.Spacing

/-!
# Writing and reading again

A tree whose operands bind tightly enough, written with single spaces between its tokens, is read
back as the same tree, and every tree that is read is one of these (`read_inverts_writing`).
-/

namespace TastyLang

open Token (Form)

namespace Expr

def Spelt (e : Expr) : Prop := ∀ f ∈ e.forms, f.isToken = true

/-- What may stand behind any token. -/
def Follows (k : List Form) : Prop := ∀ last, Form.StandAll last k

theorem follows_cons {f : Form} {k : List Form} (token : f.isToken = true)
    (plain : f.kind ≠ .number) (rest : Form.StandAll f.kind k) : Follows (f :: k) :=
  fun _ => ⟨⟨token, fun _ number => absurd number plain⟩, rest⟩

/-- Words that are the same tokens behind any token but a dot. -/
def Lines (fs : List Form) : Prop :=
  (∀ f ∈ fs, f.isToken = true) → ∀ prev, prev ≠ .op .dot → ∀ k, Follows k →
    Form.StandAll prev (fs ++ k)

/-- Words that are the same tokens behind any token. -/
def Trails (fs : List Form) : Prop :=
  (∀ f ∈ fs, f.isToken = true) → ∀ k, Follows k → Follows (fs ++ k)

theorem Trails.lines {fs : List Form} (h : Trails fs) : Lines fs :=
  fun tokens prev _ k follows => h tokens k follows prev

theorem trails_nil : Trails [] := fun _ _ follows => follows

theorem lines_single (f : Form) : Lines [f] := fun tokens _ prev _ follows =>
  ⟨⟨tokens f List.mem_cons_self, fun dot => absurd dot prev⟩, follows _⟩

theorem trails_cons {f : Form} {fs : List Form} (number : f.kind ≠ .number)
    (dot : f.kind ≠ .op .dot) (rest : Lines fs) : Trails (f :: fs) := by
  intro tokens k follows
  obtain ⟨first, others⟩ := List.forall_mem_cons.mp tokens
  exact follows_cons first number (rest others _ dot k follows)

theorem trails_op {o : Operator} {fs : List Form} (dot : o ≠ .dot) (rest : Lines fs) :
    Trails (.op o :: fs) := trails_cons nofun (by simpa [Form.op] using dot) rest

theorem lines_append {fs gs : List Form} (left : Lines fs) (right : Trails gs) :
    Lines (fs ++ gs) := by
  intro tokens prev plain k follows
  obtain ⟨first, others⟩ := List.forall_mem_append.mp tokens
  rw [List.append_assoc]
  exact left first prev plain _ (right others k follows)

theorem trails_access {o : Operator} {f : Form}
    (h : f.kind = .number → ∀ d ∈ f.literal.toList, Text.isDigit d = true) :
    Trails [.op o, f] := by
  intro tokens k follows
  obtain ⟨first, others⟩ := List.forall_mem_cons.mp tokens
  exact follows_cons first nofun ⟨⟨others f List.mem_cons_self, fun _ => h⟩, follows _⟩

theorem ne_dot_of_joins {o : Operator} {l r : Int} (h : Dialect.source.Joins o l r) :
    o ≠ .dot := by
  rintro rfl
  obtain ⟨b, found, -⟩ := h
  cases found

mutual

theorem lines_forms : ∀ e : Expr, e.Written .source → e.Grouped .source → Lines e.forms
  | literal _ kind value, _, _ => lines_single _
  | ident _ _, _, _ | self _, _, _ => lines_single _
  | binary _ o l r, written, ⟨_, _, joins, left, right⟩ =>
    lines_append (lines_forms l written.1 left)
      (trails_op (ne_dot_of_joins joins) (lines_forms r written.2 right))
  | range _ l r, written, ⟨_, left, right⟩ =>
    lines_append (lines_forms l written.1 left) (trails_op (by decide) (lines_forms r written.2 right))
  | ternary _ c y n, written, ⟨_, cond, yes, no⟩ =>
    lines_append (lines_forms c written.1 cond) (trails_op (by decide)
      (lines_append (lines_forms y written.2.1 yes)
        (trails_op (by decide) (lines_forms n written.2.2 no))))
  | unary _ o x false, written, ⟨leading, _, grouped⟩ =>
    Trails.lines (trails_op (by rintro rfl; cases leading) (lines_forms x written grouped))
  | unary _ o x true, written, ⟨kind, _, grouped⟩ =>
    lines_append (lines_forms x written grouped)
      (trails_op (by rcases kind with rfl | rfl <;> nofun) trails_nil.lines)
  | delete _ x, written, ⟨_, grouped⟩ =>
    Trails.lines (trails_cons (by decide) (by decide) (lines_forms x written grouped))
  | call _ f args, written, ⟨_, grouped, all⟩ =>
    lines_append (lines_forms f written.1 grouped) (trails_op (by decide)
      (lines_append (lines_formsOf args written.2 all) (trails_op (by decide) trails_nil.lines)))
  | index _ x i, written, ⟨_, grouped, inner⟩ =>
    lines_append (lines_forms x written.1 grouped) (trails_op (by decide)
      (lines_append (lines_forms i written.2 inner) (trails_op (by decide) trails_nil.lines)))
  | member _ x name accessor, written, ⟨_, grouped⟩ =>
    lines_append (lines_forms x written grouped)
      (trails_access fun number => absurd number (Token.ofWord_ne name rfl nofun))
  | tupleIndex _ x i, written, ⟨_, grouped⟩ =>
    lines_append (lines_forms x written.2 grouped)
      (trails_access fun _ => Text.isDigit_toString i)
  | tuple _ elems, written, grouped => by
    refine Trails.lines (trails_op (by decide)
      (lines_append (lines_formsOf elems written.2 grouped) ?_))
    split
    · exact trails_op (by decide) (trails_op (by decide) trails_nil.lines).lines
    · exact trails_op (by decide) trails_nil.lines
  | paren _ x, written, grouped =>
    Trails.lines (trails_op (by decide) (lines_append (lines_forms x written grouped)
      (trails_op (by decide) trails_nil.lines)))
  | new _ _ _, written, _ | cast _ _ _ _, written, _ => nomatch written.1

theorem lines_formsOf : ∀ es : List Expr, WrittenAll .source es → GroupedAll .source es →
    Lines (formsOf es)
  | [], _, _ => trails_nil.lines
  | e :: es, written, grouped => by
    refine lines_append (lines_forms e written.1 grouped.1) ?_
    split
    · exact trails_nil
    · exact trails_op (by decide) (lines_formsOf es written.2 grouped.2)

end

theorem read_spaced {e : Expr} (spelt : e.Spelt) (written : e.Written .source)
    (grouped : e.Grouped .source) :
    ∃ e', Expr.read .default (Form.spaced e.forms) = .ok e' ∧ e'.bare = e.bare := by
  have stand := lines_forms e written grouped spelt .eof nofun [] fun _ => trivial
  rw [List.append_nil] at stand
  obtain ⟨tokens, stop⟩ := Token.scanFrom_spaced e.forms .eof .first stand
  refine Reader.run_gives (k := []) tokens stop fun n steps => ?_
  have regular := Dialect.source_regular
  have whole := Reader.expressionFrom_restores regular rfl n (Nat.lt_of_succ_lt steps)
    ⟨written, grouped⟩ (one_le_level regular grouped) (Dialect.stops_nil 1)
  rw [List.append_nil] at whole
  exact whole.bind fun x same => .discard (Reader.expect_gives rfl) (.pure same)

/-- Reading inverts writing: a tree that respects the levels of its operators is read back from its
words with single spaces in between, and every tree that is read respects them. -/
theorem read_inverts_writing :
    (∀ e : Expr, e.Spelt → e.Written .source → e.Grouped .source →
      ∃ e', Expr.read .default (Form.spaced e.forms) = .ok e' ∧ e'.bare = e.bare) ∧
    ∀ src e, Expr.read .default src = .ok e → e.Grouped .source :=
  ⟨fun _ spelt written grouped => read_spaced spelt written grouped, fun _ _ => read_grouped⟩

/-- An assignment inside of a ternary, operators on both sides of an operand, an index behind a dot,
and a chain to the left. -/
theorem read_inverts_writing_of_ternary :
    let minus := unary {} .minus (unary {} .increment (ident {} "i") true) false
    let cond := binary {} .less minus (literal {} .float "1.5e3")
    let yes := binary {} .assign (tupleIndex {} (self {}) 0) (literal {} .null "null")
    let no := call {} (member {} (tuple {} [ident {} "a"]) "new" .dot)
      [literal {} .string "\"x y\"", delete {} (ident {} "p")]
    (∃ e', Expr.read .default (Form.spaced (ternary {} cond yes no).forms) = .ok e' ∧
      e'.bare = ternary {} cond yes no) ∧
    ∃ e', Expr.read .default "a - b - c" = .ok e' ∧ e'.Grouped .source := by
  intro minus cond yes no
  refine ⟨read_inverts_writing.1 (ternary {} cond yes no) ?_ ?_ ?_, ?_⟩
  · unfold Spelt
    decide
  · simp only [minus, cond, yes, no, Written, WrittenAll]
    decide
  · simp only [minus, cond, yes, no, Grouped, GroupedAll]
    decide
  · have computed : (Expr.read .default "a - b - c").toOption.isSome = true := by
      rw [Expr.read, Reader.run_ofList]
      decide +kernel
    obtain ⟨e, found⟩ := Option.isSome_iff_exists.mp computed
    have done := toOption_eq_some found
    exact ⟨e, done, read_inverts_writing.2 _ _ done⟩

end Expr

end TastyLang
