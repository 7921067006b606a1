import TastyLang.Proofs.Reading.Grouping
import TastyLang.Proofs.Text.Characters
import TastyLang.Proofs.Token.Order

/-!
# Reading back a tree

What `Expr.forms` writes down is read back as the same tree. A loop over suffixes or over binary
operators starts with the leftmost operand and wraps it step by step, so what is shown about such a
loop is shown about the point where it holds the tree: `chain_gives` and `infix_gives` lead a loop
from the first token of a tree to there. All nested trees are left to a reader that `ReadsBelow`
says to work for trees with fewer tokens.
-/

namespace TastyLang

open Token (Form)

namespace Expr

/-! ### Trees by their levels -/

/-- A tree that can be written and read. -/
structure Legible (d : Dialect) (e : Expr) : Prop where
  written : e.Written d
  grouped : e.Grouped d

/-- What needs no operand. -/
def IsPrimary : Expr → Prop
  | literal _ _ _ | ident _ _ | self _ | tuple _ _ | paren _ _ => True
  | _ => False

/-- An operand with all that follows it. -/
inductive Chain (d : Dialect) : Expr → Prop where
  | primary {e} : e.IsPrimary → e.Legible d → Chain d e
  | call {s f args} : Chain d f → WrittenAll d args → GroupedAll d args → Chain d (call s f args)
  | index {s x i} : Chain d x → i.Legible d → Chain d (index s x i)
  | member {s x name accessor} : Chain d x → Chain d (member s x name accessor)
  | tupleIndex {s x i} : Chain d x → i < 0x8000000000000000 → Chain d (tupleIndex s x i)
  | trailing {s o x} : (o = .increment ∨ o = .decrement) → Chain d x → Chain d (unary s o x true)

/-- An operand with the operators in front of it. -/
inductive Led (d : Dialect) : Expr → Prop where
  | chain {e} : Chain d e → Led d e
  | leading {s o x} : Reader.isLeading o = true → Led d x → Led d (unary s o x false)
  | delete {s x} : Led d x → Led d (delete s x)
  | cast {s x type} : d.leadingCasts = true → IsWord type → Led d x → Led d (cast s x .plain type)
  | new {s type args} : d.leadingCasts = true → IsWord type → WrittenAll d args →
      GroupedAll d args → Led d (new s type args)

/-- Operands with binary operators between them. -/
inductive Joined (d : Dialect) : Expr → Prop where
  | led {e} : Led d e → Joined d e
  | binary {s o l r} : o ≠ .question → o ≠ .range → d.Joins o (l.level d) (r.level d) →
      l.Grouped d → Joined d l → r.Legible d → Joined d (binary s o l r)
  | range {s l r} : d.Joins .range (l.level d) (r.level d) → l.Grouped d → Joined d l →
      r.Legible d → Joined d (range s l r)
  | ternary {s c y n} : d.Joins .question (c.level d) (n.level d) → c.Grouped d → Joined d c →
      y.Legible d → n.Legible d → Joined d (ternary s c y n)

variable {d : Dialect} (regular : d.Regular)

include regular

theorem precedence_lt {o : Operator} {l r : Int} (h : d.Joins o l r) :
    d.precedence o < leadingLevel := by
  obtain ⟨b, found, -⟩ := h
  rw [d.precedence_eq found]
  exact (regular.bounds b (d.mem_of_binding? found)).2

theorem chain_of_level : ∀ {e : Expr}, e.Written d → e.Grouped d → trailingLevel ≤ e.level d →
    Chain d e
  | literal _ _ _, written, grouped, _ | ident _ _, written, grouped, _
  | self _, written, grouped, _ | tuple _ _, written, grouped, _
  | paren _ _, written, grouped, _ => .primary trivial ⟨written, grouped⟩
  | call _ _ _, written, grouped, _ =>
    .call (chain_of_level written.1 grouped.2.1 grouped.1) written.2 grouped.2.2
  | index _ _ _, written, grouped, _ =>
    .index (chain_of_level written.1 grouped.2.1 grouped.1) ⟨written.2, grouped.2.2⟩
  | member _ _ _ _, written, grouped, _ => .member (chain_of_level written grouped.2 grouped.1)
  | tupleIndex _ _ _, written, grouped, _ =>
    .tupleIndex (chain_of_level written.2 grouped.2 grouped.1) written.1
  | unary _ _ _ true, written, grouped, _ =>
    .trailing grouped.1 (chain_of_level written grouped.2.2 grouped.2.1)
  | new _ _ _, written, _, level | cast _ _ _ _, written, _, level => by
    rw [Expr.level, if_pos written.1] at level
    exact absurd level (by decide)
  | unary _ _ _ false, _, _, level | delete _ _, _, _, level => by
    rw [Expr.level] at level
    exact absurd level (by decide)
  | binary _ _ _ _, _, grouped, level => by
    have := precedence_lt regular grouped.2.2.1
    rw [Expr.level] at level
    exact absurd (Int.lt_of_lt_of_le this (by decide)) (Int.not_lt.mpr level)
  | range _ _ _, _, grouped, level | ternary _ _ _ _, _, grouped, level => by
    have := precedence_lt regular grouped.1
    rw [Expr.level] at level
    exact absurd (Int.lt_of_lt_of_le this (by decide)) (Int.not_lt.mpr level)

theorem led_of_level : ∀ {e : Expr}, e.Written d → e.Grouped d → leadingLevel ≤ e.level d →
    Led d e
  | unary _ _ _ false, written, grouped, _ =>
    .leading grouped.1 (led_of_level written grouped.2.2 grouped.2.1)
  | delete _ _, written, grouped, _ => .delete (led_of_level written grouped.2 grouped.1)
  | cast _ _ _ _, ⟨casts, plain, word, written⟩, ⟨level, grouped⟩, _ => by
    rw [castLevel, if_pos casts] at level
    subst plain
    exact .cast casts word (led_of_level written grouped level)
  | new _ _ _, ⟨casts, word, written⟩, grouped, _ => .new casts word written grouped
  | binary _ _ _ _, _, grouped, level => by
    rw [Expr.level] at level
    exact absurd (precedence_lt regular grouped.2.2.1) (Int.not_lt.mpr level)
  | range _ _ _, _, grouped, level | ternary _ _ _ _, _, grouped, level => by
    rw [Expr.level] at level
    exact absurd (precedence_lt regular grouped.1) (Int.not_lt.mpr level)
  | literal _ _ _, written, grouped, _ | ident _ _, written, grouped, _
  | self _, written, grouped, _ | tuple _ _, written, grouped, _
  | paren _ _, written, grouped, _ | call _ _ _, written, grouped, _
  | index _ _ _, written, grouped, _ | member _ _ _ _, written, grouped, _
  | tupleIndex _ _ _, written, grouped, _ | unary _ _ _ true, written, grouped, _ =>
    .chain (chain_of_level regular written grouped (by simp only [Expr.level]; decide))

theorem joined_of_legible : ∀ {e : Expr}, e.Written d → e.Grouped d → Joined d e
  | binary _ _ _ _, written, ⟨notTernary, notRange, joins, left, right⟩ =>
    .binary notTernary notRange joins left (joined_of_legible written.1 left) ⟨written.2, right⟩
  | range _ _ _, written, ⟨joins, left, right⟩ =>
    .range joins left (joined_of_legible written.1 left) ⟨written.2, right⟩
  | ternary _ _ _ _, written, ⟨joins, cond, yes, no⟩ =>
    .ternary joins cond (joined_of_legible written.1 cond) ⟨written.2.1, yes⟩ ⟨written.2.2, no⟩
  | unary _ _ _ _, written, grouped | delete _ _, written, grouped
  | cast _ _ _ _, written, grouped | new _ _ _, written, grouped
  | literal _ _ _, written, grouped | ident _ _, written, grouped
  | self _, written, grouped | tuple _ _, written, grouped
  | paren _ _, written, grouped | call _ _ _, written, grouped
  | index _ _ _, written, grouped | member _ _ _ _, written, grouped
  | tupleIndex _ _ _, written, grouped => by
    rcases level_cases grouped with ⟨o, b, operator, -⟩ | ⟨level, -⟩
    · cases operator
    · exact .led (led_of_level regular written grouped level)

/-! ### First tokens -/

end Expr

/-- Whether a token of this kind starts something that needs no operand. -/
def Token.Kind.opensPrimary : Token.Kind → Bool
  | .ident | .number | .string | .character | .op .openParen
  | .keyword .kTrue | .keyword .kFalse | .keyword .kNull | .keyword .kSelf => true
  | _ => false

/-- Whether a token of this kind starts an expression. -/
def Token.Kind.opens : Token.Kind → Bool
  | .op o => o == .openParen || Reader.isLeading o
  | .keyword .kDelete | .keyword .kNew => true
  | k => k.opensPrimary

theorem Token.Kind.opens_of_opensPrimary {k : Token.Kind} (h : k.opensPrimary = true) :
    k.opens = true := by
  cases k with
  | op o => cases o <;> first | rfl | cases h
  | keyword w => cases w <;> first | rfl | cases h
  | _ => first | rfl | cases h

namespace Expr

variable {d : Dialect}

attribute [local simp] forms formsOf

theorem Chain.first {e : Expr} (h : Chain d e) (k : List Form) :
    (Form.first (e.forms ++ k)).kind.opensPrimary = true := by
  induction h generalizing k with
  | @primary e primary legible =>
    cases e with
    | literal s kind value =>
      cases kind with
      | bool => by_cases yes : value = "true" <;> simp [forms, LiteralKind.form, yes] <;> rfl
      | _ => rfl
    | ident | self | tuple | paren => rfl
    | _ => exact primary.elim
  | call _ _ _ ih | index _ _ ih | member _ ih | tupleIndex _ _ ih | trailing _ _ ih =>
    rw [forms, List.append_assoc]
    exact ih _

theorem Led.first {e : Expr} (h : Led d e) (k : List Form) :
    (Form.first (e.forms ++ k)).kind.opens = true := by
  cases h with
  | chain chain => exact Token.Kind.opens_of_opensPrimary (chain.first k)
  | leading leading => simp [forms, Token.Kind.opens, Form.op, leading]
  | delete | cast | new => rfl

theorem Joined.first {e : Expr} (h : Joined d e) (k : List Form) :
    (Form.first (e.forms ++ k)).kind.opens = true := by
  induction h generalizing k with
  | led led => exact led.first k
  | binary _ _ _ _ _ _ ih | range _ _ _ _ ih | ternary _ _ _ _ _ ih =>
    rw [forms, List.append_assoc]
    exact ih _

theorem first_ne {k : Token.Kind} (h : k.opens = true) : k ≠ .op .closeParen ∧ k ≠ .eof := by
  constructor <;> rintro rfl <;> cases h

theorem forms_pos (e : Expr) : 0 < e.forms.length := by
  refine List.length_pos_iff.mpr ?_
  cases e with
  | unary s o x trailing => cases trailing <;> simp [forms]
  | _ => simp [forms]

theorem length_le_formsOf : ∀ es : List Expr, es.length ≤ (formsOf es).length
  | [] => Nat.le_refl _
  | [e] => by simpa [formsOf] using Nat.succ_le_of_lt e.forms_pos
  | e :: e' :: es => by
    have rest := length_le_formsOf (e' :: es)
    have first := e.forms_pos
    rw [formsOf]
    simp only [List.isEmpty_cons, Bool.false_eq_true, if_false, List.length_append,
      List.length_cons] at rest ⊢
    omega

end Expr

/-- The reader `expr` reads trees of fewer than `n` tokens back. -/
def Dialect.ReadsBelow (d : Dialect) (n : Nat) (expr : Int → Reader Expr) : Prop :=
  ∀ ⦃e : Expr⦄ ⦃least k⦄, e.forms.length < n → e.Legible d → least ≤ e.level d → d.Stops least k →
    Reader.Gives (expr least) (e.forms ++ k) (fun x => x.bare = e.bare) k

namespace Reader

open TastyLang.Expr (formsOf bareAll WrittenAll GroupedAll Legible)

variable {d : Dialect} (regular : d.Regular) {n : Nat} {expr : Int → Reader Expr}
  (reads : d.ReadsBelow n expr) {k : List Form}

include regular reads

theorem nested_gives {e : Expr} {closer : Operator} (small : e.forms.length < n)
    (legible : e.Legible d) (closes : closer ∈ [.closeParen, .closeBracket, .comma, .colon]) :
    Gives (expr 1) (e.forms ++ .op closer :: k) (fun x => x.bare = e.bare) (.op closer :: k) :=
  reads small legible (Expr.one_le_level regular legible.grouped) (regular.stops_closer closes)

theorem commaList_gives {opener : Token} : ∀ {es : List Expr} {m : Nat}, es.length < m →
    (formsOf es).length < n → WrittenAll d es → GroupedAll d es →
    Gives (commaList opener .closeParen (expr 1) m) (formsOf es ++ .op .closeParen :: k)
      (fun xs => bareAll xs = bareAll es) k
  | [], m + 1, _, _, _, _ => by
    refine gives_check ?_
    rw [if_pos (by rfl)]
    exact gives_close rfl (.pure rfl)
  | e :: es, m + 1, steps, small, written, grouped => by
    obtain ⟨notClose, notEnd⟩ := Expr.first_ne
      ((Expr.joined_of_legible regular written.1 grouped.1).first _)
    rw [formsOf, List.length_append] at small
    rw [formsOf, List.append_assoc]
    refine gives_check ?_
    rw [if_neg (by simpa using notClose)]
    refine gives_check ?_
    rw [if_neg (by simpa using notEnd)]
    cases es with
    | nil =>
      refine .bind (nested_gives regular reads (by omega) ⟨written.1, grouped.1⟩ (by decide))
        fun x same => ?_
      refine gives_skip (by simp [Form.op]) (gives_close rfl (.pure ?_))
      simp only [bareAll, same]
    | cons e' es =>
      simp only [List.isEmpty_cons, Bool.false_eq_true, if_false, List.cons_append,
        List.length_cons] at small steps ⊢
      refine .bind (nested_gives regular reads (by omega) ⟨written.1, grouped.1⟩ (by decide))
        fun x same => ?_
      refine gives_accept rfl ?_
      refine .bind (commaList_gives (by simp; omega) (by omega) written.2 grouped.2)
        fun xs same' => .pure ?_
      rw [bareAll, same, same', bareAll.eq_2 e]

theorem args_gives {es : List Expr} (small : (formsOf es).length < n) (written : WrittenAll d es)
    (grouped : GroupedAll d es) :
    Gives (args n (expr 1)) (.op .openParen :: (formsOf es ++ .op .closeParen :: k))
      (fun xs => bareAll xs = bareAll es) k := by
  have steps := Expr.length_le_formsOf es
  refine .bind (expect_gives rfl) fun opener _ => ?_
  exact commaList_gives regular reads (by omega) small written grouped

theorem moreElems_gives : ∀ {es : List Expr} {m : Nat}, es.length < m →
    (formsOf es).length < n → WrittenAll d es → GroupedAll d es →
    Gives (moreElems (expr 1) m) (.op .comma :: (formsOf es ++ .op .closeParen :: k))
      (fun xs => bareAll xs = bareAll es) (.op .closeParen :: k)
  | [], m + 1, _, _, _, _ => gives_accept rfl (gives_check (.pure rfl))
  | [e], m + 2, _, small, written, grouped => by
    obtain ⟨notClose, -⟩ := Expr.first_ne
      ((Expr.joined_of_legible regular written.1 grouped.1).first _)
    rw [formsOf, List.length_append] at small
    rw [formsOf, List.append_assoc]
    refine gives_accept rfl (gives_check ?_)
    rw [if_neg (by simpa using notClose)]
    refine .bind (nested_gives regular reads (by omega) ⟨written.1, grouped.1⟩ (by decide))
      fun x same => ?_
    refine .bind (q := fun xs => xs = []) (gives_skip (by simp [Form.op]) (.pure rfl))
      fun xs none => .pure ?_
    rw [none, bareAll, same]
    rfl
  | e :: e' :: es, m + 1, steps, small, written, grouped => by
    obtain ⟨notClose, -⟩ := Expr.first_ne
      ((Expr.joined_of_legible regular written.1 grouped.1).first _)
    rw [formsOf, List.length_append] at small
    rw [formsOf, List.append_assoc]
    refine gives_accept rfl (gives_check ?_)
    rw [if_neg (by simpa using notClose)]
    simp only [List.isEmpty_cons, Bool.false_eq_true, if_false, List.cons_append,
      List.length_cons] at small steps ⊢
    refine .bind (nested_gives regular reads (by omega) ⟨written.1, grouped.1⟩ (by decide))
      fun x same => ?_
    refine .bind (moreElems_gives (by simpa using steps) (by omega) written.2 grouped.2)
      fun xs same' => .pure ?_
    rw [bareAll, same, same', bareAll.eq_2 e]

omit regular reads in
theorem tuple_forms (s : Span) (e : Expr) (es : List Expr) :
    (Expr.tuple s (e :: es)).forms =
      .op .openParen :: (e.forms ++ .op .comma :: (formsOf es ++ [.op .closeParen])) := by
  cases es <;> simp [Expr.forms, formsOf]

omit regular reads in
theorem literalOf_gives {f : Form} {p : Pos} {kind : LiteralKind} :
    Gives (literalOf ⟨f.kind, f.literal, p⟩ kind) (f :: k)
      (fun x => x.bare = .literal {} kind f.literal) k :=
  gives_advance (gives_spanFrom fun _ => .pure rfl)

theorem primary_gives {e : Expr} (leaf : e.IsPrimary) (legible : e.Legible d)
    (small : e.forms.length ≤ n) :
    Gives (primary n (expr 1)) (e.forms ++ k) (fun x => x.bare = e.bare) k := by
  obtain ⟨written, grouped⟩ := legible
  refine gives_current fun p => ?_
  cases e with
  | literal s kind value =>
    cases kind with
    | int =>
      have int : isFloatNumeral value = false := written
      simp only [Expr.forms, LiteralKind.form, List.singleton_append, Form.first_cons, int]
      exact literalOf_gives
    | float =>
      have float : isFloatNumeral value = true := written
      simp only [Expr.forms, LiteralKind.form, List.singleton_append, Form.first_cons, float]
      exact literalOf_gives
    | string => exact literalOf_gives
    | char => exact literalOf_gives
    | bool =>
      simp only [Expr.forms, LiteralKind.form, List.singleton_append, Form.first_cons]
      by_cases yes : value = "true"
      · rw [if_pos yes]
        exact literalOf_gives
      · rw [if_neg yes]
        exact literalOf_gives
    | null => exact literalOf_gives
  | ident s name => exact gives_advance (gives_spanFrom fun _ => .pure rfl)
  | self s => exact gives_advance (gives_spanFrom fun _ => .pure rfl)
  | paren s x =>
    simp only [Expr.forms, List.cons_append, List.append_assoc, List.nil_append,
      List.length_cons, List.length_append] at small ⊢
    refine gives_advance ?_
    refine .bind (nested_gives regular reads (by omega) ⟨written, grouped⟩ (by decide))
      fun x' same => gives_check ?_
    refine gives_close rfl (gives_spanFrom fun _ => .pure ?_)
    rw [Expr.bare, Expr.bare, same]
  | tuple s elems =>
    obtain ⟨some, written⟩ := written
    cases elems with
    | nil => exact absurd rfl some
    | cons e es =>
      have steps := Expr.length_le_formsOf es
      simp only [tuple_forms, List.cons_append, List.append_assoc, List.nil_append,
        List.length_cons, List.length_append] at small ⊢
      refine gives_advance ?_
      refine .bind (nested_gives regular reads (by omega) ⟨written.1, grouped.1⟩ (by decide))
        fun x same => gives_check ?_
      rw [if_pos (by rfl)]
      refine .bind (moreElems_gives regular reads (by omega) (by omega) written.2 grouped.2)
        fun xs same' => ?_
      refine gives_close rfl (gives_spanFrom fun _ => .pure ?_)
      rw [Expr.bare, bareAll, same, same', Expr.bare, bareAll.eq_2 e]
  | _ => exact leaf.elim

/-! ### What follows an operand -/

omit regular reads in
theorem memberName_gives {name : String} :
    Gives memberName (⟨.ofWord name, name⟩ :: k) (fun s => s = name) k := by
  refine gives_current fun p => ?_
  rcases Token.ofWord_cases name with word | word
  · rw [if_pos (by exact word)]
    exact gives_advance (.pure rfl)
  · rw [if_neg (by simp [word, Token.Kind.isReserved])]
    exact name_gives word

/-- What a suffix makes of the operand in front of it. -/
def Adds (r : Reader (Option Expr)) (fs : List Form) (e : Expr) (k : List Form) : Prop :=
  Gives r fs (fun found => ∃ y, found = some y ∧ y.bare = e) k

variable {x : Expr}

theorem call_adds {es : List Expr} (small : (formsOf es).length < n) (written : WrittenAll d es)
    (grouped : GroupedAll d es) :
    Adds (suffix? n (expr 1) x) (.op .openParen :: (formsOf es ++ .op .closeParen :: k))
      (.call {} x.bare (bareAll es)) k := by
  refine gives_current fun p => ?_
  refine .bind (args_gives regular reads small written grouped) fun xs same => ?_
  refine gives_spanFrom fun _ => .pure ⟨_, rfl, ?_⟩
  rw [Expr.bare, same]

theorem index_adds {i : Expr} (small : i.forms.length < n) (legible : i.Legible d) :
    Adds (suffix? n (expr 1) x) (.op .openBracket :: (i.forms ++ .op .closeBracket :: k))
      (.index {} x.bare i.bare) k := by
  refine gives_current fun p => gives_advance ?_
  refine .bind (nested_gives regular reads small legible (by decide)) fun i' same => ?_
  refine gives_close rfl (gives_spanFrom fun _ => .pure ⟨_, rfl, ?_⟩)
  rw [Expr.bare, same]

omit regular reads in
theorem tupleIndex_adds {i : Nat} (small : i < 0x8000000000000000) :
    Adds (suffix? n (expr 1) x) (.op .dot :: ⟨.number, toString i⟩ :: k)
      (.tupleIndex {} x.bare i) k := by
  refine gives_current fun p => gives_advance (.map ?_)
  refine gives_current fun q => ?_
  rw [if_pos (by rfl)]
  have value : ((Text.integer? (toString i)).bind fun j => j.toNat?) = some i := by
    rw [Text.integer?_toString small]
    rfl
  simp only [List.tail_cons, Form.first_cons, value]
  exact gives_advance (gives_spanFrom fun _ => .pure ⟨_, rfl, rfl⟩)

omit regular reads in
theorem member_adds {name : String} {accessor : Accessor} :
    Adds (suffix? n (expr 1) x) (.op accessor.operator :: ⟨.ofWord name, name⟩ :: k)
      (.member {} x.bare name accessor) k := by
  refine gives_current fun p => ?_
  cases accessor with
  | dot =>
    refine gives_advance (.map (gives_current fun q => ?_))
    rw [if_neg ?_]
    · refine gives_spanFrom fun _ => .bind memberName_gives fun s same => .pure ⟨_, rfl, ?_⟩
      rw [Expr.bare, same]
    · intro number
      have number : Token.Kind.ofWord name = .number := eq_of_beq number
      exact Token.ofWord_ne (k := .number) name rfl nofun number
  | arrow =>
    refine .map (gives_advance (gives_spanFrom fun _ => ?_))
    refine .bind memberName_gives fun s same => .pure ⟨_, rfl, ?_⟩
    rw [Expr.bare, same]
  | scope =>
    refine .map (gives_advance (gives_spanFrom fun _ => ?_))
    refine .bind memberName_gives fun s same => .pure ⟨_, rfl, ?_⟩
    rw [Expr.bare, same]

omit regular reads in
theorem trailing_adds {o : Operator} (h : o = .increment ∨ o = .decrement) :
    Adds (suffix? n (expr 1) x) (.op o :: k) (.unary {} o x.bare true) k := by
  refine gives_current fun p => ?_
  rcases h with rfl | rfl
  · exact gives_advance (gives_spanFrom fun _ => .pure ⟨_, rfl, rfl⟩)
  · exact gives_advance (gives_spanFrom fun _ => .pure ⟨_, rfl, rfl⟩)

/-- How many things follow the operand of a tree. -/
def suffixes : Expr → Nat
  | .call _ x _ | .index _ x _ | .member _ x _ _ | .tupleIndex _ x _ | .unary _ _ x true =>
    suffixes x + 1
  | _ => 0

/-- The loop over suffixes, from the first token of a tree to the point where it holds the tree. -/
theorem chain_gives {e : Expr} (chain : e.Chain d) (small : e.forms.length ≤ n) {m : Nat}
    {k' : List Form} {good : Expr → Prop}
    (next : ∀ y, y.bare = e.bare → Gives (iterate (suffix? n (expr 1)) m y) k good k') :
    Gives (primary n (expr 1) >>= iterate (suffix? n (expr 1)) (m + suffixes e))
      (e.forms ++ k) good k' := by
  induction chain generalizing m k with
  | @primary e leaf legible =>
    have none : suffixes e = 0 := by cases e <;> first | rfl | exact leaf.elim
    rw [none]
    exact (primary_gives regular reads leaf legible small).bind next
  | call _ written grouped ih =>
    simp only [Expr.forms, List.append_assoc, List.cons_append, List.nil_append,
      List.length_append, List.length_cons] at small ⊢
    rw [suffixes, ← Nat.add_assoc, Nat.add_right_comm]
    refine ih (by omega) fun y same => ?_
    refine gives_iterate (call_adds regular reads (by omega) written grouped) fun z made => ?_
    exact next z (by rw [made, same, Expr.bare])
  | index _ legible ih =>
    simp only [Expr.forms, List.append_assoc, List.cons_append, List.nil_append,
      List.length_append, List.length_cons] at small ⊢
    rw [suffixes, ← Nat.add_assoc, Nat.add_right_comm]
    refine ih (by omega) fun y same => ?_
    refine gives_iterate (index_adds regular reads (by omega) legible) fun z made => ?_
    exact next z (by rw [made, same, Expr.bare])
  | member _ ih =>
    simp only [Expr.forms, List.append_assoc, List.cons_append, List.nil_append,
      List.length_append, List.length_cons] at small ⊢
    rw [suffixes, ← Nat.add_assoc, Nat.add_right_comm]
    refine ih (by omega) fun y same => ?_
    refine gives_iterate member_adds fun z made => ?_
    exact next z (by rw [made, same, Expr.bare])
  | tupleIndex _ fits ih =>
    simp only [Expr.forms, List.append_assoc, List.cons_append, List.nil_append,
      List.length_append, List.length_cons] at small ⊢
    rw [suffixes, ← Nat.add_assoc, Nat.add_right_comm]
    refine ih (by omega) fun y same => ?_
    refine gives_iterate (tupleIndex_adds fits) fun z made => ?_
    exact next z (by rw [made, same, Expr.bare])
  | trailing kind _ ih =>
    simp only [Expr.forms, List.append_assoc, List.cons_append, List.nil_append,
      List.length_append, List.length_cons] at small ⊢
    rw [suffixes, ← Nat.add_assoc, Nat.add_right_comm]
    refine ih (by omega) fun y same => ?_
    refine gives_iterate (trailing_adds kind) fun z made => ?_
    exact next z (by rw [made, same, Expr.bare])

omit regular reads in
theorem suffix?_gives_none (x : Expr) (stops : (Form.first k).kind.startsSuffix = false) :
    Gives (suffix? n (expr 1) x) k (fun found => found = none) k := by
  refine gives_current fun p => ?_
  dsimp only
  generalize (Form.first k).kind = kind at stops ⊢
  split
  all_goals first | cases stops | exact .pure rfl

omit regular reads in
theorem suffixes_lt (e : Expr) : suffixes e < e.forms.length := by
  fun_induction suffixes e with
  | case6 e => exact e.forms_pos
  | _ => simp only [Expr.forms, List.length_append, List.length_cons]; omega

theorem chained_gives {e : Expr} (chain : e.Chain d) (small : e.forms.length ≤ n)
    (stops : (Form.first k).kind.startsSuffix = false) :
    Gives (primary n (expr 1) >>= iterate (suffix? n (expr 1)) n) (e.forms ++ k)
      (fun x => x.bare = e.bare) k := by
  have steps := suffixes_lt e
  obtain ⟨m, rfl⟩ : ∃ m, n = m + 1 + suffixes e := ⟨n - 1 - suffixes e, by omega⟩
  exact chain_gives regular reads chain small fun y same =>
    gives_iterate_stop (suffix?_gives_none y stops) same

/-! ### What stands in front of an operand -/

omit regular reads in
theorem isLeading_of_opensPrimary {o : Operator} (h : (Token.Kind.op o).opensPrimary = true) :
    isLeading o = false := by
  cases o <;> first | rfl | cases h

theorem operand_gives {e : Expr} (led : e.Led d) (plain : d.leadingCasts = false)
    (small : e.forms.length ≤ n) (stops : (Form.first k).kind.startsSuffix = false) {m : Nat}
    (steps : e.forms.length ≤ m) :
    Gives (operand n (expr 1) m) (e.forms ++ k) (fun x => x.bare = e.bare) k := by
  induction led generalizing m with
  | @chain e chain =>
    obtain ⟨m, rfl⟩ : ∃ j, m = j + 1 := ⟨m - 1, by have := e.forms_pos; omega⟩
    have first := chain.first k
    have chained := chained_gives regular reads chain small stops
    refine gives_current fun p => ?_
    dsimp only
    generalize (Form.first (e.forms ++ k)).kind = kind at first ⊢
    split
    · next o =>
      rw [if_neg (by simp [isLeading_of_opensPrimary first])]
      exact chained
    · cases first
    · exact chained
  | @leading s o x kind _ ih =>
    rw [Expr.forms, List.length_cons] at small steps
    obtain ⟨m, rfl⟩ : ∃ j, m = j + 1 := ⟨m - 1, by omega⟩
    refine gives_current fun p => ?_
    rw [Expr.forms]
    dsimp only [Form.op, List.cons_append, Form.first_cons]
    rw [if_pos kind]
    refine gives_advance (.bind (ih (by omega) (by omega)) fun y same => ?_)
    refine gives_spanFrom fun _ => .pure ?_
    rw [Expr.bare, same, Expr.bare]
  | @delete s x _ ih =>
    rw [Expr.forms, List.length_cons] at small steps
    obtain ⟨m, rfl⟩ : ∃ j, m = j + 1 := ⟨m - 1, by omega⟩
    refine gives_current fun p => gives_advance ?_
    refine .bind (ih (by omega) (by omega)) fun y same => gives_spanFrom fun _ => .pure ?_
    rw [Expr.bare, same, Expr.bare]
  | cast casts => simp [plain] at casts
  | new casts => simp [plain] at casts

/-! ### Binary operators -/

omit regular reads in
theorem infix?_gives_none {start : Pos} {least : Int} (x : Expr) (stops : d.Stops least k) :
    Gives (infix? d.table expr start least x) k (fun found => found = none) k := by
  refine gives_current fun p => ?_
  cases found : bindingOf? d.table ⟨(Form.first k).kind, (Form.first k).literal, p⟩ with
  | none => exact .pure rfl
  | some r =>
    obtain ⟨o, b⟩ := r
    obtain ⟨kind, found⟩ := d.bindingOf?_eq_some.mp found
    dsimp only
    rw [if_pos (stops.binary o b kind found)]
    exact .pure rfl

section

variable {o : Operator} {b : Binding} {start : Pos} {least : Int} {r : Expr}

omit regular reads in
theorem bindingOf?_op (found : d.binding? o = some b) (p : Pos) :
    bindingOf? d.table ⟨(Form.op o).kind, (Form.op o).literal, p⟩ = some (o, b) :=
  d.bindingOf?_eq_some.mpr ⟨rfl, found⟩

omit regular in
theorem binary_adds (found : d.binding? o = some b) (le : least ≤ b.precedence)
    (notTernary : o ≠ .question) (notRange : o ≠ .range) (small : r.forms.length < n)
    (legible : r.Legible d) (tight : b.operandPrecedence ≤ r.level d)
    (stops : d.Stops b.operandPrecedence k) :
    Adds (infix? d.table expr start least x) (.op o :: (r.forms ++ k))
      (.binary {} o x.bare r.bare) k := by
  refine gives_current fun p => ?_
  rw [Form.first_cons, bindingOf?_op found]
  dsimp only
  rw [if_neg (Int.not_lt.mpr le)]
  refine gives_advance ?_
  split
  · exact absurd rfl notTernary
  · exact absurd rfl notRange
  · refine .bind (reads small legible tight stops) fun y same => ?_
    refine gives_spanFrom fun _ => .pure ⟨_, rfl, ?_⟩
    rw [Expr.bare, same]

omit regular in
theorem range_adds (found : d.binding? .range = some b) (le : least ≤ b.precedence)
    (small : r.forms.length < n) (legible : r.Legible d)
    (tight : b.operandPrecedence ≤ r.level d) (stops : d.Stops b.operandPrecedence k) :
    Adds (infix? d.table expr start least x) (.op .range :: (r.forms ++ k))
      (.range {} x.bare r.bare) k := by
  refine gives_current fun p => ?_
  rw [Form.first_cons, bindingOf?_op found]
  dsimp only
  rw [if_neg (Int.not_lt.mpr le)]
  refine gives_advance (.bind (reads small legible tight stops) fun y same => ?_)
  refine gives_spanFrom fun _ => .pure ⟨_, rfl, ?_⟩
  rw [Expr.bare, same]

theorem ternary_adds {y : Expr} (found : d.binding? .question = some b)
    (le : least ≤ b.precedence) (small : y.forms.length < n) (legible : y.Legible d)
    (small' : r.forms.length < n) (legible' : r.Legible d)
    (tight : b.operandPrecedence ≤ r.level d) (stops : d.Stops b.operandPrecedence k) :
    Adds (infix? d.table expr start least x)
      (.op .question :: (y.forms ++ .op .colon :: (r.forms ++ k)))
      (.ternary {} x.bare y.bare r.bare) k := by
  refine gives_current fun p => ?_
  rw [Form.first_cons, bindingOf?_op found]
  dsimp only
  rw [if_neg (Int.not_lt.mpr le)]
  refine gives_advance ?_
  refine .bind (nested_gives regular reads small legible (by decide)) fun y' same => ?_
  refine .discard (expect_gives rfl) ?_
  refine .bind (reads small' legible' tight stops) fun r' same' => ?_
  refine gives_spanFrom fun _ => .pure ⟨_, rfl, ?_⟩
  rw [Expr.bare, same, same']

end

/-- How many binary operators stand at the left edge of a tree. -/
def leftOperators : Expr → Nat
  | .binary _ _ l _ | .range _ l _ | .ternary _ l _ _ => leftOperators l + 1
  | _ => 0

variable {operand : Reader Expr}
  (operands : ∀ {e : Expr} {k : List Form}, e.Led d → e.forms.length ≤ n →
    (Form.first k).kind.startsSuffix = false →
    Gives operand (e.forms ++ k) (fun x => x.bare = e.bare) k)

include operands

/-- The loop over binary operators, from the first token of a tree to the point where it holds the
tree. -/
theorem infix_gives {e : Expr} (joined : e.Joined d) (grouped : e.Grouped d)
    (small : e.forms.length ≤ n) {start : Pos} {least : Int} (le : least ≤ e.level d)
    (stops : d.Stops (e.reach d) k) {m : Nat} {k' : List Form} {good : Expr → Prop}
    (next : ∀ y, y.bare = e.bare →
      Gives (iterate (infix? d.table expr start least) m y) k good k') :
    Gives (operand >>= iterate (infix? d.table expr start least) (m + leftOperators e))
      (e.forms ++ k) good k' := by
  induction joined generalizing m k with
  | @led e led =>
    have none : leftOperators e = 0 := by
      cases led with
      | chain chain =>
        cases chain with
        | @primary e leaf => cases e <;> first | rfl | exact leaf.elim
        | _ => rfl
      | _ => rfl
    rw [none]
    exact (operands led small stops.suffix).bind next
  | binary notTernary notRange joins left _ legible ih =>
    obtain ⟨b, found, leftTight, tight⟩ := joins
    have lower := b.precedence_le.1
    rw [Expr.level, d.precedence_eq found] at le
    rw [Expr.reach, Expr.operator?, Option.elim_some, d.operandPrecedence_eq found] at stops
    simp only [Expr.forms, List.append_assoc, List.cons_append, List.length_append,
      List.length_cons] at small ⊢
    rw [leftOperators, ← Nat.add_assoc, Nat.add_right_comm]
    refine ih left (by omega) (by omega)
      (Expr.stops_operator regular left found leftTight _) fun y same => ?_
    refine gives_iterate (binary_adds reads found le notTernary notRange (by omega) legible tight
      stops) fun z made => next z (by rw [made, same, Expr.bare])
  | range joins left _ legible ih =>
    obtain ⟨b, found, leftTight, tight⟩ := joins
    have lower := b.precedence_le.1
    rw [Expr.level, d.precedence_eq found] at le
    rw [Expr.reach, Expr.operator?, Option.elim_some, d.operandPrecedence_eq found] at stops
    simp only [Expr.forms, List.append_assoc, List.cons_append, List.length_append,
      List.length_cons] at small ⊢
    rw [leftOperators, ← Nat.add_assoc, Nat.add_right_comm]
    refine ih left (by omega) (by omega)
      (Expr.stops_operator regular left found leftTight _) fun y same => ?_
    refine gives_iterate (range_adds reads found le (by omega) legible tight stops)
      fun z made => next z (by rw [made, same, Expr.bare])
  | ternary joins cond _ yes no ih =>
    obtain ⟨b, found, leftTight, tight⟩ := joins
    have lower := b.precedence_le.1
    rw [Expr.level, d.precedence_eq found] at le
    rw [Expr.reach, Expr.operator?, Option.elim_some, d.operandPrecedence_eq found] at stops
    simp only [Expr.forms, List.append_assoc, List.cons_append, List.length_append,
      List.length_cons] at small ⊢
    rw [leftOperators, ← Nat.add_assoc, Nat.add_right_comm]
    refine ih cond (by omega) (by omega)
      (Expr.stops_operator regular cond found leftTight _) fun y same => ?_
    refine gives_iterate (ternary_adds regular reads found le (by omega) yes (by omega) no tight
      stops) fun z made => next z (by rw [made, same, Expr.bare])

omit regular reads operands in
theorem leftOperators_lt (e : Expr) : leftOperators e < e.forms.length := by
  fun_induction leftOperators e with
  | case4 e => exact e.forms_pos
  | _ => simp only [Expr.forms, List.length_append, List.length_cons]; omega

theorem climb_gives {e : Expr} (legible : e.Legible d) (small : e.forms.length ≤ n) {start : Pos}
    {least : Int} (le : least ≤ e.level d) (stops : d.Stops least k) :
    Gives (operand >>= iterate (infix? d.table expr start least) n) (e.forms ++ k)
      (fun x => x.bare = e.bare) k := by
  have steps := leftOperators_lt e
  obtain ⟨m, rfl⟩ : ∃ m, n = m + 1 + leftOperators e := ⟨n - 1 - leftOperators e, by omega⟩
  exact infix_gives regular reads operands
    (Expr.joined_of_legible regular legible.written legible.grouped) legible.grouped small le
    (Expr.stops_reach regular legible.grouped le stops) fun y same =>
      gives_iterate_stop (infix?_gives_none y stops) same

omit operands reads in
theorem expressionFrom_restores (plain : d.leadingCasts = false) (n : Nat) :
    d.ReadsBelow n (expressionFrom d.table n) := by
  induction n with
  | zero => exact fun e least k small => absurd small (Nat.not_lt_zero _)
  | succ n ih =>
    intro e least k small legible le stops
    refine gives_pos fun start => ?_
    have small := Nat.le_of_lt_succ small
    refine climb_gives regular ih (fun led small stops => ?_) legible small le stops
    exact operand_gives regular ih led plain small stops small

end Reader

end TastyLang
