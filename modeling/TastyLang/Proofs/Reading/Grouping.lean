import TastyLang.Builtin.Basic
import TastyLang.Proofs.Reading.Forms
import TastyLang.Reading.Expressions

/-!
# How operators group

`Expr.forms` writes a tree down as tokens. They can only be read back as the same tree if each
operand binds tightly enough for its place: `Expr.Grouped` asks for that. How tightly an operator
binds is a matter of the dialect. The source language takes it from the built-in table, and what
follows an operand binds tighter than what stands in front of it. In other dialects a cast and a
`new` stand in front, like the leading operators.
-/

namespace TastyLang

open Token (Form)

/-! ### Dialects -/

/-- How tightly the left operand of a binary operator has to bind. -/
def Binding.leftPrecedence (b : Binding) : Int :=
  if b.right then b.precedence + 1 else b.precedence

theorem Binding.precedence_le (b : Binding) :
    b.precedence ≤ b.leftPrecedence ∧ b.precedence ≤ b.operandPrecedence := by
  unfold leftPrecedence operandPrecedence
  split <;> omega

/-- A language of expressions: its binary operators, and whether a cast and a `new` bind like
leading operators. -/
structure Dialect where
  table : Table
  leadingCasts : Bool

/-- The language of source texts without overlays. -/
def Dialect.source : Dialect := ⟨.default, false⟩

namespace Dialect

variable (d : Dialect)

def binding? (o : Operator) : Option Binding := d.table.binding? o.symbol

def precedence (o : Operator) : Int := (d.binding? o).elim 0 (·.precedence)

/-- How tightly the right operand of a binary operator has to bind. -/
def operandPrecedence (o : Operator) : Int := (d.binding? o).elim 0 (·.operandPrecedence)

/-- Whether operands of the levels `left` and `right` bind tightly enough for a binary operator. -/
def Joins (o : Operator) (left right : Int) : Prop :=
  ∃ b, d.binding? o = some b ∧ b.leftPrecedence ≤ left ∧ b.operandPrecedence ≤ right

instance (o : Operator) (left right : Int) : Decidable (d.Joins o left right) :=
  match h : d.binding? o with
  | none => .isFalse fun ⟨_, found, _⟩ => nomatch h.symm.trans found
  | some b => decidable_of_iff (b.leftPrecedence ≤ left ∧ b.operandPrecedence ≤ right)
      ⟨fun tight => ⟨b, h, tight⟩, fun ⟨_, found, tight⟩ => by
        cases h.symm.trans found
        exact tight⟩

end Dialect

namespace Expr

/-! ### Levels -/

/-- The level of leading operators. All binary operators bind less tightly. -/
abbrev leadingLevel : Int := 14

/-- The level of what follows an operand. -/
abbrev trailingLevel : Int := 15

/-- The level of what has no operand at an end. -/
abbrev primaryLevel : Int := 16

section

variable (d : Dialect)

/-- How tightly a tree binds. -/
def level : Expr → Int
  | binary _ o _ _ => d.precedence o
  | range _ _ _ => d.precedence .range
  | ternary _ _ _ _ => d.precedence .question
  | unary _ _ _ false | delete _ _ => leadingLevel
  | cast _ _ _ _ => if d.leadingCasts then leadingLevel else trailingLevel
  | new _ _ _ => if d.leadingCasts then leadingLevel else primaryLevel
  | unary _ _ _ true | call _ _ _ | member _ _ _ _ | index _ _ _ | tupleIndex _ _ _ => trailingLevel
  | literal _ _ _ | ident _ _ | self _ | tuple _ _ | paren _ _ => primaryLevel

/-- How tightly a cast binds its operand. -/
def castLevel : Int := if d.leadingCasts then leadingLevel else trailingLevel

mutual

/-- Every operand binds tightly enough for its place. -/
def Grouped : Expr → Prop
  | literal _ _ _ | ident _ _ | self _ => True
  | binary _ o l r => o ≠ .question ∧ o ≠ .range ∧ d.Joins o (l.level d) (r.level d) ∧
      l.Grouped ∧ r.Grouped
  | range _ l r => d.Joins .range (l.level d) (r.level d) ∧ l.Grouped ∧ r.Grouped
  | ternary _ c y n => d.Joins .question (c.level d) (n.level d) ∧
      c.Grouped ∧ y.Grouped ∧ n.Grouped
  | unary _ o x false => Reader.isLeading o = true ∧ leadingLevel ≤ x.level d ∧ x.Grouped
  | unary _ o x true => (o = .increment ∨ o = .decrement) ∧ trailingLevel ≤ x.level d ∧ x.Grouped
  | delete _ x => leadingLevel ≤ x.level d ∧ x.Grouped
  | cast _ x _ _ => castLevel d ≤ x.level d ∧ x.Grouped
  | call _ f args => trailingLevel ≤ f.level d ∧ f.Grouped ∧ GroupedAll args
  | member _ x _ _ | tupleIndex _ x _ => trailingLevel ≤ x.level d ∧ x.Grouped
  | index _ x i => trailingLevel ≤ x.level d ∧ x.Grouped ∧ i.Grouped
  | new _ _ args => GroupedAll args
  | tuple _ elems => GroupedAll elems
  | paren _ x => x.Grouped

def GroupedAll : List Expr → Prop
  | [] => True
  | e :: es => e.Grouped ∧ GroupedAll es

end

end

/-! ### Tokens -/

end Expr

/-- The token of a literal. -/
def LiteralKind.form (kind : LiteralKind) (value : String) : Form :=
  match kind with
  | .int | .float => ⟨.number, value⟩
  | .string => ⟨.string, value⟩
  | .char => ⟨.character, value⟩
  | .bool => ⟨.keyword (if value = "true" then .kTrue else .kFalse), value⟩
  | .null => ⟨.keyword .kNull, value⟩

def Accessor.operator : Accessor → Operator
  | dot => .dot | arrow => .arrow | scope => .scope

namespace Expr

mutual

/-- The tokens of a tree. A cast and a `new` stand in front, with the type as one token. -/
def forms : Expr → List Form
  | literal _ kind value => [kind.form value]
  | ident _ name => [⟨.ident, name⟩]
  | self _ => [.keyword .kSelf]
  | binary _ o l r => forms l ++ .op o :: forms r
  | unary _ o x false => .op o :: forms x
  | unary _ o x true => forms x ++ [.op o]
  | call _ f args => forms f ++ .op .openParen :: (formsOf args ++ [.op .closeParen])
  | member _ x name accessor => forms x ++ [.op accessor.operator, ⟨.ofWord name, name⟩]
  | index _ x i => forms x ++ .op .openBracket :: (forms i ++ [.op .closeBracket])
  | new _ type args => .keyword .kNew :: ⟨.raw, type.text⟩ ::
      .op .openParen :: (formsOf args ++ [.op .closeParen])
  | delete _ x => .keyword .kDelete :: forms x
  | cast _ x _ type => .op .openParen :: ⟨.raw, type.text⟩ :: .op .closeParen :: forms x
  | tuple _ elems => .op .openParen ::
      (formsOf elems ++ ((if elems.length = 1 then [.op .comma] else []) ++ [.op .closeParen]))
  | tupleIndex _ x i => forms x ++ [.op .dot, ⟨.number, toString i⟩]
  | range _ l r => forms l ++ .op .range :: forms r
  | ternary _ c y n => forms c ++ .op .question :: (forms y ++ .op .colon :: forms n)
  | paren _ x => .op .openParen :: (forms x ++ [.op .closeParen])

/-- The tokens of some trees with commas between them. -/
def formsOf : List Expr → List Form
  | [] => []
  | e :: es => forms e ++ (if es.isEmpty then [] else .op .comma :: formsOf es)

end

end Expr

/-! ### Trees without spans -/

namespace TypeExpr

mutual

/-- The type without its spans. -/
def bare : TypeExpr → TypeExpr
  | named _ name args stars => named {} name (bareAll args) stars
  | tuple _ elems stars => tuple {} (bareAll elems) stars
  | func _ params none stars => func {} (bareAll params) none stars
  | func _ params (some result) stars => func {} (bareAll params) (some (bare result)) stars

def bareAll : List TypeExpr → List TypeExpr
  | [] => []
  | t :: ts => bare t :: bareAll ts

end

attribute [simp] bare bareAll

end TypeExpr

namespace Expr

mutual

/-- The tree without its spans. -/
def bare : Expr → Expr
  | literal _ kind value => literal {} kind value
  | ident _ name => ident {} name
  | self _ => self {}
  | binary _ o l r => binary {} o (bare l) (bare r)
  | unary _ o x trailing => unary {} o (bare x) trailing
  | call _ f args => call {} (bare f) (bareAll args)
  | member _ x name accessor => member {} (bare x) name accessor
  | index _ x i => index {} (bare x) (bare i)
  | new _ type args => new {} type.bare (bareAll args)
  | delete _ x => delete {} (bare x)
  | cast _ x kind type => cast {} (bare x) kind type.bare
  | tuple _ elems => tuple {} (bareAll elems)
  | tupleIndex _ x i => tupleIndex {} (bare x) i
  | range _ l r => range {} (bare l) (bare r)
  | ternary _ c y n => ternary {} (bare c) (bare y) (bare n)
  | paren _ x => paren {} (bare x)

def bareAll : List Expr → List Expr
  | [] => []
  | e :: es => bare e :: bareAll es

end

attribute [simp] bare bareAll

theorem level_bare (d : Dialect) (e : Expr) : e.bare.level d = e.level d := by
  cases e with
  | unary s o x trailing => cases trailing <;> rfl
  | _ => rfl

/-! ### Trees that can be written -/

/-- A type that is one word. -/
def IsWord : TypeExpr → Prop
  | .named _ _ [] 0 => True
  | _ => False

section

variable (d : Dialect)

mutual

/-- The tokens of the tree tell its nodes apart: the value of a number says whether it is a float,
an index fits into a word, and a cast or a `new` is one that stands in front. -/
def Written : Expr → Prop
  | literal _ .int value => Reader.isFloatNumeral value = false
  | literal _ .float value => Reader.isFloatNumeral value = true
  | literal _ _ _ | ident _ _ | self _ => True
  | binary _ _ l r | range _ l r | index _ l r => l.Written ∧ r.Written
  | ternary _ c y n => c.Written ∧ y.Written ∧ n.Written
  | unary _ _ x _ | delete _ x | member _ x _ _ | paren _ x => x.Written
  | call _ f args => f.Written ∧ WrittenAll args
  | tuple _ elems => elems ≠ [] ∧ WrittenAll elems
  | tupleIndex _ x i => i < 0x8000000000000000 ∧ x.Written
  | new _ type args => d.leadingCasts = true ∧ IsWord type ∧ WrittenAll args
  | cast _ x kind type => d.leadingCasts = true ∧ kind = .plain ∧ IsWord type ∧ x.Written

def WrittenAll : List Expr → Prop
  | [] => True
  | e :: es => e.Written ∧ WrittenAll es

end

end

end Expr

/-! ### Regular dialects -/

/-- Whether a token of this kind continues the operand in front of it. -/
def Token.Kind.startsSuffix : Token.Kind → Bool
  | .op .openParen | .op .openBracket | .op .dot | .op .arrow | .op .scope
  | .op .increment | .op .decrement | .keyword .kAs => true
  | _ => false

namespace Dialect

/-- The operators that are never binary. -/
def delimiters : List Operator :=
  [.openParen, .openBracket, .dot, .arrow, .scope, .increment, .decrement,
    .closeParen, .closeBracket, .comma, .colon]

/-- The binary operators bind less tightly than the leading ones, and those of one level group in
the same direction. -/
structure Regular (d : Dialect) : Prop where
  bounds : ∀ b ∈ d.table.operators, 1 ≤ b.precedence ∧ b.precedence < Expr.leadingLevel
  uniform : ∀ b ∈ d.table.operators, ∀ b' ∈ d.table.operators,
    b.precedence = b'.precedence → b.right = b'.right
  delimiters : ∀ o ∈ delimiters, d.binding? o = none

theorem source_regular : source.Regular := by
  constructor <;> decide

variable {d : Dialect} {o : Operator} {b : Binding}

theorem mem_of_binding? (h : d.binding? o = some b) : b ∈ d.table.operators :=
  List.mem_of_find?_eq_some h

theorem precedence_eq (h : d.binding? o = some b) : d.precedence o = b.precedence := by
  rw [precedence, h]
  rfl

theorem operandPrecedence_eq (h : d.binding? o = some b) :
    d.operandPrecedence o = b.operandPrecedence := by
  rw [operandPrecedence, h]
  rfl

theorem bindingOf?_eq_some {t : Token} :
    Reader.bindingOf? d.table t = some (o, b) ↔ t.kind = .op o ∧ d.binding? o = some b := by
  unfold Reader.bindingOf?
  split
  · next o' kind =>
    rw [Option.map_eq_some_iff, kind]
    constructor
    · rintro ⟨b', found, same⟩
      cases same
      exact ⟨rfl, found⟩
    · rintro ⟨⟨⟩, found⟩
      exact ⟨b, found, rfl⟩
  · next other =>
    refine ⟨nofun, fun h => absurd h.1 (other o)⟩

/-- What follows takes nothing from an operand that is read from `least` on. -/
structure Stops (d : Dialect) (least : Int) (k : List Form) : Prop where
  suffix : (Form.first k).kind.startsSuffix = false
  binary : ∀ o b, (Form.first k).kind = .op o → d.binding? o = some b → b.precedence < least

theorem Stops.mono {least least' : Int} {k : List Form} (h : d.Stops least k)
    (le : least ≤ least') : d.Stops least' k :=
  ⟨h.suffix, fun o b same found => Int.lt_of_lt_of_le (h.binary o b same found) le⟩

theorem stops_nil (least : Int) : d.Stops least [] := ⟨rfl, nofun⟩

theorem Regular.stops_closer (regular : d.Regular) {closer : Operator} {least : Int} {k : List Form}
    (h : closer ∈ [.closeParen, .closeBracket, .comma, .colon]) :
    d.Stops least (.op closer :: k) := by
  have known : closer ∈ Dialect.delimiters := by
    simp only [List.mem_cons, List.not_mem_nil, or_false] at h
    rcases h with rfl | rfl | rfl | rfl <;> decide
  have open_ : (Token.Kind.op closer).startsSuffix = false := by
    simp only [List.mem_cons, List.not_mem_nil, or_false] at h
    rcases h with rfl | rfl | rfl | rfl <;> rfl
  refine ⟨open_, fun o b same found => ?_⟩
  cases same
  rw [regular.delimiters _ known] at found
  cases found

end Dialect

namespace Expr

variable {d : Dialect}

/-- The binary operator at the top of a tree. -/
def operator? : Expr → Option Operator
  | binary _ o _ _ => some o
  | range _ _ _ => some .range
  | ternary _ _ _ _ => some .question
  | _ => none

/-- What stands behind a tree goes to its last operand if it binds at least that tightly. -/
def reach (d : Dialect) (e : Expr) : Int := e.operator?.elim leadingLevel d.operandPrecedence

theorem level_cases {e : Expr} (grouped : e.Grouped d) :
    (∃ o b, e.operator? = some o ∧ d.binding? o = some b ∧ e.level d = b.precedence ∧
      e.reach d = b.operandPrecedence) ∨
      (leadingLevel ≤ e.level d ∧ e.reach d = leadingLevel) := by
  have infix_ {o : Operator} {l r : Int} (joins : d.Joins o l r) :
      ∃ o' b, some o = some o' ∧ d.binding? o' = some b ∧ d.precedence o = b.precedence ∧
        d.operandPrecedence o = b.operandPrecedence := by
    obtain ⟨b, found, -⟩ := joins
    exact ⟨o, b, rfl, found, d.precedence_eq found, d.operandPrecedence_eq found⟩
  cases e with
  | binary s o l r => exact .inl (infix_ grouped.2.2.1)
  | range s l r => exact .inl (infix_ grouped.1)
  | ternary s c y n => exact .inl (infix_ grouped.1)
  | unary s o x trailing => cases trailing <;> exact .inr ⟨by simp only [level]; decide, rfl⟩
  | cast s x kind type =>
    refine .inr ⟨?_, rfl⟩
    simp only [level]
    split <;> decide
  | new s type args =>
    refine .inr ⟨?_, rfl⟩
    simp only [level]
    split <;> decide
  | _ => exact .inr ⟨by simp only [level]; decide, rfl⟩

variable (regular : d.Regular)

include regular

theorem one_le_level {e : Expr} (grouped : e.Grouped d) : 1 ≤ e.level d := by
  rcases level_cases grouped with ⟨o, b, -, found, level, -⟩ | ⟨level, -⟩
  · have := (regular.bounds b (d.mem_of_binding? found)).1
    omega
  · exact Int.le_trans (by decide) level

theorem stops_reach {e : Expr} (grouped : e.Grouped d) {least : Int} {k : List Form}
    (le : least ≤ e.level d) (stops : d.Stops least k) : d.Stops (e.reach d) k := by
  rcases level_cases grouped with ⟨o, b, -, found, level, reach⟩ | ⟨-, reach⟩
  · refine stops.mono ?_
    have := b.precedence_le.2
    omega
  · rw [reach]
    exact ⟨stops.suffix, fun o b _ found => (regular.bounds b (d.mem_of_binding? found)).2⟩

theorem precedence_lt_reach {e : Expr} (grouped : e.Grouped d) {o : Operator} {b : Binding}
    (found : d.binding? o = some b) (le : b.leftPrecedence ≤ e.level d) :
    b.precedence < e.reach d := by
  rcases level_cases grouped with ⟨o', b', -, found', level, reach⟩ | ⟨-, reach⟩
  · have uniform := regular.uniform b (d.mem_of_binding? found) b' (d.mem_of_binding? found')
    rw [reach]
    rw [level] at le
    unfold Binding.leftPrecedence at le
    unfold Binding.operandPrecedence
    grind
  · rw [reach]
    exact (regular.bounds b (d.mem_of_binding? found)).2

theorem stops_operator {e : Expr} (grouped : e.Grouped d) {o : Operator} {b : Binding}
    (found : d.binding? o = some b) (le : b.leftPrecedence ≤ e.level d) (k : List Form) :
    d.Stops (e.reach d) (.op o :: k) := by
  refine ⟨?_, fun o' b' same found' => ?_⟩
  · have binary : o ∉ Dialect.delimiters := fun member => by
      rw [regular.delimiters o member] at found
      cases found
    cases o <;> first | rfl | exact absurd (by decide) binary
  · cases same
    rw [found] at found'
    cases found'
    exact precedence_lt_reach regular grouped found le

end Expr

end TastyLang
