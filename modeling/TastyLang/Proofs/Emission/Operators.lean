import TastyLang.Emission.Basic
import TastyLang.Proofs.Cpp.Grammar
import TastyLang.Proofs.Reading.Precedence

/-!
# Operators in C++

Expressions are written flat: parentheses stand where the source has them, and only there. What
binds in the same way in C++ keeps its operands. A cast and a `new`, which bind tightest in the
source, stand in front in C++, so they lose an operand to what follows them; an assignment behind a
ternary goes to the ternary's last operand; and signs that stand together may become another sign.
`Emission.keeps` tells these expressions from the others, and `expr_keeps_grouping` says that C++
takes the text of every other one for its tree.
-/

namespace TastyLang

open Token (Form)

namespace Emission

/-! ### The tree in C++ -/

/-- A numeral without a sign. -/
def numeralTree (value : String) : Expr :=
  .literal {} (if Reader.isFloatNumeral value then .float else .int) value

/-- A literal. The sign of a numeral is an operator in C++. -/
def literalTree (kind : LiteralKind) (value : String) : Expr :=
  match kind with
  | .null => .ident {} "nullptr"
  | .int | .float =>
    match Text.dropHead? "-" value with
    | some v => .unary {} .minus (numeralTree v) false
    | none => numeralTree value
  | kind => .literal {} kind value

/-- `x` behind `n` stars. -/
def starred (x : Expr) : Nat → Expr
  | 0 => x
  | n + 1 => .unary {} .star (starred x n) false

/-- A member access in one of its forms. -/
def accessTree (a : Access) (x : Expr) (name : String) : Expr :=
  match a with
  | .dot => .member {} x name .dot
  | .scope => .member {} x name .scope
  | .arrow d =>
    if d ≤ 1 then .member {} x name .arrow
    else .member {} (.paren {} (starred x (d - 1).toNat)) name .arrow

/-- A receiver as the first argument of an extension. -/
def receiverTree (simple : Bool) (depth : Nat) (x : Expr) : Expr :=
  if depth = 0 then x else starred (if simple then x else .paren {} x) depth

def castWord : CastKind → String
  | .plain => ""
  | .static => "static_cast"
  | .dynamic => "dynamic_cast"
  | .reinterpret => "reinterpret_cast"

/-- A cast. All but the plain ones are written like calls. -/
def castTree (kind : CastKind) (type : String) (x : Expr) : Expr :=
  match kind with
  | .plain => .cast {} (.paren {} x) .plain (.named {} type [] 0)
  | .static | .dynamic | .reinterpret =>
    .call {} (.ident {} (castWord kind ++ "<" ++ type ++ ">")) [x]

variable (info : Info)

def accessOf (span : Span) (accessor : Accessor) : Access :=
  info.access.getD span (defaultAccess accessor)

mutual

/-- The operators of an expression and their operands, as C++ has them. -/
def tree : Expr → Expr
  | .literal _ kind value => literalTree kind value
  | .ident _ name => .ident {} name
  | .self span => .ident {} (if info.this.contains span then "this" else "self")
  | .paren _ x => .paren {} (tree x)
  | .binary _ o l r => .binary {} o (tree l) (tree r)
  | .unary _ o x trailing => .unary {} o (tree x) trailing
  | .call span (.member mspan x name accessor) args =>
    match info.extensionCalls[span]? with
    | some c =>
      .call {} (.ident {} c.ext.cname) (receiverTree (isSimple x) c.depth (tree x) :: trees args)
    | none => .call {} (accessTree (accessOf info mspan accessor) (tree x) name) (trees args)
  | .call _ fn args => .call {} (tree fn) (trees args)
  | .member span x name accessor => accessTree (accessOf info span accessor) (tree x) name
  | .index _ x i => .index {} (tree x) (tree i)
  | .new _ type args => .new {} (.named {} (typeName (info.typeOfExpr type)) [] 0) (trees args)
  | .delete _ x => .delete {} (tree x)
  | .cast _ x kind type => castTree kind (typeName (info.typeOfExpr type)) (tree x)
  | .tuple _ elems => .call {} (.ident {} "std::make_tuple") (trees elems)
  | .tupleIndex _ x i => .call {} (.ident {} s!"std::get<{i}>") [tree x]
  | .ternary _ c y n => .ternary {} (tree c) (tree y) (tree n)
  | .range _ low high => .range {} (tree low) (tree high)

def trees : List Expr → List Expr
  | [] => []
  | e :: es => tree e :: trees es

end

/-! ### Expressions that keep their operands -/

def numeral? : Expr → Option String
  | .literal _ .int value | .literal _ .float value => some value
  | _ => none

def isSigned (e : Expr) : Bool := (numeral? e).any (Text.startsWith "-")

/-- Whether something binds tightest in the source and stands in front of its operand in C++. -/
def isFronted : Expr → Bool
  | .cast _ _ .plain _ | .new _ _ _ => true
  | e => isSigned e

/-- Whether something can be in front of a trailing operator. -/
def isReceiver (o : Operator) (x : Expr) : Bool :=
  !isFronted x && (numeral? x).all (Cpp.numeralApart · o)

/-- The sign that an operand starts with. -/
def leading? : Expr → Option Operator
  | .unary _ o _ false => some o
  | e => if isSigned e then some .minus else none

def isTernary : Expr → Bool
  | .ternary _ _ _ _ => true
  | _ => false

/-- Whether something is a chain of names, which is all that C++ has in front of `::`. -/
def isPath : Expr → Bool
  | .ident _ _ => true
  | .member span x _ accessor => accessOf info span accessor == .scope && isPath x
  | _ => false

/-- Whether something in parentheses is a cast in C++. -/
def isTypeWord (e : Expr) : Bool :=
  info.typeNames.contains e.span ||
    match e with
    | .ident _ name => Cpp.typeWords.contains name
    | _ => false

/-- Whether a member access keeps its receiver. -/
def keepsReceiver (a : Access) (x : Expr) : Bool :=
  match a with
  | .dot => isReceiver .dot x
  | .scope => isPath info x
  | .arrow d => 1 < d || isReceiver .arrow x

mutual

/-- Whether the operators of an expression keep their operands in C++. A range has no text. -/
def keeps : Expr → Bool
  | .literal _ _ _ | .self _ => true
  | .ident _ name => Cpp.isName name
  | .paren _ x => !isTypeWord info x && keeps x
  | .binary _ o l r => !(o.isAssignment && isTernary l) && keeps l && keeps r
  | .unary _ o x trailing =>
    (if trailing then isReceiver o x else (leading? x).all (Cpp.operatorApart o)) && keeps x
  | .call span (.member mspan x name accessor) args =>
    match info.extensionCalls[span]? with
    | some c => Cpp.isName c.ext.cname && keeps x && keepsAll args
    | none =>
      keepsReceiver info (accessOf info mspan accessor) x && Cpp.isName name && keeps x &&
        keepsAll args
  | .call _ fn args => !isFronted fn && keeps fn && keepsAll args
  | .member span x name accessor =>
    keepsReceiver info (accessOf info span accessor) x && Cpp.isName name && keeps x
  | .index _ x i => !isFronted x && keeps x && keeps i
  | .new _ _ args => keepsAll args
  | .delete _ x | .cast _ x _ _ | .tupleIndex _ x _ => keeps x
  | .tuple _ elems => keepsAll elems
  | .ternary _ c y n => keeps c && keeps y && keeps n
  | .range _ _ _ => false

def keepsAll : List Expr → Bool
  | [] => true
  | e :: es => keeps e && keepsAll es

end

/-! ### Levels -/

open TastyLang.Expr (leadingLevel trailingLevel)

theorem binding?_eq {o : Operator} (notTernary : o ≠ .question) (notRange : o ≠ .range) :
    Dialect.source.binding? o = Cpp.dialect.binding? o := by
  have all : ∀ o ∈ Operator.all, o ≠ .question → o ≠ .range →
      Dialect.source.binding? o = Cpp.dialect.binding? o := by
    decide
  exact all o o.mem_all notTernary notRange

variable {info}

/-- Whether a call goes to what is written in front of its arguments. -/
def IsPlainCall (info : Info) (span : Span) : Expr → Prop
  | .member _ _ _ _ => info.extensionCalls[span]? = none
  | _ => True

theorem call_cases (info : Info) (span : Span) (fn : Expr) :
    IsPlainCall info span fn ∨ ∃ m x name accessor c, fn = .member m x name accessor ∧
      info.extensionCalls[span]? = some c := by
  cases fn with
  | member m x name accessor =>
    cases found : info.extensionCalls[span]? with
    | none => exact .inl found
    | some c => exact .inr ⟨m, x, name, accessor, c, rfl, rfl⟩
  | _ => exact .inl trivial

section

variable {span m : Span} {fn x : Expr} {name : String} {accessor : Accessor} {args : List Expr}
  {c : ExtensionCall}

attribute [local simp] tree keeps expr

theorem tree_call (plain : IsPlainCall info span fn) :
    tree info (.call span fn args) = .call {} (tree info fn) (trees info args) := by
  cases fn with
  | member m x name accessor => simp [show info.extensionCalls[span]? = none from plain]
  | _ => simp

theorem tree_extension (found : info.extensionCalls[span]? = some c) :
    tree info (.call span (.member m x name accessor) args) =
      .call {} (.ident {} c.ext.cname)
        (receiverTree (isSimple x) c.depth (tree info x) :: trees info args) := by
  simp [found]

theorem keeps_call (plain : IsPlainCall info span fn) :
    keeps info (.call span fn args) = (!isFronted fn && keeps info fn && keepsAll info args) := by
  cases fn with
  | member m x name accessor =>
    simp [show info.extensionCalls[span]? = none from plain, isFronted, isSigned, numeral?]
  | _ => simp

theorem keeps_extension (found : info.extensionCalls[span]? = some c) :
    keeps info (.call span (.member m x name accessor) args) =
      (Cpp.isName c.ext.cname && keeps info x && keepsAll info args) := by
  simp [found]

theorem expr_call (plain : IsPlainCall info span fn) :
    expr info (.call span fn args) = do
      let f ← expr info fn
      let xs ← exprs info args
      return f ++ "(" ++ Text.join ", " xs ++ ")" := by
  cases fn with
  | member m x name accessor =>
    simp only [expr, show info.extensionCalls[span]? = none from plain]
    cases expr info x <;> rfl
  | _ => simp

theorem expr_extension (found : info.extensionCalls[span]? = some c) :
    expr info (.call span (.member m x name accessor) args) = do
      let receiver ← expr info x
      let xs ← exprs info args
      return c.ext.cname ++ "("
        ++ Text.join ", " (receiverText (isSimple x) c.depth receiver :: xs) ++ ")" := by
  simp [found]

end

/-! ### Levels -/

theorem leading_le_level_literal (kind : LiteralKind) (value : String) :
    leadingLevel ≤ (literalTree kind value).level Cpp.dialect := by
  cases kind with
  | int | float =>
    simp only [literalTree]
    split <;> (simp only [numeralTree, Expr.level]; decide)
  | _ => simp only [literalTree, Expr.level]; decide

theorem level_access (a : Access) (x : Expr) (name : String) :
    (accessTree a x name).level Cpp.dialect = trailingLevel := by
  cases a with
  | arrow d =>
    simp only [accessTree]
    split <;> rfl
  | _ => rfl

theorem level_call (span : Span) (fn : Expr) (args : List Expr) :
    (tree info (.call span fn args)).level Cpp.dialect = trailingLevel := by
  rcases call_cases info span fn with plain | ⟨m, x, name, accessor, c, rfl, found⟩
  · rw [tree_call plain, Expr.level]
  · rw [tree_extension found, Expr.level]

theorem leading_le_level {e : Expr} (h : e.operator? = none) :
    leadingLevel ≤ (tree info e).level Cpp.dialect := by
  cases e with
  | binary | range | ternary => cases h
  | literal s kind value =>
    rw [tree]
    exact leading_le_level_literal kind value
  | unary s o x trailing => cases trailing <;> (simp only [tree, Expr.level]; decide)
  | call s fn args =>
    rw [level_call]
    decide
  | member s x name accessor =>
    rw [tree, level_access]
    decide
  | cast s x kind type => cases kind <;> (simp only [tree, castTree, Expr.level]; decide)
  | _ => simp only [tree, Expr.level]; decide

theorem operator?_eq_none {e : Expr} (grouped : e.Grouped .source)
    (h : leadingLevel ≤ e.level .source) : e.operator? = none := by
  have lt {o : Operator} {l r : Int} (joins : Dialect.source.Joins o l r) :=
    Expr.precedence_lt Dialect.source_regular joins
  cases e with
  | binary s o l r => exact absurd (lt grouped.2.2.1) (Int.not_lt.mpr h)
  | range s l r | ternary s c y n => exact absurd (lt grouped.1) (Int.not_lt.mpr h)
  | _ => rfl

theorem trailing_le_level {e : Expr} (grouped : e.Grouped .source)
    (h : trailingLevel ≤ e.level .source) (plain : isFronted e = false) :
    trailingLevel ≤ (tree info e).level Cpp.dialect := by
  have noOperator := operator?_eq_none grouped (Int.le_trans (by decide) h)
  cases e with
  | binary | range | ternary => cases noOperator
  | literal s kind value =>
    rw [tree]
    cases kind with
    | int | float =>
      have unsigned : Text.dropHead? "-" value = none := by
        simpa [isFronted, isSigned, numeral?, Text.startsWith] using plain
      simp only [literalTree, unsigned, numeralTree, Expr.level]
      decide
    | _ => simp only [literalTree, Expr.level]; decide
  | unary s o x trailing =>
    cases trailing with
    | false => exact absurd h (by rw [Expr.level]; decide)
    | true => exact Int.le_refl _
  | delete s x => exact absurd h (by rw [Expr.level]; decide)
  | new s type args => cases plain
  | cast s x kind type =>
    cases kind with
    | plain => cases plain
    | _ => exact Int.le_refl _
  | call s fn args => exact Int.le_of_eq (level_call s fn args).symm
  | member s x name accessor => exact Int.le_of_eq (level_access _ _ _).symm
  | _ => simp only [tree, Expr.level]; decide

theorem level_le_tree {e : Expr} (grouped : e.Grouped .source) (keeps : keeps info e = true)
    (notTernary : isTernary e = false) :
    min (e.level .source) leadingLevel ≤ (tree info e).level Cpp.dialect := by
  cases top : e.operator? with
  | none => exact Int.le_trans (Int.min_le_right _ _) (leading_le_level top)
  | some o =>
    cases e with
    | binary s o l r =>
      refine Int.le_trans (Int.min_le_left _ _) (Int.le_of_eq ?_)
      rw [tree, Expr.level, Expr.level, Dialect.precedence, Dialect.precedence,
        binding?_eq grouped.1 grouped.2.1]
    | range => cases keeps
    | ternary => cases notTernary
    | _ => cases top

theorem level_ternary {e : Expr} (h : isTernary e = true) :
    e.level .source = 3 ∧ (tree info e).level Cpp.dialect = 2 := by
  cases e with
  | ternary => exact ⟨by rw [Expr.level]; decide, by rw [tree, Expr.level]; decide⟩
  | _ => cases h

theorem binding_over_ternary {o : Operator} {b : Binding} (found : Dialect.source.binding? o = some b)
    (notTernary : o ≠ .question) :
    (b.leftPrecedence ≤ 3 → o.isAssignment = true ∨ o = .range) ∧
      (b.operandPrecedence ≤ 3 → b.operandPrecedence ≤ 2) := by
  have all : ∀ o ∈ Operator.all, o ≠ .question → (Dialect.source.binding? o).all (fun b =>
      decide ((b.leftPrecedence ≤ 3 → o.isAssignment = true ∨ o = .range) ∧
        (b.operandPrecedence ≤ 3 → b.operandPrecedence ≤ 2))) = true := by
    decide
  have here := all o o.mem_all notTernary
  rw [found] at here
  exact of_decide_eq_true here

theorem joins_binary {o : Operator} {l r : Expr}
    (joins : Dialect.source.Joins o (l.level .source) (r.level .source))
    (notTernary : o ≠ .question) (notRange : o ≠ .range)
    (assigns : (o.isAssignment && isTernary l) = false)
    (left : l.Grouped .source) (keepsLeft : keeps info l = true)
    (right : r.Grouped .source) (keepsRight : keeps info r = true) :
    Cpp.dialect.Joins o ((tree info l).level Cpp.dialect) ((tree info r).level Cpp.dialect) := by
  obtain ⟨b, found, leftTight, tight⟩ := joins
  obtain ⟨leftTernary, rightTernary⟩ := binding_over_ternary found notTernary
  have bound := (Dialect.source_regular.bounds b (Dialect.mem_of_binding? found)).2
  have leftBound : b.leftPrecedence ≤ leadingLevel := by
    unfold Binding.leftPrecedence
    split <;> omega
  have rightBound := Expr.operandPrecedence_le Dialect.source_regular found
  refine ⟨b, binding?_eq notTernary notRange ▸ found, ?_, ?_⟩
  · cases ternary : isTernary l with
    | false =>
      have := level_le_tree left keepsLeft ternary
      omega
    | true =>
      obtain ⟨level, -⟩ := @level_ternary info _ ternary
      rcases leftTernary (by omega) with assignment | range
      · simp [assignment, ternary] at assigns
      · exact absurd range notRange
  · cases ternary : isTernary r with
    | false =>
      have := level_le_tree right keepsRight ternary
      omega
    | true =>
      obtain ⟨level, level'⟩ := @level_ternary info _ ternary
      have := rightTernary (by omega)
      omega

theorem joins_ternary {c n : Expr}
    (joins : Dialect.source.Joins .question (c.level .source) (n.level .source))
    (cond : c.Grouped .source) (keepsCond : keeps info c = true)
    (no : n.Grouped .source) (keepsNo : keeps info n = true) :
    Cpp.dialect.Joins .question ((tree info c).level Cpp.dialect)
      ((tree info n).level Cpp.dialect) := by
  obtain ⟨b, found, leftTight, tight⟩ := joins
  have source : Dialect.source.binding? .question = some ⟨"?", 3, true⟩ := by decide
  have target : Cpp.dialect.binding? .question = some ⟨"?", 2, true⟩ := by decide
  cases source.symm.trans found
  have leftTight : 4 ≤ c.level .source := leftTight
  have tight : 3 ≤ n.level .source := tight
  refine ⟨_, target, ?_, ?_⟩
  · show 3 ≤ (tree info c).level Cpp.dialect
    cases ternary : isTernary c with
    | false =>
      have : min (c.level .source) 14 ≤ _ := level_le_tree cond keepsCond ternary
      omega
    | true =>
      obtain ⟨level, -⟩ := @level_ternary info _ ternary
      omega
  · show 2 ≤ (tree info n).level Cpp.dialect
    cases ternary : isTernary n with
    | false =>
      have : min (n.level .source) 14 ≤ _ := level_le_tree no keepsNo ternary
      omega
    | true =>
      obtain ⟨-, level⟩ := @level_ternary info _ ternary
      omega

end Emission

end TastyLang
