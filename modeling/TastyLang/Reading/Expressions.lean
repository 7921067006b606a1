import TastyLang.Reading.Types
import TastyLang.Syntax.Expr
import TastyLang.Builtin.Basic

/-!
# Reading expressions

Binary operators are read by climbing: `expression n p` reads operators that bind at least as
tightly as `p`. Leading operators bind tighter than any binary one, and what follows an operand
(calls, indices, members, casts) binds tightest. How tightly a binary operator binds is a matter of
the built-in table.
-/

namespace TastyLang.Reader

/-- The binding of a token as a binary operator. -/
def bindingOf? (table : Table) (t : Token) : Option (Operator × Binding) :=
  match t.kind with
  | .op o => (table.binding? o.symbol).map (o, ·)
  | _ => none

/-- Whether a numeral has a fraction, an exponent or a suffix that makes it a float. -/
def isFloatNumeral (literal : String) : Bool :=
  let s := Text.dropHead "-" literal
  if ["0x", "0X", "0b", "0B"].any (Text.startsWith · s) then false
  else s.toList.any fun c => ['.', 'e', 'E', 'f', 'F'].contains c

/-- The leading operators. -/
def isLeading : Operator → Bool
  | .not | .minus | .plus | .tilde | .star | .amp | .increment | .decrement => true
  | _ => false

/-- Reads a member name; reserved words are allowed here. -/
def memberName : Reader String := do
  let t ← current
  if t.kind.isReserved then
    advance
    return t.literal
  name

section

variable (n : Nat) (expr : Reader Expr)

/-- Reads arguments in parentheses. -/
def args : Reader (List Expr) := do
  let opener ← expectOp .openParen
  commaList opener .closeParen expr n

/-- Reads arguments if there are any. -/
def argsHere : Reader (List Expr) := do
  if ← checkOp .openParen then args n expr else return []

/-- Reads a further element of a tuple after a comma, and the others by `rest`. -/
def moreElemsWith (rest : Reader (List Expr)) : Reader (List Expr) := do
  if ← acceptOp .comma then
    if ← checkOp .closeParen then return []
    let x ← expr
    return x :: (← rest)
  return []

/-- Reads further elements of a tuple, each after a comma. -/
def moreElems : Nat → Reader (List Expr)
  | 0 => exhausted
  | k + 1 => moreElemsWith expr (moreElems k)

/-- Reads the one token of a literal. -/
def literalOf (t : Token) (kind : LiteralKind) : Reader Expr := do
  advance
  return .literal (← spanFrom t.pos) kind t.literal

/-- Reads a literal, a name, `self`, `new`, or something in parentheses. -/
def primary : Reader Expr := do
  let t ← current
  match t.kind with
  | .number => literalOf t (if isFloatNumeral t.literal then .float else .int)
  | .string => literalOf t .string
  | .character => literalOf t .char
  | .keyword .kTrue | .keyword .kFalse => literalOf t .bool
  | .keyword .kNull => literalOf t .null
  | .ident =>
    advance
    return .ident (← spanFrom t.pos) t.literal
  | .keyword .kSelf =>
    advance
    return .self (← spanFrom t.pos)
  | .keyword .kNew =>
    advance
    let type ← typeName n
    let xs ← argsHere n expr
    return .new (← spanFrom t.pos) type xs
  | .op .openParen =>
    advance
    let first ← expr
    if ← checkOp .comma then
      let more ← moreElems expr n
      close .closeParen t
      return .tuple (← spanFrom t.pos) (first :: more)
    close .closeParen t
    return .paren (← spanFrom t.pos) first
  | _ => unexpected .expression

/-- Reads the index or the name after a dot. The span of a member access ends before its name. -/
def afterDot (start : Pos) (x : Expr) : Reader Expr := do
  let t ← current
  if t.kind == .number then
    match (Text.integer? t.literal).bind fun i => i.toNat? with
    | some i =>
      advance
      return .tupleIndex (← spanFrom start) x i
    | none => failAt t.pos (.tupleIndex t)
  else
    let span ← spanFrom start
    return .member span x (← memberName) .dot

def member (start : Pos) (x : Expr) (accessor : Accessor) : Reader Expr := do
  advance
  let span ← spanFrom start
  return .member span x (← memberName) accessor

def castKind : Reader CastKind := do
  if ← accept (.modifier .static) then return .static
  if ← acceptWord "dynamic" then return .dynamic
  if ← acceptWord "reinterpret" then return .reinterpret
  return .plain

/-- Reads one thing that follows an operand, if there is one. -/
def suffix? (x : Expr) : Reader (Option Expr) := do
  let start := x.pos
  let t ← current
  match t.kind with
  | .op .openParen =>
    let xs ← args n expr
    return some (.call (← spanFrom start) x xs)
  | .op .openBracket =>
    advance
    let i ← expr
    close .closeBracket t
    return some (.index (← spanFrom start) x i)
  | .op .dot =>
    advance
    some <$> afterDot start x
  | .op .arrow => some <$> member start x .arrow
  | .op .scope => some <$> member start x .scope
  | .op .increment =>
    advance
    return some (.unary (← spanFrom start) .increment x true)
  | .op .decrement =>
    advance
    return some (.unary (← spanFrom start) .decrement x true)
  | .keyword .kAs =>
    advance
    let kind ← castKind
    let target ← type n
    return some (.cast (← spanFrom start) x kind target)
  | _ => return none

/-- Reads an operand; what a leading operator stands in front of is read by `inner`. -/
def operandWith (inner : Reader Expr) : Reader Expr := do
  let t ← current
  match t.kind with
  | .op o =>
    if isLeading o then
      advance
      let x ← inner
      return .unary (← spanFrom t.pos) o x false
    else iterate (suffix? n expr) n (← primary n expr)
  | .keyword .kDelete =>
    advance
    let x ← inner
    return .delete (← spanFrom t.pos) x
  | _ => iterate (suffix? n expr) n (← primary n expr)

/-- Reads an operand with the operators in front of it and all that follows it. -/
def operand : Nat → Reader Expr
  | 0 => exhausted
  | k + 1 => operandWith n expr (operand k)

end

/-- Reads one binary operator that binds at least as tightly as `least`, with its right operand. -/
def infix? (table : Table) (expr : Int → Reader Expr) (start : Pos) (least : Int) (left : Expr) :
    Reader (Option Expr) := do
  match bindingOf? table (← current) with
  | none => return none
  | some (o, b) =>
    if b.precedence < least then return none
    advance
    match o with
    | .question =>
      let yes ← expr 1
      discard (expectOp .colon)
      let no ← expr b.operandPrecedence
      return some (.ternary (← spanFrom start) left yes no)
    | .range =>
      let right ← expr b.operandPrecedence
      return some (.range (← spanFrom start) left right)
    | o =>
      let right ← expr b.operandPrecedence
      return some (.binary (← spanFrom start) o left right)

/-- Reads an expression, given a reader for the expressions inside. -/
def expressionWith (table : Table) (n : Nat) (expr : Int → Reader Expr) (least : Int) :
    Reader Expr := do
  let start ← pos
  let left ← operand n (expr 1) n
  iterate (infix? table expr start least) n left

/-- Reads an expression whose operators bind at least as tightly as `least`. -/
def expressionFrom (table : Table) : Nat → Int → Reader Expr
  | 0, _ => exhausted
  | n + 1, least => expressionWith table n (expressionFrom table n) least

def expression (table : Table) (n : Nat) : Reader Expr := expressionFrom table n 1

end TastyLang.Reader

namespace TastyLang

/-- The expression that a text is. -/
def Expr.read (table : Table) (src : String) : Except SyntaxError Expr :=
  Reader.run src fun n => do
    let e ← Reader.expression table n
    discard (Reader.expect .eof)
    return e

end TastyLang
