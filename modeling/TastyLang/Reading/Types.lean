import TastyLang.Reading.Cursor
import TastyLang.Syntax.Expr

/-!
# Reading types

`type` reads a type with its stars, `typeName` a dotted name with template arguments. A token that
starts with `>` closes one list of template arguments and leaves its other characters to be read.
-/

namespace TastyLang.Reader

/-- Reads one `>`, also off the head of `>>` and `>=`. -/
def closeTemplate : Reader Unit := do
  let t ← current
  match t.kind with
  | .op .greater => advance
  | .op .shiftRight => splitOff t ⟨.op .greater, ">", t.pos.shift 1⟩
  | .op .greaterEqual => splitOff t ⟨.op .assign, "=", t.pos.shift 1⟩
  | _ => unexpected (.token (.op .greater))
where
  splitOff (t left : Token) : Reader Unit :=
    modify fun c => { c with rest := left :: c.rest.tail, lastEnd := t.pos.shift 1 }

/-- Reads a template argument; a number is one too. -/
def templateArg (type : Reader TypeExpr) : Reader TypeExpr := do
  let t ← current
  if t.kind == .number then
    advance
    return .named (← spanFrom t.pos) t.literal [] 0
  type

/-- Reads the first of the template arguments, and the others by `rest`. -/
def templateArgsWith (opener : Token) (type : Reader TypeExpr) (rest : Reader (List TypeExpr)) :
    Reader (List TypeExpr) := do
  if ← check .eof then unclosed opener
  let arg ← templateArg type
  if ← acceptOp .comma then
    return arg :: (← rest)
  closeTemplate
  return [arg]

/-- Reads template arguments up to the closing `>`. -/
def templateArgs (opener : Token) (type : Reader TypeExpr) : Nat → Reader (List TypeExpr)
  | 0 => exhausted
  | n + 1 => templateArgsWith opener type (templateArgs opener type n)

/-- Reads a dotted name and its template arguments, given a reader for the types inside. -/
def nameAndArgs (n : Nat) (type : Reader TypeExpr) : Reader (String × List TypeExpr) := do
  let name ← dottedName n
  let t ← current
  if t.kind == .op .less then
    advance
    return (name, ← templateArgs t type n)
  return (name, [])

/-- Reads a star behind `k` of them. -/
def star (k : Nat) : Reader (Option Nat) := do
  if ← acceptOp .star then return some (k + 1)
  return none

def stars (n : Nat) : Reader Nat := iterate star n 0

/-- Reads a type, given a reader for the types inside. -/
def typeWith (n : Nat) (inner : Reader TypeExpr) : Reader TypeExpr := do
  let start ← pos
  let t ← current
  match t.kind with
  | .op .openParen =>
    advance
    let elems ← commaList t .closeParen inner n
    let k ← stars n
    return .tuple (← spanFrom start) elems k
  | .keyword .kFn =>
    advance
    let opener ← expectOp .openParen
    let params ← commaList opener .closeParen inner n
    let result ← after? (acceptOp .arrow) inner
    let k ← stars n
    return .func (← spanFrom start) params result k
  | _ =>
    let (name, args) ← nameAndArgs n inner
    let k ← stars n
    return .named (← spanFrom start) name args k

def type : Nat → Reader TypeExpr
  | 0 => exhausted
  | n + 1 => typeWith n (type n)

/-- Reads a dotted name with template arguments. -/
def typeName (n : Nat) : Reader TypeExpr := do
  let start ← pos
  let (name, args) ← nameAndArgs n (type n)
  return .named (← spanFrom start) name args 0

end TastyLang.Reader
