import TastyLang.Reading.Expressions
import TastyLang.Syntax.Stmt

/-!
# Reading statements

`body` reads a block. In the body of a function whose result is inferred, an expression right in
front of the closing brace is what the function returns.
-/

namespace TastyLang.Reader

/-- Reads a modifier behind those of `ms`. -/
def modifier (ms : Modifiers) : Reader (Option Modifiers) := do
  match (← current).kind with
  | .modifier m =>
    advance
    return some (ms.insert m)
  | _ => return none

def modifiers (n : Nat) : Reader Modifiers := iterate modifier n {}

/-- Reads a storage word. -/
def storage : Reader Storage := do
  let t ← current
  match Storage.ofToken? t with
  | some s =>
    advance
    return s
  | none => failAt t.pos (.invalidStorage t)

def storage? : Reader Storage := do
  if (← current).kind.isStorage then storage else return {}

section

variable (table : Table) (n : Nat)

/-- Reads `word name [: type] [= value];` with the span from `start` and given modifiers. -/
def varDecl (start : Pos) (ms : Modifiers) (attrs : List AttributeUse) : Reader VarDecl := do
  let s ← storage
  let x ← name
  let t ← after? (acceptOp .colon) (type n)
  let v ← after? (acceptOp .assign) (expression table n)
  discard (expectOp .semicolon)
  return { info := { span := ← spanFrom start, attrs, modifiers := ms }
           name := x, storage := s, type := t, value := v }

/-- Reads the text captured after `inject` and an optional semicolon. -/
def injected : Reader String := do
  advance
  let t ← expect .raw
  discard (acceptOp .semicolon)
  return t.literal

variable (stmt : Bool → Reader Stmt)

/-- Reads a block; `tail` allows it to end in an expression. -/
def blockWith (tail : Bool) : Reader Block := do
  let opener ← expectOp .openBrace
  let ss ← bracedList opener (stmt tail) n
  return .mk (← spanFrom opener.pos) ss []

/-- Reads what follows `else`: another branch, or a block. -/
def alternative (branch : Reader Stmt) : Reader Stmt := do
  match (← current).kind with
  | .keyword .kIf | .keyword .kUnless => branch
  | _ => Stmt.block <$> blockWith n stmt false

/-- Reads `if` or `unless`; a condition behind `else` is read by `again`. -/
def branchWith (again : Reader Stmt) : Reader Stmt := do
  let t ← current
  advance
  let cond ← expression table n
  let yes ← blockWith n stmt false
  let no ← after? (accept (.keyword .kElse)) (alternative n stmt again)
  return .branch (← spanFrom t.pos) (t.kind == .keyword .kUnless) cond yes no

/-- Reads `if` or `unless` with what follows `else`. -/
def branch : Nat → Reader Stmt
  | 0 => exhausted
  | k + 1 => branchWith table n stmt (branch k)

def conditional (t : Token) (negate : Bool) : Reader Stmt := do
  advance
  let cond ← expression table n
  let b ← blockWith n stmt false
  return .loop (← spanFrom t.pos) negate (some cond) b

/-- Reads `name from low to high [by step]` and the block after it. -/
def counting (t : Token) (kind : CountKind) : Reader Stmt := do
  advance
  let x ← name
  expectWord "from"
  let low ← expression table n
  expectWord "to"
  let high ← expression table n
  let step ← after? (acceptWord "by") (expression table n)
  let b ← blockWith n stmt false
  return .count (← spanFrom t.pos) kind x low high step b

/-- Reads the value that a statement returns, if it returns one. -/
def returned? : Reader (Option Expr) := do
  if ← checkOp .semicolon then return none else some <$> expression table n

/-- Reads a statement that is a variable or an expression. -/
def simple (tail : Bool) : Reader Stmt := do
  let t ← current
  if t.kind.isStorage || t.kind.isModifier then
    let ms ← modifiers n
    unless (← current).kind.isStorage do unexpected .storageWord
    let d ← varDecl table n t.pos ms []
    return .decl (← spanFrom t.pos) d
  let x ← expression table n
  if tail && (← checkOp .closeBrace) then
    return .ret (← spanFrom t.pos) (some x) true false none
  discard (expectOp .semicolon)
  return .expr (← spanFrom t.pos) x

end

/-- Reads a statement, given a reader for the statements inside. -/
def stmtWith (table : Table) (n : Nat) (inner : Bool → Reader Stmt) (tail : Bool) :
    Reader Stmt := do
  let t ← current
  match t.kind with
  | .op .openBrace => Stmt.block <$> blockWith n inner false
  | .keyword .kIf | .keyword .kUnless => branch table n inner n
  | .keyword .kWhile => conditional table n inner t false
  | .keyword .kUntil => conditional table n inner t true
  | .keyword .kLoop =>
    advance
    let b ← blockWith n inner false
    return .loop (← spanFrom t.pos) false none b
  | .keyword .kInc => counting table n inner t .inc
  | .keyword .kIncto => counting table n inner t .incto
  | .keyword .kDec => counting table n inner t .dec
  | .keyword .kDecto => counting table n inner t .decto
  | .keyword .kFor =>
    advance
    let s ← storage?
    let x ← name
    expectWord "in"
    let items ← expression table n
    let b ← blockWith n inner false
    return .each (← spanFrom t.pos) x s items b
  | .keyword .kReturn =>
    advance
    let v ← returned? table n
    discard (expectOp .semicolon)
    return .ret (← spanFrom t.pos) v false false none
  | .keyword .kBreak =>
    advance
    discard (expectOp .semicolon)
    return .brk (← spanFrom t.pos) none
  | .keyword .kContinue =>
    advance
    discard (expectOp .semicolon)
    return .cont (← spanFrom t.pos) none
  | .keyword .kInject =>
    let text ← injected
    return .inject (← spanFrom t.pos) text
  | _ => simple table n tail

/-- Reads a statement; with `tail` it may be the expression that ends a body. -/
def stmt (table : Table) : Nat → Bool → Reader Stmt
  | 0, _ => exhausted
  | n + 1, tail => stmtWith table n (stmt table n) tail

/-- Reads the body of a function; `tail` allows it to end in an expression. -/
def body (table : Table) (n : Nat) (tail : Bool) : Reader Block :=
  blockWith n (stmt table n) tail

end TastyLang.Reader
