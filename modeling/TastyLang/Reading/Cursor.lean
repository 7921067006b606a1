import TastyLang.Syntax.Error

/-!
# Walking over tokens

A `Reader` walks over the tokens of a text. The text's own lexical error, if there is one, comes up
when the walk reaches it. Loops and nested productions take a number of steps; `Cursor.weight`
counts what is left to read, and a walk with more steps than that does not run out of them.
-/

namespace TastyLang

/-- A place in a token list. -/
structure Cursor where
  rest : List Token
  /-- how the text ends -/
  stop : Except Token.ScanError Pos
  /-- the end of the token read last -/
  lastEnd : Pos := {}
  /-- how many parameters the attributes defined so far have -/
  arities : List (String × Nat) := []

abbrev Reader := StateT Cursor (Except SyntaxError)

namespace Cursor

/-- What is left to read: each token counts for its characters and one more. -/
def weight (c : Cursor) : Nat := c.rest.foldl (fun n t => n + t.literal.length + 1) 0

/-- The place where the text ends. -/
def stopPos (c : Cursor) : Pos :=
  match c.stop with
  | .ok p => p
  | .error e => e.pos

/-- The token at the cursor; the end mark when there is none. -/
def current (c : Cursor) : Token :=
  match c.rest with
  | t :: _ => t
  | [] => ⟨.eof, "", c.stopPos⟩

/-- The kind of the token after the current one. -/
def nextKind (c : Cursor) : Token.Kind :=
  match c.rest with
  | _ :: t :: _ => t.kind
  | _ => .eof

/-- The cursor itself, unless it stands at a lexical error. -/
def checked (c : Cursor) : Except SyntaxError Cursor :=
  match c.rest, c.stop with
  | [], .error e => .error (.scan e)
  | _, _ => .ok c

end Cursor

namespace Reader

def current : Reader Token := return (← get).current

def nextKind : Reader Token.Kind := return (← get).nextKind

def pos : Reader Pos := return (← current).pos

/-- Reads the current token. The end mark can be read again and again. -/
def advance : Reader Unit := do
  let c ← get
  set (← Cursor.checked { c with rest := c.rest.tail, lastEnd := c.current.stop })

def failAt {α : Type} (pos : Pos) (cause : ParseError.Cause) : Reader α :=
  throw (.parse ⟨cause, pos⟩)

/-- Fails at the current token. -/
def unexpected {α : Type} (x : Expectation) : Reader α := do
  let t ← current
  failAt t.pos (.unexpected t x)

def unclosed {α : Type} (opener : Token) : Reader α := do
  let t ← current
  failAt t.pos (.unclosed opener t)

def exhausted {α : Type} : Reader α := throw .exhausted

def check (k : Token.Kind) : Reader Bool := return (← current).kind == k

def checkOp (o : Operator) : Reader Bool := check (.op o)

/-- Reads a token of kind `k` if one stands here. -/
def accept (k : Token.Kind) : Reader Bool := do
  if ← check k then
    advance
    return true
  return false

def acceptOp (o : Operator) : Reader Bool := accept (.op o)

/-- Reads the name `w` if it stands here. -/
def acceptWord (w : String) : Reader Bool := do
  let t ← current
  if t.kind == .ident && t.literal == w then
    advance
    return true
  return false

/-- Reads a token of kind `k`. -/
def expect (k : Token.Kind) : Reader Token := do
  let t ← current
  if t.kind == k then
    advance
    return t
  unexpected (.token k)

def expectOp (o : Operator) : Reader Token := expect (.op o)

def expectWord (w : String) : Reader Unit := do
  unless ← acceptWord w do unexpected (.word w)

/-- Reads a name. -/
def name : Reader String := do
  let t ← current
  if t.kind == .ident then
    advance
    return t.literal
  failAt t.pos (.notName t)

/-- Reads the delimiter `o` that closes `opener`. -/
def close (o : Operator) (opener : Token) : Reader Unit := do
  if ← check .eof then unclosed opener
  discard (expectOp o)

/-- Reads what follows `lead`, if that stands here. -/
def after? {α : Type} (lead : Reader Bool) (item : Reader α) : Reader (Option α) := do
  if ← lead then some <$> item else return none

/-- The span from `start` to the end of what was read last. -/
def spanFrom (start : Pos) : Reader Span := return ⟨start, (← get).lastEnd⟩

section

variable {α : Type}

/-- Reads the first of the items between `opener` and `closer`, and the others by `rest`. -/
def commaListWith (opener : Token) (closer : Operator) (item : Reader α)
    (rest : Reader (List α)) : Reader (List α) := do
  if ← checkOp closer then
    close closer opener
    return []
  if ← check .eof then unclosed opener
  let x ← item
  if ← acceptOp .comma then
    return x :: (← rest)
  close closer opener
  return [x]

/-- Reads items with commas between them up to `closer`, which is read too. A comma may stand
after the last item. -/
def commaList (opener : Token) (closer : Operator) (item : Reader α) : Nat → Reader (List α)
  | 0 => exhausted
  | n + 1 => commaListWith opener closer item (commaList opener closer item n)

/-- Reads the first of the items up to the closing brace, and the others by `rest`. -/
def bracedListWith (opener : Token) (item : Reader α) (rest : Reader (List α)) :
    Reader (List α) := do
  if ← checkOp .closeBrace then
    advance
    return []
  if ← check .eof then unclosed opener
  let x ← item
  return x :: (← rest)

/-- Reads items up to the closing brace, which is read too. -/
def bracedList (opener : Token) (item : Reader α) : Nat → Reader (List α)
  | 0 => exhausted
  | n + 1 => bracedListWith opener item (bracedList opener item n)

/-- Reads `step` once, and `again` from the value that it gives. -/
def iterateWith (step : α → Reader (Option α)) (again : α → Reader α) (x : α) : Reader α := do
  match ← step x with
  | some y => again y
  | none => return x

/-- Reads `step` again and again while it gives a value, starting from `x`. -/
def iterate (step : α → Reader (Option α)) : Nat → α → Reader α
  | 0, _ => exhausted
  | n + 1, x => iterateWith step (iterate step n) x

/-- Reads `item` once, and the others by `rest`. -/
def manyWith (item : Reader (Option α)) (rest : Reader (List α)) : Reader (List α) := do
  match ← item with
  | some x => return x :: (← rest)
  | none => return []

/-- Reads as many items as `item` gives. -/
def many (item : Reader (Option α)) : Nat → Reader (List α)
  | 0 => exhausted
  | n + 1 => manyWith item (many item n)

end

/-- Reads a dot and the name behind it. -/
def dotName (acc : String) : Reader (Option String) := do
  if (← checkOp .dot) && (← nextKind) == .ident then
    advance
    return some (acc ++ "." ++ (← name))
  return none

/-- Reads names with dots between them. -/
def dottedName (n : Nat) : Reader String := do
  let first ← name
  iterate dotName n first

/-- Runs a reader on a text. The reader gets the number of steps that the text can take. -/
def run {α : Type} (src : String) (reader : Nat → Reader α) : Except SyntaxError α := do
  let s := Token.stream src
  let start ← Cursor.checked { rest := s.tokens, stop := s.stop }
  return (← StateT.run (reader (start.weight + 2)) start).1

end Reader

end TastyLang
