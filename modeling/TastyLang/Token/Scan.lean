import TastyLang.Token.Basic
import TastyLang.Text.Decimal
import TastyLang.Text.Quoted

/-!
# From text to tokens

`Token.scan` cuts a text into tokens. Between tokens stand blanks and comments (`gap`); at each
token `lexeme` says what stands there and how many characters it takes. The kind of the token
before decides three things: whether a minus sign starts a number, whether a dot continues one,
and whether a brace opens a captured block.
-/

namespace TastyLang.Token

/-- What can go wrong while cutting a text into tokens. -/
inductive ScanError.Cause where
  | invalidCharacter (c : Char)
  | invalidNumber (text : String)
  | unterminatedString
  | unterminatedCharacter
  | unterminatedComment
  | unterminatedInject
  deriving DecidableEq, Inhabited

/-- A cause and the place where the offending piece starts. -/
structure ScanError where
  cause : ScanError.Cause
  pos : Pos
  deriving DecidableEq, Inhabited

namespace ScanError

/-- The first byte of a character in UTF-8, as a character of its own. -/
def leadByte (c : Char) : Char :=
  let n := c.toNat
  if n < 0x80 then c
  else if n < 0x800 then Char.ofNat (0xC0 + n / 0x40)
  else if n < 0x10000 then Char.ofNat (0xE0 + n / 0x1000)
  else Char.ofNat (0xF0 + n / 0x40000)

/-- What went wrong, in words. A character is named by its first byte. -/
def detail (e : ScanError) : String :=
  match e.cause with
  | .invalidCharacter c => s!"invalid character {Text.quoteChar (leadByte c)}"
  | .invalidNumber text => s!"invalid number literal {Text.quote text}"
  | .unterminatedString => "unterminated string literal"
  | .unterminatedCharacter => "unterminated character literal"
  | .unterminatedComment => "unterminated block comment"
  | .unterminatedInject => "unterminated inject block"

def message (e : ScanError) : String :=
  s!"lexer error at line {e.pos.line}, column {e.pos.column}: {e.detail}"

def code (e : ScanError) : String :=
  match e.cause with
  | .invalidCharacter _ | .invalidNumber _ => "E101"
  | .unterminatedString | .unterminatedCharacter => "E102"
  | .unterminatedComment => "E103"
  | .unterminatedInject => "E104"

end ScanError

/-! ### Characters -/

def isWordStart (c : Char) : Bool :=
  ('a' ≤ c && c ≤ 'z') || ('A' ≤ c && c ≤ 'Z') || c == '_'

def isWordChar (c : Char) : Bool := isWordStart c || Text.isDigit c

def isHexDigit (c : Char) : Bool :=
  Text.isDigit c || ('a' ≤ c && c ≤ 'f') || ('A' ≤ c && c ≤ 'F')

def isNumberSuffix (c : Char) : Bool :=
  c == 'u' || c == 'U' || c == 'l' || c == 'L' || c == 'f' || c == 'F'

def isGapChar (c : Char) : Bool := c == ' ' || c == '\t' || c == '\n' || c == '\r'

/-! ### Gaps -/

/-- What a gap is reading: blanks, a comment to the end of the line, or a block comment that
started at `start`. -/
inductive GapMode where
  | blank
  | line
  | block (start : Pos)
  deriving DecidableEq

/-- Skips blanks and comments from `pos` on; the result is what stands after the gap. -/
def gap : GapMode → Pos → List Char → Except ScanError (Pos × List Char)
  | .blank, pos, [] => .ok (pos, [])
  | .blank, pos, '/' :: '/' :: cs => gap .line (pos.afterAll ['/', '/']) cs
  | .blank, pos, '/' :: '*' :: cs => gap (.block pos) (pos.afterAll ['/', '*']) cs
  | .blank, pos, c :: cs => if isGapChar c then gap .blank (pos.after c) cs else .ok (pos, c :: cs)
  | .line, pos, [] => .ok (pos, [])
  | .line, pos, c :: cs =>
    if c = '\n' then gap .blank (pos.after c) cs else gap .line (pos.after c) cs
  | .block start, _, [] => .error ⟨.unterminatedComment, start⟩
  | .block _, pos, '*' :: '/' :: cs => gap .blank (pos.afterAll ['*', '/']) cs
  | .block start, pos, c :: cs => gap (.block start) (pos.after c) cs

/-! ### Lexemes -/

/-- How many characters at the head of `cs` satisfy `p`. -/
def run (p : Char → Bool) (cs : List Char) : Nat := (cs.takeWhile p).length

/-- The length of a fraction: a dot and at least one digit. -/
def fraction (cs : List Char) : Nat :=
  match cs with
  | '.' :: d :: rest => if Text.isDigit d then 2 + run Text.isDigit rest else 0
  | _ => 0

/-- The length of an exponent: `e`, an optional sign and at least one digit. -/
def exponent (cs : List Char) : Nat :=
  match cs with
  | e :: rest =>
    if e = 'e' || e = 'E' then
      match rest with
      | s :: d :: rest' =>
        if Text.isDigit s then 2 + run Text.isDigit (d :: rest')
        else if (s = '+' || s = '-') && Text.isDigit d then 3 + run Text.isDigit rest'
        else 0
      | [d] => if Text.isDigit d then 2 else 0
      | [] => 0
    else 0
  | [] => 0

/-- The length of the value of a number, without sign and suffixes. After a dot a number has no
fraction, so that two tuple indices in a row stay two numbers. -/
def numeral (afterDot : Bool) (cs : List Char) : Nat :=
  match cs with
  | '0' :: 'x' :: rest | '0' :: 'X' :: rest => 2 + run isHexDigit rest
  | '0' :: 'b' :: rest | '0' :: 'B' :: rest => 2 + run (fun c => c == '0' || c == '1') rest
  | _ =>
    let whole := run Text.isDigit cs
    let frac := if afterDot then 0 else fraction (cs.drop whole)
    whole + frac + exponent (cs.drop (whole + frac))

/-- The length of a number without its sign: its value and its suffixes. -/
def unsignedNumber (afterDot : Bool) (cs : List Char) : Nat :=
  let value := numeral afterDot cs
  value + run isNumberSuffix (cs.drop value)

/-- The length of quoted text after its opening quote, with the closing quote. A backslash takes
the next character with it, whatever it is; a line end closes nothing. -/
def quoted (quote : Char) : List Char → Option Nat
  | [] => none
  | '\\' :: [] => none
  | '\\' :: _ :: cs => (quoted quote cs).map (· + 2)
  | c :: cs =>
    if c = quote then some 1
    else if c = '\n' then none
    else (quoted quote cs).map (· + 1)

/-- The length of captured text inside `depth` open braces, up to the brace that closes them. -/
def captured (depth : Nat) : List Char → Option Nat
  | [] => none
  | c :: cs =>
    if c = '\x7b' then (captured (depth + 1) cs).map (· + 1)
    else if c = '\x7d' then
      match depth with
      | 0 | 1 => some 0
      | d + 1 => (captured d cs).map (· + 1)
    else (captured depth cs).map (· + 1)

/-- Whether the symbol of `o` stands at the head of `cs`. -/
def startsWithOperator (cs : List Char) (o : Operator) : Bool := o.symbol.toList.isPrefixOf cs

/-- The longest operator at the head of `cs`. -/
def operatorAt? (cs : List Char) : Option Operator :=
  let ofLength (n : Nat) := Operator.all.find? fun o =>
    o.symbol.length == n && startsWithOperator cs o
  (ofLength 3).or ((ofLength 2).or (ofLength 1))

/-- What stands at a place: a kind, how many characters follow the first one, and how many
characters at either end are not part of the literal. -/
structure Lexeme where
  kind : Kind
  more : Nat
  fence : Nat := 0

/-- A number whose sign takes `sign` characters. -/
def numberLexeme (prev : Kind) (sign : Nat) (cs : List Char) : Except ScanError.Cause Lexeme :=
  let size := sign + unsignedNumber (prev == .op .dot) (cs.drop sign)
  let tail := run isWordChar (cs.drop size)
  if tail = 0 then .ok ⟨.number, size - 1, 0⟩
  else .error (.invalidNumber (String.ofList (cs.take (size + tail))))

/-- What stands at the head of `c :: cs`, after a token of kind `prev`. -/
def lexeme (prev : Kind) (c : Char) (cs : List Char) : Except ScanError.Cause Lexeme :=
  if prev = .keyword .kInject && c = '\x7b' then
    match captured 1 cs with
    | some n => .ok ⟨.raw, n + 1, 1⟩
    | none => .error .unterminatedInject
  else if c = '-' && (cs.head?.any Text.isDigit) && !prev.endsOperand then
    numberLexeme prev 1 (c :: cs)
  else if c = '"' then
    match quoted c cs with
    | some n => .ok ⟨.string, n, 0⟩
    | none => .error .unterminatedString
  else if c = '\x27' then
    match quoted c cs with
    | some n => .ok ⟨.character, n, 0⟩
    | none => .error .unterminatedCharacter
  else if isWordStart c then
    let more := run isWordChar cs
    .ok ⟨Kind.ofWord (String.ofList (c :: cs.take more)), more, 0⟩
  else if Text.isDigit c then
    numberLexeme prev 0 (c :: cs)
  else
    match operatorAt? (c :: cs) with
    | some o => .ok ⟨.op o, o.symbol.length - 1, 0⟩
    | none => .error (.invalidCharacter c)

/-! ### The token list -/

/-- The tokens of a text without its end mark, and how the text ends: at a place, or in an
error. -/
structure Stream where
  tokens : List Token := []
  stop : Except ScanError Pos := .ok {}

def Stream.cons (t : Token) (s : Stream) : Stream := { s with tokens := t :: s.tokens }

theorem length_gap {mode : GapMode} {pos pos' : Pos} {cs rest : List Char}
    (h : gap mode pos cs = .ok (pos', rest)) : rest.length ≤ cs.length := by
  fun_induction gap mode pos cs <;> grind

/-- The tokens of `cs`, which starts at `pos` after a token of kind `prev`. -/
def scanFrom (prev : Kind) (pos : Pos) (cs : List Char) : Stream :=
  match _h : gap .blank pos cs with
  | .error e => ⟨[], .error e⟩
  | .ok (start, []) => ⟨[], .ok start⟩
  | .ok (start, c :: rest) =>
    match lexeme prev c rest with
    | .error cause => ⟨[], .error ⟨cause, start⟩⟩
    | .ok l =>
      let text := c :: rest.take l.more
      let literal := (text.drop l.fence).take (text.length - 2 * l.fence)
      Stream.cons ⟨l.kind, String.ofList literal, start⟩
        (scanFrom l.kind (start.afterAll text) (rest.drop l.more))
termination_by cs.length
decreasing_by
  have := length_gap _h
  simp only [List.length_cons, List.length_drop] at *
  omega

def stream (src : String) : Stream := scanFrom .eof .first src.toList

/-- The tokens of a text with its end mark, or the first error. -/
def scan (src : String) : Except ScanError (List Token) :=
  let s := stream src
  s.stop.map fun pos => s.tokens ++ [⟨.eof, "", pos⟩]

end TastyLang.Token
