import TastyLang.Document.Basic
import TastyLang.Number.Double
import TastyLang.Text.Decimal
import TastyLang.Text.Pieces
import TastyLang.Text.Quoted
import TastyLang.Text.Utf8

/-!
# Literals of scripts

Data as scripts write it: numbers, quoted texts, lists, tuples and dictionaries. `Literal.Refusal`
is what may be wrong with a number or a text.
-/

namespace TastyLang

inductive Literal where
  | none
  | bool (b : Bool)
  | int (n : Int)
  /-- a number with a fraction or an exponent -/
  | float (d : Text.Decimal)
  | text (s : String)
  | bytes (s : String)
  | list (items : List Literal)
  | tuple (items : List Literal)
  | dict (entries : List (Literal × Literal))
  deriving Inhabited

namespace Literal

/-- What a word stands for. -/
abbrev Words := List (String × Literal)

/-! ### What is refused -/

/-- Why a number or a text is refused. -/
inductive Refusal where
  /-- a number of the named kind that has no digits or is too large -/
  | number (kind : String)
  /-- an octal number without its mark -/
  | unmarkedOctal (digits : String)
  /-- a text that is not closed on its line -/
  | lineEnd
  | unclosed
  | truncatedEscape (shown : String)
  | unknownEscape (shown : String)
  /-- an octal escape that is no character of its own -/
  | octalEscape (code : Nat)
  | hexEscape (shown : String) (code : Nat)
  | beyondCodes (shown : String) (code : Nat)
  | surrogate (code : Nat)
  deriving DecidableEq, Inhabited

/-- The last four hexadecimal digits of a code point, in capitals. -/
def codeDigits (code : Nat) : String :=
  String.ofList ((Text.hexDigits 4 code).map Char.toUpper)

/-- The advice on an escape that is no character of its own. -/
def codeAdvice (code : Nat) : String :=
  s!"(use \\u{codeDigits code} for the UTF-8 encoding of U+{codeDigits code})"

def Refusal.message : Refusal → String
  | number kind => s!"invalid {kind} literal"
  | unmarkedOctal digits => s!"obsolete form of octal literal; use 0o{digits}"
  | lineEnd => "unexpected newline in string"
  | unclosed => "unexpected EOF in string"
  | truncatedEscape shown => s!"truncated escape sequence {shown}"
  | unknownEscape shown => s!"invalid escape sequence {shown}"
  | octalEscape code =>
    "non-ASCII octal escape \\" ++ String.ofList (Nat.toDigits 8 code) ++ " " ++ codeAdvice code
  | hexEscape shown code => s!"non-ASCII hex escape {shown} {codeAdvice code}"
  | beyondCodes shown code =>
    s!"code point out of range: {shown} (max \\U" ++ String.ofList (Text.hexDigits 8 code) ++ ")"
  | surrogate code => s!"invalid Unicode code point U+{codeDigits code}"

/-- Why no literal is read. -/
inductive Flaw where
  /-- what stands there has another form -/
  | form
  /-- a number or a text is refused; `left` characters stand behind the place of the error -/
  | refused (left : Nat) (why : Refusal)
  deriving DecidableEq, Inhabited

/-! ### Documents -/

mutual

/-- A literal as a document; keys that are no texts are dropped. -/
def toDocument : Literal → Document
  | none => .null
  | bool b => .bool b
  | int n => .int n
  | float d => .number (if d.negative then -(d.digits : Int) else d.digits) d.power
  | text s | bytes s => .text s
  | list xs | tuple xs => .list (toDocuments xs)
  | dict es => .ofEntries (toEntries es)

def toDocuments : List Literal → List Document
  | [] => []
  | x :: xs => toDocument x :: toDocuments xs

def toEntries : List (Literal × Literal) → List (String × Document)
  | [] => []
  | (text k, v) :: es => (k, toDocument v) :: toEntries es
  | _ :: es => toEntries es

end

end Literal

/-!
## Numbers and texts

A text is taken up to its closing quotes first, and then its escapes are resolved; so an escape
never reaches beyond the quotes. A number is taken as far as its digits,
its point and its exponent reach.
-/


namespace Literal

/-- The value of digits in a base. -/
def digitsIn? (base : Nat) (cs : List Char) : Option Nat :=
  if cs.isEmpty then Option.none
  else cs.foldlM (fun n c => (Text.letterValue? c).bind fun d =>
    if d < base then some (n * base + d) else Option.none) 0

def isDigitIn (base : Nat) (c : Char) : Bool := (Text.letterValue? c).any (· < base)

/-! ### Quotes -/

/-- The quotes that a text stands in. -/
inductive Quotes where
  | once (c : Char)
  | thrice (c : Char)

/-- The quotes at the head of a text, and what follows them. -/
def quotes? : List Char → Option (Quotes × List Char)
  | a :: b :: c :: cs =>
    if a = '"' || a = '\x27' then
      if a = b && b = c then some (.thrice a, cs) else some (.once a, b :: c :: cs)
    else Option.none
  | a :: cs => if a = '"' || a = '\x27' then some (.once a, cs) else Option.none
  | [] => Option.none

/-- What follows the closing quotes, when they stand at the head of a text. -/
def Quotes.closed? : Quotes → List Char → Option (List Char)
  | .once c, a :: cs => if a = c then some cs else Option.none
  | .thrice c, a :: b :: d :: cs => if a = c && b = c && d = c then some cs else Option.none
  | _, _ => Option.none

/-- Whether a line may end between the quotes. -/
def Quotes.spanLines : Quotes → Bool
  | .once _ => false
  | .thrice _ => true

/-- The characters up to the closing quotes, and what follows those. The character behind a
backslash does not close them. -/
def Quotes.content (q : Quotes) : List Char → Except Refusal (List Char × List Char)
  | [] => .error .unclosed
  | '\\' :: c :: cs => (q.content cs).map fun (s, rest) => ('\\' :: c :: s, rest)
  | c :: cs =>
    match q.closed? (c :: cs) with
    | some rest => .ok ([], rest)
    | Option.none =>
      if c = '\n' && !q.spanLines then .error .lineEnd
      else (q.content cs).map fun (s, rest) => (c :: s, rest)

/-! ### Escapes -/

/-- The characters that letters stand for after a backslash. -/
def escapes : List (Char × Char) :=
  [('a', Char.ofNat 7), ('b', Char.ofNat 8), ('f', Char.ofNat 12), ('n', '\n'), ('r', '\r'),
    ('t', '\t'), ('v', Char.ofNat 11), ('\\', '\\'), ('"', '"'), ('\x27', '\x27')]

/-- The letters that are followed by a code point, and the number of its digits. -/
def codeWidths : List (Char × Nat) := [('x', 2), ('u', 4), ('U', 8)]

/-- The character whose code point follows the letter `c` in `width` digits. A text takes only the
first 128 code points by `x`; bytes take all that it can write. -/
def codePoint (ofBytes : Bool) (c : Char) (width : Nat) (cs : List Char) : Except Refusal Char :=
  let shown := String.ofList ('\\' :: c :: cs.take width)
  if cs.length < width then .error (.truncatedEscape shown)
  else
    match digitsIn? 16 (cs.take width) with
    | Option.none => .error (.unknownEscape shown)
    | some code =>
      if c = 'x' && 0x80 ≤ code && !ofBytes then .error (.hexEscape shown code)
      else if 0x110000 ≤ code then .error (.beyondCodes shown code)
      else if 0xD800 ≤ code && code < 0xE000 then .error (.surrogate code)
      else .ok (Char.ofNat code)

/-- The character of up to three octal digits. -/
def octal (ofBytes : Bool) (digits : List Char) : Except Refusal Char :=
  let code := (digitsIn? 8 digits).getD 0
  if 0x80 ≤ code && !ofBytes then .error (.octalEscape code)
  else if 0x100 ≤ code then .error (.unknownEscape (String.ofList ('\\' :: digits)))
  else .ok (Char.ofNat code)

/-- What the character `c` and those behind it stand for after a backslash, and the number of those
that are used. A line end is left out. -/
def escape (ofBytes : Bool) (c : Char) (cs : List Char) : Except Refusal (List Char × Nat) :=
  match escapes.lookup c, codeWidths.lookup c with
  | some e, _ => .ok ([e], 0)
  | Option.none, some width => (codePoint ofBytes c width cs).map fun e => ([e], width)
  | Option.none, Option.none =>
    if c = '\n' then .ok ([], 0)
    else if isDigitIn 8 c then
      let more := (cs.take 2).takeWhile (isDigitIn 8)
      (octal ofBytes (c :: more)).map fun e => ([e], more.length)
    else
      let lead := (Text.utf8Bytes c).head?.getD 0
      .error (.unknownEscape (String.ofList ['\\', Char.ofNat lead]))

/-- A text with its escapes resolved. -/
def unescaped (ofBytes : Bool) : List Char → Except Refusal (List Char)
  | [] => .ok []
  | '\\' :: c :: cs =>
    match escape ofBytes c cs with
    | .error e => .error e
    | .ok (front, n) => (unescaped ofBytes (cs.drop n)).map (front ++ ·)
  | c :: cs => (unescaped ofBytes cs).map (c :: ·)
termination_by cs => cs.length
decreasing_by all_goals simp [List.length_drop] <;> omega

/-! ### Texts -/

/-- The marks in front of the quotes, whether backslashes stand for themselves there, and whether
the literal is made of bytes. -/
def marks : List (List Char × Bool × Bool) :=
  [(['r', 'b'], true, true), (['r'], true, false), (['b'], false, true), ([], false, false)]

/-- The text with its marks and quotes at the head of `cs`, and what follows it. One that is not
closed is refused where its mark stands, and one with a wrong escape where its quotes open. -/
def text? (cs : List Char) : Option (Except Flaw (Literal × List Char)) :=
  marks.findSome? fun (mark, raw, ofBytes) => do
    let opening ← Text.after? mark cs
    let (q, rest) ← quotes? opening
    return do
      let (s, rest) ← (q.content rest).mapError (.refused cs.length)
      let s ← if raw then pure s else (unescaped ofBytes s).mapError (.refused opening.length)
      return (if ofBytes then bytes (String.ofList s) else text (String.ofList s), rest)

/-! ### Numbers -/

/-- The letters behind a zero that name a base, with the base and its name. -/
def bases : List (Char × Nat × String) := [('x', 16, "hex"), ('o', 8, "octal"), ('b', 2, "binary")]

/-- A number whose base is named; only one in base sixteen may be larger than a word. It is refused
without digits: in base sixteen where it starts, else behind its letter. -/
def basedNumber (base : Nat) (kind : String) (size : Nat) (rest : List Char) :
    Except Flaw (Literal × List Char) :=
  match digitsIn? base (rest.takeWhile (isDigitIn base)) with
  | Option.none => .error (.refused (if base = 16 then size else rest.length) (.number kind))
  | some n =>
    if base ≠ 16 && !Text.fitsWord n then .error (.refused size (.number "int"))
    else .ok (int n, rest.dropWhile (isDigitIn base))

/-- The characters of a number: digits, a point with more digits, and an exponent. -/
def numberChars (cs : List Char) : List Char :=
  let whole := cs.takeWhile Text.isDigit
  let point := ((cs.drop whole.length).take 1).takeWhile (· == '.')
  let fraction := if point.isEmpty then []
    else (cs.drop (whole.length + 1)).takeWhile Text.isDigit
  let lead := whole ++ point ++ fraction
  match cs.drop lead.length with
  | e :: rest =>
    if e == 'e' || e == 'E' then
      let sign := (rest.take 1).takeWhile fun c => c == '+' || c == '-'
      lead ++ e :: sign ++ (rest.drop sign.length).takeWhile Text.isDigit
    else lead
  | [] => lead

/-- A number in base ten. One that starts with a zero has to be zero, unless it has a point or an
exponent. -/
def decimalNumber (cs : List Char) : Except Flaw (Literal × List Char) :=
  let ds := numberChars cs
  let rest := cs.drop ds.length
  if ds.all Text.isDigit then
    match ds with
    | '0' :: more =>
      if more.all (· == '0') then .ok (int 0, rest)
      else if more.all (isDigitIn 8) then
        .error (.refused rest.length (.unmarkedOctal (String.ofList more)))
      else .error (.refused cs.length (.number "int"))
    | ds => .ok (int ((digitsIn? 10 ds).getD 0), rest)
  else
    match Text.decimal? ds with
    | Option.none => .error (.refused rest.length (.number "float"))
    | some d =>
      if (Double.ofDecimal? d.negative d.digits d.power).isSome then .ok (float d, rest)
      else .error (.refused rest.length (.number "float"))

/-- The number at the head of `cs`, and what follows it. -/
def number (cs : List Char) : Except Flaw (Literal × List Char) :=
  match cs with
  | '0' :: c :: rest =>
    match bases.lookup c.toLower with
    | some (base, kind) => basedNumber base kind cs.length rest
    | Option.none => decimalNumber cs
  | cs => decimalNumber cs

/-- What a sign makes of a number. -/
def signed? (sign : Char) : Literal → Option Literal
  | int n =>
    if sign = '-' then some (int (-n)) else if sign = '~' then some (int (-n - 1)) else some (int n)
  | float d =>
    if sign = '~' then Option.none
    else some (float (if sign = '-' then { d with negative := !d.negative } else d))
  | _ => Option.none

end Literal

/-!
## Reading

The reader for literals. Blanks, line ends and comments after `#` may stand between the parts. Which
words stand for the truth values is a parameter.
-/


namespace Literal

/-- The rest of a line and its end. -/
def dropLine : List Char → List Char
  | [] => []
  | '\n' :: cs => cs
  | _ :: cs => dropLine cs

/-- The characters after blanks, comments and line ends behind a backslash. -/
def skip : Nat → List Char → List Char
  | 0, cs => cs
  | n + 1, cs =>
    match cs.dropWhile Text.isBlank with
    | '#' :: cs => skip n (dropLine cs)
    | '\\' :: '\n' :: cs => skip n cs
    | cs => cs

def isWordChar (c : Char) : Bool := c.isAlphanum || c == '_'

/-- Whether a number starts here: with a digit, or with a point and a digit. -/
def startsNumber : List Char → Bool
  | '.' :: c :: _ => Text.isDigit c
  | c :: _ => Text.isDigit c
  | [] => false

/-- The word at the head of `cs`, and what follows it. -/
def word (words : Words) (cs : List Char) : Except Flaw (Literal × List Char) :=
  match words.lookup (String.ofList (cs.takeWhile isWordChar)) with
  | some v => .ok (v, cs.dropWhile isWordChar)
  | Option.none => .error .form

mutual

/-- Reads a literal off the head of a text. -/
def value (words : Words) : Nat → List Char → Except Flaw (Literal × List Char)
  | 0, _ => .error .form
  | n + 1, cs =>
    match skip n cs with
    | '[' :: rest => (items words ']' n rest).map fun (xs, _, r) => (list xs, r)
    | '(' :: rest => (items words ')' n rest).map fun (xs, comma, r) =>
        match xs, comma with
        | [x], false => (x, r)
        | xs, _ => (tuple xs, r)
    | '\x7b' :: rest => (entries words n rest).map fun (es, r) => (dict es, r)
    | c :: rest =>
      if c == '-' || c == '+' || c == '~' then
        (value words n rest).bind fun (v, r) =>
          match signed? c v with
          | some v => .ok (v, r)
          | Option.none => .error .form
      else if startsNumber (c :: rest) then number (c :: rest)
      else (text? (c :: rest)).getD (word words (c :: rest))
    | [] => .error .form

/-- Reads literals with commas between them up to `closer`, and whether a comma was read. -/
def items (words : Words) (closer : Char) : Nat → List Char →
    Except Flaw (List Literal × Bool × List Char)
  | 0, _ => .error .form
  | n + 1, cs =>
    match skip n cs with
    | [] => .error .form
    | c :: rest =>
      if c = closer then .ok ([], false, rest)
      else
        match value words n (c :: rest) with
        | .error e => .error e
        | .ok (x, r) =>
          match skip n r with
          | ',' :: r => (items words closer n r).map fun (xs, _, r) => (x :: xs, true, r)
          | d :: r => if d = closer then .ok ([x], false, r) else .error .form
          | [] => .error .form

/-- Reads pairs of key and value up to the closing brace. -/
def entries (words : Words) : Nat → List Char →
    Except Flaw (List (Literal × Literal) × List Char)
  | 0, _ => .error .form
  | n + 1, cs =>
    match skip n cs with
    | '\x7d' :: rest => .ok ([], rest)
    | cs =>
      match value words n cs with
      | .error e => .error e
      | .ok (k, r) =>
        match skip n r with
        | ':' :: r =>
          match value words n r with
          | .error e => .error e
          | .ok (v, r) =>
            match skip n r with
            | ',' :: r => (entries words n r).map fun (es, r) => ((k, v) :: es, r)
            | '\x7d' :: r => .ok ([(k, v)], r)
            | _ => .error .form
        | _ => .error .form

end

/-- The words of data texts. -/
def dataWords : Words := [("true", .bool true), ("false", .bool false), ("null", .none)]

/-- The document that a data text is. -/
def document? (s : String) : Option Document :=
  let cs := s.toList
  match value dataWords (2 * cs.length + 2) cs with
  | .ok (l, rest) => if (skip cs.length rest).isEmpty then some l.toDocument else Option.none
  | .error _ => Option.none

end Literal

end TastyLang
