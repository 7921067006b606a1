import TastyLang.Document.Basic
import TastyLang.Text.Quoted
import TastyLang.Text.Utf8
import TastyLang.Text.Pieces

/-!
# Values between brackets

The reader for maps in braces, lists in brackets, texts in double quotes and plain scalars. It
knows how far each character is from the start of the text, because a key has to stand on one line
and close to its colon. Line ends inside of quotes are folded: a single one is a blank, more of them
are one less, and separators of lines and paragraphs stay as they are.
-/

/-! ### Values as they stand in settings texts

A `Written` value has the number of its line, and its scalars are as they are written.
`Written.problems` finds keys that are given twice, and `Written.toDocument` what the scalars stand
for.
-/

namespace TastyLang

inductive Written where
  /-- a scalar without quotes -/
  | plain (line : Nat) (s : String)
  | quoted (line : Nat) (s : String)
  | list (line : Nat) (items : List Written)
  /-- entries with the lines of their keys -/
  | map (line : Nat) (entries : List (Nat × String × Written))
  deriving Inhabited

namespace Written

def line : Written → Nat
  | plain l _ | quoted l _ | list l _ | map l _ => l

/-- What a plain scalar stands for. A whole number is kept exactly as long as it fits into a word,
and any other number as the nearest one of 64 bits. -/
def ofPlain (s : String) : Document :=
  match s with
  | "" | "~" | "null" => .null
  | "true" => .bool true
  | "false" => .bool false
  | s =>
    match Text.decimal? s.toList with
    | none => .text s
    | some d =>
      let n : Int := if d.negative then -(d.digits : Int) else d.digits
      if d.integral && Text.fitsWord n then .int n
      else if d.integral && 0 ≤ n && n < 0x10000000000000000 then .word false n
      else
        match Double.ofDecimal? d.negative d.digits d.power with
        | some x => .float x
        | none => .text s

mutual

/-- The document of a value; of entries with the same key the last one counts. -/
def toDocument : Written → Document
  | plain _ s => ofPlain s
  | quoted _ s => .text s
  | list _ items => .list (toDocuments items)
  | map _ entries => .ofEntries (toEntries entries)

def toDocuments : List Written → List Document
  | [] => []
  | x :: xs => toDocument x :: toDocuments xs

def toEntries : List (Nat × String × Written) → List (String × Document)
  | [] => []
  | (_, k, v) :: es => (k, toDocument v) :: toEntries es

end

/-! ### Problems -/

/-- What keeps a value from being the map of a settings text. -/
inductive Problem where
  /-- a key on a line, and the line where it is given first -/
  | repeated (line : Nat) (key : String) (first : Nat)
  | notMap (value : Written)
  deriving Inhabited

/-- A scalar in a message; of a long one only the first bytes are shown. -/
def shown (s : String) : String :=
  let bytes := Text.bytesOf s
  let s := if bytes.length ≤ 10 then s
    else String.ofList (Text.decodeUtf8 (bytes.take 7)) ++ "..."
  " \x60" ++ s ++ "\x60"

/-- The tag of a value, with the scalar that it is. -/
def tagged : Written → String
  | list _ _ => "!!seq"
  | map _ _ => "!!map"
  | quoted _ s => "!!str" ++ shown s
  | plain _ s =>
    (match ofPlain s with
      | .null => "!!null"
      | .bool _ => "!!bool"
      | .int _ | .word _ _ => "!!int"
      | .float _ => "!!float"
      | _ => "!!str") ++ shown s

def Problem.message : Problem → String
  | repeated line key first =>
    s!"line {line}: mapping key {Text.quote key} already defined at line {first}"
  | notMap value =>
    s!"line {value.line}: cannot unmarshal {value.tagged} into map[string]interface \x7b\x7d"

/-- The keys of a map that are given again. -/
def repeats : List (Nat × String × Written) → List Problem
  | [] => []
  | (first, k, _) :: es =>
    (es.filterMap fun (line, k', _) => if k = k' then some (.repeated line k first) else none)
      ++ repeats es

mutual

/-- The keys that are given again inside of a value. In a map with such keys no deeper ones are
looked for. -/
def problems : Written → List Problem
  | plain _ _ | quoted _ _ => []
  | list _ items => itemProblems items
  | map _ entries =>
    match repeats entries with
    | [] => entryProblems entries
    | found => found

def itemProblems : List Written → List Problem
  | [] => []
  | x :: xs => problems x ++ itemProblems xs

def entryProblems : List (Nat × String × Written) → List Problem
  | [] => []
  | (_, _, v) :: es => problems v ++ entryProblems es

end

/-- The map that a settings text is; an empty value stands for an empty map. -/
def toMap (value : Written) : Except (List Problem) Document :=
  match value, value.problems, value.toDocument with
  | map _ _, [], d => .ok d
  | map _ _, found, _ => .error found
  | _, _, .null => .ok (.map [])
  | value, _, _ => .error [.notMap value]

end Written

end TastyLang

namespace TastyLang

/-- What is wrong with the form of a settings text. -/
inductive FormFault where
  | control
  | unknownEscape
  | noCharacter
  | indicator
  /-- a tab in front of a value, or any other character there that means nothing -/
  | start
  | separator
  | content
  deriving DecidableEq, Inhabited

def FormFault.message : FormFault → String
  | control => "control characters are not allowed"
  | unknownEscape => "found unknown escape character"
  | noCharacter => "found invalid Unicode character escape code"
  | indicator => "found unexpected document indicator"
  | start => "found character that cannot start any token"
  | separator => "did not find expected ',' or '\x7d'"
  | content => "did not find expected node content"

namespace Flow

/-- A place in a text: what is left of it, and how far it is from the start. -/
structure Place where
  rest : List Char
  line : Nat := 0
  column : Nat := 0
  /-- the number of characters in front -/
  index : Nat := 0
  deriving Inhabited

/-- A fault, the line that is told, or zero for none, and how much of the text was read. -/
structure Stop where
  fault : FormFault
  told : Nat
  index : Nat
  deriving Inhabited

def isBlank (c : Char) : Bool := c = ' ' || c = '\t'

/-- A separator of lines or of paragraphs. -/
def isSeparator (c : Char) : Bool := c.toNat = 0x2028 || c.toNat = 0x2029

def isBreak (c : Char) : Bool := c = '\n' || c = '\r' || c.toNat = 0x85 || isSeparator c

/-- The mark of the byte order, which may start a line. -/
def isMark (c : Char) : Bool := c.toNat = 0xFEFF

namespace Place

/-- The place so many characters on, on the same line. -/
def skip (p : Place) (n : Nat) : Place :=
  { p with rest := p.rest.drop n, column := p.column + n, index := p.index + n }

def next (p : Place) : Place := p.skip 1

/-- The place behind a line end. -/
def nextLine (p : Place) : Place :=
  let n := match p.rest with
    | '\r' :: '\n' :: _ => 2
    | _ => 1
  { rest := p.rest.drop n, line := p.line + 1, column := 0, index := p.index + n }

/-- A fault found while something that starts at `p` was read as far as `q`. Faults on the first
line are told without a line. -/
def stop (p q : Place) (fault : FormFault) : Stop :=
  let line := if p.line = 0 then q.line else p.line
  ⟨fault, if line = 0 then 0 else line + 1, q.index⟩

/-- A fault of a map that starts at `p`, found at `q`. It is told by the number of lines in
front. -/
def stopMap (p q : Place) : Stop :=
  ⟨.separator, if p.line = 0 then q.line else p.line, q.index⟩

/-- The next place that is neither blank nor a line end. Tabs count as blanks inside of brackets,
and outside of them only behind something on the same line. -/
def afterBlanks (inside : Bool) : Nat → Bool → Place → Place
  | 0, _, p => p
  | n + 1, tabs, p =>
    match p.rest with
    | [] => p
    | c :: _ =>
      if c = ' ' || (tabs && c = '\t') || (p.column = 0 && isMark c) then
        afterBlanks inside n tabs p.next
      else if isBreak c then afterBlanks inside n inside p.nextLine
      else p

/-- The next place inside of brackets that is neither blank nor a line end. -/
def inner (p : Place) : Place := p.afterBlanks true p.rest.length true

/-- Whether a line starts like the mark between two documents. -/
def isIndicator (p : Place) : Bool :=
  p.column = 0 &&
    match p.rest with
    | a :: b :: c :: rest =>
      (a = '-' || a = '.') && a = b && b = c
        && (rest.head?.map fun d => isBlank d || isBreak d).getD true
    | _ => false

end Place

/-! ### Quoted texts -/

/-- The blanks and line ends at a place inside of quotes, as they count. Blanks around a line end
count for nothing; `first` is the first line end and `more` are the others. -/
def folded : Nat → List Char → Option Char → List Char → Place → List Char × Place
  | 0, blanks, _, _, p => (blanks, p)
  | n + 1, blanks, first, more, p =>
    let finished :=
      match first, more with
      | none, _ => blanks
      | some '\n', [] => [' ']
      | some '\n', more => more
      | some c, more => c :: more
    match p.rest with
    | [] => (finished, p)
    | c :: _ =>
      if isBlank c then folded n (if first.isNone then blanks ++ [c] else []) first more p.next
      else if isBreak c then
        let c := if isSeparator c then c else '\n'
        match first with
        | none => folded n [] (some c) more p.nextLine
        | some _ => folded n [] first (more ++ [c]) p.nextLine
      else (finished, p)

/-- The code points that letters stand for after a backslash. -/
def escapes : List (Char × Nat) :=
  [('0', 0), ('a', 7), ('b', 8), ('t', 9), ('\t', 9), ('n', 10), ('v', 11), ('f', 12), ('r', 13),
    ('e', 27), (' ', 32), ('"', 34), ('\x27', 39), ('\\', 92), ('N', 0x85), ('_', 0xA0),
    ('L', 0x2028), ('P', 0x2029)]

/-- The letters that are followed by a code point, and the number of its digits. -/
def codeWidths : List (Char × Nat) := [('x', 2), ('u', 4), ('U', 8)]

/-- The character of a code point in hexadecimal digits. -/
def codeChar? (cs : List Char) : Option Char :=
  (cs.foldlM (fun n c => (Text.letterValue? c).bind fun d =>
    if d < 16 then some (n * 16 + d) else none) 0).bind (Text.decoded 0)

/-- Reads a quoted text from `start` up to its closing quote. -/
def quoted (start : Place) : Nat → Place → Except Stop (List Char × Place)
  | 0, p => .error (start.stop p .content)
  | n + 1, p =>
    match p.rest with
    | [] => .error (start.stop p .content)
    | '"' :: _ => .ok ([], p.next)
    | '\\' :: letter :: rest =>
      match escapes.lookup letter, codeWidths.lookup letter with
      | some code, _ => (quoted start n (p.skip 2)).map fun (cs, q) => (Char.ofNat code :: cs, q)
      | none, some width =>
        match codeChar? (rest.take width) with
        | some c => (quoted start n (p.skip (width + 2))).map fun (cs, q) => (c :: cs, q)
        | none => .error (start.stop p .noCharacter)
      | none, none => .error (start.stop p .unknownEscape)
    | c :: _ =>
      if isBlank c || isBreak c then
        let (cs, q) := folded (n + 1) [] none [] p
        if q.isIndicator then .error (start.stop q .indicator)
        else (quoted start n q).map fun (ds, q) => (cs ++ ds, q)
      else (quoted start n p.next).map fun (cs, q) => (c :: cs, q)

/-! ### Values -/

/-- Whether a character belongs to a plain scalar. -/
def isPlain (c : Char) : Bool :=
  !(isBlank c || isBreak c || [',', '[', ']', '\x7b', '\x7d'].contains c)

/-- The greatest distance between the start of a key and its colon. -/
def keyReach : Nat := 1024

mutual

/-- Reads the value at a place. -/
def value : Nat → Place → Except Stop (Written × Place)
  | 0, p => .error (p.stop p .content)
  | n + 1, p =>
    match p.rest with
    | '"' :: _ =>
      (quoted p n p.next).map fun (cs, q) => (.quoted (p.line + 1) (String.ofList cs), q)
    | '[' :: _ => (items n p.next).map fun (xs, q) => (.list (p.line + 1) xs, q)
    | '\x7b' :: _ => (entries p n p.next).map fun (es, q) => (.map (p.line + 1) es, q)
    | rest =>
      match rest.takeWhile isPlain with
      | [] => .error (p.stop p (if rest.head? = some '\t' then .start else .content))
      | cs => .ok (.plain (p.line + 1) (String.ofList cs), p.skip cs.length)

/-- Reads values with commas between them up to the closing bracket. -/
def items : Nat → Place → Except Stop (List Written × Place)
  | 0, p => .error (p.stop p .content)
  | n + 1, p => do
    let p := p.inner
    match p.rest with
    | ']' :: _ => return ([], p.next)
    | _ =>
      let (x, q) ← value n p
      let q := q.inner
      match q.rest with
      | ',' :: _ =>
        let (xs, q) ← items n q.next
        return (x :: xs, q)
      | ']' :: _ => return ([x], q.next)
      | _ => throw (p.stop q .content)

/-- Reads keys and values up to the closing brace of the map that starts at `start`. -/
def entries (start : Place) : Nat → Place → Except Stop (List (Nat × String × Written) × Place)
  | 0, p => .error (p.stop p .content)
  | n + 1, p => do
    let p := p.inner
    match p.rest with
    | '\x7d' :: _ => return ([], p.next)
    | '"' :: _ =>
      let (key, q) ← quoted p n p.next
      let q := q.inner
      match q.rest with
      | ':' :: _ =>
        if p.line < q.line || p.index + keyReach < q.index then throw (start.stopMap q)
        let (v, q) ← value n q.next.inner
        let entry := (p.line + 1, String.ofList key, v)
        let q := q.inner
        match q.rest with
        | ',' :: _ =>
          let (es, q) ← entries start n q.next
          return (entry :: es, q)
        | '\x7d' :: _ => return ([entry], q.next)
        | _ => throw (start.stopMap q)
      | _ => throw (start.stopMap q)
    | _ => throw (p.stop p .content)

end

/-- The place behind the value that a whole text is, and what stands behind a plain scalar. -/
def finished (v : Written) (p : Place) : Except Stop Written :=
  let tabs := match v with
    | .plain _ _ => true
    | _ => false
  let q := p.afterBlanks tabs p.rest.length true
  match q.rest with
  | [] => .ok v
  | c :: _ => .error (q.stop q (if c = '\t' then .start else .content))

/-- The value that a whole text is; `none` when there are only blanks. -/
def whole (cs : List Char) : Except Stop (Option Written) := do
  let start : Place := { rest := if (cs.head?.map isMark).getD false then cs.drop 1 else cs }
  let p := start.afterBlanks false cs.length false
  if p.rest.isEmpty then return none
  let (v, q) ← value (2 * cs.length + 2) p
  return some (← finished v q)

/-! ### Characters that are not allowed -/

def isAllowed (c : Char) : Bool :=
  let n := c.toNat
  n = 0x09 || n = 0x0A || n = 0x0D || (0x20 ≤ n && n ≤ 0x7E) || n = 0x85
    || (0xA0 ≤ n && n ≤ 0xFFFD) || 0x10000 ≤ n

/-- The number of bytes that are looked at together. -/
def blockSize : Nat := 512

/-- How many characters are looked at in advance. -/
def lookahead : Nat := 4

def blockOf (cs : List Char) (index : Nat) : Nat :=
  ((cs.take index).foldl (fun n c => n + c.utf8Size) 0) / blockSize

/-- Whether a character that is not allowed is met before the reader stops: it is in one of the
blocks that were looked at. -/
def isControlFirst (cs : List Char) (stop : Option Stop) : Bool :=
  match cs.findIdx? (!isAllowed ·), stop with
  | none, _ => false
  | some _, none => true
  | some i, some s => blockOf cs i ≤ blockOf cs (s.index + lookahead)

/-- The value that a whole text is; `none` when there are only blanks. -/
def read (cs : List Char) : Except Stop (Option Written) :=
  match whole cs with
  | .ok found => if isControlFirst cs none then .error ⟨.control, 0, 0⟩ else .ok found
  | .error s => if isControlFirst cs (some s) then .error ⟨.control, 0, 0⟩ else .error s

end Flow

end TastyLang

/-! ### Settings texts

A settings text is a value between brackets, or an outline: lines `key: value`, and lines `- item`
under a key for the items of a list. Blank lines and comments count for nothing.
-/

namespace TastyLang.Document

/-- A line without the comment at its end. -/
def uncommented : List Char → List Char
  | [] => []
  | '#' :: _ => []
  | ' ' :: '#' :: _ => []
  | c :: cs => c :: uncommented cs

/-- A scalar, or a value between brackets, as it stands after a key. -/
def scalar (s : List Char) : Document :=
  match s with
  | c :: _ =>
    if ['"', '[', '\x7b'].contains c then
      match Flow.whole s with
      | .ok (some v) => v.toDocument
      | _ => text (String.ofList s)
    else Written.ofPlain (String.ofList s)
  | [] => null

/-- A line of an outline. -/
inductive OutlineLine where
  | entry (key : String) (value : List Char)
  | item (value : List Char)

/-- What a line says; `none` when it is neither an entry nor an item. -/
def outlineLine? (line : List Char) : Option OutlineLine :=
  match Text.trimChars line with
  | ['-'] => some (.item [])
  | '-' :: ' ' :: rest => some (.item (Text.trimChars rest))
  | cs =>
    match cs.dropWhile (· ≠ ':') with
    | [':'] => some (.entry (String.ofList (cs.takeWhile (· ≠ ':'))) [])
    | ':' :: ' ' :: rest =>
      some (.entry (String.ofList (cs.takeWhile (· ≠ ':'))) (Text.trimChars rest))
    | _ => none

/-- The entries of an outline, read from its last line up: `items` are those below. -/
def outlineEntries? : List (List Char) → Option (List (String × Document) × List Document)
  | [] => some ([], [])
  | line :: rest => do
    let (entries, items) ← outlineEntries? rest
    match ← outlineLine? line with
    | .item v => return (entries, scalar v :: items)
    | .entry k v =>
      match v, items with
      | [], [] => return ((k, null) :: entries, [])
      | [], items => return ((k, list items) :: entries, [])
      | v, [] => return ((k, scalar v) :: entries, [])
      | _, _ => none

/-- What is wrong with a settings text. -/
inductive TextFault where
  /-- a fault of form, and the line that is told, or zero for none -/
  | form (line : Nat) (f : FormFault)
  | problems (ps : List Written.Problem)
  deriving Inhabited

def TextFault.message : TextFault → String
  | form line f => "yaml: " ++ (if line = 0 then "" else s!"line {line}: ") ++ f.message
  | problems ps => "yaml: unmarshal errors:\n  " ++ Text.join "\n  " (ps.map (·.message))

/-- The map of an outline, if the text is one. -/
def ofOutline? (cs : List Char) : Option Document :=
  let lines := ((Text.cutChars '\n' cs).map uncommented).filter fun l =>
    !(Text.trimChars l).isEmpty
  match outlineEntries? lines with
  | some (entries, []) => some (ofEntries entries)
  | _ => none

/-- The map of a settings text; an empty text is an empty map. -/
def ofText (s : String) : Except TextFault Document :=
  let cs := s.toList
  match Flow.read cs with
  | .ok none => .ok (map [])
  | .ok (some v) => v.toMap.mapError .problems
  | .error stop =>
    if stop.fault = .content then
      match ofOutline? cs with
      | some d => .ok d
      | none => .error (.form stop.told stop.fault)
    else .error (.form stop.told stop.fault)

end TastyLang.Document
