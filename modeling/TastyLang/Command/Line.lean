import TastyLang.Document.Basic
import TastyLang.Text.Quoted

/-!
# Command lines

The words of a command line are flags with their values and arguments. `Line.read` sorts them, and
`Line.command?` finds the word that names the command.
-/

namespace TastyLang

inductive FlagKind where
  | text
  | switch
  | number
  /-- a list; giving the flag again adds to it -/
  | texts
  deriving DecidableEq, Inhabited

structure Flag where
  name : String
  kind : FlagKind := .text
  letter : Option Char := none
  deriving DecidableEq, Inhabited

inductive LineError where
  | unknownFlag (name : String)
  | unknownLetter (c : Char) (letters : String)
  | noValue (flag : Flag)
  | badValue (flag : Flag) (value : String)
  deriving DecidableEq, Inhabited

def LineError.message : LineError → String
  | unknownFlag name => "unknown flag: --" ++ name
  | unknownLetter c letters => s!"unknown shorthand flag: {Text.quoteChar c} in -{letters}"
  | noValue flag => "flag needs an argument: --" ++ flag.name
  | badValue flag value =>
    s!"invalid argument {Text.quote value} for " ++ Text.quote ("--" ++ flag.name)
      ++ " flag"

/-- The flags of a command line with their values, and its arguments. -/
structure Line where
  flags : Keyed Document := []
  args : List String := []
  deriving Inhabited

namespace Line

/-! ### Values -/

/-- A field up to its closing quote, where a quote is written twice, and what comes behind it. -/
def quotedField : List Char → Option (List Char × List Char)
  | '"' :: '"' :: cs => (quotedField cs).map fun (f, rest) => ('"' :: f, rest)
  | '"' :: cs => some ([], cs)
  | c :: cs => (quotedField cs).map fun (f, rest) => (c :: f, rest)
  | [] => none

/-- Fields between commas; one that holds a comma stands in quotes. -/
def fields? : Nat → List Char → Option (List String)
  | 0, _ => none
  | n + 1, '"' :: cs =>
    match quotedField cs with
    | some (f, []) => some [String.ofList f]
    | some (f, ',' :: rest) => (fields? n rest).map (String.ofList f :: ·)
    | _ => none
  | n + 1, cs =>
    let f := cs.takeWhile (· ≠ ',')
    if f.contains '"' then none
    else
      match cs.dropWhile (· ≠ ',') with
      | [] => some [String.ofList f]
      | _ :: rest => (fields? n rest).map (String.ofList f :: ·)

def switchValues : List (String × Bool) :=
  ["1", "t", "T", "TRUE", "true", "True"].map (·, true)
    ++ ["0", "f", "F", "FALSE", "false", "False"].map (·, false)

/-- The value of a flag, written over or added to the one that it had. -/
def value? (kind : FlagKind) (old : Option Document) (s : String) : Option Document :=
  match kind with
  | .text => some (.text s)
  | .switch => (switchValues.lookup s).map .bool
  | .number => (Text.numeral s).toOption.map .int
  | .texts =>
    let before := match old with
      | some (.list items) => items
      | _ => []
    if s = "" then some (.list before)
    else (fields? (s.length + 1) s.toList).map fun fs => .list (before ++ fs.map .text)

def set (l : Line) (flag : Flag) (s : String) : Except LineError Line :=
  match value? flag.kind (l.flags.lookup flag.name) s with
  | some v => .ok { l with flags := Keyed.insert flag.name v l.flags }
  | none => .error (.badValue flag s)

/-! ### Words -/

def ofName? (known : List Flag) (name : String) : Option Flag := known.find? (·.name == name)

def ofLetter? (known : List Flag) (c : Char) : Option Flag := known.find? (·.letter == some c)

/-- Reads the letters behind a dash. The flag that comes back waits for its value. -/
def letters (known : List Flag) (all : String) :
    Line → List Char → Except LineError (Line × Option Flag)
  | l, [] => .ok (l, none)
  | l, c :: cs => do
    let some flag := ofLetter? known c | throw (.unknownLetter c all)
    match flag.kind, cs with
    | _, '=' :: d :: ds => return (← l.set flag (String.ofList (d :: ds)), none)
    | .switch, cs => letters known all (← l.set flag "true") cs
    | _, [] => return (l, some flag)
    | _, cs => return (← l.set flag (String.ofList cs), none)

/-- Reads the name behind two dashes. The flag that comes back waits for its value. -/
def named (known : List Flag) (l : Line) (word : List Char) :
    Except LineError (Line × Option Flag) := do
  let name := String.ofList (word.takeWhile (· ≠ '='))
  let some flag := ofName? known name | throw (.unknownFlag name)
  match word.dropWhile (· ≠ '='), flag.kind with
  | _ :: value, _ => return (← l.set flag (String.ofList value), none)
  | [], .switch => return (← l.set flag "true", none)
  | [], _ => return (l, some flag)

/-- Reads words behind those that are read already, of which a flag may wait for its value. -/
def readFrom (known : List Flag) : Line → Option Flag → List String → Except LineError Line
  | l, none, [] => .ok l
  | _, some flag, [] => .error (.noValue flag)
  | l, some flag, w :: ws => do readFrom known (← l.set flag w) none ws
  | l, none, w :: ws =>
    match w.toList with
    | ['-', '-'] => .ok { l with args := l.args ++ ws }
    | '-' :: '-' :: name => do
      let (l, waiting) ← named known l name
      readFrom known l waiting ws
    | '-' :: c :: cs => do
      let (l, waiting) ← letters known (String.ofList (c :: cs)) l (c :: cs)
      readFrom known l waiting ws
    | _ => readFrom known { l with args := l.args ++ [w] } none ws

def read (known : List Flag) (ws : List String) : Except LineError Line := readFrom known {} none ws

/-! ### The command -/

/-- Whether the word behind a flag is its value. -/
def takesNext (known : List Flag) (w : String) : Bool :=
  match w.toList with
  | '-' :: '-' :: name =>
    !name.contains '=' && (ofName? known (String.ofList name)).all (·.kind != .switch)
  | ['-', c] => (ofLetter? known c).all (·.kind != .switch)
  | _ => false

/-- The word that names the command, and the words without it. -/
def command? (known : List Flag) : Bool → List String → Option (String × List String)
  | _, [] => none
  | true, w :: ws => (command? known false ws).map fun (c, rest) => (c, w :: rest)
  | false, w :: ws =>
    if w = "--" then none
    else if w ≠ "" && !Text.startsWith "-" w then some (w, ws)
    else (command? known (takesNext known w) ws).map fun (c, rest) => (c, w :: rest)

def switch (l : Line) (flag : String) : Bool :=
  match l.flags.lookup flag with
  | some (.bool b) => b
  | _ => false

def text (l : Line) (flag : String) : String :=
  match l.flags.lookup flag with
  | some (.text s) => s
  | _ => ""

def texts (l : Line) (flag : String) : List String :=
  match l.flags.lookup flag with
  | some (.list items) => items.filterMap fun
    | .text s => some s
    | _ => none
  | _ => []

end Line

end TastyLang
