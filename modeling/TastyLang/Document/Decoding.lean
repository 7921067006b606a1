import TastyLang.Document.Basic

/-!
# Decoding documents

Settings are typed by hand, so values are taken leniently: `"6"` is a number where a number is
wanted, and `"a,b"` a list. A missing value is empty, zero or false. A value that cannot be taken is
reported under its name, and a `Decoder` goes on to find all of them. Fields are found whatever the
case of the letters in their names.
-/

namespace TastyLang.Document

/-- What a document is, in messages about values. -/
def typeName : Document → String
  | null => "<nil>"
  | bool _ => "bool"
  | int _ => "int"
  | word signed _ => if signed then "int64" else "uint64"
  | float _ => "float64"
  | text _ => "string"
  | list _ => "[]interface \x7b\x7d"
  | map _ => "map[string]interface \x7b\x7d"

/-- What a document is, in messages about its shape. -/
def kindName : Document → String
  | list _ => "slice"
  | map _ => "map"
  | d => d.typeName

def unconvertible (name want : String) (d : Document) : String :=
  s!"'{name}' expected type '{want}', got unconvertible type '{d.typeName}'"

def unparsed (name want cause : String) : String :=
  s!"'{name}' cannot parse value as '{want}': strconv.{cause}"

def ofBool (b : Bool) : Int := if b then 1 else 0

/-- A document as text. -/
def toText (name : String) : Document → Except String String
  | null => .ok ""
  | bool b => .ok (toString (ofBool b))
  | int n | word _ n => .ok (toString n)
  | float x => .ok x.positional
  | text s => .ok s
  | d => .error (unconvertible name "string" d)

/-- The signed word with the bits of a number. -/
def signedWord (n : Int) : Int := n.bmod 0x10000000000000000

/-- The whole part of a number as a signed word; the least one when it does not fit. -/
def wordOf (x : Double) : Int :=
  if Text.fitsWord x.whole then x.whole else -0x8000000000000000

/-- A document as a number. -/
def toInt (name : String) : Document → Except String Int
  | null => .ok 0
  | bool b => .ok (ofBool b)
  | int n | word _ n => .ok (signedWord n)
  | float x => .ok (wordOf x)
  | text s =>
    if s = "" then .ok 0
    else
      match Text.numeral s with
      | .ok n => .ok n
      | .error .malformed => .error (unparsed name "int" "ParseInt: invalid syntax")
      | .error .outOfRange => .error (unparsed name "int" "ParseInt: value out of range")
  | d => .error (unconvertible name "int" d)

/-- A document as a truth value. -/
def toBool (name : String) : Document → Except String Bool
  | null => .ok false
  | bool b => .ok b
  | int n | word _ n => .ok (n ≠ 0)
  | float x => .ok (!x.isZero)
  | text s =>
    if ["1", "t", "T", "TRUE", "true", "True"].contains s then .ok true
    else if ["", "0", "f", "F", "FALSE", "false", "False"].contains s then .ok false
    else .error (unparsed name "bool" "ParseBool: invalid syntax")
  | d => .error (unconvertible name "bool" d)

/-- The items of a document where a list is wanted: a text is cut at its commas, and any other value
that is no list stands for a list of itself. -/
def toItems : Document → List Document
  | null | text "" | map [] => []
  | text s => (Text.cut ',' s).map text
  | list items => items
  | d => [d]

/-- The small letter that a character is a form of, among letters and those signs that are folded to
letters: the long s and the Kelvin sign. -/
def folded (c : Char) : Char :=
  if c.toNat = 0x17F then 's' else if c.toNat = 0x212A then 'k' else c.toLower

/-- The field of a map: the entry of exactly that name, or else one whose name differs in the case
of its letters only. -/
def field? (d : Document) (name : String) : Option Document :=
  match d with
  | map es =>
    match es.lookup name with
    | some v => some v
    | none => (es.find? fun e => e.1.toList.map folded == name.toList).map (·.2)
  | _ => none

end TastyLang.Document

namespace TastyLang

/-- Decoding that keeps the messages about values that cannot be taken. -/
abbrev Decoder := StateM (List String)

namespace Decoder

/-- Takes a value; one that cannot be taken leaves a message and the default in its place. -/
def take {α : Type} [Inhabited α] (r : Except String α) : Decoder α := do
  match r with
  | .ok a => return a
  | .error e =>
    modify (· ++ [e])
    return default

/-- Takes a list of texts. -/
def texts (name : String) (d : Document) : Decoder (List String) :=
  d.toItems.zipIdx.mapM fun (item, i) => take (item.toText s!"{name}[{i}]")

/-- Goes on only if nothing is wrong with what was taken first. -/
def andThen {α : Type} (first rest : Decoder (List α)) : Decoder (List α) := do
  let before ← get
  let a ← first
  if before.length < (← get).length then return a
  return a ++ (← rest)

mutual

/-- Takes the entries of a map, each by its name in messages and its key. A list of maps stands for
their entries together, up to the first that cannot be taken. -/
def entries {α : Type} (want : String) (f : String → String → Document → Decoder α)
    (name : String) : Document → Decoder (List (String × α))
  | .null => return []
  | .map es => es.mapM fun (k, v) => return (k, ← f s!"{name}[{k}]" k v)
  | .list items => entriesFrom want f name 0 items
  | d => take (.error (d.unconvertible name want))

/-- Takes the entries of the items of a list, the first of which has number `i`. -/
def entriesFrom {α : Type} (want : String) (f : String → String → Document → Decoder α)
    (name : String) (i : Nat) : List Document → Decoder (List (String × α))
  | [] => return []
  | d :: ds => andThen (entries want f s!"{name}[{i}]" d) (entriesFrom want f name (i + 1) ds)

end

/-- What was decoded, if nothing was wrong with it. -/
def finish {α : Type} (d : Decoder α) : Except String α :=
  match d.run [] with
  | (a, []) => .ok a
  | (_, messages) =>
    .error ("decoding failed due to the following error(s):\n\n" ++ Text.join "\n" messages)

end Decoder

end TastyLang
