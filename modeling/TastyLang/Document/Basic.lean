import TastyLang.Keyed.Basic
import TastyLang.Number.Double
import TastyLang.Text.Decimal
import TastyLang.Text.Pieces
import TastyLang.Text.Quoted

/-!
# Documents

The values that settings and tables are written in: scalars, lists, and maps whose keys stand in
order. `Document.merge` lays one document over another.
-/

namespace TastyLang

inductive Document where
  | null
  | bool (b : Bool)
  | int (n : Int)
  /-- a whole number that is kept as a word of 64 bits, with or without a sign -/
  | word (signed : Bool) (n : Int)
  | float (x : Double)
  | text (s : String)
  | list (items : List Document)
  | map (entries : List (String × Document))
  deriving Inhabited

namespace Document

/-- A map with the entries in the order of their keys; a later entry wins. -/
def ofEntries (es : List (String × Document)) : Document :=
  map (Keyed.ofList es)

def get? (d : Document) (k : String) : Option Document :=
  match d with
  | map es => es.lookup k
  | _ => none

mutual

/-- A document laid over `base`: maps are merged entry by entry, anything else takes the place of
what was there. -/
def merge (base : Document) : Document → Document
  | map top =>
    match base with
    | map es => map (mergeEntries es top)
    | _ => map top
  | d => d

def mergeEntries (base : List (String × Document)) :
    List (String × Document) → List (String × Document)
  | [] => base
  | (k, v) :: rest =>
    let merged := match base.lookup k with
      | some old => merge old v
      | none => v
    mergeEntries (Keyed.insert k merged base) rest

end

/-- The number nearest to `digits` times ten to the power of `power`. -/
def number (digits power : Int) : Document :=
  match Double.ofDecimal? (digits < 0) digits.natAbs power with
  | some x => float x
  | none => null

end Document

end TastyLang

/-! ### Documents as JSON

Every entry and item on a line of its own, indented by two blanks for each level. Characters that
mean something in markup are written by their code points.
-/

namespace TastyLang.Document

/-- A character inside of quotes. -/
def jsonChar (c : Char) : List Char :=
  match c with
  | '"' => ['\\', '"']
  | '\\' => ['\\', '\\']
  | '\n' => ['\\', 'n']
  | '\r' => ['\\', 'r']
  | '\t' => ['\\', 't']
  | c =>
    let n := c.toNat
    if n = 8 then ['\\', 'b']
    else if n = 12 then ['\\', 'f']
    else if n < 0x20 || ['<', '>', '&'].contains c || n = 0x2028 || n = 0x2029 then
      '\\' :: 'u' :: Text.hexDigits 4 n
    else [c]

def jsonText (s : String) : String :=
  String.ofList ('"' :: s.toList.flatMap jsonChar ++ ['"'])

/-- Lines between brackets, one level deeper than the brackets. -/
def jsonLines (opening closing : String) (depth : Nat) (lines : List String) : String :=
  if lines.isEmpty then opening ++ closing
  else
    let indent := Text.repeated "  " depth
    opening ++ "\n" ++ Text.join ",\n" (lines.map fun l => indent ++ "  " ++ l) ++ "\n" ++ indent
      ++ closing

mutual

/-- A document as JSON at some depth of indentation. -/
def jsonAt (depth : Nat) : Document → String
  | null => "null"
  | bool b => if b then "true" else "false"
  | int n | word _ n => toString n
  | float x => x.text
  | text s => jsonText s
  | list items => jsonLines "[" "]" depth (jsonItems (depth + 1) items)
  | map entries => jsonLines "\x7b" "\x7d" depth (jsonEntries (depth + 1) entries)

def jsonItems (depth : Nat) : List Document → List String
  | [] => []
  | d :: ds => jsonAt depth d :: jsonItems depth ds

def jsonEntries (depth : Nat) : List (String × Document) → List String
  | [] => []
  | (k, d) :: es => (jsonText k ++ ": " ++ jsonAt depth d) :: jsonEntries depth es

end

def json (d : Document) : String := jsonAt 0 d

end TastyLang.Document
