import TastyLang.Document.Basic
import TastyLang.Text.Letters
import TastyLang.Text.Terminal

/-!
# Reports

What a command prints: results on one stream, diagnostics on another, in one of three modes. Titles
and tables look different in each mode; data for other programs is JSON.
-/

/-! ### Tables

A `Grid` of cells under headers, drawn as a box or written in Markdown. It has as many columns as
its longest row; what a row does not have is empty.
-/

namespace TastyLang.Report

structure Grid where
  headers : List String
  rows : List (List String)
  deriving DecidableEq, Inhabited

namespace Grid

/-! ### Cells -/

/-- A line in which each carriage return goes back to the start: what follows it is written over
what stands there. -/
def overwritten (line : List Char) : List Char :=
  (Text.cutChars '\r' line).foldl (fun shown piece => piece ++ shown.drop piece.length) []

/-- A cell as it is shown: tabs are four blanks, and line ends are one character. -/
def cell (s : String) : String :=
  let lines := Text.cutChars '\n' (unixLines (Text.replaceChar '\t' "    " s).toList)
  String.ofList (Text.joinChars '\n' (lines.map overwritten))

def escape : Char := Char.ofNat 0x1B

/-- The mark behind the start of a control sequence: the bracket of a colour, or that of a
command. -/
def sequenceMark? (seq : List Char) : Option Char := seq.find? fun c => c = '[' || c = ']'

/-- Whether a control sequence is complete. Links end in a sequence of their own. -/
def isComplete (seq : List Char) : Bool :=
  if [escape, ']', '8', ';'].isPrefixOf seq then [escape, '\\'].isSuffixOf seq
  else
    match sequenceMark? seq with
    | some '[' => seq.getLast? = some 'm'
    | some _ => seq.getLast? = some '\\'
    | none => false

/-- A text without its control sequences; `seq` is the one that is read. -/
def unmarked : List Char → List Char → List Char
  | _, [] => []
  | [], c :: cs => if c = escape then unmarked [c] cs else c :: unmarked [] cs
  | seq, c :: cs =>
    let seq := seq ++ [c]
    if isComplete seq then unmarked [] cs else unmarked seq cs

def width (cs : List Char) : Nat := Text.width (unmarked [] cs)

def longest (cs : List Char) : Nat :=
  ((Text.cutChars '\n' (unmarked [] cs)).map Text.width).foldl max 0

/-- A text with blanks up to `n` columns, in front of it or behind it. -/
def padded (right : Bool) (n : Nat) (cs : List Char) : String :=
  let blanks := List.replicate (n - width cs) ' '
  String.ofList (if right then blanks ++ cs else cs ++ blanks)

/-- A text in capitals, but for its control sequences; `inside` is true in one of them. -/
def capitalized : Bool → List Char → List Char
  | _, [] => []
  | inside, c :: cs =>
    if inside || c = escape then c :: capitalized (c ≠ 'm') cs
    else Text.capital c :: capitalized false cs

/-! ### Columns -/

def columns (g : Grid) : Nat := ((g.headers :: g.rows).map List.length).foldl max 0

def cells (g : Grid) (row : List String) : List String :=
  (List.range g.columns).map fun i => cell (row.getD i "")

def lines (s : String) : List (List Char) := Text.cutChars '\n' s.toList

/-- The number of columns of text in each column of the grid. -/
def widths (g : Grid) : List Nat :=
  (List.range g.columns).map fun i =>
    ((g.headers :: g.rows).map fun row => longest (cell (row.getD i "")).toList).foldl max 0

/-- The cells of a column stand on the right if no row reaches it. -/
def alignsRight (g : Grid) (column : Nat) : Bool := g.rows.all fun row => row.length ≤ column

/-! ### Boxes -/

/-- A horizontal line of a box with its left, inner and right joints. -/
def rule (g : Grid) (left inner right : String) : String :=
  left ++ Text.join inner (g.widths.map fun w => Text.repeated "─" (w + 2)) ++ right ++ "\n"

/-- A row of a box: as many lines as its highest cell has, each of them in a form. -/
def boxRow (g : Grid) (form : List Char → List Char) (row : List String) : String :=
  if row.isEmpty then ""
  else
    let columns := (g.cells row).map lines
    let height := (columns.map List.length).foldl max 0
    String.join ((List.range height).map fun i =>
      "│" ++ String.join ((columns.zip g.widths).zipIdx.map fun ((ls, w), k) =>
        " " ++ padded (g.alignsRight k) w (form (ls.getD i [])) ++ " │") ++ "\n")

/-- The grid in a box, with its headers in capitals. -/
def box (g : Grid) : String :=
  if g.columns = 0 then ""
  else
    g.rule "┌" "┬" "┐" ++ g.boxRow (capitalized false) g.headers ++ g.rule "├" "┼" "┤"
      ++ String.join (g.rows.map (g.boxRow id)) ++ g.rule "└" "┴" "┘"

/-! ### Markdown -/

def markdownCell (s : String) : String :=
  Text.replaceChar '\n' "<br/>" (Text.replaceChar '|' "\\|" s)

def markdownRow (g : Grid) (row : List String) : String :=
  "|" ++ String.join ((g.cells row).map fun c => " " ++ markdownCell c ++ " |") ++ "\n"

/-- The line below the headers. -/
def markdownRule (g : Grid) : String :=
  let mark := fun k => if g.alignsRight k then " ---:|" else " --- |"
  "|" ++ String.join ((List.range g.columns).map mark) ++ "\n"

def markdown (g : Grid) : String :=
  if g.columns = 0 then ""
  else g.markdownRow g.headers ++ g.markdownRule ++ String.join (g.rows.map g.markdownRow)

end Grid

end TastyLang.Report

namespace TastyLang

namespace Report

inductive Mode where
  | text | markdown | json
  deriving DecidableEq, Inhabited

def Mode.name : Mode → String
  | text => "text" | markdown => "markdown" | json => "json"

/-- The mode that a user asks for; `auto` leaves it to the stream. -/
inductive Choice where
  | auto
  | fixed (m : Mode)
  deriving DecidableEq, Inhabited

namespace Choice

def all : List Choice := [auto, fixed .text, fixed .markdown, fixed .json]

def name : Choice → String
  | auto => "auto"
  | fixed m => m.name

/-- A letter in lower case, with the signs that count as the same letter. -/
def folded (c : Char) : Char :=
  if c.toNat = 0x17f then 's' else if c.toNat = 0x212a then 'k' else c.toLower

/-- The choice with a name in letters of any case; no name leaves it open. -/
def ofName? (s : String) : Option Choice :=
  if s = "" then some auto
  else all.find? fun c => c.name.toList == s.toList.map folded

/-- The message about a name that no choice has. -/
def unknownMessage (s : String) : String :=
  let names := Text.join ", " (all.map name)
  s!"unknown output format {Text.quote s} (want one of {names})"

/-- The mode for a stream, which may be a terminal. -/
def mode (tty : Bool) : Choice → Mode
  | fixed m => m
  | auto => if tty then .text else .markdown

end Choice

end Report

/-- The streams of a command and the mode it prints in. -/
structure Report where
  mode : Report.Mode
  out : String := ""
  err : String := ""
  deriving DecidableEq, Inhabited

namespace Report

def print (r : Report) (s : String) : Report := { r with out := r.out ++ s }

def println (r : Report) (s : String) : Report := r.print (s ++ "\n")

/-- Prints on the stream for diagnostics. -/
def note (r : Report) (s : String) : Report := { r with err := r.err ++ s }

def heading (level : Int) (s : String) : String :=
  Text.repeated "#" (max level 1).toNat ++ " " ++ s

def item (key value : String) : String := s!"- **{key}**: {value}"

/-- Prints a title. -/
def header (r : Report) (level : Int) (s : String) : Report :=
  if r.mode = .markdown then (r.println (heading level s)).println "" else r.println (styled s)

def success (r : Report) (s : String) : Report := r.println (styled s)

def warning (r : Report) (s : String) : Report := r.note ("warning: " ++ s ++ "\n")

/-- Prints a value under its name. -/
def keyValue (r : Report) (key value : String) : Report :=
  if r.mode = .markdown then r.println (item key value)
  else r.println (styled (key ++ ":") ++ " " ++ value)

def table (r : Report) (g : Grid) : Report :=
  r.print (if r.mode = .markdown then g.markdown else g.box)

def json (r : Report) (d : Document) : Report := r.println d.json

end Report

end TastyLang
