import TastyLang.Attribute.Expansion
import TastyLang.Emission.Unit
import TastyLang.Ownership.Basic
import TastyLang.Reading.Declarations
import TastyLang.Resolution.Bodies
import TastyLang.Text.Path
import TastyLang.Text.Pieces
import TastyLang.Text.Terminal

/-!
# Compilation

## Names of files

A file of the language gives its name to a unit of C++ and to a module that others import.
-/

namespace TastyLang

/-- The extension of the files of the language. -/
def sourceExt : String := ".tasty"

/-- The name of a unit: the path of its file without the extension. -/
def unitName (path : String) : String :=
  if Text.extension path = sourceExt then Text.dropTail sourceExt path else path

/-- The name under which a file is imported: its path from the source root with dots for slashes. -/
def moduleName (rel : String) : String :=
  Text.replaceChar '/' "." (Text.dropTail sourceExt rel)

/-!
## Compiling a file

A text is read, its names are resolved, storage and ownership are settled, attributes are expanded,
and the result is written as a header and a source. The first error ends the work.
-/


/-- An error of one of the steps. -/
inductive CompileError where
  | read (e : SyntaxError)
  | resolve (e : ResolveError)
  | expand (e : AttributeError)
  | emit (e : EmitError)
  deriving Inhabited

namespace CompileError

/-- The code of the error; empty when it has none. -/
def code : CompileError → String
  | read (.scan e) => e.code
  | read (.parse e) => e.code
  | read .exhausted => ""
  | resolve e => e.code
  | expand e => e.code
  | emit e => e.code

def pos : CompileError → Pos
  | read (.scan e) => e.pos
  | read (.parse e) => e.pos
  | read .exhausted => {}
  | resolve e => e.pos
  | expand e => e.pos
  | emit e => e.pos

/-- What went wrong, without the place. -/
def detail : CompileError → String
  | read (.scan e) => e.detail
  | read (.parse e) => e.detail
  | read .exhausted => SyntaxError.exhausted.message
  | resolve e => e.detail
  | expand e => e.detail
  | emit e => e.detail

/-- What went wrong and where. -/
def message : CompileError → String
  | read e => e.message
  | resolve e => e.message
  | expand e => e.message
  | emit e => e.message

end CompileError

/-- A file after all steps but the last. -/
structure Analysis where
  name : String
  file : File
  info : Info
  deriving Inhabited

/-- Everything that can be said about a text before it is written in C++. -/
def analyze (table : Table) (name src : String) : Except CompileError Analysis := do
  let file ← (File.read table name src).mapError .read
  let info ← (file.resolve table).mapError .resolve
  let expanded ← ((file.settle info).expand (some info)).mapError .expand
  return ⟨unitName name, expanded, info⟩

/-- How units are written. -/
structure CompileOptions where
  headerExt : String := ""
  pragmaOnce : Bool := false
  deriving DecidableEq, Inhabited

/-- A compiled unit. -/
structure Compiled where
  name : String
  unit : CppUnit
  deriving DecidableEq, Inhabited

/-- The header and the source of a text. -/
def compile (table : Table) (o : CompileOptions) (name src : String) :
    Except CompileError Compiled := do
  let a ← analyze table name src
  let unit ← (a.file.emit table (some a.info)
    { name := a.name, headerExt := o.headerExt, pragmaOnce := o.pragmaOnce }).mapError .emit
  return ⟨a.name, unit⟩

/-! ### Diagnostics

How a problem in a file is shown: the place and the message, and below them the line with a mark
under the column.
-/


structure Diagnostic where
  file : String
  pos : Pos := {}
  code : String := ""
  message : String
  /-- the line of the file, when it is known -/
  line : String := ""
  deriving DecidableEq, Inhabited

namespace Diagnostic

/-- The diagnostic of a compile error. -/
def ofError (file : String) (e : CompileError) : Diagnostic :=
  { file, pos := e.pos, code := e.code, message := e.detail }

/-- The diagnostic of any other error, without the name of the file in front of its message. -/
def ofMessage (file message : String) : Diagnostic :=
  { file, message := Text.dropHead (file ++ ": ") message }

/-- The diagnostic with the line of the text that it is about. -/
def withSource (d : Diagnostic) (src : String) : Diagnostic :=
  if d.pos.isSet then
    match (Text.cutChars '\n' src.toList)[(d.pos.line - 1).toNat]? with
    | some l => { d with line := String.ofList (Text.dropLastWhile (· = '\r') l) }
    | none => d
  else d

def location (d : Diagnostic) : String :=
  if d.pos.isSet then s!"{d.file}:{d.pos.line}:{d.pos.column}" else d.file

def label (d : Diagnostic) : String := if d.code = "" then "error" else s!"error[{d.code}]"

def text (d : Diagnostic) : String := d.location ++ ": " ++ d.label ++ ": " ++ d.message

/-- What stands in front of the mark: a blank for each character, and tabs as they are. -/
def markIndent (column : Int) (offset : Int) : List Char → List Char
  | [] => []
  | c :: cs =>
    if column - 1 ≤ offset then []
    else (if c = '\t' then '\t' else ' ') :: markIndent column (offset + c.utf8Size) cs

/-- The diagnostic with its line and a mark below it. -/
def print (d : Diagnostic) : String :=
  let head := Report.styled d.location ++ ": " ++ Report.styled d.label ++ ": " ++ d.message ++ "\n"
  if d.line = "" then head
  else
    let number := toString d.pos.line
    head ++ number ++ " | " ++ d.line ++ "\n"
      ++ Text.repeated " " number.length ++ " | "
      ++ String.ofList (markIndent d.pos.column 0 d.line.toList) ++ "^\n"

end Diagnostic

end TastyLang
