import TastyLang.Compilation.Basic
import TastyLang.Files.Basic
import TastyLang.Glob.Reading
import TastyLang.Graph.Basic

/-!
# Units of a build

The files of a source tree that a build takes, and where their results go. `discover` passes over
directories whose names start with a dot.
-/

namespace TastyLang

/-- A file of the source tree. -/
structure SourceUnit where
  path : String
  /-- the path from the source root -/
  rel : String
  deriving DecidableEq, Inhabited

def SourceUnit.moduleName (u : SourceUnit) : String := TastyLang.moduleName u.rel

structure BuildOptions where
  srcDir : String
  outDir : String
  selection : Selection
  headerExt : String
  pragmaOnce : Bool := false
  table : Table
  deriving Inhabited

namespace BuildOptions

def cppExt : String := ".cpp"

/-- Where the header and the source of a unit go. -/
def outputPaths (o : BuildOptions) (u : SourceUnit) : String × String :=
  let base := Text.joinPath [o.outDir, unitName u.rel]
  (base ++ o.headerExt, base ++ cppExt)

/-- What the result of a unit with this text depends on. -/
def content (o : BuildOptions) (u : SourceUnit) (text : String) : Content :=
  ⟨o.table, o.headerExt, o.pragmaOnce, u.rel, text⟩

def compileOptions (o : BuildOptions) : CompileOptions := ⟨o.headerExt, o.pragmaOnce⟩

/-- Whether one of the directories on the way to a file is hidden. -/
def inHidden (rel : String) : Bool :=
  (Text.elements rel).dropLast.any (Text.startsWith "." ·)

/-- The units of a source tree, in the order of their paths. -/
def discover (o : BuildOptions) (t : FileTree) : List SourceUnit :=
  let units := (t.filesBelow o.srcDir).map fun path => ⟨path, Text.relativePath o.srcDir path⟩
  (units.filter fun u => !inHidden u.rel && o.selection.selects u.rel).mergeSort
    fun a b => decide (a.rel ≤ b.rel)

end BuildOptions

/-- Why a unit has no result. -/
inductive BuildError where
  | compile (e : CompileError)
  | files (message : String)
  deriving Inhabited

namespace BuildError

/-- What went wrong in the file `rel`. -/
def message (rel : String) : BuildError → String
  | compile e => rel ++ ": " ++ e.message
  | files m => m

def diagnostic (rel : String) : BuildError → Diagnostic
  | compile e => .ofError rel e
  | files m => .ofMessage rel m

end BuildError

inductive BuildStatus where
  | built | cached | failed
  deriving DecidableEq, Inhabited

def BuildStatus.name : BuildStatus → String
  | built => "built" | cached => "cached" | failed => "failed"

/-- What became of a unit. -/
structure UnitResult where
  unit : SourceUnit
  status : BuildStatus
  headerPath : String
  sourcePath : String
  /-- the text of the unit, for diagnostics -/
  text : String := ""
  error : Option BuildError := none
  deriving Inhabited

def UnitResult.diagnostic? (r : UnitResult) : Option Diagnostic :=
  r.error.map (·.diagnostic r.unit.rel)

/-!
## The imports of a project

The module graph of a source tree. Units that cannot be analyzed stand in the graph without
imports.
-/


namespace Build

/-- The modules that a unit imports. -/
def importsOf (o : BuildOptions) (t : FileTree) (u : SourceUnit) :
    Except UnitResult (List String) :=
  let failed := fun text e =>
    let paths := o.outputPaths u
    Except.error ⟨u, .failed, paths.1, paths.2, text, some e⟩
  match t.read u.path with
  | .error fault => failed "" (.files (FileError.mk "open" u.path fault).message)
  | .ok text =>
    match analyze o.table u.rel text with
    | .error e => failed text (.compile e)
    | .ok a => .ok a.file.imports

/-- The graph of units whose imports are known, and the units that failed. -/
def graph (o : BuildOptions) (t : FileTree) : Except GraphError (Graph × List UnitResult) := do
  let us := o.discover t
  let bare : Graph := us.foldl (fun g u => g.addUnit u.moduleName u.rel) {}
  let found := us.map fun u => (u.moduleName, importsOf o t u)
  let failed := found.filterMap fun
    | (_, .error r) => some r
    | _ => none
  -- of two units of one name the last gives the imports
  let known := found.filterMap fun
    | (m, .ok is) => some (m, is)
    | _ => none
  let g ← us.foldlM (fun g u =>
    ((known.reverse.lookup u.moduleName).getD []).foldlM
      (fun g m => g.addImport u.moduleName m) g) bare
  return (g, failed)

end Build

end TastyLang
