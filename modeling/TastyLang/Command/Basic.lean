import TastyLang.Build.Run
import TastyLang.Builtin.Overlay
import TastyLang.Command.Line
import TastyLang.Config.Loading
import TastyLang.Graph.Basic
import TastyLang.Report.Basic

/-!
# Commands

## Why they fail
-/

namespace TastyLang

/-- Why the cache of a project cannot be opened. -/
inductive CacheFault where
  | noDirectory (e : FileError)
  /-- a file that is no store -/
  | foreign
  | isDirectory
  deriving DecidableEq, Inhabited

def CacheFault.message : CacheFault → String
  | noDirectory e => "failed to create state directory: " ++ e.message
  | foreign => "failed to ping sqlite database: file is not a database (26)"
  | isDirectory =>
    "failed to ping sqlite database: unable to open database file: out of memory (14)"

inductive CommandError where
  | line (e : LineError)
  | unknownCommand (name parent : String)
  /-- a command that takes between `low` and `high` arguments -/
  | arguments (low high got : Nat)
  | exclusive (flags : List String)
  | config (e : ConfigError)
  | outputFormat (name : String)
  | source (e : SourceFault)
  | builtins (e : OverlayError)
  | cache (e : CacheFault)
  | pattern (e : PatternError)
  /-- a file that was named on the command line -/
  | unreadable (e : FileError)
  | file (e : FileError)
  | failedUnits (failed all : Nat)
  | compilation
  | analysis
  | graph (e : GraphError)
  | unknownModule (name : String)
  | failedChecks (n : Nat)
  | directory (path : String) (e : FileError)
  | alreadyThere (name : String)
  | template (e : FileError)
  deriving Inhabited

def CommandError.message : CommandError → String
  | line e => e.message
  | unknownCommand name parent => s!"unknown command {Text.quote name} for {Text.quote parent}"
  | arguments low high got =>
    if low = high then s!"accepts {low} arg(s), received {got}"
    else s!"accepts at most {high} arg(s), received {got}"
  | exclusive flags =>
    let names := Text.join " " flags
    s!"if any flags in the group [{names}] are set none of the others can be; "
      ++ s!"[{names}] were all set"
  | config e => e.message
  | outputFormat name => Report.Choice.unknownMessage name
  | source e => e.message
  | builtins e => "failed to load builtins: " ++ e.message
  | cache e => "failed to open build cache: " ++ e.message
  | pattern e => e.message
  | unreadable e => s!"failed to read {e.path}: {e.message}"
  | file e => e.message
  | failedUnits failed all => s!"{failed} of {all} files failed to transpile"
  | compilation => "transpilation failed"
  | analysis => "analysis failed"
  | graph e => e.message
  | unknownModule name => s!"unknown module {Text.quote name}"
  | failedChecks n => s!"{n} checks failed"
  | directory path e => s!"failed to create directory {path}: {e.message}"
  | alreadyThere name => s!"{name} already exists. Use --force to overwrite"
  | template e => "failed to initialize project: " ++ e.message

/-!
## What they do

A command works on a tree of files and prints a report. What it did before it failed stays done.
This module holds what several commands have in common: the table, the cache, the options of builds
and the files named on the command line.
-/


/-- What a command is run in. -/
structure Session where
  cwd : String
  env : List (String × String) := []
  /-- whether the report goes to a terminal -/
  tty : Bool := false
  /-- the name of the run that a build starts -/
  run : String
  /-- the time at which it starts -/
  time : String
  /-- how long it takes -/
  elapsed : String
  /-- whose turn it is when the units of a build are built at the same time -/
  schedule : List Nat := []
  deriving DecidableEq, Inhabited

/-- What a command has done so far. -/
structure Progress where
  files : FileTree
  report : Report
  deriving DecidableEq, Inhabited

abbrev Action := EStateM CommandError Progress

namespace Action

/-- The value of something that may fail, with what its failure means for the command. -/
def ofExcept {ε α : Type} (f : ε → CommandError) : Except ε α → Action α
  | .ok a => pure a
  | .error e => throw (f e)

def files : Action FileTree := return (← get).files

def setFiles (t : FileTree) : Action Unit := modify fun p => { p with files := t }

def mode : Action Report.Mode := return (← get).report.mode

def say (f : Report → Report) : Action Unit := modify fun p => { p with report := f p.report }

def println (s : String) : Action Unit := say (·.println s)

def diagnose (d : Diagnostic) : Action Unit := say (·.note d.print)

end Action

namespace Command

open TastyLang.Action

/-! ### The table -/

/-- The document of an overlay file. -/
def overlayAt (t : FileTree) (path : String) : Except OverlayError Document := do
  let text ← (t.readFrom "/" path).mapError fun e => Table.unreadableOverlay path e.message
  Table.overlayDocument ⟨path, text⟩

/-- The default table with the overlays of a project laid over it. -/
def tableOf (t : FileTree) (overlays : List String) : Except OverlayError Table := do
  if overlays.isEmpty then return Table.default
  Table.checked (← overlays.foldlM (fun d path => return d.merge (← overlayAt t path))
    Table.default.toDocument)

def table (c : Config) : Action Table := do
  ofExcept .builtins (tableOf (← files) c.builtins)

/-! ### The cache -/

/-- The options that a store is opened with. They stand behind its path, and where there is no path
they are taken for one. -/
def storeOptions : String :=
  "?_pragma=foreign_keys(1)&_pragma=journal_mode(WAL)&_pragma=busy_timeout(5000)"

/-- The file of a project's cache. -/
def cacheFile (s : Session) (c : Config) : String :=
  if c.cachePath = "" then Text.joinPath [s.cwd, storeOptions]
  else Text.clean (String.ofList (c.cachePath.toList.takeWhile (· ≠ '?')))

/-- Opens the cache of a project; where there is none an empty one is made. -/
def openCache (s : Session) (c : Config) : Action Cache := do
  let t ← ofExcept (.cache ∘ .noDirectory) ((← files).makeDirs s.cwd (Text.dirName c.cachePath))
  setFiles t
  let path := cacheFile s c
  let fresh : Action Cache := do
    setFiles ⟨Keyed.insert path (.cache {}) t.entries⟩
    return {}
  match t.entry? path with
  | some (.cache cache) => return cache
  | some (.file "") | none => fresh
  | some (.file _) => throw (.cache .foreign)
  | some .dir => throw (.cache .isDirectory)

/-- Writes the cache of a project back. -/
def keepCache (s : Session) (c : Config) (cache : Cache) : Action Unit :=
  modify fun p => { p with files := ⟨Keyed.insert (cacheFile s c) (.cache cache) p.files.entries⟩ }

/-! ### Builds -/

/-- The options of builds, once the sources are known to be there. -/
def buildOptions (c : Config) : Action BuildOptions := do
  ofExcept .source (c.checkSource (← files))
  let t ← table c
  let selection ← ofExcept .pattern (Selection.ofPatterns c.included c.excluded)
  return ⟨Text.clean c.srcDir, Text.clean c.outDir, selection, c.headerExt, c.pragmaOnce, t⟩

/-- Opens the cache unless the project does without. -/
def openCache? (s : Session) (c : Config) : Action (Option Cache) :=
  if c.noCache then return none else some <$> openCache s c

/-- Works on the files and the cache of a project together. -/
def onWorkspace {α : Type} (s : Session) (c : Config) (cache : Option Cache)
    (f : Workspace → α × Workspace) : Action α := do
  let (a, w) := f ⟨← files, cache⟩
  setFiles w.files
  match w.cache with
  | some cache => keepCache s c cache
  | none => pure ()
  return a

/-! ### Files on the command line -/

/-- The text of a file. -/
def sourceAt (s : Session) (path : String) : Action String := do
  ofExcept .unreadable ((← files).readFrom s.cwd path)

/-- The name of a file: its path from the source directory if it lies there, else its last name. -/
def nameOf (s : Session) (c : Config) (path : String) : String :=
  let rel := Text.relativePath (Text.clean c.srcDir) (Text.resolvePath s.cwd path)
  if Text.staysInside rel then rel else Text.baseName path

/-! ### Data for other programs -/

/-- A map of the fields that have something to say. -/
def record (fields : List (String × Option Document)) : Document :=
  .map (fields.filterMap fun (k, v) => v.map (k, ·))

def textField (s : String) : Option Document := if s = "" then none else some (.text s)

def numberField (n : Int) : Option Document := if n = 0 then none else some (.int n)

def issue (d : Diagnostic) : Document :=
  record [("code", textField d.code), ("line", numberField d.pos.line),
    ("column", numberField d.pos.column), ("message", some (.text d.message))]

/-- A unit of a build that failed, or one with the paths of its results. -/
def unitRecord (r : UnitResult) (paths : Bool) : Document :=
  let path := fun s => if paths && r.error.isNone then textField s else none
  record [("file", some (.text r.unit.rel)), ("status", some (.text r.status.name)),
    ("header", path r.headerPath), ("source", path r.sourcePath),
    ("error", r.diagnostic?.map issue)]

end Command

end TastyLang
