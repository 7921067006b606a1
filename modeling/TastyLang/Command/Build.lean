import TastyLang.Command.Basic
import TastyLang.Build.Basic

/-!
# The commands `build`, `clean`, `emit`, `symbols` and `deps`
-/

namespace TastyLang.Command

open TastyLang.Action

/-- The report of a build as data. -/
def buildRecord (s : Session) (cached : Bool) (rs : List UnitResult) : Document :=
  let stats := Build.stats rs
  record [
    ("run_id", if cached then textField s.run else none), ("files", some (.int stats.files)),
    ("built", some (.int stats.built)), ("cached", some (.int stats.cached)),
    ("failed", some (.int stats.failed)), ("elapsed", some (.text s.elapsed)),
    ("results", some (.list (rs.map (unitRecord · true))))]

/-- The row of a unit: its file, what became of it, and where its header is. -/
def buildRow (c : Config) (r : UnitResult) : List String :=
  let header := if r.error.isNone then Text.relativePath c.outDir r.headerPath else ""
  [r.unit.rel, r.status.name, header]

/-- Prints the diagnostics of units that failed. -/
def diagnoseUnits (rs : List UnitResult) : Action Unit :=
  rs.forM fun r =>
    match r.diagnostic? with
    | some d => diagnose (d.withSource r.text)
    | none => pure ()

/-- Prints what became of the units and how many there were of each kind. Units that were left alone
are only listed when `all` are asked for. -/
def reportBuild (s : Session) (c : Config) (all : Bool) (rs : List UnitResult) : Action Unit := do
  diagnoseUnits rs
  let shown := rs.filter fun r => all || r.status ≠ .cached
  say (·.header 1 "Build")
  if !shown.isEmpty then
    say (·.table ⟨["File", "Status", "Header"], shown.map (buildRow c)⟩)
    println ""
  let stats := Build.stats rs
  let count := fun key (n : Int) => say (·.keyValue key (toString n))
  count "Files" stats.files
  count "Built" stats.built
  count "Cached" stats.cached
  count "Failed" stats.failed
  say (·.keyValue "Elapsed" s.elapsed)

/-- Builds the units of a project. -/
def build (s : Session) (c : Config) (l : Line) : Action Unit := do
  let o ← buildOptions c
  let cache ← openCache? s c
  let rs ← onWorkspace s c cache (Build.run o s.run s.time s.schedule)
  if (← mode) = .json then say (·.json (buildRecord s cache.isSome rs))
  else reportBuild s c (l.switch "all") rs
  let stats := Build.stats rs
  if stats.failed ≠ 0 then throw (.failedUnits stats.failed.toNat stats.files.toNat)

/-- Removes the results of a project's units and what its cache knows of them. -/
def clean (s : Session) (c : Config) (l : Line) : Action Unit := do
  let o ← buildOptions c
  let cache ← openCache? s c
  let us := o.discover (← files)
  let removed ← onWorkspace s c cache (Build.cleanUnits o · us)
  ofExcept .file removed
  if l.switch "reset-cache" && !c.noCache then
    let cache ← openCache s c
    keepCache s c cache.clear
  if (← mode) = .json then say (·.json (.map [("cleaned", .int us.length)]))
  else say (·.success s!"Removed outputs of {us.length} files from {c.outDir}")

end TastyLang.Command

/-! ### The commands `emit` and `symbols`

Commands on a single file: one shows its header and source, one lists what it declares.
-/

namespace TastyLang.Command

open TastyLang.Action

/-- What `emit` shows of a file. -/
structure Emitted where
  file : String
  headerName : String
  sourceName : String
  /-- the header, unless only the source is asked for -/
  header : Option String := none
  source : Option String := none
  error : Option Diagnostic := none
  deriving Inhabited

namespace Emitted

def toDocument (e : Emitted) : Document :=
  record [("file", some (.text e.file)), ("header_name", some (.text e.headerName)),
    ("source_name", some (.text e.sourceName)), ("header", e.header.bind textField),
    ("source", e.source.bind textField), ("error", e.error.map issue)]

/-- The texts themselves; two of them are told apart by comments. -/
def text (e : Emitted) : String :=
  match e.header, e.source with
  | some h, some s => s!"// {e.headerName}\n" ++ h ++ s!"\n// {e.sourceName}\n" ++ s
  | h, s => h.getD "" ++ s.getD ""

/-- A text under its name. -/
def markdownPart (name : String) (code : Option String) : String :=
  match code with
  | none | some "" => ""
  | some code => Report.heading 2 name ++ "\n\n\x60\x60\x60cpp\n" ++ code ++ "\x60\x60\x60\n\n"

def markdown (e : Emitted) : String :=
  let parts := markdownPart e.headerName e.header ++ markdownPart e.sourceName e.source
  if parts = "" then s!"_{e.file} produced no output_\n" else parts

end Emitted

/-- Shows the C++ text of a file. -/
def emit (s : Session) (c : Config) (l : Line) (path : String) : Action Unit := do
  let src ← sourceAt s path
  let t ← table c
  let name := nameOf s c path
  let base := Text.baseName (unitName name)
  let shown : Emitted :=
    { file := name, headerName := base ++ c.headerExt, sourceName := base ++ BuildOptions.cppExt }
  match compile t ⟨c.headerExt, c.pragmaOnce⟩ name src with
  | .error e =>
    let d := (Diagnostic.ofError name e).withSource src
    if (← mode) = .json then say (·.json { shown with error := some d }.toDocument)
    else diagnose d
    throw .compilation
  | .ok compiled =>
    let shown := { shown with
      header := if l.switch "source" then none else some compiled.unit.header
      source := if l.switch "header" then none else some compiled.unit.source }
    match ← mode with
    | .json => say (·.json shown.toDocument)
    | .markdown => say (·.print shown.markdown)
    | .text => say (·.print shown.text)

/-- A symbol as data. -/
def symbolRecord (e : Info.Entry) : Document :=
  record [("name", some (.text e.name)), ("kind", some (.text e.kind.name)),
    ("type", textField e.type), ("line", numberField e.line),
    ("unknown", if e.unknown then some (.bool true) else none)]

def symbolRow (e : Info.Entry) : List String :=
  [if 0 < e.line then toString e.line else "", e.name, e.kind.name, e.type]

/-- Lists the symbols that a file declares. -/
def symbols (s : Session) (c : Config) (l : Line) (path : String) : Action Unit := do
  let src ← sourceAt s path
  let t ← table c
  let name := nameOf s c path
  match analyze t name src with
  | .error e =>
    diagnose ((Diagnostic.ofError name e).withSource src)
    throw .analysis
  | .ok a =>
    let kind := l.text "kind"
    let found := a.info.listing.filter fun e =>
      (!e.unknown || l.switch "unknown") && (kind = "" || e.kind.name = kind)
    if (← mode) = .json then say (·.json (.list (found.map symbolRecord)))
    else if found.isEmpty then say (·.warning ("no symbols found in " ++ name))
    else
      say (·.header 1 ("Symbols in " ++ name))
      say (·.table ⟨["Line", "Name", "Kind", "Type"], found.map symbolRow⟩)

end TastyLang.Command

/-! ### The command `deps`

The modules of a project by levels, or those that a change affects in the order of their imports.
-/

namespace TastyLang.Command

open TastyLang.Action

/-- The module that a user means: a path of a source file stands for its module. -/
def moduleOf (given : String) : String :=
  let name := Text.trim given
  if Text.endsWith sourceExt name then moduleName name else name

/-- The changed modules and all that depend on them, every one behind those it imports. -/
def affectedInOrder (g : Graph) (changed : List String) : Except CommandError (List String) := do
  let ids ← changed.mapM fun given =>
    let id := moduleOf given
    if g.contains id then .ok id else .error (.unknownModule id)
  let affected := g.affected ids
  return (← g.order.mapError .graph).filter affected.contains

/-- The modules from outside that units import, by unit. -/
def externals (g : Graph) : List (String × List String) :=
  (g.ids.map fun id => (id, g.external id)).filter fun (_, ms) => !ms.isEmpty

/-- What `deps` shows: levels, or the modules that are affected by a change. -/
inductive DepsView where
  | levels (ls : List (List String))
  | affected (ids : List String)

/-- What `deps` was asked for. -/
def depsView (g : Graph) (changed : List String) : Except CommandError DepsView :=
  if changed.isEmpty then (g.levels.mapError .graph).map .levels
  else (affectedInOrder g changed).map .affected

def depsRecord (g : Graph) (failed : List UnitResult) (view : DepsView) : Document :=
  let texts := fun (xs : List String) => Document.list (xs.map .text)
  let items := fun (xs : List Document) => if xs.isEmpty then none else some (Document.list xs)
  let (levels, affected) := match view with
    | .levels ls => (items (ls.map texts), none)
    | .affected ids => (none, items (ids.map .text))
  let outside := (externals g).map fun (id, ms) => (id, texts ms)
  record [("levels", levels), ("affected", affected),
    ("external", if outside.isEmpty then none else some (.map outside)),
    ("modules", some (.int g.units.length)), ("edges", some (.int g.edges.length)),
    ("failed", items (failed.map (unitRecord · false)))]

/-- The lines about a module: its file and what it imports. -/
def moduleLines (g : Graph) (id : String) : List String :=
  let file := ((g.unit? id).map (·.file)).getD ""
  let names := fun title (ms : List String) =>
    if ms.isEmpty then [] else [s!"  - {title}: " ++ Text.join ", " ms]
  [s!"- {id} ({file})"] ++ names "imports" (g.imports id) ++ names "external" (g.external id)

def reportLevels (g : Graph) (levels : List (List String)) : Action Unit := do
  let markdown := (← mode) = .markdown
  let title := fun s => do
    println (Report.heading 2 s)
    println ""
  say (·.header 1 "Module Graph")
  levels.zipIdx.forM fun (level, i) => do
    if markdown then title s!"Level {i}" else println (Report.styled s!"Level {i}:")
    level.forM fun id => (moduleLines g id).forM println
    println ""
  if markdown then title "Summary"
  say (·.keyValue "Modules" (toString g.units.length))
  say (·.keyValue "Dependencies" (toString g.edges.length))

def reportAffected (ids : List String) : Action Unit := do
  say (·.header 1 "Affected Modules")
  ids.zipIdx.forM fun (id, i) => println s!"{i + 1}. {id}"

/-- Shows how the modules of a project depend on each other. -/
def deps (c : Config) (l : Line) : Action Unit := do
  let o ← buildOptions c
  let (g, failed) ← ofExcept .graph (Build.graph o (← files))
  let json := (← mode) = .json
  match depsView g (l.texts "affected") with
  | .error e =>
    match e with
    | .graph (.cycle _) => if !json then say (·.warning e.message)
    | _ => pure ()
    throw e
  | .ok view =>
    if json then say (·.json (depsRecord g failed view))
    else
      diagnoseUnits failed
      match view with
      | .levels ls => reportLevels g ls
      | .affected ids => reportAffected ids

end TastyLang.Command
