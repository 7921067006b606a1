import TastyLang.Build.Basic

/-!
# Building

A build compiles the units of a source tree at the same time and writes their headers and sources.
With a cache it leaves a unit alone when its content is the one of its last build and both results are
there. A unit that fails does not stop the others.
-/

namespace TastyLang

/-- The files and the cache that a build works on; a build without a cache has none. -/
structure Workspace where
  files : FileTree
  cache : Option Cache := none
  deriving DecidableEq, Inhabited

namespace Workspace

/-- Whether the last build of a unit was one of this content. -/
def isMarked (w : Workspace) (u : SourceUnit) (content : Content) : Bool :=
  (w.cache.bind (·.mark? u.rel)) == some content

def forget (w : Workspace) (u : SourceUnit) : Workspace :=
  { w with cache := w.cache.map (·.eraseMark u.rel) }

/-- Notes what a unit was built from. -/
def note (w : Workspace) (u : SourceUnit) (content : Content) (run : String) : Workspace :=
  { w with
    cache := w.cache.map fun c =>
      match c.setMark u.rel content run with
      | .ok c' => c'
      | .error _ => c }

end Workspace

namespace Build

/-! ### One unit -/

/-- How far the build of a unit is, by what it does next. -/
inductive Progress where
  /-- it reads the text -/
  | start
  /-- it looks the mark up -/
  | read (text : String)
  /-- the mark is current: it looks for the header -/
  | marked (text : String)
  /-- the header is there: it looks for the source -/
  | headed (text : String)
  /-- it makes the directory for the results -/
  | compiled (text : String) (unit : CppUnit)
  /-- it writes the header -/
  | placed (text : String) (unit : CppUnit)
  /-- it writes the source -/
  | half (text : String) (unit : CppUnit)
  /-- it sets the mark -/
  | written (text : String)
  /-- it erases the mark -/
  | broken (text : String) (e : BuildError)
  | done (r : UnitResult)
  deriving Inhabited

/-- How many steps a build of a unit takes at most. -/
def Progress.longest : Nat := 8

def Progress.result? : Progress → Option UnitResult
  | .done r => some r
  | _ => none

/-- What becomes of a unit whose results are not current. -/
def translate (o : BuildOptions) (u : SourceUnit) (text : String) : Progress :=
  match compile o.table o.compileOptions u.rel text with
  | .error e => .broken text (.compile e)
  | .ok c => .compiled text c.unit

/-- The error of a result that cannot be written. -/
def writeError (path : String) (fault : FileFault) : BuildError :=
  .files (s!"failed to write {path}: " ++ (FileError.mk "open" path fault).message)

/-- The next step of the build of a unit: one access to the files or to the cache. What was done before
an error stays. -/
def advance (o : BuildOptions) (run : String) (u : SourceUnit) (w : Workspace) :
    Progress → Progress × Workspace :=
  let paths := o.outputPaths u
  let ended := fun status text error =>
    Progress.done ⟨u, status, paths.1, paths.2, text, error⟩
  fun
  | .start =>
    match w.files.read u.path with
    | .error fault =>
      let m := u.rel ++ ": " ++ (FileError.mk "open" u.path fault).message
      (ended .failed "" (some (.files m)), w)
    | .ok text => (.read text, w)
  | .read text =>
    (if w.isMarked u (o.content u text) then .marked text else translate o u text, w)
  | .marked text => (if w.files.contains paths.1 then .headed text else translate o u text, w)
  | .headed text =>
    (if w.files.contains paths.2 then ended .cached text none else translate o u text, w)
  | .compiled text unit =>
    match w.files.makeDirs "/" (Text.dirName paths.1) with
    | .error e =>
      (.broken text (.files ("failed to create output directory: " ++ e.message)), w)
    | .ok files => (.placed text unit, { w with files })
  | .placed text unit =>
    match w.files.write paths.1 unit.header with
    | .error fault => (.broken text (writeError paths.1 fault), w)
    | .ok files => (.half text unit, { w with files })
  | .half text unit =>
    match w.files.write paths.2 unit.source with
    | .error fault => (.broken text (writeError paths.2 fault), w)
    | .ok files => (.written text, { w with files })
  | .written text => (ended .built text none, w.note u (o.content u text) run)
  | .broken text e => (ended .failed text (some e), w.forget u)
  | .done r => (.done r, w)

/-! ### All units

Units are built at the same time, and their steps come in any order: a schedule says whose turn it
is. How many units a build takes up at once only rules some schedules out.
-/

structure Task where
  unit : SourceUnit
  progress : Progress := .start
  deriving Inhabited

/-- The units of a build and what they work on. -/
structure Crew where
  workspace : Workspace
  tasks : List Task

/-- The unit at place `i` takes a step. -/
def Crew.turn (o : BuildOptions) (run : String) (c : Crew) (i : Nat) : Crew :=
  match c.tasks[i]? with
  | none => c
  | some t =>
    let (progress, workspace) := advance o run t.unit c.workspace t.progress
    ⟨workspace, c.tasks.set i { t with progress }⟩

/-- The turns of a schedule, and then as many for each of `count` units as a build of it takes, the
last unit first. -/
def turns (schedule : List Nat) (count : Nat) : List Nat :=
  schedule ++ (List.range count).reverse.flatMap (List.replicate Progress.longest)

/-- Builds units by a schedule, to the end of each. -/
def units (o : BuildOptions) (run : String) (schedule : List Nat) (w : Workspace)
    (us : List SourceUnit) : List UnitResult × Workspace :=
  let c := (turns schedule us.length).foldl (Crew.turn o run) ⟨w, us.map ({ unit := · })⟩
  (c.tasks.filterMap (·.progress.result?), c.workspace)

def stats (rs : List UnitResult) : Run.Stats :=
  let count := fun s => ((rs.filter (·.status == s)).length : Int)
  ⟨rs.length, count .built, count .cached, count .failed⟩

def errorText (rs : List UnitResult) : String :=
  Text.join "\n" (rs.filterMap fun r => r.error.map (·.message r.unit.rel))

/-- Builds all units of a source tree and writes the run down. -/
def run (o : BuildOptions) (id started : String) (schedule : List Nat) (w : Workspace) :
    List UnitResult × Workspace :=
  let opened := { w with cache := w.cache.map (·.startRun id started) }
  let (rs, w) := units o id schedule opened (o.discover w.files)
  let s := stats rs
  let status := if s.failed = 0 then Run.completedStatus else Run.failedStatus
  (rs, { w with
    cache := w.cache.map fun c =>
      match c.completeRun id status s (errorText rs) with
      | .ok c' => c'
      | .error _ => c })

/-! ### Cleaning -/

/-- Removes a file that may not be there. -/
def removeOutput (t : FileTree) (path : String) : Except FileError FileTree :=
  match t.remove path with
  | .ok t' => .ok t'
  | .error .missing => .ok t
  | .error fault => .error ⟨"remove", path, fault⟩

/-- Removes the results of units and what is known of them, up to the first that cannot be
removed. -/
def cleanUnits (o : BuildOptions) : Workspace → List SourceUnit → Except FileError Unit × Workspace
  | w, [] => (.ok (), w)
  | w, u :: us =>
    let paths := o.outputPaths u
    match removeOutput w.files paths.1 with
    | .error e => (.error e, w)
    | .ok files =>
      match removeOutput files paths.2 with
      | .error e => (.error e, { w with files })
      | .ok files => cleanUnits o (Workspace.forget { w with files } u) us

end Build

end TastyLang
