import TastyLang.Builtin.Basic
import TastyLang.Builtin.Overlay
import TastyLang.Document.Basic
import TastyLang.Keyed.Basic

/-!
# The build store

What builds remember: a mark of the content that each file was last built from, and the runs so
far. A mark may be linked to the run that made it, which has to exist. A store that was never
opened answers every question with an error.
-/

namespace TastyLang

namespace Run

/-- What a run did with the files it found. -/
structure Stats where
  files : Int := 0
  built : Int := 0
  cached : Int := 0
  failed : Int := 0
  deriving DecidableEq, Inhabited

end Run

/-- A run of the build. -/
structure Run where
  id : String
  status : String := "running"
  /-- the time it was started at -/
  started : String := ""
  completed : Bool := false
  stats : Run.Stats := {}
  error : String := ""
  deriving DecidableEq, Inhabited

namespace Run

def completedStatus : String := "completed"

def failedStatus : String := "failed"

end Run

inductive StoreError where
  | notOpened
  | noRun (id : String)
  /-- a mark linked to a run that does not exist -/
  | dangling
  deriving DecidableEq, Inhabited

def StoreError.message : StoreError → String
  | notOpened => "database not opened"
  | noRun id => "run not found: " ++ id
  | dangling =>
    "failed to set content hash: constraint failed: FOREIGN KEY constraint failed (787)"

/-- The marks by path, and the runs in the order of their start. -/
structure Store (α : Type) where
  marks : Keyed α := []
  runs : List Run := []
  deriving DecidableEq, Inhabited

namespace Store

variable {α : Type}

/-- The version of the layout of stores. -/
def version : Nat := 1

/-- Asks a store that may not be open. -/
def ask {β : Type} (s : Option (Store α)) (f : Store α → Except StoreError β) :
    Except StoreError β :=
  match s with
  | some s => f s
  | none => .error .notOpened

def mark? (s : Store α) (path : String) : Option α := s.marks.lookup path

def run? (s : Store α) (id : String) : Option Run := s.runs.find? (·.id == id)

/-- Sets the mark of a path, linked to a run unless `run` is empty. -/
def setMark (s : Store α) (path : String) (mark : α) (run : String) :
    Except StoreError (Store α) :=
  if run ≠ "" && (s.run? run).isNone then .error .dangling
  else .ok { s with marks := Keyed.insert path mark s.marks }

def eraseMark (s : Store α) (path : String) : Store α :=
  { s with marks := Keyed.erase path s.marks }

def clear (s : Store α) : Store α := { s with marks := [] }

def startRun (s : Store α) (id started : String) : Store α :=
  { s with runs := s.runs ++ [{ id, started }] }

/-- Writes down how a run ended. -/
def completeRun (s : Store α) (id status : String) (stats : Run.Stats) (error : String) :
    Except StoreError (Store α) :=
  if (s.run? id).isNone then .error (.noRun id)
  else .ok { s with
    runs := s.runs.map fun r =>
      if r.id == id then { r with status, stats, error, completed := true } else r }

def getRun (s : Store α) (id : String) : Except StoreError Run :=
  match s.run? id with
  | some r => .ok r
  | none => .error (.noRun id)

def latestRun? (s : Store α) : Option Run := s.runs.getLast?

/-- The runs from the newest back, at most `limit` of them; all when it is negative. -/
def listRuns (s : Store α) (limit : Int) : List Run :=
  if limit < 0 then s.runs.reverse else s.runs.reverse.take limit.toNat

end Store

end TastyLang

/-! ### What a result depends on

The content of a file together with everything else that its C++ text depends on. Two equal
contents give equal results, so a file whose content is the one of its last build need not be built
again.
-/

namespace TastyLang

structure Content where
  table : Table
  headerExt : String
  pragmaOnce : Bool
  /-- the path of the file from the source root -/
  rel : String
  text : String
  deriving DecidableEq, Inhabited

/-- The store of a project. -/
abbrev Cache := Store Content

end TastyLang

/-! ### Saved stores

The store of a project as a text. `Cache.ofSaved?` reads what `Cache.saved` writes.
-/

namespace TastyLang.Cache

/-- The key under which a saved store has its version. -/
def versionKey : String := "store"

def statsDocument (s : Run.Stats) : Document :=
  .list ([s.files, s.built, s.cached, s.failed].map .int)

def runDocument (r : Run) : Document :=
  .ofEntries [("id", .text r.id), ("status", .text r.status), ("started", .text r.started),
    ("completed", .bool r.completed), ("stats", statsDocument r.stats), ("error", .text r.error)]

def contentDocument (c : Content) : Document :=
  .ofEntries [("table", c.table.toDocument), ("header_ext", .text c.headerExt),
    ("pragma_once", .bool c.pragmaOnce), ("rel", .text c.rel), ("text", .text c.text)]

/-- A store as a text. -/
def saved (c : Cache) : String :=
  (Document.ofEntries [(versionKey, .int Store.version),
    ("marks", .map (c.marks.map fun (path, m) => (path, contentDocument m))),
    ("runs", .list (c.runs.map runDocument))]).json ++ "\n"

/-! ### Reading -/

def statsOf? : Document → Option Run.Stats
  | .list [.int files, .int built, .int cached, .int failed] => some ⟨files, built, cached, failed⟩
  | _ => none

def textOf? (d : Document) (key : String) : Option String :=
  match d.get? key with
  | some (.text s) => some s
  | _ => none

def switchOf? (d : Document) (key : String) : Option Bool :=
  match d.get? key with
  | some (.bool b) => some b
  | _ => none

def runOf? (d : Document) : Option Run :=
  return {
    id := ← textOf? d "id", status := ← textOf? d "status", started := ← textOf? d "started"
    completed := ← switchOf? d "completed", stats := ← statsOf? (← d.get? "stats")
    error := ← textOf? d "error" }

def contentOf? (d : Document) : Option Content :=
  return ⟨← (Table.ofDocument (← d.get? "table")).toOption, ← textOf? d "header_ext",
    ← switchOf? d "pragma_once", ← textOf? d "rel", ← textOf? d "text"⟩

/-- The store of a document. -/
def ofDocument? (d : Document) : Option Cache := do
  match d.get? versionKey, d.get? "marks", d.get? "runs" with
  | some (.int version), some (.map marks), some (.list runs) =>
    if version ≠ Store.version then none
    return {
      marks := ← marks.mapM fun (path, m) => return (path, ← contentOf? m)
      runs := ← runs.mapM runOf? }
  | _, _, _ => none

/-- The store that a text holds, if it is a saved one. -/
def ofSaved? (s : String) : Option Cache :=
  (Literal.document? s).bind ofDocument?

end TastyLang.Cache
