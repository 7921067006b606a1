import TastyLang.Store.Basic
import TastyLang.Text.Path

/-!
# Files

A tree of files and directories as a map from paths to entries. Paths start at the root and are
clean. A build store is a file of its own kind. Every operation checks that the directories around
its path are there.
-/

namespace TastyLang

inductive Entry where
  | dir
  | file (text : String)
  | cache (c : Cache)
  deriving DecidableEq, Inhabited

inductive FileFault where
  | missing
  | notDirectory
  | isDirectory
  | notEmpty
  deriving DecidableEq, Inhabited

def FileFault.message : FileFault → String
  | missing => "no such file or directory"
  | notDirectory => "not a directory"
  | isDirectory => "is a directory"
  | notEmpty => "directory not empty"

/-- A fault, the path it was met at, and what was to be done there. -/
structure FileError where
  action : String
  path : String
  fault : FileFault
  deriving DecidableEq, Inhabited

def FileError.message (e : FileError) : String := s!"{e.action} {e.path}: {e.fault.message}"

structure FileTree where
  entries : Keyed Entry := []
  deriving DecidableEq, Inhabited

namespace FileTree

def entry? (t : FileTree) (path : String) : Option Entry :=
  if path = "/" then some .dir else t.entries.lookup path

/-- Whether all directories around a path are there. -/
def checkAround (t : FileTree) (path : String) : Except FileFault Unit :=
  (Text.ancestors path).forM fun dir =>
    match t.entry? dir with
    | some .dir => .ok ()
    | some _ => .error .notDirectory
    | none => .error .missing

/-- The entry of a path. -/
def find (t : FileTree) (path : String) : Except FileFault Entry := do
  t.checkAround path
  match t.entry? path with
  | some e => return e
  | none => throw .missing

def contains (t : FileTree) (path : String) : Bool :=
  match t.find path with
  | .ok _ => true
  | .error _ => false

/-- The text of a file. A store has none. -/
def read (t : FileTree) (path : String) : Except FileFault String := do
  match ← t.find path with
  | .dir => throw .isDirectory
  | .file text => return text
  | .cache _ => return ""

/-- Puts a file where none or another one is. -/
def put (t : FileTree) (path : String) (e : Entry) : Except FileFault FileTree := do
  t.checkAround path
  if t.entry? path = some .dir then throw .isDirectory
  return ⟨Keyed.insert path e t.entries⟩

def write (t : FileTree) (path text : String) : Except FileFault FileTree := t.put path (.file text)

/-- Makes a directory, seen from another one, with all those around it. A fault comes with the path
it was met at. -/
def makeDirs (t : FileTree) (base path : String) : Except FileError FileTree :=
  (Text.heads path).foldlM (fun t dir =>
    let full := Text.resolvePath base dir
    match t.entry? full with
    | some .dir => .ok t
    | some _ => .error ⟨"mkdir", dir, .notDirectory⟩
    | none => .ok ⟨Keyed.insert full .dir t.entries⟩) t

/-- Follows names from a directory; what a name is looked up in has to be a directory. -/
def follow (t : FileTree) : String → List String → Except FileFault String
  | dir, [] => .ok dir
  | dir, name :: names =>
    match t.entry? dir with
    | some .dir =>
      if name = "" || name = "." then t.follow dir names
      else if name = ".." then t.follow (Text.dirName dir) names
      else t.follow (Text.joinPath [dir, name]) names
    | some _ => .error .notDirectory
    | none => .error .missing

/-- The entry of a path as it is written, seen from a directory. -/
def lookUp (t : FileTree) (base path : String) : Except FileFault Entry := do
  if path = "" then throw .missing
  let full ← t.follow (if Text.isAbsolute path then "/" else base) (Text.cut '/' path)
  match t.entry? full with
  | some e => return e
  | none => throw .missing

/-- The text of a file whose path is written as seen from a directory. -/
def readFrom (t : FileTree) (base path : String) : Except FileError String :=
  match t.lookUp base path with
  | .error fault => .error ⟨"open", path, fault⟩
  | .ok .dir => .error ⟨"read", path, .isDirectory⟩
  | .ok (.file text) => .ok text
  | .ok (.cache _) => .ok ""

def isBelow (dir path : String) : Bool :=
  Text.startsWith (if dir = "/" then "/" else dir ++ "/") path

/-- Removes a file or an empty directory. -/
def remove (t : FileTree) (path : String) : Except FileFault FileTree := do
  match ← t.find path with
  | .dir => if t.entries.any (isBelow path ·.1) then throw .notEmpty
  | _ => pure ()
  return ⟨Keyed.erase path t.entries⟩

def removeAll (t : FileTree) (path : String) : FileTree :=
  ⟨t.entries.filter fun e => e.1 ≠ path && !isBelow path e.1⟩

/-- The paths of all files below a directory. -/
def filesBelow (t : FileTree) (dir : String) : List String :=
  (t.entries.filter fun e => isBelow dir e.1 && e.2 ≠ .dir).map (·.1)

end FileTree

end TastyLang
