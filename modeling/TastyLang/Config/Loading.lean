import TastyLang.Document.Decoding
import TastyLang.Document.Flow
import TastyLang.Files.Basic
import TastyLang.Glob.Reading

/-!
# Loading settings

Settings come in layers: defaults, the settings file, variables of the environment, and what was
given on the command line. `Config.load` lays them over each other, the later ones on top, and makes
paths start at the root of the project.
-/

/-! ### Settings of a project

Where the sources are, where results go and how they look. `Config.check` refuses settings that no
build can use.
-/

namespace TastyLang

structure Config where
  srcDir : String := "src"
  outDir : String := "build"
  headerExt : String := ".hpp"
  pragmaOnce : Bool := false
  included : List String := ["**.tasty"]
  excluded : List String := []
  /-- overlays for the built-in table -/
  builtins : List String := []
  cachePath : String := ".tasty/cache.db"
  noCache : Bool := false
  jobs : Int := 0
  verbose : Bool := false
  output : String := "auto"
  /-- the directory that relative paths start from -/
  root : String := ""
  /-- the settings file; empty when there is none -/
  file : String := ""
  deriving DecidableEq, Inhabited

inductive ConfigFault where
  | noSource
  | noOutput
  | headerExt (got : String)
  | jobs (got : Int)
  | noPattern
  | pattern (e : PatternError)
  deriving DecidableEq, Inhabited

def ConfigFault.message : ConfigFault → String
  | noSource => "src_dir is required"
  | noOutput => "out_dir is required"
  | headerExt got => s!"header_ext must start with a dot, got {Text.quote got}"
  | jobs got => s!"jobs must not be negative, got {got}"
  | noPattern => "include needs at least one pattern"
  | pattern e => e.message

namespace Config

/-- Whether a text can be the extension of headers: a dot and something behind it. -/
def isExtension (s : String) : Bool :=
  match s.toList with
  | '.' :: _ :: _ => true
  | _ => false

/-- The first fault of the settings, as far as it can be told without looking at files. -/
def check (c : Config) : Except ConfigFault Unit := do
  if c.srcDir = "" then throw .noSource
  if c.outDir = "" then throw .noOutput
  if !isExtension c.headerExt then throw (.headerExt c.headerExt)
  if c.jobs < 0 then throw (.jobs c.jobs)
  if c.included.isEmpty then throw .noPattern
  let _ ← (Selection.globs "pattern" (c.included ++ c.excluded)).mapError .pattern
  return ()

end Config

end TastyLang

namespace TastyLang

/-- What settings are loaded from. -/
structure Surroundings where
  files : FileTree
  /-- the working directory -/
  cwd : String
  env : List (String × String)
  /-- the flags that were given, by name -/
  given : Keyed Document
  deriving Inhabited

inductive ConfigError where
  /-- a settings file that was asked for and is not there -/
  | noFile (e : FileError)
  | unreadable (path cause : String)
  | undecodable (detail : String)
  | fault (f : ConfigFault)
  deriving Inhabited

def ConfigError.message : ConfigError → String
  | noFile e => s!"config file {e.path}: {e.message}"
  | unreadable path cause => s!"error reading config file {path}: {cause}"
  | undecodable detail => "unable to decode config: " ++ detail
  | fault f => f.message

/-- Why there are no sources to look at. -/
inductive SourceFault where
  | missing (path : String)
  | notDirectory (path : String)
  | unreachable (e : FileError)
  deriving DecidableEq, Inhabited

def SourceFault.message : SourceFault → String
  | missing path => s!"source directory does not exist: {path}\n"
      ++ "Hint: Create the directory or use --src-dir to specify a different path"
  | notDirectory path => s!"source path is not a directory: {path}"
  | unreachable e => e.message

namespace Surroundings

/-- The text given for a flag; empty when there is none. -/
def text (s : Surroundings) (flag : String) : String :=
  match s.given.lookup flag with
  | some (.text t) => t
  | _ => ""

/-- The names of settings files; the first that is there counts. -/
def fileNames : List String := ["tasty.yaml", "tasty.yml"]

/-- The settings file in a directory. -/
def fileIn? (s : Surroundings) (dir : String) : Option String :=
  (fileNames.map fun n => Text.joinPath [dir, n]).find? s.files.contains

/-- How many directories are searched for a settings file, from the working directory up. -/
def searchLimit : Nat := 10

/-- The working directory and those around it, as far as they are searched. -/
def searched (s : Surroundings) : List String :=
  let all := s.cwd :: (Text.ancestors s.cwd).reverse ++ (if s.cwd = "/" then [] else ["/"])
  all.take searchLimit

/-- The directory that relative paths start from: the one that was given, or that of the settings
file that was given, or the nearest with a settings file, or the working directory. -/
def root (s : Surroundings) : String :=
  if s.text "project-dir" ≠ "" then Text.resolvePath s.cwd (s.text "project-dir")
  else if s.text "config" ≠ "" then Text.dirName (Text.resolvePath s.cwd (s.text "config"))
  else (s.searched.find? fun dir => (s.fileIn? dir).isSome).getD s.cwd

/-- The path of the settings file: the one that was given, which has to be there, or that of the
root; empty when there is none. -/
def configFile (s : Surroundings) : Except ConfigError String :=
  let path := s.text "config"
  if path = "" then .ok ((s.fileIn? s.root).getD "")
  else
    match s.files.lookUp s.cwd path with
    | .ok _ => .ok path
    | .error fault => .error (.noFile ⟨"stat", path, fault⟩)

/-! ### Layers -/

/-- The layer of a settings file. -/
def ofFile (s : Surroundings) (path : String) : Except ConfigError Document := do
  if path = "" then return .map []
  let text ← (s.files.readFrom s.cwd path).mapError fun e => .unreadable path e.message
  (Document.ofText text).mapError fun e => .unreadable path e.message

/-- What the names of variables that are settings start with. -/
def envHead : String := "TASTY_"

/-- The layer of the environment. -/
def ofEnv (s : Surroundings) : Document :=
  .ofEntries (s.env.filterMap fun (name, value) =>
    (Text.dropHead? envHead name).map fun key => (key.toLower, .text value))

/-- The flags that hold paths, and their settings. -/
def pathFlags : List (String × String) :=
  [("src-dir", "src_dir"), ("out-dir", "out_dir"), ("cache", "cache_path")]

/-- The setting that a flag sets. -/
def settingOf (flag : String) : String :=
  (pathFlags.lookup flag).getD (Text.replaceChar '-' "_" flag)

/-- The layer of the command line. -/
def ofFlags (s : Surroundings) : Document :=
  .ofEntries (s.given.map fun (flag, value) => (settingOf flag, value))

/-- A path among the settings: the one given by a flag is seen from the working directory, any other
from the root. -/
def anchored (s : Surroundings) (flag path : String) : String :=
  if (s.given.lookup flag).isSome then Text.resolvePath s.cwd (s.text flag)
  else if path = "" || Text.isAbsolute path then path
  else Text.joinPath [s.root, path]

end Surroundings

namespace Config

/-- The settings that files may hold, under their names there. -/
def toDocument (c : Config) : Document :=
  let texts := fun (xs : List String) => Document.list (xs.map .text)
  .ofEntries [
    ("src_dir", .text c.srcDir), ("out_dir", .text c.outDir), ("header_ext", .text c.headerExt),
    ("pragma_once", .bool c.pragmaOnce), ("include", texts c.included),
    ("exclude", texts c.excluded), ("builtins", texts c.builtins),
    ("cache_path", .text c.cachePath), ("no_cache", .bool c.noCache), ("jobs", .int c.jobs),
    ("verbose", .bool c.verbose), ("output", .text c.output)]

/-- The settings of a document. -/
def ofDocument (d : Document) : Except String Config := Decoder.finish do
  let value := fun key => (d.field? key).getD .null
  let text := fun key => Decoder.take ((value key).toText key)
  let switch := fun key => Decoder.take ((value key).toBool key)
  let texts := fun key => Decoder.texts key (value key)
  return {
    srcDir := ← text "src_dir", outDir := ← text "out_dir", headerExt := ← text "header_ext"
    pragmaOnce := ← switch "pragma_once", included := ← texts "include"
    excluded := ← texts "exclude", builtins := ← texts "builtins"
    cachePath := ← text "cache_path", noCache := ← switch "no_cache"
    jobs := ← Decoder.take ((value "jobs").toInt "jobs"), verbose := ← switch "verbose"
    output := ← text "output" }

/-- All layers of settings, one over the other. -/
def layered (s : Surroundings) (path : String) : Except ConfigError Document := do
  let file ← s.ofFile path
  return (((toDocument {}).merge file).merge s.ofEnv).merge s.ofFlags

/-- The settings of a project. -/
def load (s : Surroundings) : Except ConfigError Config := do
  let file ← s.configFile
  let c ← (ofDocument (← layered s file)).mapError .undecodable
  let c := { c with
    srcDir := s.anchored "src-dir" c.srcDir
    outDir := s.anchored "out-dir" c.outDir
    cachePath := s.anchored "cache" c.cachePath
    -- overlays start at the root, also those given by a flag
    builtins := c.builtins.map (s.anchored "")
    root := s.root
    file }
  c.check.mapError .fault
  return c

/-- Whether the source directory is there. -/
def checkSource (c : Config) (t : FileTree) : Except SourceFault Unit :=
  match t.lookUp "/" c.srcDir with
  | .ok .dir => .ok ()
  | .ok _ => .error (.notDirectory c.srcDir)
  | .error .missing => .error (.missing c.srcDir)
  | .error fault => .error (.unreachable ⟨"stat", c.srcDir, fault⟩)

end Config

end TastyLang
