import TastyLang.Command.Build
import TastyLang.Command.Doctor
import TastyLang.Command.Init

/-!
# Running command lines

`Command.run` takes the words of a command line, loads the settings of the project and does what
the command says.
-/

namespace TastyLang

/-- What a command line did. -/
structure Outcome where
  files : FileTree
  out : String := ""
  err : String := ""
  error : Option CommandError := none
  deriving Inhabited

namespace Command

open TastyLang.Action

/-- The flags of every command. -/
def commonFlags : List Flag := [
  { name := "config" }, { name := "project-dir" }, { name := "src-dir" }, { name := "out-dir" },
  { name := "header-ext" }, { name := "pragma-once", kind := .switch },
  { name := "include", kind := .texts }, { name := "exclude", kind := .texts },
  { name := "builtins", kind := .texts }, { name := "cache" },
  { name := "no-cache", kind := .switch },
  { name := "jobs", kind := .number, letter := some 'j' },
  { name := "verbose", kind := .switch, letter := some 'v' },
  { name := "output", letter := some 'o' }]

/-- A command: its name, its own flags, how many arguments it takes, and what it does. -/
structure Spec where
  name : String
  flags : List Flag := []
  /-- flags that do not go together -/
  exclusive : List String := []
  /-- the least and the greatest number of arguments; `none` takes any -/
  arity : Option (Nat × Nat) := some (0, 0)
  run : Session → Config → Line → Action Unit

def version : String := "0.1.0"

/-- The line below the version. -/
def about : String := "Tasty to C++ transpiler built with Go"

def specs : List Spec := [
  { name := "version"
    arity := none
    run := fun _ _ _ => do
      println ("tasty v" ++ version)
      println about },
  { name := "build"
    flags := [{ name := "all", kind := .switch }]
    run := build },
  { name := "emit"
    flags := [{ name := "header", kind := .switch }, { name := "source", kind := .switch }]
    exclusive := ["header", "source"]
    arity := some (1, 1)
    run := fun s c l => emit s c l (l.args.headD "") },
  { name := "symbols"
    flags := [{ name := "kind", letter := some 'k' }, { name := "unknown", kind := .switch }]
    arity := some (1, 1)
    run := fun s c l => symbols s c l (l.args.headD "") },
  { name := "deps"
    flags := [{ name := "affected", kind := .texts }]
    run := fun _ c l => deps c l },
  { name := "clean"
    flags := [{ name := "reset-cache", kind := .switch }]
    run := clean },
  { name := "init"
    flags := [{ name := "force", kind := .switch }]
    arity := some (0, 1)
    run := fun s _ l => do
      -- the report does not follow the settings of a project that is only made
      say fun r => { r with mode := Report.Choice.auto.mode s.tty }
      init s l (l.args.headD ".") },
  { name := "doctor"
    run := fun s c _ => doctor s c }]

/-- The settings of the project that a command line is about. -/
def loadConfig (s : Session) (files : FileTree) (l : Line) : Except ConfigError Config :=
  let common := l.flags.filter fun (name, _) => commonFlags.any (·.name == name)
  Config.load ⟨files, s.cwd, s.env, common⟩

/-- Whether a command takes these arguments. -/
def Spec.checkArgs (spec : Spec) (args : List String) : Action Unit :=
  match spec.arity, args with
  | none, _ => pure ()
  | some (_, 0), [] => pure ()
  | some (_, 0), arg :: _ => throw (.unknownCommand arg ("tasty " ++ spec.name))
  | some (low, high), args =>
    if args.length < low || high < args.length then throw (.arguments low high args.length)
    else pure ()

/-- Runs a command. -/
def Spec.start (spec : Spec) (s : Session) (words : List String) : Action Unit := do
  let l ← ofExcept .line (Line.read (commonFlags ++ spec.flags) words)
  spec.checkArgs l.args
  let c ← ofExcept .config (loadConfig s (← files) l)
  let some choice := Report.Choice.ofName? c.output | throw (.outputFormat c.output)
  say fun r => { r with mode := choice.mode s.tty }
  if spec.exclusive.length > 1 && spec.exclusive.all (l.flags.lookup · |>.isSome) then
    throw (.exclusive spec.exclusive)
  spec.run s c l

def overview : List String :=
  ["Usage:", "  tasty [command]", "", "Available Commands:"] ++ specs.map fun c => "  " ++ c.name

/-- Runs a command line without a command, which may ask for the version. -/
def bare (words : List String) : Action Unit := do
  let l ← ofExcept .line (Line.read (commonFlags ++ [{ name := "version", kind := .switch }]) words)
  if l.switch "version" then
    println ("tasty " ++ version)
    println about
  else overview.forM println

/-- What the words of a command line say. -/
def action (s : Session) (words : List String) : Action Unit :=
  match Line.command? commonFlags false words with
  | none => bare words
  | some (name, rest) =>
    match specs.find? (·.name == name) with
    | some spec => spec.start s rest
    | none => throw (.unknownCommand name "tasty")

/-- Runs a command line on files. -/
def run (s : Session) (files : FileTree) (words : List String) : Outcome :=
  match (action s words).run ⟨files, { mode := .markdown }⟩ with
  | .ok _ p => { files := p.files, out := p.report.out, err := p.report.err }
  | .error e p => { files := p.files, out := p.report.out, err := p.report.err, error := some e }

end Command

end TastyLang

/-! ### What a command line looks at

A command line reads few of the files that are there. `Command.wanted` lists the paths it may look
at, as far as they can be told from what is known already: settings first, then the sources that
they name, then the results of the sources.
-/

namespace TastyLang

/-- A path that a command line may look at, with all below it if it is `deep`. -/
structure Want where
  path : String
  deep : Bool := false
  deriving DecidableEq, Inhabited

namespace Command

/-- The flags and arguments of a command line. -/
def lineOf (words : List String) : Line :=
  let (flags, rest) := match Line.command? commonFlags false words with
    | some (name, rest) => (((specs.find? (·.name == name)).map (·.flags)).getD [], rest)
    | none => ([], words)
  ((Line.read (commonFlags ++ flags) rest).toOption).getD {}

/-- The places where settings may be. -/
def settingsWanted (s : Session) (l : Line) : List Want :=
  let around : Surroundings := ⟨{}, s.cwd, s.env, l.flags⟩
  let dirs := around.root :: around.searched
  let files := dirs.flatMap fun dir => Surroundings.fileNames.map fun n => Text.joinPath [dir, n]
  let given := if l.text "config" = "" then [] else [Text.resolvePath s.cwd (l.text "config")]
  (files ++ given).map fun path => { path }

/-- The sources of a project and the other files it names. -/
def sourcesWanted (s : Session) (c : Config) (l : Line) : List Want :=
  let named := l.args.map (Text.resolvePath s.cwd)
  let made := template.map fun (name, _) => Text.resolvePath s.cwd
    (Text.joinPath [l.args.headD ".", name])
  { path := Text.clean c.srcDir, deep := true }
    :: (cacheFile s c :: c.builtins ++ named ++ made).map fun path => { path }

/-- The results of the units of a project. -/
def resultsWanted (c : Config) (files : FileTree) : List Want :=
  match (buildOptions c).run ⟨files, { mode := .markdown }⟩ with
  | .error _ _ => []
  | .ok o _ =>
    (o.discover files).flatMap fun u =>
      let paths := o.outputPaths u
      [{ path := paths.1 }, { path := paths.2 }]

/-- The paths that a command line may look at. -/
def wanted (s : Session) (files : FileTree) (words : List String) : List Want :=
  let l := lineOf words
  settingsWanted s l ++
    match loadConfig s files l with
    | .error _ => []
    | .ok c => sourcesWanted s c l ++ resultsWanted c files

end Command

end TastyLang
