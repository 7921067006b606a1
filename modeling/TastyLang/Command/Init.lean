import TastyLang.Command.Basic

/-!
# The command `init`

Makes a new project from a template: settings, two small sources, and a list of files that version
control leaves out.
-/

namespace TastyLang.Command

open TastyLang.Action

/-- The settings file of a new project. -/
def templateConfig : String :=
  Text.join "\n" [
    "# tasty project configuration",
    "src_dir: src",
    "out_dir: build",
    "header_ext: .hpp",
    "pragma_once: false",
    "",
    "include:",
    "  - \"**.tasty\"",
    "exclude: []",
    "",
    "# Overlays for the built-in table (.yaml or .star)",
    "builtins: []",
    "",
    "cache_path: .tasty/cache.db",
    ""]

def templateGreeter : String :=
  Text.join "\n" [
    "include iostream;",
    "",
    "class Greeter \x7b",
    "    copy times: int = 1;",
    "",
    "    fn greet() \x7b",
    "        for i in 0..times \x7b",
    "            std.cout << \"hello, tasty\";",
    "        \x7d",
    "    \x7d",
    "\x7d",
    ""]

def templateMain : String :=
  Text.join "\n" [
    "import greeter;",
    "",
    "fn main() \x7b",
    "    autoptr g = new Greeter();",
    "    g.greet();",
    "\x7d",
    ""]

/-- The files of a new project, in the order of their making. -/
def template : List (String × String) := [
  (".gitignore", "build/\n.tasty/\n"),
  ("src/greeter.tasty", templateGreeter),
  ("src/main.tasty", templateMain),
  ("tasty.yaml", templateConfig)]

/-- Puts a file of the template into a directory. One that is there stays unless it is `forced`
away. -/
def placeFile (s : Session) (dir : String) (forced : Bool) (name text : String) : Action Unit := do
  let path := Text.joinPath [dir, name]
  let full := Text.resolvePath s.cwd path
  if name ≠ Text.baseName name then
    let parent := Text.joinPath [dir, Text.dirName name]
    setFiles (← ofExcept .template ((← files).makeDirs s.cwd parent))
  let t ← files
  if !t.contains full || forced then
    match t.write full text with
    | .ok t' => setFiles t'
    | .error fault => throw (.template ⟨"open", path, fault⟩)

/-- What to do with a new project. -/
def nextSteps : List String := [
  "",
  "tasty project initialized!",
  "",
  "Next steps:",
  "  1. Write .tasty files in src/",
  "  2. Run 'tasty build' to generate C++ into build/",
  "  3. Run 'tasty watch' to rebuild as you edit"]

/-- Makes a new project in a directory. -/
def init (s : Session) (l : Line) (dir : String) : Action Unit := do
  let forced := l.switch "force"
  setFiles (← ofExcept (.directory dir) ((← files).makeDirs s.cwd dir))
  let settings := Text.resolvePath s.cwd (Text.joinPath [dir, "tasty.yaml"])
  if (← files).contains settings && !forced then throw (.alreadyThere "tasty.yaml")
  template.forM fun (name, text) => placeFile s dir forced name text
  template.forM fun (name, _) => println ("+ " ++ name)
  nextSteps.forM println

end TastyLang.Command
