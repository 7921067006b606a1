import TastyLang.Text.Pieces
import TastyLang.Command.Run
import TastyLang.Store.Basic

/-!
# The program

Reads the files that a command line may look at, runs it, and writes back what it changed.
-/

/-! ### Times

Moments as dates with the time of day, and spans of time as they are read aloud.
-/

namespace TastyLang.Text

/-- A number with zeros in front of it, up to a width. -/
def zeroPadded (width n : Nat) : String :=
  let s := toString n
  repeated "0" (width - s.length) ++ s

/-- Year, month and day of a day, counted from the first of January 1970. Years are taken to start
in March, so that the day that comes and goes is the last one. -/
def civilDate (day : Int) : Int × Nat × Nat :=
  let z := day + 719468
  let era := z.fdiv 146097
  let dayOfEra := (z - era * 146097).toNat
  let yearOfEra := (dayOfEra - dayOfEra / 1460 + dayOfEra / 36524 - dayOfEra / 146096) / 365
  let dayOfYear := dayOfEra - (365 * yearOfEra + yearOfEra / 4 - yearOfEra / 100)
  let m := (5 * dayOfYear + 2) / 153
  let month := if m < 10 then m + 3 else m - 9
  let year := era * 400 + yearOfEra + (if month ≤ 2 then 1 else 0)
  (year, month, dayOfYear - (153 * m + 2) / 5 + 1)

/-- A moment, in seconds since the start of 1970: `2006-01-02 15:04:05`. -/
def momentText (seconds : Int) : String :=
  let (year, month, day) := civilDate (seconds.fdiv 86400)
  let rest := (seconds.fmod 86400).toNat
  let two := zeroPadded 2
  s!"{zeroPadded 4 year.toNat}-{two month}-{two day} "
    ++ s!"{two (rest / 3600)}:{two (rest / 60 % 60)}:{two (rest % 60)}"

/-- Seconds with the part behind the point that is not zero. -/
def secondsText (ms : Nat) : String :=
  let places := (zeroPadded 3 (ms % 1000)).toList.reverse.dropWhile (· = '0')
  let behind := if places.isEmpty then "" else "." ++ String.ofList places.reverse
  s!"{ms / 1000}{behind}s"

/-- A span of milliseconds: `0s`, `15ms`, `1.25s`, `2m0.5s`. -/
def spanText (ms : Nat) : String :=
  if ms = 0 then "0s"
  else if ms < 1000 then s!"{ms}ms"
  else if ms < 60000 then secondsText ms
  else if ms < 3600000 then s!"{ms / 60000}m" ++ secondsText (ms % 60000)
  else s!"{ms / 3600000}h{ms / 60000 % 60}m" ++ secondsText (ms % 60000)

end TastyLang.Text

/-! ### Files -/

namespace TastyLang.Program

/-- The entry of a file with this text. -/
def entryOf (text : String) : Entry :=
  match Cache.ofSaved? text with
  | some c => .cache c
  | none => .file text

/-- The text of an entry. -/
def textOf : Entry → String
  | .dir => ""
  | .file text => text
  | .cache c => c.saved

/-- Adds what is at a path, and with `deep` all below it. -/
partial def load (deep : Bool) (t : FileTree) (path : String) : IO FileTree := do
  let place := (← IO.currentDir) / path
  if ← place.isDir then
    let mut t : FileTree := ⟨Keyed.insert path .dir t.entries⟩
    if deep then
      for child in ← place.readDir do
        t ← load true t (Text.joinPath [path, child.fileName])
    return t
  else if ← place.pathExists then
    let text ← try IO.FS.readFile place catch _ => pure ""
    return ⟨Keyed.insert path (entryOf text) t.entries⟩
  else return t

/-- Adds what a command line wants, with the directories around it. -/
def loadWanted (t : FileTree) (ws : List Want) : IO FileTree :=
  ws.foldlM (fun t w => do
    let t ← (Text.ancestors w.path).foldlM (load false) t
    load w.deep t w.path) t

/-- Makes the files on the disk what they are in `after`, where they were as in `before`. -/
def store (before after : FileTree) : IO Unit := do
  for (path, e) in after.entries do
    if before.entries.lookup path ≠ some e then
      match e with
      | .dir => IO.FS.createDirAll path
      | e => IO.FS.writeFile path (textOf e)
  for (path, e) in before.entries.reverse do
    if (after.entries.lookup path).isNone then
      match e with
      | .dir => IO.FS.removeDir path
      | _ => IO.FS.removeFile path

/-- The variables of the environment that are settings. -/
def environment : IO (List (String × String)) := do
  let keys : List String := match Config.toDocument {} with
    | .map es => es.map (·.1)
    | _ => []
  keys.filterMapM fun key => do
    let name := Surroundings.envHead ++ key.toUpper
    return (← IO.getEnv name).map (name, ·)

/-- A name that no other run has. -/
def freshName : IO String := do
  let bytes := (← IO.getRandomBytes 16).toList
  let hex := bytes.flatMap fun b => Text.hexDigits 2 b.toNat
  let group := fun i n => String.ofList ((hex.drop i).take n)
  return Text.join "-" [group 0 8, group 8 4, group 12 4, group 16 4, group 20 12]

/-- The time of day, as the file system has it. -/
def now : IO Int := do
  let (_, path) ← IO.FS.createTempFile
  let stamp := (← path.metadata).modified
  IO.FS.removeFile path
  return stamp.sec

/-- Runs a command line and gives its exit code. -/
def run (words : List String) : IO UInt32 := do
  let began ← IO.monoMsNow
  let session : Session := {
    cwd := (← IO.currentDir).toString, env := ← environment, tty := ← (← IO.getStdout).isTty
    run := ← freshName, time := Text.momentText (← now), elapsed := "" }
  let mut files : FileTree := {}
  -- settings, the sources that they name, and the results of those
  for _ in [0, 1, 2] do
    files ← loadWanted files (Command.wanted session files words)
  store files (Command.run session files words).files
  let elapsed := Text.spanText ((← IO.monoMsNow) - began)
  let outcome := Command.run { session with elapsed } files words
  IO.print outcome.out
  IO.eprint outcome.err
  match outcome.error with
  | none => return 0
  | some e =>
    IO.eprintln ("Error: " ++ e.message)
    return 1

end TastyLang.Program

def main (args : List String) : IO UInt32 := TastyLang.Program.run args
