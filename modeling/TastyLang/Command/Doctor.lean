import TastyLang.Command.Build

/-!
# The command `doctor`

Checks of a project: its settings, table, sources, imports and cache. A check that makes the next
ones meaningless is the last one.
-/

namespace TastyLang.Command

open TastyLang.Action

inductive CheckStatus where
  | pass | warn | error
  deriving DecidableEq, Inhabited

def CheckStatus.name : CheckStatus → String
  | pass => "pass" | warn => "warn" | error => "error"

structure Check where
  name : String
  status : CheckStatus := .pass
  summary : String
  details : List String := []
  deriving DecidableEq, Inhabited

/-! ### Checks -/

def configCheck (c : Config) : Check :=
  if c.file ≠ "" then { name := "config", summary := c.file }
  else { name := "config", status := .warn, summary := "no tasty.yaml found, using defaults" }

def builtinsCheck (c : Config) (t : Table) : Check :=
  { name := "builtins"
    summary := s!"{c.builtins.length} overlays, {t.namespaceNames.length} namespaces" }

def sourcesCheck (c : Config) (g : Graph) : Check :=
  { name := "sources", status := if g.units.isEmpty then .warn else .pass
    summary := s!"{g.units.length} files in {c.srcDir}" }

def analysisCheck (failed : List UnitResult) : Check :=
  if failed.isEmpty then { name := "analysis", summary := "all files parse and resolve" }
  else
    { name := "analysis", status := .error, summary := s!"{failed.length} files have errors"
      details := failed.filterMap fun r => r.diagnostic?.map (·.text) }

def importsCheck (g : Graph) : Check :=
  match g.order with
  | .error e => { name := "imports", status := .error, summary := e.message }
  | .ok _ =>
    let outside := externals g
    let modules := (outside.flatMap (·.2)).eraseDups
    { name := "imports"
      summary := s!"{g.edges.length} project imports, {modules.length} external modules"
      details := outside.map fun (id, ms) => s!"{id} imports " ++ Text.join ", " ms }

/-- How many of the latest runs a check lists. -/
def listedRuns : Int := 5

def runLine (r : Run) : String :=
  s!"{r.started} {r.status}: {r.stats.built} built, {r.stats.cached} cached, "
    ++ s!"{r.stats.failed} failed"

def storeCheck (cache : Cache) : Check :=
  let failed := (cache.latestRun?).any (·.status ≠ Run.completedStatus)
  { name := "cache", status := if failed then .warn else .pass
    summary := s!"schema v{Store.version}, {cache.marks.length} files cached"
    details := (cache.listRuns listedRuns).map runLine }

def cacheCheck (s : Session) (c : Config) : Action Check := do
  if c.noCache then return { name := "cache", status := .warn, summary := "disabled" }
  try
    return storeCheck (← openCache s c)
  catch e => return { name := "cache", status := .error, summary := e.message }

/-- The checks of the sources; without sources there is only one. -/
def sourceChecks (s : Session) (c : Config) : Action (List Check) := do
  let found : Except CommandError (Graph × List UnitResult) ← try
      let o ← buildOptions c
      let r ← ofExcept .graph (Build.graph o (← files))
      pure (.ok r)
    catch e => pure (.error e)
  match found with
  | .error e => return [{ name := "sources", status := .error, summary := e.message }]
  | .ok (g, failed) =>
    return [sourcesCheck c g, analysisCheck failed, importsCheck g, ← cacheCheck s c]

def checks (s : Session) (c : Config) : Action (List Check) := do
  match tableOf (← files) c.builtins with
  | .error e =>
    let message := (CommandError.builtins e).message
    return [configCheck c, { name := "builtins", status := .error, summary := message }]
  | .ok t => return configCheck c :: builtinsCheck c t :: (← sourceChecks s c)

/-! ### Reports -/

def Check.count (cs : List Check) (status : CheckStatus) : Nat :=
  (cs.filter (·.status == status)).length

def checkRecord (c : Check) : Document :=
  record [("name", some (.text c.name)), ("status", some (.text c.status.name)),
    ("summary", some (.text c.summary)),
    ("details", if c.details.isEmpty then none else some (.list (c.details.map .text)))]

def checksRecord (cs : List Check) : Document :=
  .map [("checks", .list (cs.map checkRecord)), ("errors", .int (Check.count cs .error)),
    ("warnings", .int (Check.count cs .warn))]

/-- A name with a capital in front. -/
def titled (s : String) : String :=
  match s.toList with
  | c :: cs => String.ofList (c.toUpper :: cs)
  | [] => ""

def markdownChecks (cs : List Check) : String :=
  let part := fun title lines =>
    Text.join "\n" ([Report.heading 2 title, ""] ++ lines) ++ "\n"
  Report.heading 1 "Project Health" ++ "\n\n"
    ++ String.join (cs.map fun c =>
      part (titled c.name)
        ([Report.item "Status" c.status.name, Report.item "Summary" c.summary]
          ++ c.details.map ("  - " ++ ·)) ++ "\n")
    ++ part "Summary" [Report.item "Errors" (toString (Check.count cs .error)),
      Report.item "Warnings" (toString (Check.count cs .warn))]

def printText (cs : List Check) : Action Unit := do
  say (·.header 1 "Project Health")
  say (·.table ⟨["Check", "Status", "Summary"],
    cs.map fun c => [titled c.name, titled c.status.name, c.summary]⟩)
  cs.forM fun c => do
    if !c.details.isEmpty then
      println ""
      println (Report.styled (titled c.name))
      c.details.forM fun d => println (Report.styled ("  " ++ d))
  println ""
  println s!"{Check.count cs .error} errors, {Check.count cs .warn} warnings"

/-- Checks a project. -/
def doctor (s : Session) (c : Config) : Action Unit := do
  let cs ← checks s c
  match ← mode with
  | .json => say (·.json (checksRecord cs))
  | .markdown => say (·.print (markdownChecks cs))
  | .text => printText cs
  let failed := Check.count cs .error
  if failed ≠ 0 then throw (.failedChecks failed)

end TastyLang.Command
