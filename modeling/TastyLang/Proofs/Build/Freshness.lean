import TastyLang.Builtin.Basic
import TastyLang.Proofs.Build.Writing

/-!
# Results that are left alone

A build with a cache leaves a unit alone when the mark of its path is its content and both of its
results are there. A mark says what a unit was last built from, and nothing of where the results went.
So the results of such a unit are those of its text (`UnitResult.Fresh`) as long as builds are orderly:
all builds with the cache write the results of a unit in one place, and no other job writes there
(`Job.Respects`). It does not matter in which order the units of a build take their steps: what a step
keeps (`Build.Stage.turn`), every schedule keeps.
-/

namespace TastyLang

/-- The results of a unit are there, and they are what its text compiles to. -/
structure UnitResult.Fresh (r : UnitResult) (o : BuildOptions) (t : FileTree) : Prop where
  text : t.read r.unit.path = .ok r.text
  results : ∃ c, compile o.table o.compileOptions r.unit.rel r.text = .ok c ∧
    t.read r.headerPath = .ok c.unit.header ∧ t.read r.sourcePath = .ok c.unit.source

/-! ### Projects over time -/

/-- The files of a project and its cache. -/
structure Project where
  files : FileTree
  cache : Cache := {}
  deriving DecidableEq

inductive Event where
  /-- the files are changed by hand -/
  | edit (files : FileTree)
  | build (o : BuildOptions) (cached : Bool) (id started : String) (schedule : List Nat)
  | clean (o : BuildOptions) (cached : Bool)

/-- The part of a build that one unit is. -/
structure Job where
  options : BuildOptions
  unit : SourceUnit
  /-- whether the build uses the cache -/
  cached : Bool

namespace Job

def header (j : Job) : String := (j.options.outputPaths j.unit).1

def source (j : Job) : String := (j.options.outputPaths j.unit).2

def results (j : Job) : List String := [j.header, j.source]

def touched (j : Job) : List String := Build.touched (j.options.outputPaths j.unit)

/-- A later job on the same mark has its results in the same place, and any other later job leaves the
results alone. -/
def Respects (j later : Job) : Prop :=
  j.cached = true →
    if later.cached = true ∧ later.unit.rel = j.unit.rel then later.source = j.source
    else ∀ path ∈ j.results, path ∉ later.touched

instance (j later : Job) : Decidable (j.Respects later) :=
  inferInstanceAs (Decidable (_ → ite _ _ _))

end Job

namespace Project

/-- What a build or a cleaning works on. -/
def workspace (p : Project) (cached : Bool) : Workspace :=
  ⟨p.files, if cached then some p.cache else none⟩

def keep (p : Project) (w : Workspace) : Project := ⟨w.files, w.cache.getD p.cache⟩

def step (p : Project) : Event → Project
  | .edit files => { p with files }
  | .build o cached id started schedule =>
    p.keep (Build.run o id started schedule (p.workspace cached)).2
  | .clean o cached => p.keep (Build.cleanUnits o (p.workspace cached) (o.discover p.files)).2

/-- The results that an event reports. -/
def results (p : Project) : Event → List UnitResult
  | .build o cached id started schedule => (Build.run o id started schedule (p.workspace cached)).1
  | _ => []

def jobs (p : Project) : Event → List Job
  | .build o cached _ _ _ => (o.discover p.files).map (⟨o, ·, cached⟩)
  | _ => []

end Project

/-- A project and the jobs that were done on it. -/
structure History where
  project : Project
  past : List Job := []

namespace History

def step (h : History) (e : Event) : History := ⟨h.project.step e, h.past ++ h.project.jobs e⟩

def after (h : History) (es : List Event) : History := es.foldl step h

/-- Nothing is put by hand where results are. -/
def Spares (h : History) : Event → Prop
  | .edit files => ∀ j ∈ h.past, ∀ path ∈ j.results,
    files.entry? path = none ∨ files.entry? path = h.project.files.entry? path
  | _ => True

/-- The jobs of one build do not come into the way of each other or of those before them. -/
structure Admits (h : History) (js : List Job) : Prop where
  apart : ∀ j ∈ js, j.header ≠ j.source
  earlier : ∀ j ∈ h.past, ∀ later ∈ js, j.Respects later
  within : js.Pairwise fun j later => j.Respects later ∧ later.unit.rel ≠ j.unit.rel
  sources : ∀ j ∈ js, ∀ j' ∈ js, j.unit.path ∉ j'.touched

end History

/-! ### The marks of a cache -/

/-- What is at a path, if anything, is a file with this text. -/
def FileTree.Holds (t : FileTree) (path text : String) : Prop :=
  ∀ e, t.entry? path = some e → e = .file text

/-- The job has built its unit from this content, and nothing else was put where its results are. -/
structure Job.Stands (j : Job) (content : Content) (t : FileTree) : Prop where
  cached : j.cached = true
  built : ∃ text c, content = j.options.content j.unit text ∧
    compile j.options.table j.options.compileOptions j.unit.rel text = .ok c ∧
    t.Holds j.header c.unit.header ∧ t.Holds j.source c.unit.source

/-- Every mark was left by a job whose results stand. -/
def Sound (past : List Job) (t : FileTree) (cache : Cache) : Prop :=
  ∀ rel content, cache.mark? rel = some content →
    ∃ j ∈ past, j.unit.rel = rel ∧ j.Stands content t

variable {content : Content}

theorem Job.Stands.sparing {j : Job} {t t' : FileTree} (h : j.Stands content t)
    (spares : ∀ path ∈ j.results, ∀ e, t'.entry? path = some e → t.entry? path = some e) :
    j.Stands content t' := by
  obtain ⟨cached, text, c, same, compiled, header, source⟩ := h
  refine ⟨cached, text, c, same, compiled, fun e here => ?_, fun e here => ?_⟩
  · exact header e (spares _ List.mem_cons_self e here)
  · exact source e (spares _ (List.mem_cons_of_mem _ List.mem_cons_self) e here)

theorem Job.Stands.keeps {j later : Job} {t t' : FileTree} (h : j.Stands content t)
    (respects : j.Respects later) (other : ¬ (later.cached = true ∧ later.unit.rel = j.unit.rel))
    (keeps : FileTree.Keeps later.touched t t') : j.Stands content t' := by
  have away := respects h.cached
  rw [if_neg other] at away
  exact h.sparing fun path inside e here => (keeps.entry path (away path inside)).symm.trans here

variable {text : String}

theorem Job.Stands.paths {j later : Job} {t : FileTree} (h : j.Stands content t)
    (respects : j.Respects later) (cached : later.cached = true) (rel : later.unit.rel = j.unit.rel)
    (same : content = later.options.content later.unit text) :
    ∃ c, compile later.options.table later.options.compileOptions later.unit.rel text = .ok c ∧
      t.Holds later.header c.unit.header ∧ t.Holds later.source c.unit.source := by
  obtain ⟨ours, text', c, made, compiled, header, source⟩ := h
  have place := respects ours
  rw [if_pos ⟨cached, rel⟩] at place
  obtain ⟨table, ext, pragma, -, rfl⟩ := Content.mk.inj (made.symm.trans same)
  have base := String.append_left_inj _ |>.mp place
  have headers : j.header = later.header := by
    unfold Job.header BuildOptions.outputPaths
    dsimp only
    rw [base, ext]
  refine ⟨c, ?_, headers ▸ header, place ▸ source⟩
  rw [← compiled, rel, table, BuildOptions.compileOptions, BuildOptions.compileOptions, ext, pragma]

/-! ### One unit -/

theorem mark?_setMark {cache cache' : Cache} {path run : String}
    (h : cache.setMark path content run = .ok cache') (rel : String) :
    cache'.mark? rel = if rel = path then some content else cache.mark? rel := by
  unfold Store.setMark at h
  split at h
  · cases h
  · cases h
    exact Keyed.lookup_insert _ _ _ _

theorem mark?_eraseMark (cache : Cache) (path rel : String) :
    (cache.eraseMark path).mark? rel = if rel = path then none else cache.mark? rel :=
  Keyed.lookup_erase _ _ _

/-! ### Units on their way -/

namespace Build

/-- The results of a unit are there, and they are what this text compiles to. -/
def Written (o : BuildOptions) (u : SourceUnit) (text : String) (t : FileTree) : Prop :=
  ∃ c, compile o.table o.compileOptions u.rel text = .ok c ∧
    t.find (o.outputPaths u).1 = .ok (.file c.unit.header) ∧
    t.find (o.outputPaths u).2 = .ok (.file c.unit.source)

/-- What is known of a unit on its way. Of what a build without a cache has written nothing is known, as
others may write there too. -/
def Task.Sound (o : BuildOptions) (cached : Bool) (cache : Cache) (t : FileTree) (x : Task) : Prop :=
  match x.progress with
  | .start | .broken _ _ => True
  | .read text => t.read x.unit.path = .ok text
  | .marked text => t.read x.unit.path = .ok text ∧ cached = true ∧
    cache.mark? x.unit.rel = some (o.content x.unit text)
  | .headed text => t.read x.unit.path = .ok text ∧ cached = true ∧
    cache.mark? x.unit.rel = some (o.content x.unit text) ∧
    ∃ c, compile o.table o.compileOptions x.unit.rel text = .ok c ∧
      t.find (o.outputPaths x.unit).1 = .ok (.file c.unit.header)
  | .compiled text unit | .placed text unit =>
    ∃ c, compile o.table o.compileOptions x.unit.rel text = .ok c ∧ unit = c.unit
  | .half text unit => ∃ c, compile o.table o.compileOptions x.unit.rel text = .ok c ∧ unit = c.unit ∧
    (cached = true → t.find (o.outputPaths x.unit).1 = .ok (.file unit.header))
  | .written text => cached = true → Written o x.unit text t
  | .done r => r.status = .cached → cached = true ∧ r.unit = x.unit ∧
    t.read x.unit.path = .ok r.text ∧ Written o x.unit r.text t ∧
    (r.headerPath, r.sourcePath) = o.outputPaths x.unit

variable {u : SourceUnit}

/-- The units of a build that does not come into the way of itself or of the jobs before. -/
structure Plan (past : List Job) (o : BuildOptions) (cached : Bool) (us : List SourceUnit) : Prop where
  apart : ∀ u ∈ us, (o.outputPaths u).1 ≠ (o.outputPaths u).2
  earlier : ∀ j ∈ past, ∀ u ∈ us, j.Respects ⟨o, u, cached⟩
  within : us.Pairwise fun u later =>
    Job.Respects ⟨o, u, cached⟩ ⟨o, later, cached⟩ ∧ later.rel ≠ u.rel
  sources : ∀ u ∈ us, ∀ u' ∈ us, u.path ∉ touched (o.outputPaths u')

section

variable {past : List Job} {o : BuildOptions} {cached : Bool} {run : String} {us : List SourceUnit}
  {cache cache' : Cache} {c : Crew} {t t' : FileTree} {x y : Task} {i k : Nat}

/-- Units at different places have different marks and, with a cache, different results. -/
theorem Plan.others (plan : Plan past o cached us) {u u' : SourceUnit} (here : us[i]? = some u)
    (there : us[k]? = some u') (other : i ≠ k) : u'.rel ≠ u.rel ∧ (cached = true →
      ∀ path ∈ [(o.outputPaths u').1, (o.outputPaths u').2],
        path ∉ [(o.outputPaths u).1, (o.outputPaths u).2]) := by
  have pairs := List.pairwise_iff_getElem.mp plan.within
  obtain ⟨lt, rfl⟩ := List.getElem?_eq_some_iff.mp here
  obtain ⟨lt', rfl⟩ := List.getElem?_eq_some_iff.mp there
  -- results are among the paths that a job may change
  have inside {paths : String × String} {path : String} (result : path ∈ [paths.1, paths.2]) :
      path ∈ touched paths := by
    rcases List.mem_cons.mp result with rfl | second
    · exact List.mem_cons_self
    · exact List.mem_cons_of_mem _ (List.mem_singleton.mp second ▸ List.mem_cons_self)
  rcases Nat.lt_or_gt_of_ne other with before | before
  · obtain ⟨respects, rel⟩ := pairs i k lt lt' before
    refine ⟨rel, fun on path theirs ours => ?_⟩
    have away := respects on
    rw [if_neg fun same => rel same.2] at away
    exact away path ours (inside theirs)
  · obtain ⟨respects, rel⟩ := pairs k i lt' lt before
    refine ⟨rel.symm, fun on path theirs ours => ?_⟩
    have away := respects on
    rw [if_neg fun same => rel same.2] at away
    exact away path theirs (inside ours)

theorem Written.effect {paths : String × String} (written : Written o u text t)
    (effect : Effect paths t t')
    (away : ∀ path ∈ [(o.outputPaths u).1, (o.outputPaths u).2], path ∉ [paths.1, paths.2]) :
    Written o u text t' := by
  obtain ⟨c, compiled, header, source⟩ := written
  refine ⟨c, compiled, effect.find (away _ List.mem_cons_self) header, ?_⟩
  exact effect.find (away _ (List.mem_cons_of_mem _ List.mem_cons_self)) source

theorem Task.Sound.other {paths : String × String} (sound : x.Sound o cached cache t)
    (effect : Effect paths t t') (source : x.unit.path ∉ touched paths)
    (away : cached = true → ∀ path ∈ [(o.outputPaths x.unit).1, (o.outputPaths x.unit).2],
      path ∉ [paths.1, paths.2])
    (mark : cached = true → cache'.mark? x.unit.rel = cache.mark? x.unit.rel) :
    x.Sound o cached cache' t' := by
  have read {text : String} (there : t.read x.unit.path = .ok text) :
      t'.read x.unit.path = .ok text := effect.keeps.read source there
  have header (on : cached = true) {e : Entry} (there : t.find (o.outputPaths x.unit).1 = .ok e) :
      t'.find (o.outputPaths x.unit).1 = .ok e := effect.find (away on _ List.mem_cons_self) there
  unfold Task.Sound at sound ⊢
  split at sound
  · exact sound
  · exact sound
  · exact read sound
  · obtain ⟨text, on, own⟩ := sound
    exact ⟨read text, on, (mark on).trans own⟩
  · obtain ⟨text, on, own, c, compiled, there⟩ := sound
    exact ⟨read text, on, (mark on).trans own, c, compiled, header on there⟩
  · exact sound
  · exact sound
  · obtain ⟨c, compiled, unit, there⟩ := sound
    exact ⟨c, compiled, unit, fun on => header on (there on)⟩
  · exact fun on => (sound on).effect effect (away on)
  · intro hit
    obtain ⟨on, own, text, written, paths⟩ := sound hit
    exact ⟨on, own, read text, written.effect effect (away on), paths⟩

/-! ### A build in the middle of its work -/

/-- A mark is accounted for: the results of an earlier job stand, or those of a unit of the crew, or a
unit of the crew is about to set the mark anew or to erase it. -/
def Accounted (past : List Job) (o : BuildOptions) (cached : Bool) (tasks : List Task) (t : FileTree)
    (rel : String) (content : Content) : Prop :=
  (∃ j ∈ past, j.unit.rel = rel ∧ j.Stands content t) ∨
    cached = true ∧ ∃ (k : Nat) (x : Task), tasks[k]? = some x ∧ x.unit.rel = rel ∧
      (x.progress.isWriting = true ∨ ∃ text, content = o.content x.unit text ∧ Written o x.unit text t)

/-- The state of a crew: what is known of its units, and every mark is accounted for. -/
structure Stage (past : List Job) (o : BuildOptions) (cached : Bool) (run : String)
    (us : List SourceUnit) (c : Crew) (cache : Cache) : Prop where
  units : c.tasks.map (·.unit) = us
  opened : c.workspace.cache = if cached then some cache else none
  known : cached = true → (cache.run? run).isSome
  tasks : ∀ (k : Nat) (x : Task), c.tasks[k]? = some x → x.Sound o cached cache c.workspace.files
  marks : ∀ rel content, cache.mark? rel = some content →
    Accounted past o cached c.tasks c.workspace.files rel content

theorem Stage.at (stage : Stage past o cached run us c cache) (found : c.tasks[k]? = some x) :
    us[k]? = some x.unit ∧ x.unit ∈ us := by
  have here : us[k]? = some x.unit := by rw [← stage.units, List.getElem?_map, found, Option.map_some]
  exact ⟨here, List.mem_of_getElem? here⟩

theorem Stage.tasks_others (stage : Stage past o cached run us c cache) (plan : Plan past o cached us)
    (found : c.tasks[i]? = some x) {y : Task} (effect : Effect (o.outputPaths x.unit) c.workspace.files t')
    (sound : y.Sound o cached cache' t')
    (marks : cached = true → ∀ rel ≠ x.unit.rel, cache'.mark? rel = cache.mark? rel) :
    ∀ (k : Nat) (z : Task), (c.tasks.set i y)[k]? = some z → z.Sound o cached cache' t' := by
  intro k z there
  rw [List.getElem?_set] at there
  obtain ⟨here, member⟩ := stage.at found
  split at there
  · split at there
    · cases there
      exact sound
    · cases there
  · next other =>
    obtain ⟨here', member'⟩ := stage.at there
    obtain ⟨rel, away⟩ := plan.others here here' other
    exact (stage.tasks k z there).other effect (plan.sources _ member' _ member) away
      fun on => marks on _ rel

/-- A mark of another unit stays accounted for in a step of one. -/
theorem Stage.accounted_others (stage : Stage past o cached run us c cache)
    (plan : Plan past o cached us) (found : c.tasks[i]? = some x) {y : Task}
    (effect : Effect (o.outputPaths x.unit) c.workspace.files t') {rel : String}
    (mark : cache.mark? rel = some content) (other : ¬ (cached = true ∧ x.unit.rel = rel)) :
    Accounted past o cached (c.tasks.set i y) t' rel content := by
  obtain ⟨here, member⟩ := stage.at found
  rcases stage.marks rel content mark with ⟨j, earlier, same, stands⟩ | ⟨on, k, z, there, same, state⟩
  · refine .inl ⟨j, earlier, same, stands.keeps (plan.earlier j earlier _ member) ?_ effect.keeps⟩
    exact fun own => other ⟨own.1, own.2.trans same⟩
  · have apart : i ≠ k := by
      rintro rfl
      obtain rfl := Option.some.inj (found.symm.trans there)
      exact other ⟨on, same⟩
    obtain ⟨here', -⟩ := stage.at there
    obtain ⟨-, away⟩ := plan.others here here' apart
    refine .inr ⟨on, k, z, ?_, same, state.imp_right ?_⟩
    · rwa [List.getElem?_set, if_neg apart]
    · exact fun ⟨text, own, written⟩ => ⟨text, own, written.effect effect (away on)⟩

theorem getElem?_set_self {α : Type} {xs : List α} {a b : α} (found : xs[i]? = some a) :
    (xs.set i b)[i]? = some b := by
  rw [List.getElem?_set, if_pos rfl, if_pos (List.getElem?_eq_some_iff.mp found).1]

/-- A step that leaves the cache alone: the unit is writing after it, or has not begun to, and then
nothing changes. -/
theorem Stage.move (stage : Stage past o cached run us c cache) (plan : Plan past o cached us)
    (found : c.tasks[i]? = some x) {p : Progress}
    (effect : Effect (o.outputPaths x.unit) c.workspace.files t')
    (sound : Task.Sound o cached cache t' ⟨x.unit, p⟩)
    (writing : cached = true →
      p.isWriting = true ∨ t' = c.workspace.files ∧ x.progress.isWriting = false) :
    Stage past o cached run us ⟨{ c.workspace with files := t' }, c.tasks.set i ⟨x.unit, p⟩⟩ cache where
  units := (units_set found p).trans stage.units
  opened := stage.opened
  known := stage.known
  tasks := stage.tasks_others plan found effect sound fun _ _ _ => rfl
  marks rel content mark := by
    by_cases own : cached = true ∧ x.unit.rel = rel
    · rcases writing own.1 with writing | ⟨rfl, idle⟩
      · exact .inr ⟨own.1, i, _, getElem?_set_self found, own.2, .inl writing⟩
      · rcases stage.marks rel content mark with earlier | ⟨on, k, z, there, same, state⟩
        · exact .inl earlier
        · obtain rfl : i = k := Decidable.byContradiction fun apart =>
            (plan.others (stage.at found).1 (stage.at there).1 apart).1 (same.trans own.2.symm)
          obtain rfl := Option.some.inj (found.symm.trans there)
          rw [idle] at state
          exact .inr ⟨on, i, _, getElem?_set_self found, same, .inr (state.resolve_left nofun)⟩
    · exact stage.accounted_others plan found effect mark own

/-- The mark of a unit that is not writing says what its results are, if they are there. -/
theorem Stage.holds (stage : Stage past o cached run us c cache) (plan : Plan past o cached us)
    (found : c.tasks[i]? = some x) (idle : x.progress.isWriting = false) (on : cached = true)
    (mark : cache.mark? x.unit.rel = some (o.content x.unit text)) :
    ∃ d, compile o.table o.compileOptions x.unit.rel text = .ok d ∧
      c.workspace.files.Holds (o.outputPaths x.unit).1 d.unit.header ∧
      c.workspace.files.Holds (o.outputPaths x.unit).2 d.unit.source := by
  obtain ⟨here, member⟩ := stage.at found
  rcases stage.marks _ _ mark with ⟨j, earlier, rel, stands⟩ | ⟨-, k, z, there, same, state⟩
  · obtain ⟨d, compiled, header, source⟩ := stands.paths (plan.earlier j earlier _ member) on rel.symm rfl
    exact ⟨d, compiled, header, source⟩
  · obtain rfl : i = k := Decidable.byContradiction fun apart =>
      (plan.others here (stage.at there).1 apart).1 same
    obtain rfl := Option.some.inj (found.symm.trans there)
    rw [idle] at state
    obtain ⟨text', own, d, compiled, header, source⟩ := state.resolve_left nofun
    obtain ⟨-, -, -, -, rfl⟩ := Content.mk.inj own
    refine ⟨d, compiled, fun e at' => ?_, fun e at' => ?_⟩
    · exact Option.some.inj (at'.symm.trans (FileTree.find_ok.mp header).2)
    · exact Option.some.inj (at'.symm.trans (FileTree.find_ok.mp source).2)

/-- The mark is set: the results of the unit are written. -/
theorem Stage.note (stage : Stage past o cached run us c cache) (plan : Plan past o cached us)
    (found : c.tasks[i]? = some ⟨u, .written text⟩) {p : Progress}
    (sound : ∀ cache', Task.Sound o cached cache' c.workspace.files ⟨u, p⟩) :
    ∃ cache', Stage past o cached run us
      ⟨c.workspace.note u (o.content u text) run, c.tasks.set i ⟨u, p⟩⟩ cache' ∧
      (cached = false → cache' = cache) := by
  have written : cached = true → Written o u text c.workspace.files := stage.tasks i _ found
  cases cached with
  | false =>
    have same : c.workspace.note u (o.content u text) run = c.workspace := by
      rw [Workspace.note, stage.opened]
      exact congrArg (Workspace.mk _) stage.opened.symm
    rw [same]
    exact ⟨cache, stage.move plan found (.refl _ _) (sound cache) nofun, fun _ => rfl⟩
  | true =>
    obtain ⟨cache', noted, runs⟩ : ∃ cache', cache.setMark u.rel (o.content u text) run = .ok cache' ∧
        cache'.runs = cache.runs := by
      refine ⟨_, if_neg ?_, rfl⟩
      rw [Option.isNone_eq_false_iff.mpr (stage.known rfl), Bool.and_false]
      exact Bool.false_ne_true
    refine ⟨cache', ⟨(units_set found p).trans stage.units, ?_, ?_, ?_, ?_⟩, nofun⟩
    · rw [Workspace.note, stage.opened]
      simp only [if_true, Option.map_some, noted]
    · simpa only [Store.run?, runs] using stage.known
    · refine stage.tasks_others plan found (.refl _ _) (sound cache') fun _ rel other => ?_
      rw [mark?_setMark noted, if_neg other]
    · intro rel content mark
      rw [mark?_setMark noted] at mark
      split at mark
      · next here =>
        cases mark
        exact .inr ⟨rfl, i, _, getElem?_set_self found, here.symm, .inr ⟨text, rfl, written rfl⟩⟩
      · next other =>
        exact stage.accounted_others plan found (.refl _ _) mark fun own => other own.2.symm

/-- The mark is erased: nothing is known of the results of the unit. -/
theorem Stage.forget (stage : Stage past o cached run us c cache) (plan : Plan past o cached us)
    (found : c.tasks[i]? = some x) {p : Progress}
    (sound : ∀ cache', Task.Sound o cached cache' c.workspace.files ⟨x.unit, p⟩) :
    ∃ cache', Stage past o cached run us
      ⟨c.workspace.forget x.unit, c.tasks.set i ⟨x.unit, p⟩⟩ cache' ∧
      (cached = false → cache' = cache) := by
  cases cached with
  | false =>
    have same : c.workspace.forget x.unit = c.workspace := by
      rw [Workspace.forget, stage.opened]
      exact congrArg (Workspace.mk _) stage.opened.symm
    rw [same]
    exact ⟨cache, stage.move plan found (.refl _ _) (sound cache) nofun, fun _ => rfl⟩
  | true =>
    refine ⟨cache.eraseMark x.unit.rel, ⟨(units_set found p).trans stage.units, ?_, stage.known,
      ?_, fun rel content mark => ?_⟩, nofun⟩
    · rw [Workspace.forget, stage.opened]
      rfl
    · refine stage.tasks_others plan found (.refl _ _) (sound _) fun _ rel other => ?_
      rw [mark?_eraseMark, if_neg other]
    · rw [mark?_eraseMark] at mark
      split at mark
      · cases mark
      · next other =>
        exact stage.accounted_others plan found (.refl _ _) mark fun own => other own.2.symm

theorem Stage.turn (stage : Stage past o cached run us c cache) (plan : Plan past o cached us)
    (i : Nat) : ∃ cache', Stage past o cached run us (c.turn o run i) cache' ∧
      (cached = false → cache' = cache) := by
  cases found : c.tasks[i]? with
  | none =>
    rw [Crew.turn_none found]
    exact ⟨cache, stage, fun _ => rfl⟩
  | some x =>
    obtain ⟨p', w', step, same⟩ := Crew.turn_some o run found
    rw [same]
    have sound := stage.tasks i x found
    obtain ⟨here, member⟩ := stage.at found
    have stays {p : Progress} (sound : Task.Sound o cached cache c.workspace.files ⟨x.unit, p⟩)
        (writing : p.isWriting = true ∨ x.progress.isWriting = false) :
        ∃ cache', Stage past o cached run us ⟨c.workspace, c.tasks.set i ⟨x.unit, p⟩⟩ cache' ∧
          (cached = false → cache' = cache) :=
      ⟨cache, stage.move plan found (.refl _ _) sound fun _ => writing.imp_right fun idle =>
        ⟨rfl, idle⟩, fun _ => rfl⟩
    have writes {t' : FileTree} {p : Progress} (sound : Task.Sound o cached cache t' ⟨x.unit, p⟩)
        (effect : Effect (o.outputPaths x.unit) c.workspace.files t') (writing : p.isWriting = true) :
        ∃ cache', Stage past o cached run us
          ⟨{ c.workspace with files := t' }, c.tasks.set i ⟨x.unit, p⟩⟩ cache' ∧
          (cached = false → cache' = cache) :=
      ⟨cache, stage.move plan found effect sound fun _ => .inl writing, fun _ => rfl⟩
    obtain ⟨u, p⟩ := x
    have effect := step.effect
    cases step with
    | unread => exact stays nofun (.inr rfl)
    | read there => exact stays there (.inr rfl)
    | marked mark =>
      simp only [Workspace.isMarked, beq_iff_eq, Option.bind_eq_some_iff] at mark
      obtain ⟨cache', opened, mark⟩ := mark
      rw [stage.opened] at opened
      split at opened
      · next on =>
        cases opened
        exact stays ⟨sound, on, mark⟩ (.inr rfl)
      · cases opened
    | headed there =>
      obtain ⟨text, on, mark⟩ := sound
      obtain ⟨d, compiled, header, -⟩ := stage.holds plan found rfl on mark
      obtain ⟨e, at'⟩ := FileTree.contains_ok there
      rw [header e (FileTree.find_ok.mp at').2] at at'
      exact stays ⟨text, on, mark, d, compiled, at'⟩ (.inr rfl)
    | cached there =>
      obtain ⟨text, on, mark, d, compiled, header⟩ := sound
      obtain ⟨d', compiled', -, source⟩ := stage.holds plan found rfl on mark
      obtain rfl := Except.ok.inj (compiled.symm.trans compiled')
      obtain ⟨e, at'⟩ := FileTree.contains_ok there
      rw [source e (FileTree.find_ok.mp at').2] at at'
      exact stays (fun _ => ⟨on, rfl, text, ⟨d, compiled, header, at'⟩, rfl⟩) (.inr rfl)
    | compiled _ compiled => exact stays ⟨_, compiled, rfl⟩ (.inl rfl)
    | broken => exact stays trivial (.inl rfl)
    | placed made => exact writes sound effect rfl
    | half wrote =>
      obtain ⟨d, compiled, rfl⟩ := sound
      exact writes ⟨d, compiled, rfl, fun _ => (FileTree.write_keeps wrote).2⟩ effect rfl
    | written wrote =>
      obtain ⟨d, compiled, rfl, header⟩ := sound
      obtain ⟨keeps, source⟩ := FileTree.write_keeps wrote
      have apart := plan.apart u member
      exact writes (fun on => ⟨d, compiled,
        keeps.find (fun same => apart (List.mem_singleton.mp same)) (header on), source⟩) effect rfl
    | built => exact stage.note plan found fun _ => nofun
    | failed => exact stage.forget plan found fun _ => nofun
    | done => exact stays sound (.inr rfl)

/-! ### Whole builds -/

theorem Stage.turns (stage : Stage past o cached run us c cache) (plan : Plan past o cached us)
    (is : List Nat) : ∃ cache', Stage past o cached run us (is.foldl (Crew.turn o run) c) cache' ∧
      (cached = false → cache' = cache) := by
  induction is generalizing c cache with
  | nil => exact ⟨cache, stage, fun _ => rfl⟩
  | cons i is ih =>
    obtain ⟨cache₁, stage₁, same₁⟩ := stage.turn plan i
    obtain ⟨cache₂, stage₂, same₂⟩ := ih stage₁
    exact ⟨cache₂, stage₂, fun off => (same₂ off).trans (same₁ off)⟩

end

end Build

namespace History

variable {h : History}

theorem Admits.plan {o : BuildOptions} {cached : Bool} {us : List SourceUnit}
    (admits : h.Admits (us.map (⟨o, ·, cached⟩))) : Build.Plan h.past o cached us where
  apart u member := admits.apart ⟨o, u, cached⟩ (List.mem_map_of_mem member)
  earlier j earlier u member := admits.earlier j earlier ⟨o, u, cached⟩ (List.mem_map_of_mem member)
  within := List.pairwise_map.mp admits.within
  sources u member u' member' :=
    admits.sources ⟨o, u, cached⟩ (List.mem_map_of_mem member) ⟨o, u', cached⟩
      (List.mem_map_of_mem member')

end History

def onlyUnit : SourceUnit := ⟨"/src/a.tasty", "a.tasty"⟩

def buildTo (out : String) : BuildOptions where
  srcDir := "/src"
  outDir := out
  selection := ⟨[⟨.deep⟩], []⟩
  headerExt := ".hpp"
  table := Table.default

def onlyFile (text : String) : Project where
  files := ⟨[("/src", .dir), (onlyUnit.path, .file text)]⟩

namespace Project

def rewrite (p : Project) (text : String) : FileTree :=
  ⟨Keyed.insert onlyUnit.path (.file text) p.files.entries⟩

def build (p : Project) (out id : String) : List UnitResult × Project :=
  let done := Build.ended id
    (Build.units (buildTo out) id [] ⟨p.files, some (p.cache.startRun id "")⟩ [onlyUnit])
  (done.1, p.keep done.2)

end Project

variable {p : Project}

instance (h : History) (js : List Job) : Decidable (h.Admits js) :=
  decidable_of_iff
    ((∀ j ∈ js, j.header ≠ j.source) ∧ (∀ j ∈ h.past, ∀ later ∈ js, j.Respects later) ∧
      (js.Pairwise fun j later => j.Respects later ∧ later.unit.rel ≠ j.unit.rel) ∧
      ∀ j ∈ js, ∀ j' ∈ js, j.unit.path ∉ j'.touched)
    ⟨fun ⟨apart, earlier, within, sources⟩ => ⟨apart, earlier, within, sources⟩,
      fun ⟨apart, earlier, within, sources⟩ => ⟨apart, earlier, within, sources⟩⟩

def firstText : String := "copy x = 1;\n"

def secondText : String := "copy x = 2;\n"

def twiceBuilt : Project := (((onlyFile firstText).build "/a" "1").2.build "/b" "2").2

def changed : Project := { twiceBuilt with files := twiceBuilt.rewrite secondText }

/-- Builds to two places, a change of the file, and a build to the first place. -/
def detour : List Event := [.build (buildTo "/a") true "1" "" [], .build (buildTo "/b") true "2" "" [],
  .edit changed.files, .build (buildTo "/a") true "3" "" []]

end TastyLang
