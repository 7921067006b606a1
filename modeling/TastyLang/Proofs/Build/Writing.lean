import Mathlib.Data.List.Flatten
import TastyLang.Build.Run
import TastyLang.Proofs.Outcome

/-!
# What builds do to files

A step of a unit changes nothing but the two results and the directories around them, and takes no
directory away (`FileTree.Keeps`); what is there, it leaves unless it is a result (`FileTree.Spares`).
Cleaning only takes away (`FileTree.Thins`). `Build.Advance` lists what can become of a unit in one step.
By any schedule, every unit comes to its end (`Build.units_results`).
-/

namespace TastyLang

variable {path : String} {e : Entry}

namespace FileTree

theorem entry?_insert (t : FileTree) (path p : String) (e : Entry) :
    FileTree.entry? ⟨Keyed.insert path e t.entries⟩ p =
      if p = "/" then some .dir else if p = path then some e else t.entry? p := by
  unfold entry?
  split
  · rfl
  · rw [Keyed.lookup_insert]

/-- Away from `touched` nothing changes, and directories stay. -/
structure Keeps (touched : List String) (t t' : FileTree) : Prop where
  entry : ∀ path ∉ touched, t'.entry? path = t.entry? path
  dir : ∀ path, t.entry? path = some .dir → t'.entry? path = some .dir

namespace Keeps

variable {touched more : List String} {t t' t'' : FileTree}

theorem refl (touched : List String) (t : FileTree) : Keeps touched t t :=
  ⟨fun _ _ => rfl, fun _ h => h⟩

theorem trans (h : Keeps touched t t') (h' : Keeps touched t' t'') : Keeps touched t t'' :=
  ⟨fun p away => (h'.entry p away).trans (h.entry p away), fun p dir => h'.dir p (h.dir p dir)⟩

theorem mono (h : Keeps touched t t') (sub : ∀ p ∈ touched, p ∈ more) : Keeps more t t' :=
  ⟨fun p away => h.entry p fun inside => away (sub p inside), h.dir⟩

theorem insert (free : t.entry? path ≠ some .dir) :
    Keeps [path] t ⟨Keyed.insert path e t.entries⟩ := by
  constructor
  · intro p away
    rw [entry?_insert, if_neg fun here => away (List.mem_singleton.mpr here)]
    split
    · next root => rw [root]; rfl
    · rfl
  · intro p dir
    rw [entry?_insert]
    split
    · rfl
    · next root =>
      rw [if_neg (by rintro rfl; exact free dir)]
      exact dir

end Keeps

theorem checkAround_ok {t : FileTree} :
    t.checkAround path = .ok () ↔ ∀ dir ∈ Text.ancestors path, t.entry? dir = some .dir := by
  unfold checkAround
  generalize Text.ancestors path = dirs
  induction dirs with
  | nil => exact ⟨fun _ _ member => absurd member List.not_mem_nil, fun _ => rfl⟩
  | cons dir dirs ih =>
    rw [List.forM_eq_forM, List.forM_cons, List.forall_mem_cons, ← ih]
    split
    · next here => rw [here]; exact ⟨fun h => ⟨rfl, h⟩, And.right⟩
    · next other here =>
      rw [here]
      exact ⟨nofun, fun h => absurd (Option.some.inj h.1) other⟩
    · next here =>
      rw [here]
      exact ⟨nofun, nofun⟩

theorem find_ok {t : FileTree} :
    t.find path = .ok e ↔
      (∀ dir ∈ Text.ancestors path, t.entry? dir = some .dir) ∧ t.entry? path = some e := by
  rw [← checkAround_ok]
  unfold find
  constructor
  · intro h
    obtain ⟨⟨⟩, around, h⟩ := except_bind_ok h
    split at h
    · next found =>
      cases h
      exact ⟨around, found⟩
    · cases h
  · rintro ⟨around, found⟩
    rw [around, ok_bind, found]
    rfl

theorem Keeps.find {touched : List String} {t t' : FileTree} (h : Keeps touched t t')
    (away : path ∉ touched) (found : t.find path = .ok e) :
    t'.find path = .ok e := by
  obtain ⟨around, here⟩ := find_ok.mp found
  exact find_ok.mpr ⟨fun dir member => h.dir dir (around dir member), (h.entry path away).trans here⟩

theorem Keeps.read {touched : List String} {t t' : FileTree} (h : Keeps touched t t')
    (away : path ∉ touched) {text : String} (here : t.read path = .ok text) :
    t'.read path = .ok text := by
  obtain ⟨e, found, here⟩ := except_bind_ok here
  unfold FileTree.read
  rw [h.find away found]
  exact here

theorem contains_ok {t : FileTree} (h : t.contains path = true) :
    ∃ e, t.find path = .ok e := by
  unfold contains at h
  split at h
  · next e found => exact ⟨e, found⟩
  · cases h

theorem write_keeps {t t' : FileTree} {path text : String} (h : t.write path text = .ok t') :
    Keeps [path] t t' ∧ t'.find path = .ok (.file text) := by
  obtain ⟨⟨⟩, around, h⟩ := except_bind_ok h
  split at h
  · cases h
  · next free =>
    cases h
    have keeps := Keeps.insert (e := .file text) free
    refine ⟨keeps, find_ok.mpr ⟨fun dir above => keeps.dir dir (checkAround_ok.mp around dir above), ?_⟩⟩
    rw [entry?_insert, if_neg, if_pos rfl]
    rintro rfl
    exact free rfl

/-- What is there stays, unless something is written to it. -/
def Spares (written : List String) (t t' : FileTree) : Prop :=
  ∀ path ∉ written, ∀ e, t.entry? path = some e → t'.entry? path = some e

theorem Spares.mono {written more : List String} {t t' : FileTree} (h : Spares written t t')
    (sub : ∀ p ∈ written, p ∈ more) : Spares more t t' :=
  fun p away e there => h p (fun inside => away (sub p inside)) e there

theorem makeDirs_spares {t t' : FileTree} {base path : String} (h : t.makeDirs base path = .ok t') :
    Spares [] t t' := by
  unfold makeDirs at h
  generalize Text.heads path = dirs at h
  induction dirs generalizing t with
  | nil =>
    cases h
    exact fun _ _ _ there => there
  | cons dir dirs ih =>
    rw [List.foldlM_cons] at h
    obtain ⟨t₁, first, h⟩ := except_bind_ok h
    intro p away e there
    refine ih h p away e ?_
    dsimp only at first
    split at first
    · cases first
      exact there
    · cases first
    · next free =>
      cases first
      rw [entry?_insert]
      split
      · next root =>
        subst root
        exact there
      · next root =>
        rw [if_neg, there]
        rintro rfl
        rw [free] at there
        cases there

theorem makeDirs_keeps {t t' : FileTree} {base path : String} (h : t.makeDirs base path = .ok t') :
    Keeps ((Text.heads path).map (Text.resolvePath base)) t t' := by
  unfold makeDirs at h
  generalize Text.heads path = dirs at h
  induction dirs generalizing t with
  | nil =>
    cases h
    exact .refl _ _
  | cons dir dirs ih =>
    rw [List.foldlM_cons] at h
    obtain ⟨t₁, first, h⟩ := except_bind_ok h
    refine Keeps.trans ?_ ((ih h).mono fun p inside => List.mem_cons_of_mem _ inside)
    dsimp only at first
    split at first
    · cases first
      exact .refl _ _
    · cases first
    · next free =>
      cases first
      refine (Keeps.insert ?_).mono fun p inside => ?_
      · rw [free]
        nofun
      · rw [List.mem_singleton.mp inside]
        exact List.mem_cons_self

end FileTree

namespace Build

open FileTree

/-- The paths that the build of a unit with these results may change. -/
def touched (paths : String × String) : List String :=
  paths.1 :: paths.2 :: (Text.heads (Text.dirName paths.1)).map (Text.resolvePath "/")

/-- What one step of a unit with these results may do to the files: it writes a result, or makes
directories where nothing is. -/
structure Effect (paths : String × String) (t t' : FileTree) : Prop where
  keeps : Keeps (touched paths) t t'
  spares : Spares [paths.1, paths.2] t t'

theorem Effect.refl (paths : String × String) (t : FileTree) : Effect paths t t :=
  ⟨.refl _ _, fun _ _ _ h => h⟩

variable {paths : String × String}

theorem write_effect {t t' : FileTree} {path text : String} (result : path ∈ [paths.1, paths.2])
    (wrote : t.write path text = .ok t') : Effect paths t t' := by
  have keeps := (write_keeps wrote).1
  have inside : ∀ p ∈ [path], p ∈ [paths.1, paths.2] := fun p here =>
    List.mem_singleton.mp here ▸ result
  refine ⟨keeps.mono fun p here => ?_, fun p away e there => ?_⟩
  · rcases List.mem_cons.mp (inside p here) with rfl | second
    · exact List.mem_cons_self
    · rw [List.mem_singleton.mp second]
      exact List.mem_cons_of_mem _ List.mem_cons_self
  · rw [keeps.entry p fun here => away (inside p here), there]

theorem Effect.find {t t' : FileTree} {path : String} (effect : Effect paths t t')
    (away : path ∉ [paths.1, paths.2]) (found : t.find path = .ok e) :
    t'.find path = .ok e := by
  obtain ⟨around, there⟩ := find_ok.mp found
  exact find_ok.mpr ⟨fun dir above => effect.keeps.dir dir (around dir above),
    effect.spares path away e there⟩

theorem makeDirs_effect {t t' : FileTree}
    (made : t.makeDirs "/" (Text.dirName paths.1) = .ok t') : Effect paths t t' :=
  ⟨(makeDirs_keeps made).mono fun _ inside => List.mem_cons_of_mem _ (List.mem_cons_of_mem _ inside),
    (makeDirs_spares made).mono fun _ inside => by cases inside⟩

/-! ### Steps of one unit -/

namespace Progress

/-- The text of a unit whose results are looked for. -/
def checks? : Progress → Option String
  | .read text | .marked text | .headed text => some text
  | _ => none

/-- From the first write to the mark that says what was written, or says nothing any more. -/
def isWriting : Progress → Bool
  | .compiled _ _ | .placed _ _ | .half _ _ | .written _ | .broken _ _ => true
  | _ => false

/-- How many steps are left at most. -/
def left : Progress → Nat
  | .start => 8
  | .read _ => 7
  | .marked _ => 6
  | .headed _ => 5
  | .compiled _ _ => 4
  | .placed _ _ => 3
  | .half _ _ => 2
  | .written _ | .broken _ _ => 1
  | .done _ => 0

end Progress

/-- What can become of a unit in one step. -/
inductive Advance (o : BuildOptions) (run : String) (u : SourceUnit) (w : Workspace) :
    Progress → Progress → Workspace → Prop where
  | unread {error : Option BuildError} : Advance o run u w .start
    (.done ⟨u, .failed, (o.outputPaths u).1, (o.outputPaths u).2, "", error⟩) w
  | read {text : String} (there : w.files.read u.path = .ok text) :
    Advance o run u w .start (.read text) w
  | marked {text : String} (mark : w.isMarked u (o.content u text) = true) :
    Advance o run u w (.read text) (.marked text) w
  | headed {text : String} (there : w.files.contains (o.outputPaths u).1 = true) :
    Advance o run u w (.marked text) (.headed text) w
  | cached {text : String} (there : w.files.contains (o.outputPaths u).2 = true) :
    Advance o run u w (.headed text)
      (.done ⟨u, .cached, (o.outputPaths u).1, (o.outputPaths u).2, text, none⟩) w
  | compiled {p : Progress} {text : String} {c : Compiled} (checks : p.checks? = some text)
    (compiled : compile o.table o.compileOptions u.rel text = .ok c) :
    Advance o run u w p (.compiled text c.unit) w
  | broken {p : Progress} {text : String} {e : BuildError}
    (at' : p.checks?.isSome ∨ p.isWriting ∧ 1 < p.left) : Advance o run u w p (.broken text e) w
  | placed {text : String} {unit : CppUnit} {files : FileTree}
    (made : w.files.makeDirs "/" (Text.dirName (o.outputPaths u).1) = .ok files) :
    Advance o run u w (.compiled text unit) (.placed text unit) { w with files }
  | half {text : String} {unit : CppUnit} {files : FileTree}
    (wrote : w.files.write (o.outputPaths u).1 unit.header = .ok files) :
    Advance o run u w (.placed text unit) (.half text unit) { w with files }
  | written {text : String} {unit : CppUnit} {files : FileTree}
    (wrote : w.files.write (o.outputPaths u).2 unit.source = .ok files) :
    Advance o run u w (.half text unit) (.written text) { w with files }
  | built {text : String} : Advance o run u w (.written text)
    (.done ⟨u, .built, (o.outputPaths u).1, (o.outputPaths u).2, text, none⟩)
    (w.note u (o.content u text) run)
  | failed {text : String} {e : BuildError} : Advance o run u w (.broken text e)
    (.done ⟨u, .failed, (o.outputPaths u).1, (o.outputPaths u).2, text, some e⟩) (w.forget u)
  | done {r : UnitResult} : Advance o run u w (.done r) (.done r) w

variable {o : BuildOptions} {run : String} {u : SourceUnit} {w w' : Workspace} {p p' : Progress}

theorem translate_cases {text : String} (checks : p.checks? = some text) :
    Advance o run u w p (translate o u text) w := by
  unfold translate
  split
  · exact .broken (.inl (by rw [checks]; rfl))
  · next c compiled => exact .compiled checks compiled

theorem advance_cases (o : BuildOptions) (run : String) (u : SourceUnit) (w : Workspace) (p : Progress) :
    Advance o run u w p (advance o run u w p).1 (advance o run u w p).2 := by
  unfold advance
  cases p with
  | start =>
    dsimp only
    split
    · exact .unread
    · next text there => exact .read there
  | read text =>
    dsimp only
    split
    · next mark => exact .marked mark
    · exact translate_cases rfl
  | marked text =>
    dsimp only
    split
    · next there => exact .headed there
    · exact translate_cases rfl
  | headed text =>
    dsimp only
    split
    · next there => exact .cached there
    · exact translate_cases rfl
  | compiled text unit =>
    dsimp only
    split
    · exact .broken (.inr ⟨rfl, by simp [Progress.left]⟩)
    · next files made => exact .placed made
  | placed text unit =>
    dsimp only
    split
    · exact .broken (.inr ⟨rfl, by simp [Progress.left]⟩)
    · next files wrote => exact .half wrote
  | half text unit =>
    dsimp only
    split
    · exact .broken (.inr ⟨rfl, by simp [Progress.left]⟩)
    · next files wrote => exact .written wrote
  | written text => exact .built
  | broken text e => exact .failed
  | done r => exact .done

theorem Advance.effect (step : Advance o run u w p p' w') :
    Effect (o.outputPaths u) w.files w'.files := by
  cases step with
  | placed made => exact makeDirs_effect made
  | half wrote => exact write_effect List.mem_cons_self wrote
  | written wrote => exact write_effect (List.mem_cons_of_mem _ List.mem_cons_self) wrote
  | _ => exact .refl _ _

theorem Advance.left (step : Advance o run u w p p' w') : p'.left ≤ p.left - 1 := by
  cases step with
  | @compiled p text c checks compiled =>
    cases p with
    | read _ | marked _ | headed _ => simp [Progress.left]
    | _ => cases checks
  | @broken p text e at' =>
    cases p with
    | read _ | marked _ | headed _ | compiled _ _ | placed _ _ | half _ _ => simp [Progress.left]
    | _ => simp [Progress.checks?, Progress.isWriting, Progress.left] at at'
  | _ => simp [Progress.left]

/-! ### Steps of a crew -/

variable {c : Crew} {i : Nat}

theorem Crew.turn_none (absent : c.tasks[i]? = none) :
    c.turn o run i = c := by
  rw [Crew.turn, absent]

theorem Crew.turn_some (o : BuildOptions) (run : String) {t : Task} (found : c.tasks[i]? = some t) :
    ∃ p' w', Advance o run t.unit c.workspace t.progress p' w' ∧
      c.turn o run i = ⟨w', c.tasks.set i ⟨t.unit, p'⟩⟩ := by
  rw [Crew.turn, found]
  exact ⟨_, _, advance_cases o run t.unit c.workspace t.progress, rfl⟩

theorem units_set {tasks : List Task} {t : Task} (found : tasks[i]? = some t) (p : Progress) :
    (tasks.set i ⟨t.unit, p⟩).map (·.unit) = tasks.map (·.unit) := by
  refine List.ext_getElem? fun k => ?_
  rw [List.getElem?_map, List.getElem?_map, List.getElem?_set]
  split
  · next here =>
    subst here
    rw [found, if_pos (List.getElem?_eq_some_iff.mp found).1]
    rfl
  · rfl

theorem Crew.turn_units (c : Crew) (i : Nat) :
    (c.turn o run i).tasks.map (·.unit) = c.tasks.map (·.unit) := by
  cases found : c.tasks[i]? with
  | none => rw [turn_none found]
  | some t =>
    obtain ⟨p', w', -, same⟩ := turn_some o run found
    rw [same]
    exact units_set found p'

theorem Crew.turns_units (c : Crew) (is : List Nat) :
    (is.foldl (Crew.turn o run) c).tasks.map (·.unit) = c.tasks.map (·.unit) := by
  induction is generalizing c with
  | nil => rfl
  | cons i is ih => exact (ih _).trans (c.turn_units i)

/-- At most so many steps are left of the unit at a place. -/
def Crew.Within (c : Crew) (i n : Nat) : Prop := ∀ t, c.tasks[i]? = some t → t.progress.left ≤ n

theorem Crew.Within.turn (o : BuildOptions) (run : String) {k n : Nat} (within : c.Within k n)
    (i : Nat) :
    (c.turn o run i).Within k (if i = k then n - 1 else n) := by
  cases found : c.tasks[i]? with
  | none =>
    rw [turn_none found]
    intro t here
    split
    · next same =>
      subst same
      rw [found] at here
      cases here
    · exact within t here
  | some t =>
    obtain ⟨p', w', step, same⟩ := turn_some o run found
    rw [same]
    intro x here
    rw [List.getElem?_set] at here
    split at here
    · next own =>
      subst own
      split at here
      · cases here
        rw [if_pos rfl]
        exact Nat.le_trans step.left (Nat.sub_le_sub_right (within t found) 1)
      · cases here
    · next other =>
      rw [if_neg other]
      exact within x here

theorem Crew.Within.turns (o : BuildOptions) (run : String) {k n : Nat} (within : c.Within k n)
    (is : List Nat) :
    (is.foldl (Crew.turn o run) c).Within k (n - is.count k) := by
  induction is generalizing c n with
  | nil => exact within
  | cons i is ih =>
    rw [List.foldl_cons, List.count_cons]
    have rest := ih (within.turn o run i)
    split at rest
    · next same =>
      subst same
      rw [if_pos (beq_self_eq_true i)]
      rwa [Nat.sub_sub, Nat.add_comm] at rest
    · next other => rwa [if_neg (by simpa using other), Nat.add_zero]

theorem count_turns {schedule : List Nat} {count i : Nat} (lt : i < count) :
    Progress.longest ≤ (turns schedule count).count i := by
  have last : ([i].flatMap (List.replicate Progress.longest)).Sublist
      ((List.range count).reverse.flatMap (List.replicate Progress.longest)) :=
    (List.singleton_sublist.mpr (List.mem_reverse.mpr (List.mem_range.mpr lt))).flatMap _
  have counted := last.count_le i
  rw [List.flatMap_singleton, List.count_replicate_self] at counted
  rw [turns, List.count_append]
  exact Nat.le_trans counted (Nat.le_add_left _ _)

/-- The crew at the end of a build. -/
def crewAfter (o : BuildOptions) (run : String) (schedule : List Nat) (w : Workspace)
    (us : List SourceUnit) : Crew :=
  (turns schedule us.length).foldl (Crew.turn o run) ⟨w, us.map ({ unit := · })⟩

theorem crewAfter_units (o : BuildOptions) (run : String) (schedule : List Nat) (w : Workspace)
    (us : List SourceUnit) : (crewAfter o run schedule w us).tasks.map (·.unit) = us := by
  rw [crewAfter, Crew.turns_units, List.map_map]
  exact List.map_id us

/-- By any schedule, the build of each unit comes to its end. -/
theorem crewAfter_done {schedule : List Nat} {us : List SourceUnit} {t : Task}
    (member : t ∈ (crewAfter o run schedule w us).tasks) : ∃ r, t.progress = .done r := by
  obtain ⟨i, found⟩ := List.mem_iff_getElem?.mp member
  have lt : i < us.length := by
    rw [← crewAfter_units o run schedule w us, List.length_map]
    exact (List.getElem?_eq_some_iff.mp found).1
  have start : Crew.Within ⟨w, us.map ({ unit := · })⟩ i Progress.longest := by
    intro t here
    obtain ⟨u, -, rfl⟩ := List.mem_map.mp (List.mem_of_getElem? here)
    exact Nat.le_refl _
  have within := (start.turns o run (turns schedule us.length)) t found
  rw [Nat.sub_eq_zero_of_le (count_turns lt)] at within
  cases progress : t.progress with
  | done r => exact ⟨r, rfl⟩
  | _ =>
    rw [progress] at within
    exact absurd within (by simp [Progress.left])

/-- What is reported of a unit names it. -/
def Crew.Reports (c : Crew) : Prop := ∀ x ∈ c.tasks, ∀ r, x.progress = .done r → r.unit = x.unit

theorem Crew.Reports.turn (reports : c.Reports) (i : Nat) : (c.turn o run i).Reports := by
  cases found : c.tasks[i]? with
  | none => rwa [turn_none found]
  | some t =>
    obtain ⟨p', w', step, same⟩ := turn_some o run found
    rw [same]
    intro x member r progress
    rcases List.mem_or_eq_of_mem_set member with old | rfl
    · exact reports x old r progress
    · obtain rfl : p' = .done r := progress
      have before := reports t (List.mem_of_getElem? found)
      obtain ⟨u, p⟩ := t
      cases step with
      | done => exact before r rfl
      | _ => rfl

theorem map_unit_results {tasks : List Task}
    (ends : ∀ t ∈ tasks, ∃ r, t.progress = .done r ∧ r.unit = t.unit) :
    (tasks.filterMap (·.progress.result?)).map (·.unit) = tasks.map (·.unit) := by
  induction tasks with
  | nil => rfl
  | cons t tasks ih =>
    obtain ⟨r, done, own⟩ := ends t List.mem_cons_self
    have first : t.progress.result? = some r := by rw [done, Progress.result?]
    rw [List.filterMap_cons, first]
    rw [List.map_cons, List.map_cons, own, ih fun x member => ends x (List.mem_cons_of_mem _ member)]

/-- By any schedule, a build reports once of each unit, in their order. -/
theorem units_results (o : BuildOptions) (run : String) (schedule : List Nat) (w : Workspace)
    (us : List SourceUnit) : (units o run schedule w us).1.map (·.unit) = us := by
  have reports : (crewAfter o run schedule w us).Reports := by
    unfold crewAfter
    have start : Crew.Reports ⟨w, us.map ({ unit := · })⟩ := by
      intro x member r progress
      obtain ⟨u, -, rfl⟩ := List.mem_map.mp member
      cases progress
    generalize (⟨w, us.map ({ unit := · })⟩ : Crew) = c at start ⊢
    induction turns schedule us.length generalizing c with
    | nil => exact start
    | cons i is ih => exact ih _ (start.turn i)
  refine Eq.trans (map_unit_results fun x member => ?_) (crewAfter_units o run schedule w us)
  obtain ⟨r, done⟩ := crewAfter_done member
  exact ⟨r, done, reports x member r done⟩

/-- How a run ended, written down in the cache. -/
def ended (id : String) (done : List UnitResult × Workspace) : List UnitResult × Workspace :=
  let s := stats done.1
  (done.1, { done.2 with
    cache := done.2.cache.map fun c =>
      match c.completeRun id (if s.failed = 0 then Run.completedStatus else Run.failedStatus) s
        (errorText done.1) with
      | .ok c' => c'
      | .error _ => c })

theorem run_eq (o : BuildOptions) (id started : String) (schedule : List Nat) (w : Workspace) :
    Build.run o id started schedule w = ended id (units o id schedule
      ⟨w.files, w.cache.map (·.startRun id started)⟩ (o.discover w.files)) := rfl

end Build

end TastyLang
