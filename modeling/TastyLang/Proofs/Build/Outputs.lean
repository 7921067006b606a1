import Mathlib.Data.List.Nodup
import Mathlib.Data.List.Pairwise
import TastyLang.Build.Basic
import TastyLang.Builtin.Basic
import TastyLang.Config.Loading
import TastyLang.Proofs.Graph.Cycles
import TastyLang.Proofs.Text.Paths

/-!
# Where results go

A unit lies along some names below the source directory, and its results lie along the same names
below the directory for results, with the extension of the file cut off (`outputPaths_eq`). So two
results meet only if the names of their units do. What can still make them meet are the extension
chosen for headers, files of one name with and without the extension of the language, and files that
have no name but the extension.
-/

namespace TastyLang

open Text

variable {c : Config} {o : BuildOptions} {t : FileTree} {u u' : SourceUnit}

/-! ### The names of units -/

theorem unitName_append (s : String) : unitName (s ++ sourceExt) = s := by
  have ext : extension (s ++ sourceExt) = sourceExt := by
    simp [extension, sourceExt]
  rw [unitName, if_pos ext, dropTail_append]

theorem unitName_of_not_endsWith {s : String} (other : endsWith sourceExt s = false) :
    unitName s = s := by
  have whole : dropTail sourceExt s = s := by
    rw [endsWith, Option.isSome_eq_false_iff, Option.isNone_iff_eq_none] at other
    rw [dropTail, other]
    rfl
  rw [unitName, whole, ite_self]

theorem endsWith_join {dirs : List String} {n : String} (free : ∀ d ∈ dirs ++ [n], '/' ∉ d.toList) :
    endsWith sourceExt (join "/" (dirs ++ [n])) = endsWith sourceExt n := by
  rw [Bool.eq_iff_iff, endsWith_iff, endsWith_iff]
  constructor
  · rintro ⟨s, whole⟩
    obtain ⟨init, last, pieces⟩ : ∃ init last, cut '/' s = init ++ [last] := by
      obtain none | ⟨init, last, pieces⟩ := List.eq_nil_or_concat (cut '/' s)
      · simp [cut, cutChars_ne_nil] at none
      · exact ⟨init, last, by simpa using pieces⟩
    have same : join "/" (dirs ++ [n]) = join "/" (init ++ [last ++ sourceExt]) := by
      rw [whole, ← join_pieces s, pieces, join_concat]
    have cuts := congrArg (cut '/') same
    rw [cut_join (by simp) free, cut_join (by simp)] at cuts
    · exact ⟨last, (List.append_inj_right' cuts rfl |> List.cons.inj).1⟩
    · intro d member
      rcases List.mem_append.mp member with inside | here
      · exact not_mem_of_mem_cut (s := s) (by rw [pieces]; exact List.mem_append_left _ inside)
      · rw [List.mem_singleton.mp here, String.toList_append, List.mem_append, not_or]
        exact ⟨not_mem_of_mem_cut (s := s) (by rw [pieces]; simp), by decide⟩
  · rintro ⟨m, rfl⟩
    exact ⟨join "/" (dirs ++ [m]), (join_concat ..).symm⟩

theorem unitName_join {dirs : List String} {n : String} (free : ∀ d ∈ dirs ++ [n], '/' ∉ d.toList) :
    unitName (join "/" (dirs ++ [n])) = join "/" (dirs ++ [unitName n]) := by
  cases ends : endsWith sourceExt n with
  | true =>
    obtain ⟨m, rfl⟩ := endsWith_iff.mp ends
    rw [← join_concat, unitName_append, unitName_append]
  | false =>
    rw [unitName_of_not_endsWith ends, unitName_of_not_endsWith ((endsWith_join free).trans ends)]

/-! ### Units of a tree of files -/

/-- Every path of a tree of files is there once; it starts at the root, and names stand along it. -/
structure FileTree.Tidy (t : FileTree) : Prop where
  path : ∀ e ∈ t.entries, ∃ names, names ≠ [] ∧ (∀ n ∈ names, IsName n) ∧ e.1 = "/" ++ join "/" names
  once : (t.entries.map (·.1)).Nodup

/-- A unit lies along some names below a directory. -/
structure SourceUnit.Lies (u : SourceUnit) (dir : String) (names : List String) : Prop where
  ne : names ≠ []
  named : ∀ n ∈ names, IsName n
  rel : u.rel = join "/" names
  path : u.path = lead dir ++ join "/" names

theorem SourceUnit.Lies.eq {dir : String} {names names' : List String} (h : u.Lies dir names)
    (h' : u'.Lies dir names') (rel : u.rel = u'.rel) : u = u' := by
  have path : u.path = u'.path := by rw [h.path, h'.path, ← h.rel, ← h'.rel, rel]
  cases u
  cases u'
  cases rel
  cases path
  rfl

theorem BuildOptions.discover_lies (tidy : t.Tidy) (given : o.srcDir ≠ "") (member : u ∈ o.discover t) :
    ∃ names, u.Lies o.srcDir names := by
  simp only [discover, List.mem_mergeSort, List.mem_filter, List.mem_map, FileTree.filesBelow,
    Bool.and_eq_true] at member
  obtain ⟨⟨path, ⟨e, ⟨inside, below, -⟩, rfl⟩, rfl⟩, -⟩ := member
  obtain ⟨all, ne, named, path⟩ := tidy.path e inside
  rw [FileTree.isBelow, path] at below
  obtain ⟨names, ne, named, rel, way⟩ := along_of_startsWith given ne named below
  exact ⟨names, ne, named, by rw [path, rel], by rw [path, way]⟩

theorem BuildOptions.discover_nodup (tidy : t.Tidy) : (o.discover t).Nodup := by
  have paths : (t.filesBelow o.srcDir).Nodup :=
    tidy.once.sublist (List.filter_sublist.map _)
  have units : ((t.filesBelow o.srcDir).map fun path =>
      (⟨path, relativePath o.srcDir path⟩ : SourceUnit)).Nodup :=
    paths.map fun _ _ same => congrArg SourceUnit.path same
  exact ((List.mergeSort_perm _ _).nodup_iff).mpr (units.filter _)

/-- Something stands in front of the extension of a file. -/
def SourceUnit.IsNamed (u : SourceUnit) : Prop := IsName (unitName (baseName u.rel))

instance (u : SourceUnit) : Decidable u.IsNamed := inferInstanceAs (Decidable (IsName _))

theorem SourceUnit.Lies.unitName {dir : String} {names : List String} (h : u.Lies dir names)
    (named : u.IsNamed) : ∃ names', names' ≠ [] ∧ (∀ n ∈ names', IsName n) ∧
      unitName u.rel = join "/" names' := by
  obtain none | ⟨dirs, n, whole⟩ := List.eq_nil_or_concat names
  · exact absurd none h.ne
  rw [List.concat_eq_append] at whole
  subst whole
  have all := h.named
  have free : ∀ d ∈ dirs ++ [n], '/' ∉ d.toList := fun d member => (all d member).2.2.2
  rw [IsNamed, h.rel, baseName_join (all n (by simp))] at named
  refine ⟨dirs ++ [TastyLang.unitName n], by simp, fun d member => ?_, ?_⟩
  · rcases List.mem_append.mp member with inside | here
    · exact all d (List.mem_append_left _ inside)
    · rw [List.mem_singleton.mp here]
      exact named
  · rw [h.rel, unitName_join free]

theorem BuildOptions.outputPaths_eq {dir : String} {names : List String} (h : u.Lies dir names)
    (named : u.IsNamed) (given : o.outDir ≠ "") :
    o.outputPaths u = (lead o.outDir ++ unitName u.rel ++ o.headerExt,
      lead o.outDir ++ unitName u.rel ++ cppExt) := by
  obtain ⟨names', ne, all, name⟩ := h.unitName named
  rw [outputPaths, name, joinPath_join given ne all]

/-! ### Results apart from each other -/

/-- A build with these settings. -/
structure BuildOptions.Follows (o : BuildOptions) (c : Config) : Prop where
  srcDir : o.srcDir = c.srcDir
  outDir : o.outDir = c.outDir
  headerExt : o.headerExt = c.headerExt

def BuildOptions.results (o : BuildOptions) (us : List SourceUnit) : List String :=
  us.flatMap fun u => [(o.outputPaths u).1, (o.outputPaths u).2]

theorem Config.check_ok (checked : c.check = .ok ()) :
    c.srcDir ≠ "" ∧ c.outDir ≠ "" ∧ Config.isExtension c.headerExt = true := by
  unfold Config.check at checked
  by_cases source : c.srcDir = ""
  · simp [source] at checked
    cases checked
  by_cases output : c.outDir = ""
  · simp [source, output] at checked
    cases checked
  by_cases ext : Config.isExtension c.headerExt = true
  · exact ⟨source, output, ext⟩
  · simp [source, output, ext] at checked
    cases checked

theorem Config.isExtension_iff {s : String} :
    Config.isExtension s = true ↔ ∃ d ds, s.toList = '.' :: d :: ds := by
  unfold Config.isExtension
  constructor
  · intro h
    split at h
    · next d ds chars => exact ⟨d, ds, chars⟩
    · cases h
  · rintro ⟨d, ds, chars⟩
    rw [chars]
    rfl

theorem endsWith_of_append_eq {a b h e : String} {w : List Char} (ext : Config.isExtension h = true)
    (last : e.toList = '.' :: w) (plain : '.' ∉ w) (same : a ++ h = b ++ e) :
    endsWith e h = true := by
  have chars : a.toList ++ h.toList = b.toList ++ e.toList := by
    simpa using congrArg String.toList same
  obtain ⟨d, ds, start⟩ := Config.isExtension_iff.mp ext
  obtain ⟨more, -, tail⟩ | ⟨more, -, tail⟩ := List.append_eq_append_iff.mp chars
  · exact endsWith_iff.mpr ⟨String.ofList more, String.toList_inj.mp (by simpa using tail)⟩
  · cases more with
    | nil => exact endsWith_iff.mpr ⟨"", String.toList_inj.mp (by simpa using tail.symm)⟩
    | cons x more =>
      rw [last, List.cons_append] at tail
      have dot : '.' ∈ h.toList := by
        rw [start]
        exact List.mem_cons_self
      refine absurd ?_ plain
      rw [(List.cons.inj tail).2]
      exact List.mem_append_right _ dot

section

variable {us : List SourceUnit} {front : String}

/-- The results of a unit lie where its name says. -/
def BuildOptions.Places (o : BuildOptions) (front : String) (us : List SourceUnit) : Prop :=
  ∀ u ∈ us, o.outputPaths u =
    (front ++ unitName u.rel ++ o.headerExt, front ++ unitName u.rel ++ cppExt)

theorem BuildOptions.mem_results (places : o.Places front us) {path : String} :
    path ∈ o.results us ↔ ∃ u ∈ us, path = front ++ (unitName u.rel ++ o.headerExt) ∨
      path = front ++ (unitName u.rel ++ cppExt) := by
  rw [results, List.mem_flatMap]
  constructor
  · rintro ⟨u, member, inside⟩
    rw [places u member] at inside
    exact ⟨u, member, by simpa [String.append_assoc] using inside⟩
  · rintro ⟨u, member, here⟩
    refine ⟨u, member, ?_⟩
    rw [places u member]
    simpa [String.append_assoc] using here

theorem BuildOptions.results_nodup_iff (nodup : us.Nodup) (places : o.Places front us) :
    (o.results us).Nodup ↔
      (∀ u ∈ us, ∀ u' ∈ us, unitName u.rel = unitName u'.rel → u = u') ∧
      ∀ u ∈ us, ∀ u' ∈ us, unitName u.rel ++ o.headerExt ≠ unitName u'.rel ++ cppExt := by
  have paths : ∀ u ∈ us, [(o.outputPaths u).1, (o.outputPaths u).2] =
      [front ++ (unitName u.rel ++ o.headerExt), front ++ (unitName u.rel ++ cppExt)] := by
    intro u member
    rw [places u member, String.append_assoc, String.append_assoc]
  rw [results, List.nodup_flatMap]
  constructor
  · rintro ⟨own, apart⟩
    have symm : Std.Symm (Function.onFun List.Disjoint fun u : SourceUnit =>
        [(o.outputPaths u).1, (o.outputPaths u).2]) := ⟨fun _ _ h _ inside inside' => h inside' inside⟩
    have others : ∀ u ∈ us, ∀ u' ∈ us, u ≠ u' → List.Disjoint
        [(o.outputPaths u).1, (o.outputPaths u).2] [(o.outputPaths u').1, (o.outputPaths u').2] :=
      fun u member u' member' => apart.forall member member'
    refine ⟨fun u member u' member' same => ?_, fun u member u' member' same => ?_⟩
    · by_contra other
      have disjoint := others u member u' member' other
      rw [paths u member, paths u' member', same] at disjoint
      exact disjoint List.mem_cons_self List.mem_cons_self
    · by_cases here : u = u'
      · have single := own u member
        rw [paths u member, here, ← same, ← here] at single
        simp at single
      · have disjoint := others u member u' member' here
        rw [paths u member, paths u' member', same] at disjoint
        exact disjoint List.mem_cons_self (List.mem_cons_of_mem _ List.mem_cons_self)
  · rintro ⟨names, exts⟩
    refine ⟨fun u member => ?_, ?_⟩
    · rw [paths u member]
      simpa using exts u member u member
    · refine nodup.imp_of_mem fun {u u'} member member' other => ?_
      have name : unitName u.rel ≠ unitName u'.rel := fun same => other (names u member u' member' same)
      simp only [Function.onFun, paths u member, paths u' member', List.disjoint_cons_left,
        List.disjoint_nil_left, and_true, List.mem_cons, List.not_mem_nil, or_false, not_or,
        String.append_right_inj, String.append_left_inj]
      exact ⟨⟨name, exts u member u' member'⟩, fun same => exts u' member' u member same.symm, name⟩

end

theorem BuildOptions.discover_places (tidy : t.Tidy) (given : o.srcDir ≠ "" ∧ o.outDir ≠ "")
    (named : ∀ u ∈ o.discover t, u.IsNamed) : o.Places (lead o.outDir) (o.discover t) := by
  intro u member
  obtain ⟨names, lies⟩ := discover_lies tidy given.1 member
  exact outputPaths_eq lies (named u member) given.2

/-- The results of a build with settings that were checked are apart just if no two units have one
name and the extension of headers makes no header meet a source. When results lie between the units,
they leave the units alone just if no name of a unit is that of another one with one of the
extensions. Neither can fail for files of the language, unless the extension of headers ends in that
of sources or of the language. -/
theorem BuildOptions.results_apart (checked : c.check = .ok ()) (follows : o.Follows c) (tidy : t.Tidy)
    (named : ∀ u ∈ o.discover t, u.IsNamed) :
    ((o.results (o.discover t)).Nodup ↔
      (∀ u ∈ o.discover t, ∀ u' ∈ o.discover t, unitName u.rel = unitName u'.rel → u = u') ∧
      ∀ u ∈ o.discover t, ∀ u' ∈ o.discover t,
        unitName u.rel ++ o.headerExt ≠ unitName u'.rel ++ cppExt) ∧
    (clean o.outDir = clean o.srcDir →
      ((∀ u ∈ o.discover t, u.path ∉ o.results (o.discover t)) ↔
        ∀ u ∈ o.discover t, ∀ u' ∈ o.discover t,
          u.rel ≠ unitName u'.rel ++ o.headerExt ∧ u.rel ≠ unitName u'.rel ++ cppExt)) ∧
    ((∀ u ∈ o.discover t, endsWith sourceExt u.rel = true) → endsWith cppExt o.headerExt = false →
      (o.results (o.discover t)).Nodup ∧
      (clean o.outDir = clean o.srcDir → endsWith sourceExt o.headerExt = false →
        ∀ u ∈ o.discover t, u.path ∉ o.results (o.discover t))) := by
  obtain ⟨source, output, ext⟩ := Config.check_ok checked
  rw [← follows.srcDir] at source
  rw [← follows.outDir] at output
  rw [← follows.headerExt] at ext
  have places := discover_places tidy ⟨source, output⟩ named
  have apart := results_nodup_iff (discover_nodup tidy) places
  have between (same : clean o.outDir = clean o.srcDir) :
      (∀ u ∈ o.discover t, u.path ∉ o.results (o.discover t)) ↔
        ∀ u ∈ o.discover t, ∀ u' ∈ o.discover t,
          u.rel ≠ unitName u'.rel ++ o.headerExt ∧ u.rel ≠ unitName u'.rel ++ cppExt := by
    refine forall₂_congr fun u member => ?_
    obtain ⟨names, lies⟩ := discover_lies tidy source member
    have path : u.path = lead o.outDir ++ u.rel := by
      rw [lies.path, lies.rel, lead, lead, same]
    rw [mem_results places, path]
    simp only [String.append_right_inj, not_exists, not_and, not_or]
  refine ⟨apart, between, fun sources headers => ⟨apart.mpr ⟨?_, ?_⟩, fun same plain => ?_⟩⟩
  · intro u member u' member' name
    obtain ⟨names, lies⟩ := discover_lies tidy source member
    obtain ⟨names', lies'⟩ := discover_lies tidy source member'
    refine lies.eq lies' ?_
    obtain ⟨r, rel⟩ := endsWith_iff.mp (sources u member)
    obtain ⟨r', rel'⟩ := endsWith_iff.mp (sources u' member')
    rw [rel, rel', unitName_append, unitName_append] at name
    rw [rel, rel', name]
  · intro u member u' member' meet
    have ends := endsWith_of_append_eq (w := ['c', 'p', 'p']) ext rfl (by decide) meet
    exact absurd (ends.symm.trans headers) (by decide)
  · refine (between same).mpr fun u member u' member' => ?_
    obtain ⟨r, rel⟩ := endsWith_iff.mp (sources u member)
    rw [rel]
    constructor
    · intro meet
      have ends := endsWith_of_append_eq (w := ['t', 'a', 's', 't', 'y']) ext rfl (by decide) meet.symm
      exact absurd (ends.symm.trans plain) (by decide)
    · intro meet
      have ends := endsWith_of_append_eq (h := cppExt) (w := ['t', 'a', 's', 't', 'y']) rfl rfl
        (by decide) meet.symm
      exact absurd ends (by decide)

/-- A file, a directory of its name, and a file of its name with a dot in it. -/
def neighbours : FileTree :=
  ⟨[("/p", .dir), ("/p/a.b.tasty", .file ""), ("/p/a.tasty", .file ""), ("/p/a", .dir),
    ("/p/a/b.tasty", .file "")]⟩

theorem neighbours_tidy : neighbours.Tidy := by
  refine ⟨?_, by decide⟩
  have along : ∀ e ∈ neighbours.entries, e.1 ∈ [["p"], ["p", "a.b.tasty"], ["p", "a.tasty"],
      ["p", "a"], ["p", "a", "b.tasty"]].map fun names => "/" ++ join "/" names := by
    decide
  have named : ∀ names ∈ [["p"], ["p", "a.b.tasty"], ["p", "a.tasty"], ["p", "a"],
      ["p", "a", "b.tasty"]], names ≠ [] ∧ ∀ n ∈ names, IsName n := by
    decide
  intro e member
  obtain ⟨names, inside, path⟩ := List.mem_map.mp (along e member)
  exact ⟨names, (named names inside).1, (named names inside).2, path.symm⟩

/-- A build of all files with results between them. -/
def inPlace : BuildOptions :=
  { srcDir := "/p", outDir := "/p/", selection := ⟨[⟨.deep⟩], []⟩, headerExt := ".h",
    table := .default }

theorem discover_neighbours {P : SourceUnit → Prop} (first : P ⟨"/p/a.b.tasty", "a.b.tasty"⟩)
    (second : P ⟨"/p/a.tasty", "a.tasty"⟩) (third : P ⟨"/p/a/b.tasty", "a/b.tasty"⟩) :
    ∀ u ∈ inPlace.discover neighbours, P u := by
  intro u member
  simp only [BuildOptions.discover, List.mem_mergeSort, List.mem_filter, List.mem_map] at member
  obtain ⟨⟨path, inside, rfl⟩, -⟩ := member
  have paths : neighbours.filesBelow inPlace.srcDir = ["/p/a.b.tasty", "/p/a.tasty", "/p/a/b.tasty"] := by
    decide
  rw [paths] at inside
  rcases inside with _ | ⟨_, _ | ⟨_, _ | ⟨_, ⟨⟩⟩⟩⟩
  · exact first
  · exact second
  · exact third

/-- Sources, headers and files of the language side by side. -/
theorem BuildOptions.results_apart_inPlace :
    Config.check { srcDir := "/p", outDir := "/p/", headerExt := ".h" } = .ok () ∧
    inPlace.Follows { srcDir := "/p", outDir := "/p/", headerExt := ".h" } ∧ neighbours.Tidy ∧
    (∀ u ∈ inPlace.discover neighbours, u.IsNamed) ∧
    (inPlace.results (inPlace.discover neighbours)).Nodup ∧
    ∀ u ∈ inPlace.discover neighbours, u.path ∉ inPlace.results (inPlace.discover neighbours) := by
  have checked : Config.check { srcDir := "/p", outDir := "/p/", headerExt := ".h" } = .ok () := rfl
  have follows : inPlace.Follows { srcDir := "/p", outDir := "/p/", headerExt := ".h" } :=
    ⟨rfl, rfl, rfl⟩
  have named : ∀ u ∈ inPlace.discover neighbours, u.IsNamed :=
    discover_neighbours (by decide) (by decide) (by decide)
  have sources : ∀ u ∈ inPlace.discover neighbours, endsWith sourceExt u.rel = true :=
    discover_neighbours rfl rfl rfl
  obtain ⟨nodup, apart⟩ :=
    (results_apart checked follows neighbours_tidy named).2.2 sources (by decide)
  exact ⟨checked, follows, neighbours_tidy, named, nodup, apart (by decide) (by decide)⟩

/-! ## Headers of imported modules

An import names the path of a unit with dots for slashes, and its header is looked for with slashes
for dots. A dot in the name of a unit comes back as a slash: the header of such a unit is not where
an import looks for it, and the unit may share its name with another one (`moduleName_eq_iff`).
-/

/-! ### Dots and slashes -/

theorem replaceChar_eq (c d : Char) (s : String) :
    replaceChar c d.toString s = String.ofList (s.toList.map fun x => if x = c then d else x) := by
  have chars (cs : List Char) : (cs.flatMap fun x => if x = c then d.toString.toList else [x]) =
      cs.map fun x => if x = c then d else x := by
    induction cs with
    | nil => rfl
    | cons x cs ih =>
      rw [List.flatMap_cons, ih, List.map_cons]
      split <;> simp
  rw [replaceChar, chars]

def slashed (s : String) : String := replaceChar '.' "/" s

theorem slashed_dotted (s : String) : slashed (replaceChar '/' "." s) = slashed s := by
  change replaceChar '.' '/'.toString (replaceChar '/' '.'.toString s) =
    replaceChar '.' '/'.toString s
  rw [replaceChar_eq, replaceChar_eq, replaceChar_eq, String.toList_ofList, List.map_map]
  refine congrArg String.ofList (List.map_congr_left fun x _ => ?_)
  by_cases slash : x = '/' <;> by_cases dot : x = '.' <;> simp [slash, dot]

theorem dotted_slashed (s : String) : replaceChar '/' "." (slashed s) = replaceChar '/' "." s := by
  change replaceChar '/' '.'.toString (replaceChar '.' '/'.toString s) =
    replaceChar '/' '.'.toString s
  rw [replaceChar_eq, replaceChar_eq, replaceChar_eq, String.toList_ofList, List.map_map]
  refine congrArg String.ofList (List.map_congr_left fun x _ => ?_)
  by_cases slash : x = '/' <;> by_cases dot : x = '.' <;> simp [slash, dot]

theorem slashed_eq_iff {s : String} : slashed s = s ↔ '.' ∉ s.toList := by
  have chars : slashed s = String.ofList (s.toList.map fun x => if x = '.' then '/' else x) :=
    replaceChar_eq '.' '/' s
  rw [chars, ← String.toList_inj, String.toList_ofList]
  constructor
  · intro same dot
    have kept := List.map_eq_map_iff.mp (same.trans (List.map_id s.toList).symm) '.' dot
    exact absurd kept (by decide)
  · intro plain
    refine (List.map_congr_left fun x member => ?_).trans (List.map_id s.toList)
    have other : x ≠ '.' := by
      rintro rfl
      exact plain member
    rw [if_neg other]
    rfl

theorem moduleName_eq {rel : String} (source : endsWith sourceExt rel = true) :
    moduleName rel = replaceChar '/' "." (unitName rel) := by
  obtain ⟨s, rfl⟩ := endsWith_iff.mp source
  rw [moduleName, unitName_append, dropTail_append]

theorem moduleHeader_moduleName {rel ext : String} (source : endsWith sourceExt rel = true)
    (given : ext ≠ "") : moduleHeader (moduleName rel) ext = slashed (unitName rel) ++ ext := by
  rw [moduleHeader, if_neg given, moduleName_eq source, ← slashed_dotted]
  rfl

theorem moduleName_eq_iff {rel rel' : String} (source : endsWith sourceExt rel = true)
    (source' : endsWith sourceExt rel' = true) :
    moduleName rel = moduleName rel' ↔ slashed (unitName rel) = slashed (unitName rel') := by
  rw [moduleName_eq source, moduleName_eq source']
  constructor
  · intro same
    rw [← slashed_dotted, same, slashed_dotted]
  · intro same
    rw [← dotted_slashed, same, dotted_slashed]

theorem BuildOptions.headerPath_eq (tidy : t.Tidy) (given : o.srcDir ≠ "" ∧ o.outDir ≠ "")
    (member : u ∈ o.discover t) (named : u.IsNamed) (free : '/' ∉ o.headerExt.toList) :
    (o.outputPaths u).1 = joinPath [o.outDir, unitName u.rel ++ o.headerExt] := by
  obtain ⟨names, lies⟩ := discover_lies tidy given.1 member
  obtain ⟨names', ne, all, name⟩ := lies.unitName named
  obtain none | ⟨dirs, n, whole⟩ := List.eq_nil_or_concat names'
  · exact absurd none ne
  rw [List.concat_eq_append] at whole
  subst whole
  rw [outputPaths_eq lies named given.2, name, String.append_assoc, join_concat,
    joinPath_join given.2 (by simp)]
  intro d member
  rcases List.mem_append.mp member with inside | here
  · exact all d (List.mem_append_left _ inside)
  · rw [List.mem_singleton.mp here]
    exact (all n (by simp)).append free

/-! ### The graph of a project -/

namespace Graph

theorem foldl_addUnit {us : List SourceUnit} {g : Graph} (nodup : (us.map (·.moduleName)).Nodup)
    (fresh : ∀ u ∈ us, g.contains u.moduleName = false) :
    (us.foldl (fun g u => g.addUnit u.moduleName u.rel) g).units =
      g.units ++ us.map fun u => ⟨u.moduleName, u.rel⟩ := by
  induction us generalizing g with
  | nil => simp
  | cons u us ih =>
    obtain ⟨first, rest⟩ := List.nodup_cons.mp nodup
    have new : (g.addUnit u.moduleName u.rel).units = g.units ++ [⟨u.moduleName, u.rel⟩] := by
      rw [addUnit, fresh u List.mem_cons_self]
      rfl
    rw [List.foldl_cons, ih rest fun u' member => ?_, new, List.append_assoc]
    · rfl
    · rw [Bool.eq_false_iff, ne_eq, contains_addUnit, not_or]
      refine ⟨by simp [fresh u' (List.mem_cons_of_mem _ member)], fun same => first ?_⟩
      exact List.mem_map.mpr ⟨u', member, same⟩

theorem foldlM_units {α : Type} {f : Graph → α → Except GraphError Graph}
    (keeps : ∀ g a g', f g a = .ok g' → g'.units = g.units) (l : List α) {g g' : Graph}
    (done : l.foldlM f g = .ok g') : g'.units = g.units := by
  induction l generalizing g with
  | nil =>
    cases done
    rfl
  | cons a l ih =>
    rw [List.foldlM_cons] at done
    obtain ⟨g₁, first, rest⟩ := except_bind_ok done
    rw [ih rest, keeps g a g₁ first]

end Graph

theorem Build.graph_units {g : Graph} {failed : List UnitResult}
    (nodup : ((o.discover t).map (·.moduleName)).Nodup) (made : graph o t = .ok (g, failed)) :
    g.units = (o.discover t).map fun u => ⟨u.moduleName, u.rel⟩ := by
  obtain ⟨g₁, linked, done⟩ := except_bind_ok made
  cases done
  rw [Graph.foldlM_units (fun g u g' added => ?_) _ linked, Graph.foldl_addUnit nodup fun _ _ => rfl]
  · rfl
  · exact Graph.foldlM_units (fun g m g' added => Graph.addImport_units added) _ added

/-- An import of a file leads to its header just if no dot stands in its path, and the files that
share a unit of the graph are those whose paths differ in dots and slashes alone: none, where no dots
are. -/
theorem Build.imports_lead_to_headers (tidy : t.Tidy) (given : o.srcDir ≠ "" ∧ o.outDir ≠ "") :
    (∀ u ∈ o.discover t, endsWith sourceExt u.rel = true →
      (∀ ext, ext ≠ "" → (moduleHeader u.moduleName ext = unitName u.rel ++ ext ↔
        '.' ∉ (unitName u.rel).toList)) ∧
      (u.IsNamed → '/' ∉ o.headerExt.toList →
        (o.outputPaths u).1 = joinPath [o.outDir, unitName u.rel ++ o.headerExt]) ∧
      ∀ u' ∈ o.discover t, endsWith sourceExt u'.rel = true →
        (u.moduleName = u'.moduleName ↔ slashed (unitName u.rel) = slashed (unitName u'.rel))) ∧
    ((∀ u ∈ o.discover t, endsWith sourceExt u.rel = true ∧ '.' ∉ (unitName u.rel).toList) →
      (∀ u ∈ o.discover t, ∀ u' ∈ o.discover t, u.moduleName = u'.moduleName → u = u') ∧
      ∀ g failed, graph o t = .ok (g, failed) →
        g.units = (o.discover t).map fun u => ⟨u.moduleName, u.rel⟩) := by
  refine ⟨fun u member source => ⟨fun ext some_ => ?_, fun named free => ?_, fun u' _ source' => ?_⟩,
    fun plain => ?_⟩
  · rw [SourceUnit.moduleName, moduleHeader_moduleName source some_, String.append_left_inj,
      slashed_eq_iff]
  · exact BuildOptions.headerPath_eq tidy given member named free
  · exact moduleName_eq_iff source source'
  · have apart : ∀ u ∈ o.discover t, ∀ u' ∈ o.discover t, u.moduleName = u'.moduleName → u = u' := by
      intro u member u' member' same
      obtain ⟨source, undotted⟩ := plain u member
      obtain ⟨source', undotted'⟩ := plain u' member'
      have name := (moduleName_eq_iff source source').mp same
      rw [slashed_eq_iff.mpr undotted, slashed_eq_iff.mpr undotted'] at name
      obtain ⟨s, rel⟩ := endsWith_iff.mp source
      obtain ⟨s', rel'⟩ := endsWith_iff.mp source'
      rw [rel, rel', unitName_append, unitName_append] at name
      obtain ⟨names, lies⟩ := BuildOptions.discover_lies tidy given.1 member
      obtain ⟨names', lies'⟩ := BuildOptions.discover_lies tidy given.1 member'
      exact lies.eq lies' (by rw [rel, rel', name])
    refine ⟨apart, fun g failed made => graph_units ?_ made⟩
    exact (BuildOptions.discover_nodup tidy).map_on apart

/-- The header of `a.b.tasty` lies beside those that an import of `a.b` leads to: that of `a/b.tasty`,
whose unit it shares. -/
theorem Build.imports_lead_to_headers_neighbours :
    neighbours.Tidy ∧ (inPlace.srcDir ≠ "" ∧ inPlace.outDir ≠ "") ∧
    ⟨"/p/a.b.tasty", "a.b.tasty"⟩ ∈ inPlace.discover neighbours ∧
    ⟨"/p/a/b.tasty", "a/b.tasty"⟩ ∈ inPlace.discover neighbours ∧
    moduleHeader (moduleName "a.b.tasty") ".h" ≠ unitName "a.b.tasty" ++ ".h" ∧
    moduleHeader (moduleName "a/b.tasty") ".h" = unitName "a/b.tasty" ++ ".h" ∧
    (inPlace.outputPaths ⟨"/p/a/b.tasty", "a/b.tasty"⟩).1 = "/p/a/b.h" ∧
    moduleName "a.b.tasty" = moduleName "a/b.tasty" := by
  have given : inPlace.srcDir ≠ "" ∧ inPlace.outDir ≠ "" := by decide
  have below : neighbours.filesBelow inPlace.srcDir =
      ["/p/a.b.tasty", "/p/a.tasty", "/p/a/b.tasty"] := by
    decide +kernel
  have found (path rel : String) (inside : path ∈ neighbours.filesBelow inPlace.srcDir)
      (way : relativePath inPlace.srcDir path = rel) (shown : BuildOptions.inHidden rel = false) :
      ⟨path, rel⟩ ∈ inPlace.discover neighbours := by
    simp only [BuildOptions.discover, List.mem_mergeSort, List.mem_filter, List.mem_map]
    refine ⟨⟨path, inside, by rw [way]⟩, ?_⟩
    rw [shown]
    rfl
  have dotted := found "/p/a.b.tasty" "a.b.tasty" (by rw [below]; decide) (by decide) (by decide)
  have nested := found "/p/a/b.tasty" "a/b.tasty" (by rw [below]; decide) (by decide) (by decide)
  obtain ⟨units, -⟩ := imports_lead_to_headers neighbours_tidy given
  obtain ⟨header, -, shared⟩ := units _ dotted rfl
  obtain ⟨headers, place, -⟩ := units _ nested rfl
  refine ⟨neighbours_tidy, given, dotted, nested, fun same => ?_, ?_, ?_, ?_⟩
  · have dotted : ¬ '.' ∉ (unitName "a.b.tasty").toList := by decide
    exact dotted ((header ".h" (by decide)).mp same)
  · have plain : '.' ∉ (unitName "a/b.tasty").toList := by decide
    exact (headers ".h" (by decide)).mpr plain
  · have named : SourceUnit.IsNamed ⟨"/p/a/b.tasty", "a/b.tasty"⟩ := by decide
    have path : joinPath [inPlace.outDir, unitName "a/b.tasty" ++ inPlace.headerExt] = "/p/a/b.h" := by
      decide
    exact (place named (by decide)).trans path
  · have dots : unitName "a.b.tasty" = "a.b" := by decide
    have slashes : unitName "a/b.tasty" = "a/b" := by decide
    refine (shared _ nested rfl).mpr ?_
    dsimp only
    rw [dots, slashes]
    decide

end TastyLang
