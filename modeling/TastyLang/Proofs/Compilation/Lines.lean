import TastyLang.Builtin.Basic
import TastyLang.Proofs.Compilation.Layout
import TastyLang.Proofs.Emission.Unit
import TastyLang.Proofs.Evaluation

/-!
# Every construct on its line

The source that a text compiles to has its definitions, the statements in them and the closing
braces of blocks on the lines of the text (`compile_keeps_lines`), as long as the includes end above
the first declaration and nothing that is written without being counted ends a line. What follows
`else` is not moved to its line: it stands behind the brace in front of it
(`alternative_leaves_line`).
-/

namespace TastyLang

open Text Emission

/-! ### Names of files -/

theorem Text.oneLine_of_subset {s t : String} (inside : s.toList ⊆ t.toList) (one : OneLine t) :
    OneLine s :=
  breaks_eq_zero.mpr fun member => breaks_eq_zero.mp one (inside member)

theorem Text.after?_suffix {p cs rest : List Char} (h : after? p cs = some rest) : rest <:+ cs := by
  obtain rfl := after?_eq_some.mp h
  exact List.suffix_append p rest

theorem Text.dropTail_subset (p s : String) : (dropTail p s).toList ⊆ s.toList := by
  unfold dropTail dropTail?
  cases found : after? p.toList.reverse s.toList.reverse with
  | none => exact List.Subset.refl _
  | some rest =>
    intro c member
    have inside : c ∈ rest := by simpa using member
    exact List.mem_reverse.mp ((after?_suffix found).subset inside)

theorem Text.oneLine_baseName {path : String} (one : OneLine path) : OneLine (baseName path) := by
  unfold baseName
  split
  · rfl
  · dsimp only
    split
    · rfl
    · refine oneLine_of_subset (fun c member => ?_) one
      rw [String.toList_ofList, List.mem_reverse] at member
      have inside := (List.takeWhile_sublist _).subset member
      rw [List.reverse_reverse] at inside
      exact List.mem_reverse.mp ((List.dropWhile_sublist _).subset inside)

theorem oneLine_unitName {path : String} (one : OneLine path) : OneLine (unitName path) := by
  unfold unitName
  split
  · exact oneLine_of_subset (dropTail_subset _ _) one
  · exact one

/-! ### The lines in front of the declarations -/

namespace Emission

theorem directive_line {pr : Printer} (start : pr.atLineStart = true) (s : String) :
    (pr.directive s).line = pr.line + 1 ∧ (pr.directive s).atLineStart = true := by
  unfold Printer.directive Printer.freshLine
  rw [if_pos start]
  exact ⟨rfl, rfl⟩

theorem directives_show {es : List IncludeEntry} {pr pr' : Printer} {ps : List Placement}
    {u : Unit} (one : ∀ e ∈ es, OneLine e.directive) (shows : pr.Shows ps)
    (start : pr.atLineStart = true)
    (h : (es.forM fun e => modify (·.directive e.directive) : Emitter Unit) pr = .ok (u, pr')) :
    pr'.Shows ps ∧ pr'.line = pr.line + es.length := by
  induction es generalizing pr with
  | nil =>
    obtain ⟨-, rfl⟩ := pure_ok h
    exact ⟨shows, (Int.add_zero _).symm⟩
  | cons e es ih =>
    obtain ⟨first, rest⟩ := List.forall_mem_cons.mp one
    obtain ⟨_, _, written, h⟩ := bind_ok h
    obtain rfl := modify_ok written
    obtain ⟨line, start⟩ := directive_line start e.directive
    obtain ⟨shows, ends⟩ := ih rest (Printer.directive_shows shows first) start h
    refine ⟨shows, ?_⟩
    rw [ends, line, List.length_cons]
    omega

def ownEntry (o : EmitOptions) : IncludeEntry := ⟨baseName o.name ++ o.headerExt, true⟩

theorem preamble_shows {o : EmitOptions} {includes : IncludeSet} {s : Sheets} {u : Unit}
    (one : ∀ e ∈ ownEntry o :: includes.source, OneLine e.directive)
    (h : preamble o includes {} = .ok (u, s)) :
    s.source.Shows [] ∧ s.source.line = 2 + includes.source.length := by
  obtain ⟨_, s₁, first, h⟩ := bind_ok h
  obtain ⟨_, run⟩ := on_source h
  rw [on_header first] at run
  obtain ⟨shows, line⟩ := directives_show one Printer.shows_empty rfl run
  refine ⟨shows, ?_⟩
  rw [line, List.length_cons]
  show (1 : Int) + _ = _
  omega

theorem unit_shows {info : Info} (spelt : info.Spelt OneLine) {o : EmitOptions}
    {includes : IncludeSet} {file : File} {p q : Pos} {s : Sheets} {u : Unit}
    (lies : Decl.LieIn p file.decls q) (quiet : ∀ f ∈ file.funcs, f.Quiet)
    (one : ∀ e ∈ ownEntry o :: includes.source, OneLine e.directive)
    (below : ∀ d ∈ file.decls, 1 + includes.source.length < lineOf d.info)
    (h : unit info o includes file {} = .ok (u, s)) :
    Adds s.source [] (Decl.placementsIn info file.decls) := by
  obtain ⟨_, s₁, first, h⟩ := bind_ok h
  obtain ⟨shows, line⟩ := preamble_shows one first
  obtain ⟨_, s₂, body, h⟩ := bind_ok h
  obtain ⟨adds, -⟩ := decls_show spelt lies quiet shows
    (fun d member => by have := below d member; omega) body
  split at h
  · obtain ⟨-, rfl⟩ := pure_ok h
    exact adds
  · rw [on_header h]
    exact adds

end Emission

theorem IncludeEntry.oneLine_directive {e : IncludeEntry} (one : OneLine e.path) :
    OneLine e.directive := by
  unfold IncludeEntry.directive
  split
  · rw [OneLine, breaks_append, breaks_append, one]
    rfl
  · rw [OneLine, breaks_append, breaks_append, one]
    rfl

/-- The options that a unit is written with: the defaults filled in. -/
def EmitOptions.filled (o : EmitOptions) (file : File) : EmitOptions :=
  { o with
    headerExt := if o.headerExt = "" then defaultHeaderExt else o.headerExt
    name := if o.name = "" then withoutExtension file.name else o.name }

theorem EmitOptions.oneLine_ownEntry {o : EmitOptions} {file : File} (named : OneLine file.name)
    (name : OneLine o.name) (ext : OneLine o.headerExt) :
    OneLine (ownEntry (o.filled file)).path := by
  have first : OneLine (o.filled file).name := by
    unfold EmitOptions.filled
    dsimp only
    split
    · exact oneLine_of_subset (dropTail_subset _ _) named
    · exact name
  have second : OneLine (o.filled file).headerExt := by
    unfold EmitOptions.filled
    dsimp only
    split
    · rfl
    · exact ext
  show breaks (baseName (o.filled file).name ++ (o.filled file).headerExt) = 0
  rw [breaks_append, oneLine_baseName first, second]

theorem File.emit_lays {file : File} {table : Table} {info : Info} {o : EmitOptions}
    {unit : CppUnit} {p q : Pos} (spelt : info.Spelt OneLine) (lies : Decl.LieIn p file.decls q)
    (quiet : ∀ f ∈ file.funcs, f.Quiet) (own : OneLine (ownEntry (o.filled file)).path)
    (one : ∀ e ∈ unit.includes.source, OneLine e.path)
    (below : ∀ d ∈ file.decls, 1 + unit.includes.source.length < lineOf d.info)
    (h : file.emit table (some info) o = .ok unit) :
    ∃ ps, Decl.placementsIn info file.decls = .ok ps ∧ LaidOut 1 unit.source.toList ps := by
  change (do
    let r ← Emission.unit info (o.filled file)
      (file.includes table (some info) (o.filled file).headerExt) file {}
    return (⟨r.2.header.text, r.2.source.text,
      file.includes table (some info) (o.filled file).headerExt⟩ : CppUnit)) = .ok unit at h
  generalize file.includes table (some info) (o.filled file).headerExt = includes at h
  obtain ⟨r, run, h⟩ := except_bind_ok h
  cases h
  obtain ⟨ps, placed, shows⟩ := unit_shows spelt lies quiet
    (List.forall_mem_cons.mpr ⟨IncludeEntry.oneLine_directive own,
      fun e member => IncludeEntry.oneLine_directive (one e member)⟩) below run
  exact ⟨ps, placed, Printer.text_laid shows⟩

theorem File.expand_name {file file' : File} {info : Info}
    (h : file.expand (some info) = .ok file') : file'.name = file.name := by
  obtain ⟨ds, -, h⟩ := except_bind_ok h
  cases h
  rfl

theorem File.read_name {table : Table} {name src : String} {file : File}
    (h : File.read table name src = .ok file) : file.name = name := by
  obtain ⟨c, -, h⟩ := except_bind_ok h
  obtain ⟨⟨_, _⟩, run, h⟩ := except_bind_ok h
  cases h
  obtain ⟨_, _, -, run⟩ := bind_ok run
  obtain ⟨_, _, -, run⟩ := bind_ok run
  obtain ⟨_, _, -, run⟩ := bind_ok run
  cases run
  rfl

theorem analyze_names {table : Table} {name src : String} {a : Analysis}
    (h : analyze table name src = .ok a) : a.file.name = name ∧ a.name = unitName name := by
  obtain ⟨file, read, h⟩ := except_bind_ok h
  obtain ⟨info, -, h⟩ := except_bind_ok h
  obtain ⟨expanded, expand, h⟩ := except_bind_ok h
  obtain rfl := Except.ok.inj h
  have named := File.read_name (mapError_ok read)
  exact ⟨(File.expand_name (mapError_ok expand)).trans named, rfl⟩

/-- A text without uses of attributes whose injected lines are no directives. The definitions of
functions and methods, the statements in them and the closing braces stand in the source on the
lines that they have in the text, if the includes leave the line of the first declaration free and
take one line each. What follows `else` stands on the line of the brace in front of it. -/
theorem compile_keeps_lines {table : Table} {o : CompileOptions} {name src : String}
    {a : Analysis} {c : Compiled} (spelt : table.Spelt OneLine)
    (analysis : analyze table name src = .ok a) (compiled : compile table o name src = .ok c)
    (bare : a.file.uses = []) (quiet : ∀ f ∈ a.file.funcs, f.Quiet)
    (below : ∀ d ∈ a.file.decls, 1 + c.unit.includes.source.length < lineOf d.info)
    (named : OneLine name) (ext : OneLine o.headerExt)
    (one : ∀ e ∈ c.unit.includes.source, OneLine e.path) :
    ∃ ps, Decl.placementsIn a.info a.file.decls = .ok ps ∧ LaidOut 1 c.unit.source.toList ps := by
  obtain ⟨p, q, lies⟩ := analyze_lies analysis bare
  have spelt := analyze_spelt Spelling.lines spelt analysis
  obtain ⟨a', again, compiled⟩ := except_bind_ok compiled
  obtain rfl := Except.ok.inj (again.symm.trans analysis)
  obtain ⟨unit, emitted, compiled⟩ := except_bind_ok compiled
  cases compiled
  obtain ⟨file, unit_⟩ := analyze_names analysis
  have whole : OneLine a'.name := by
    rw [unit_]
    exact oneLine_unitName named
  rw [← file] at named
  refine File.emit_lays spelt lies quiet (EmitOptions.oneLine_ownEntry named ?_ ?_) one below
    (mapError_ok emitted)
  · exact whole
  · exact ext

/-- What a text compiles to, with the analysis in between. -/
def compiled? (table : Table) (o : CompileOptions) (name src : String) :
    Option (Analysis × Compiled) := do
  let a ← (analyze table name src).toOption
  let c ← (compile table o name src).toOption
  return (a, c)

theorem compiled?_some {table : Table} {o : CompileOptions} {name src : String} {a : Analysis}
    {c : Compiled} (h : compiled? table o name src = some (a, c)) :
    analyze table name src = .ok a ∧ compile table o name src = .ok c := by
  obtain ⟨_, analysis, h⟩ := Option.bind_eq_some_iff.mp h
  obtain ⟨_, compiled, h⟩ := Option.bind_eq_some_iff.mp h
  cases h
  exact ⟨toOption_eq_some analysis, toOption_eq_some compiled⟩

theorem Table.default_spelt : Table.default.Spelt OneLine := by
  show ∀ p ∈ Table.defaultPrimitives, breaks p.name = 0 ∧ breaks p.cpp = 0
  decide

/-- A text with an alternative that starts on a line of its own. -/
def alternativeText : String := "

fn f(a: bool, b: bool) {
    if a { g(); }
    else if b { h(); }
}
"

/-- What follows the `else` of a block's only statement. -/
def Block.alternative? : Block → Option Stmt
  | .mk _ [.branch _ _ _ _ no] _ => no
  | _ => none

theorem alternativeText_compiles :
    (compiled? Table.default {} "main.tasty" alternativeText).any (fun (a, c) =>
      (a.file.uses.isEmpty && decide (∀ f ∈ a.file.funcs, f.Quiet) &&
        decide (∀ d ∈ a.file.decls, 1 + c.unit.includes.source.length < lineOf d.info)) &&
      decide (∀ e ∈ c.unit.includes.source, OneLine e.path) &&
      (a.file.funcs.any (fun f => (f.body.bind Block.alternative?).any (·.pos.line = 5)) &&
        decide (((cut '\n' c.unit.source).drop 3).take 2 =
          ["\tif (a) \x7b g(); \x7d else if (b) \x7b", "\t\th(); \x7d"]))) = true := by
  rw [compiled?, compile, analyze, alternativeText, File.read_ofList]
  decide +kernel

theorem compile_keeps_lines_of_branch :
    ∃ a c, analyze Table.default "main.tasty" alternativeText = .ok a ∧
      compile Table.default {} "main.tasty" alternativeText = .ok c ∧
      ∃ ps, Decl.placementsIn a.info a.file.decls = .ok ps ∧ LaidOut 1 c.unit.source.toList ps := by
  obtain ⟨⟨a, c⟩, steps, here⟩ := (Option.any_eq_true _ _).mp alternativeText_compiles
  obtain ⟨analysis, compiled⟩ := compiled?_some steps
  simp only [Bool.and_eq_true, List.isEmpty_iff, decide_eq_true_eq] at here
  obtain ⟨⟨⟨⟨bare, quiet⟩, below⟩, one⟩, -⟩ := here
  exact ⟨a, c, analysis, compiled,
    compile_keeps_lines Table.default_spelt analysis compiled bare quiet below rfl rfl one⟩

/-- The alternative of a branch that starts on line 5 of the text is not on line 5 of the source: it
stands behind the brace on line 4. -/
theorem alternative_leaves_line :
    ∃ a c f b no, analyze Table.default "main.tasty" alternativeText = .ok a ∧
      compile Table.default {} "main.tasty" alternativeText = .ok c ∧
      a.file.uses = [] ∧ (∀ f ∈ a.file.funcs, f.Quiet) ∧
      (∀ d ∈ a.file.decls, 1 + c.unit.includes.source.length < lineOf d.info) ∧
      f ∈ a.file.funcs ∧ f.body = some b ∧ b.alternative? = some no ∧ no.pos.line = 5 ∧
      ((cut '\n' c.unit.source).drop 3).take 2 =
        ["\tif (a) \x7b g(); \x7d else if (b) \x7b", "\t\th(); \x7d"] := by
  obtain ⟨⟨a, c⟩, steps, here⟩ := (Option.any_eq_true _ _).mp alternativeText_compiles
  obtain ⟨analysis, compiled⟩ := compiled?_some steps
  simp only [Bool.and_eq_true, List.isEmpty_iff, decide_eq_true_eq] at here
  obtain ⟨⟨⟨⟨bare, quiet⟩, below⟩, -⟩, branch, written⟩ := here
  obtain ⟨f, member, branch⟩ := List.any_eq_true.mp branch
  obtain ⟨no, branch, line⟩ := (Option.any_eq_true _ _).mp branch
  obtain ⟨b, body, branch⟩ := Option.bind_eq_some_iff.mp branch
  exact ⟨a, c, f, b, no, analysis, compiled, bare, quiet, below, member, body, branch,
    of_decide_eq_true line, written⟩

end TastyLang
