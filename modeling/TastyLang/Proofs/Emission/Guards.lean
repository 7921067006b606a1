import Mathlib.Data.List.Forall2
import TastyLang.Proofs.Emission.Growth
import TastyLang.Proofs.Evaluation

/-!
# Include guards

A header is what its guard encloses. The guard is named after the last element of the unit's path, in
capitals and with an underscore for every character that no name has. So units tell their headers
apart exactly if their names still differ then (`guards_differ_iff`).
-/

namespace TastyLang

open Text

/-! ### Names of guards -/

/-- Characters that are written in the same way in a guard. -/
def GuardAlike (c d : Char) : Prop :=
  c = d ∨ (∀ e ∈ [c, d], e = '_' ∨ isLetter e = false ∧ isDecimalDigit e = false)

/-- Units whose names, in capitals, are written in the same way in a guard. -/
def SameGuard (m n : String) : Prop :=
  List.Forall₂ GuardAlike (upperCase (baseName m)).toList (upperCase (baseName n)).toList

theorem guardAlike_iff (c d : Char) : GuardAlike c d ↔
    (if c == '_' || isLetter c || isDecimalDigit c then c else '_') =
      if d == '_' || isLetter d || isDecimalDigit d then d else '_' := by
  simp only [GuardAlike, List.forall_mem_cons, List.not_mem_nil, false_imp_iff, implies_true,
    and_true, Bool.or_eq_true, beq_iff_eq]
  grind

theorem guardName_eq_iff (m n : String) : guardName m = guardName n ↔ SameGuard m n := by
  have alike : GuardAlike = _ := funext fun c => funext fun d => propext (guardAlike_iff c d)
  unfold guardName SameGuard
  rw [← String.toList_inj, String.toList_append, String.toList_append, List.append_cancel_right_eq,
    String.toList_ofList, String.toList_ofList, ← List.forall₂_eq_eq_eq, List.forall₂_map_left_iff,
    List.forall₂_map_right_iff, alike]

/-! ### Including headers -/

/-- A header whose lines are enclosed by a guard. -/
structure Guarded where
  guard : String
  body : String
  /-- the last line of the body is ended -/
  whole : ∀ c ∈ body.toList.getLast?, c = '\n'

namespace Guarded

def text (h : Guarded) : String :=
  "#ifndef " ++ h.guard ++ "\n#define " ++ h.guard ++ "\n" ++ h.body ++ "#endif\n"

/-- What a unit sees of the headers that it includes one after the other. A header is skipped when
its guard is among the macros that are defined. -/
def seen (defined : List String) : List Guarded → List String
  | [] => []
  | h :: hs =>
    if h.guard ∈ defined then seen defined hs else h.body :: seen (h.guard :: defined) hs

theorem length_seen_le (defined : List String) (hs : List Guarded) :
    (seen defined hs).length ≤ hs.length := by
  induction hs generalizing defined with
  | nil => exact Nat.le_refl 0
  | cons h hs ih =>
    rw [seen]
    split
    · exact Nat.le_succ_of_le (ih defined)
    · exact Nat.succ_le_succ (ih (h.guard :: defined))

theorem seen_eq_iff (defined : List String) (hs : List Guarded) :
    seen defined hs = hs.map body ↔
      (∀ h ∈ hs, h.guard ∉ defined) ∧ (hs.map guard).Nodup := by
  induction hs generalizing defined with
  | nil => simp [seen]
  | cons h hs ih =>
    rw [seen]
    split
    · next old =>
      have short := length_seen_le defined hs
      constructor
      · intro whole
        rw [whole, List.length_map, List.length_cons] at short
        omega
      · rintro ⟨new, -⟩
        exact absurd old (new h List.mem_cons_self)
    · next new =>
      rw [List.map_cons, List.cons.injEq, ih (h.guard :: defined)]
      simp only [List.mem_cons, not_or, List.map_cons, List.nodup_cons, List.mem_map, not_exists,
        not_and, true_and, forall_eq_or_imp]
      constructor
      · rintro ⟨others, distinct⟩
        exact ⟨⟨new, fun g member => (others g member).2⟩,
          fun g member => (others g member).1, distinct⟩
      · rintro ⟨⟨-, others⟩, apart, distinct⟩
        exact ⟨fun g member => ⟨apart g member, others g member⟩, distinct⟩

end Guarded

/-! ### Headers of units -/

namespace Emission

open Printer

theorem directive_output {p : Printer} (start : p.atLineStart = true) {s : String} (solid : Solid s) :
    (p.directive s).output = '\n' :: (s.toList.reverse ++ p.output) ∧
      (p.directive s).atLineStart = true := by
  obtain ⟨cs, c, same, solid⟩ := solid
  have other : c ≠ ' ' := by
    intro blank
    rw [blank] at solid
    cases solid
  unfold directive freshLine newline
  rw [if_pos start]
  refine ⟨?_, rfl⟩
  dsimp only
  rw [same, List.reverse_append]
  split
  · next first => exact absurd (List.cons.inj first).1 other
  · rfl

theorem solid_guardName (n : String) : Solid (guardName n) :=
  Solid.append (by exact ⟨"_TASTYFIL".toList, 'E', rfl, rfl⟩) _

/-- The lines that open a guard. -/
def guardLines (guard : String) : List Char :=
  ("#ifndef " ++ guard ++ "\n#define " ++ guard ++ "\n").toList

theorem preamble_guards {o : EmitOptions} {includes : IncludeSet} {s : Sheets} {u : Unit}
    (guarded : o.pragmaOnce = false) (h : preamble o includes {} = .ok (u, s)) :
    s.header.Fresh ∧
      (guardLines (guardName o.name)).reverse <:+ s.header.output.dropWhile (· = ' ') := by
  obtain ⟨_, s₁, first, h⟩ := bind_ok h
  obtain ⟨⟨_, run⟩, -⟩ := on_ok first
  obtain ⟨-, others⟩ := on_ok h
  have same : s.header = s₁.header := others .header nofun
  rw [same]
  rw [if_neg (by rw [guarded]; exact Bool.false_ne_true)] at run
  obtain ⟨_, p₁, started, run⟩ := bind_ok run
  obtain rfl := modify_ok started
  obtain ⟨_, p₂, opened, run⟩ := bind_ok run
  obtain rfl := modify_ok opened
  have each (e : IncludeEntry) : Grows (modify (·.directive e.directive)) :=
    Grows.modify (extends_directive · e.directive)
  have grows := Grows.forM each run
  have solid (word : String) := (solid_guardName o.name).append word
  obtain ⟨one, start⟩ := directive_output (p := ({} : Sheets).at .header) rfl (solid "#ifndef ")
  obtain ⟨two, -⟩ := directive_output start (solid "#define ")
  refine ⟨grows.fresh ?_, List.IsSuffix.trans ?_ grows.more⟩
  · intro _ c first
    rw [two] at first
    exact (Option.mem_some.mp first).symm
  · have nothing : (({} : Sheets).at .header).output = [] := rfl
    rw [two, one, nothing, List.dropWhile_cons_of_neg (by decide), guardLines]
    simp [String.toList_append]

theorem unit_guards {info : Info} {o : EmitOptions} {includes : IncludeSet} {file : File}
    {s : Sheets} {u : Unit} (guarded : o.pragmaOnce = false)
    (h : unit info o includes file {} = .ok (u, s)) :
    ∃ g : Guarded, g.guard = guardName o.name ∧ s.header.text = g.text := by
  rw [unit_eq_assembled (c := ⟨default, none, o.headerExt⟩)] at h
  obtain ⟨_, s₁, first, h⟩ := bind_ok h
  obtain ⟨_, s₂, wrote, h⟩ := bind_ok h
  obtain ⟨fresh, front⟩ := preamble_guards guarded first
  have grown := emitAll_grow (partsOf_grow true file.decls) wrote .header
  rw [if_neg (by rw [guarded]; exact Bool.false_ne_true)] at h
  obtain ⟨⟨_, ends⟩, -⟩ := on_ok h
  have last : s.header.output = '\n' :: ("#endif".toList.reverse ++ s₂.header.freshLine.output) := by
    have written : s.header = s₂.header.directive "#endif" := modify_ok ends
    rw [written]
    rfl
  have start : s₂.header.freshLine.atLineStart = true := by
    unfold freshLine
    split
    · assumption
    · rfl
  -- what was written, up to the line of the last directive
  have all := grown.trans (extends_freshLine s₂.header)
  obtain ⟨new, more⟩ := front.trans all.more
  have fresh := all.fresh fresh
  generalize s₂.header.freshLine = q at fresh more last start
  have lines : q.output = new ++ (guardLines (guardName o.name)).reverse := by
    rw [more]
    cases output : q.output with
    | nil => rfl
    | cons c cs =>
      have first := fresh start c (by rw [output]; rfl)
      rw [List.dropWhile_cons_of_neg (by rw [first]; decide)]
  have whole : ∀ c ∈ (String.ofList new.reverse).toList.getLast?, c = '\n' := by
    intro c ends
    rw [String.toList_ofList, List.getLast?_reverse] at ends
    refine fresh start c ?_
    rw [lines, List.head?_append, Option.mem_def.mp ends]
    rfl
  rw [lines] at last
  refine ⟨⟨guardName o.name, String.ofList new.reverse, whole⟩, rfl, ?_⟩
  show s.header.text = "#ifndef " ++ guardName o.name ++ "\n#define " ++ guardName o.name ++ "\n" ++
    String.ofList new.reverse ++ "#endif\n"
  rw [Printer.text, last, ← String.toList_inj]
  simp [guardLines, String.toList_append]

end Emission

theorem withoutExtension_of_unitName {name : String} (empty : unitName name = "") :
    withoutExtension name = "" := by
  unfold unitName at empty
  split at empty
  · next ext => rw [withoutExtension, ext, empty]
  · rw [empty]
    decide

theorem compile_guards {table : Table} {o : CompileOptions} {name src : String} {c : Compiled}
    (guarded : o.pragmaOnce = false) (compiled : compile table o name src = .ok c) :
    c.name = unitName name ∧ ∃ h : Guarded, h.guard = guardName c.name ∧ c.unit.header = h.text := by
  obtain ⟨a, analysis, compiled⟩ := except_bind_ok compiled
  obtain ⟨unit, emitted, compiled⟩ := except_bind_ok compiled
  cases compiled
  obtain ⟨named, titled⟩ := analyze_names analysis
  obtain ⟨⟨_, sheets⟩, run, whole⟩ := except_bind_ok (mapError_ok emitted)
  cases whole
  obtain ⟨h, guard, text⟩ := Emission.unit_guards (by exact guarded) run
  refine ⟨titled, h, ?_, text⟩
  rw [guard]
  dsimp only
  split
  · next empty => rw [empty, named, withoutExtension_of_unitName (titled ▸ empty)]
  · rfl

section

variable {table : Table} {o : CompileOptions} {name name' src src' : String} {c c' : Compiled}

/-- Two units have different guards exactly if their names are not written in the same way in one.
Exactly then a unit that includes both headers sees what is in both. -/
theorem guards_differ_iff (guarded : o.pragmaOnce = false)
    (compiled : compile table o name src = .ok c) (compiled' : compile table o name' src' = .ok c') :
    (guardName c.name ≠ guardName c'.name ↔ ¬ SameGuard (unitName name) (unitName name')) ∧
      ∃ h h' : Guarded, c.unit.header = h.text ∧ c'.unit.header = h'.text ∧
        h.guard = guardName c.name ∧ h'.guard = guardName c'.name ∧
        (Guarded.seen [] [h, h'] = [h.body, h'.body] ↔
          ¬ SameGuard (unitName name) (unitName name')) := by
  obtain ⟨named, h, guard, text⟩ := compile_guards guarded compiled
  obtain ⟨named', h', guard', text'⟩ := compile_guards guarded compiled'
  have differ : guardName c.name ≠ guardName c'.name ↔
      ¬ SameGuard (unitName name) (unitName name') := by
    rw [named, named']
    exact not_congr (guardName_eq_iff _ _)
  refine ⟨differ, h, h', text, text', guard, guard', ?_⟩
  have whole := Guarded.seen_eq_iff [] [h, h']
  simp only [List.not_mem_nil, not_false_eq_true, implies_true, true_and, List.map_cons,
    List.map_nil, List.nodup_cons, List.mem_singleton, List.nodup_nil, and_true] at whole
  rw [whole, guard, guard', ← differ]

theorem directories_compile : ∃ a a' c c',
    compiled? Table.default {} "a/x.tasty" "copy n = 1;\n" = some (a, c) ∧
      compiled? Table.default {} "b/x.tasty" "copy m = 2;\n" = some (a', c') ∧
      baseName (unitName "a/x.tasty") = baseName (unitName "b/x.tasty") := by
  have found : (compiled? Table.default {} "a/x.tasty" "copy n = 1;\n").isSome ∧
      (compiled? Table.default {} "b/x.tasty" "copy m = 2;\n").isSome ∧
      baseName (unitName "a/x.tasty") = baseName (unitName "b/x.tasty") := by
    refine ⟨?_, ?_, by decide +kernel⟩
    · rw [compiled?, compile, analyze, File.read_ofList]
      decide +kernel
    · rw [compiled?, compile, analyze, File.read_ofList]
      decide +kernel
  obtain ⟨⟨a, c⟩, first⟩ := Option.isSome_iff_exists.mp found.1
  obtain ⟨⟨a', c'⟩, second⟩ := Option.isSome_iff_exists.mp found.2.1
  exact ⟨a, a', c, c', first, second, found.2.2⟩

theorem guards_differ_iff_of_directories :
    ∃ a a' c c', compiled? Table.default {} "a/x.tasty" "copy n = 1;\n" = some (a, c) ∧
      compiled? Table.default {} "b/x.tasty" "copy m = 2;\n" = some (a', c') ∧
      (guardName c.name ≠ guardName c'.name ↔
        ¬ SameGuard (unitName "a/x.tasty") (unitName "b/x.tasty")) := by
  obtain ⟨a, a', c, c', first, second, -⟩ := directories_compile
  obtain ⟨-, compiled⟩ := compiled?_some first
  obtain ⟨-, compiled'⟩ := compiled?_some second
  exact ⟨a, a', c, c', first, second, (guards_differ_iff rfl compiled compiled').1⟩

/-- Their headers have the same guard, so that a unit that includes both does not see the second. -/
theorem directories_share_guard :
    ∃ c c' : Compiled, ∃ h h' : Guarded,
      compile Table.default {} "a/x.tasty" "copy n = 1;\n" = .ok c ∧
      compile Table.default {} "b/x.tasty" "copy m = 2;\n" = .ok c' ∧ c.name ≠ c'.name ∧
      c.unit.header = h.text ∧ c'.unit.header = h'.text ∧ guardName c.name = guardName c'.name ∧
      Guarded.seen [] [h, h'] = [h.body] := by
  obtain ⟨a, a', c, c', first, second, base⟩ := directories_compile
  obtain ⟨-, compiled⟩ := compiled?_some first
  obtain ⟨-, compiled'⟩ := compiled?_some second
  obtain ⟨named, h, guard, text⟩ := compile_guards rfl compiled
  obtain ⟨named', h', guard', text'⟩ := compile_guards rfl compiled'
  have same : guardName c.name = guardName c'.name := by
    rw [named, named', guardName, guardName, base]
  refine ⟨c, c', h, h', compiled, compiled', ?_, text, text', same, ?_⟩
  · rw [named, named']
    decide
  · simp [Guarded.seen, guard, guard', same]

end

end TastyLang
