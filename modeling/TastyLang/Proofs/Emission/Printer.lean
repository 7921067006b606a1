import TastyLang.Emission.Basic
import TastyLang.Proofs.Text.Characters

/-!
# What a printer shows

`LaidOut` says that a text holds other texts in order, each on the line it is placed on. A printer
`Shows` placements when it counts its lines and what it wrote lays them out. Moving to a line and
writing more keep that; a text that is written where the printer stands is one more placement.

A directive is written without a look at the line ends inside of it. How far a printer is behind with
its count (`missed`) is therefore what the directives of a run hold of them, and nothing else.
-/

namespace TastyLang

open Text

/-- A text and the line on which it starts. -/
structure Placement where
  line : Int
  text : String
  deriving DecidableEq

/-- The characters, the first of which is on `line`, hold the placed texts one after the other. -/
inductive LaidOut : Int → List Char → List Placement → Prop where
  | nil {line cs} : LaidOut line cs []
  | skip {line c cs ps} : LaidOut (line + [c].count '\n') cs ps → LaidOut line (c :: cs) ps
  | here {line s cs ps} : LaidOut (line + breaks s) cs ps →
      LaidOut line (s.toList ++ cs) (⟨line, s⟩ :: ps)

variable {ps : List Placement}

namespace LaidOut

theorem pad {line : Int} {cs : List Char} (ds : List Char)
    (h : LaidOut (line + ds.count '\n') cs ps) : LaidOut line (ds ++ cs) ps := by
  induction ds generalizing line with
  | nil => simpa using h
  | cons d ds ih =>
    refine .skip (ih ?_)
    have split : ([d] ++ ds).count '\n' = [d].count '\n' + ds.count '\n' := List.count_append
    rw [← List.singleton_append, split, Int.natCast_add, ← Int.add_assoc] at h
    exact h

theorem append {line : Int} {cs ds : List Char} {ps qs : List Placement} (h : LaidOut line cs ps)
    (h' : LaidOut (line + cs.count '\n') ds qs) : LaidOut line (cs ++ ds) (ps ++ qs) := by
  induction h with
  | nil => exact pad _ h'
  | @skip line c cs ps _ ih =>
    refine .skip (ih ?_)
    have split : ([c] ++ cs).count '\n' = [c].count '\n' + cs.count '\n' := List.count_append
    rw [← List.singleton_append, split, Int.natCast_add, ← Int.add_assoc] at h'
    exact h'
  | @here line s cs ps _ ih =>
    rw [List.append_assoc]
    refine .here (ih ?_)
    rw [List.count_append, Int.natCast_add, ← Int.add_assoc] at h'
    exact h'

theorem of_isPrefix {line : Int} {cs ds : List Char} (h : LaidOut line cs ps)
    (longer : cs <+: ds) : LaidOut line ds ps := by
  obtain ⟨es, rfl⟩ := longer
  have longer : LaidOut line (cs ++ es) (ps ++ []) := h.append .nil
  rwa [List.append_nil] at longer

end LaidOut

namespace Printer

/-- The characters that may be dropped at the end of a line or of the text. -/
def isBlank (c : Char) : Bool := c = ' ' || c = '\n'

/-- A text that does not end in a blank. -/
def Solid (s : String) : Prop := ∃ cs c, s.toList = cs ++ [c] ∧ isBlank c = false

theorem Solid.append {t : String} (h : Solid t) (s : String) : Solid (s ++ t) := by
  obtain ⟨cs, c, same, solid⟩ := h
  exact ⟨s.toList ++ cs, c, by rw [String.toList_append, same, List.append_assoc], solid⟩

/-- A text that does not end its line. -/
def Open (s : String) : Prop := s.toList.getLast? ≠ some '\n'

theorem open_append (s : String) {t : String} (ends : t.toList.getLast? = some ' ') :
    Open (s ++ t) := by
  rw [Open, String.toList_append, List.getLast?_append, ends, Option.some_or]
  decide

theorem open_empty : Open "" := by
  rw [Open]
  decide

/-- The printer counts its lines, and what it wrote lays out the placements. -/
structure Shows (p : Printer) (ps : List Placement) : Prop where
  line : p.line = 1 + p.output.count '\n'
  laid : LaidOut 1 (p.output.dropWhile isBlank).reverse ps

theorem shows_empty : Shows {} [] := ⟨rfl, .nil⟩

theorem indent_line (p : Printer) : p.indent.line = p.line := rfl

variable {p : Printer}

theorem indent_shows (h : p.Shows ps) : p.indent.Shows ps :=
  ⟨h.line, h.laid⟩

theorem dedent_shows (h : p.Shows ps) : p.dedent.Shows ps :=
  ⟨h.line, h.laid⟩

theorem dropWhile_isSuffix {drop : Char → Bool} (new old : List Char) :
    old.dropWhile drop <:+ (new ++ old).dropWhile drop := by
  induction new with
  | nil => exact List.suffix_rfl
  | cons c new ih =>
    rw [List.cons_append, List.dropWhile_cons]
    split
    · exact ih
    · exact (List.dropWhile_suffix _).trans (List.suffix_append (c :: new) old)

theorem laid_more {old : List Char} (h : LaidOut 1 (old.dropWhile isBlank).reverse ps)
    (new : List Char) :
    LaidOut 1 ((new ++ old).dropWhile isBlank).reverse ps :=
  h.of_isPrefix (List.reverse_prefix.mpr (dropWhile_isSuffix new old))

/-! ### Moving -/

theorem newline_line (p : Printer) : p.newline.line = p.line + 1 := rfl

theorem newline_count (p : Printer) :
    p.newline.output.count '\n' = p.output.count '\n' + 1 := by
  unfold newline
  split
  · next cs same => rw [same, List.count_cons_self, List.count_cons_of_ne (by decide)]
  · exact List.count_cons_self

theorem newline_shows (h : p.Shows ps) : p.newline.Shows ps := by
  obtain ⟨line, laid⟩ := h
  constructor
  · rw [newline_line, newline_count, line]
    omega
  · unfold newline
    split
    · next cs same =>
      rw [same] at laid
      exact laid
    · exact laid

theorem newlines_line (p : Printer) (n : Nat) : (p.newlines n).line = p.line + n := by
  induction n generalizing p with
  | zero => exact (Int.add_zero _).symm
  | succ n ih =>
    rw [newlines, ih, newline_line]
    omega

theorem newlines_shows (h : p.Shows ps) (n : Nat) :
    (p.newlines n).Shows ps := by
  induction n generalizing p with
  | zero => exact h
  | succ n ih => exact ih (newline_shows h)

theorem freshLine_shows (h : p.Shows ps) :
    p.freshLine.Shows ps := by
  unfold freshLine
  split
  · exact h
  · exact newline_shows h

theorem align_line {n : Int} (above : p.line ≤ n) : (p.align n).line = n := by
  unfold align
  split
  · rw [newlines_line]
    omega
  · have here : n = p.line := by omega
    rw [if_pos here]
    split <;> exact here.symm

theorem align_shows (h : p.Shows ps) {n : Int}
    (above : p.line ≤ n) : (p.align n).Shows ps ∧ (p.align n).line = n := by
  refine ⟨?_, align_line above⟩
  unfold align
  split
  · exact newlines_shows h _
  · have here : n = p.line := by omega
    rw [if_pos here]
    split
    · exact h
    · refine ⟨?_, laid_more h.laid [' ']⟩
      rw [List.count_cons_of_ne (by decide)]
      exact h.line

/-! ### Writing -/

theorem write_line (p : Printer) (s : String) : (p.write s).line = p.line + breaks s := by
  unfold write breaks
  split
  · next empty => rw [empty]; exact (Int.add_zero _).symm
  · next c cs same => rw [same]

theorem write_output (p : Printer) (s : String) :
    ∃ n, (p.write s).output = s.toList.reverse ++ List.replicate n '\t' ++ p.output := by
  unfold write
  split
  · next empty => exact ⟨0, by rw [empty]; rfl⟩
  · next c cs same =>
    rw [same]
    by_cases indented : (p.atLineStart && decide (c ≠ '\n')) = true
    · exact ⟨p.depth, by rw [if_pos indented]⟩
    · exact ⟨0, by rw [if_neg indented]; rfl⟩

theorem tabs_count (n : Nat) : (List.replicate n '\t').count '\n' = 0 := by
  rw [List.count_replicate]
  rfl

theorem write_count (p : Printer) (s : String) :
    (p.write s).output.count '\n' = p.output.count '\n' + breaks s := by
  obtain ⟨n, output⟩ := write_output p s
  rw [output, List.count_append, List.count_append, List.count_reverse, tabs_count, breaks]
  omega

theorem write_counts (h : p.Shows ps) (s : String) :
    (p.write s).line = 1 + (p.write s).output.count '\n' := by
  rw [write_line, h.line, write_count]
  omega

theorem write_shows (h : p.Shows ps) (s : String) :
    (p.write s).Shows ps := by
  refine ⟨write_counts h s, ?_⟩
  obtain ⟨n, output⟩ := write_output p s
  rw [output]
  exact laid_more h.laid _

theorem write_places (h : p.Shows ps) {s : String}
    (solid : Solid s) : (p.write s).Shows (ps ++ [⟨p.line, s⟩]) := by
  refine ⟨write_counts h s, ?_⟩
  obtain ⟨n, output⟩ := write_output p s
  obtain ⟨cs, c, same, ends⟩ := solid
  have kept : (p.write s).output.dropWhile isBlank = (p.write s).output := by
    rw [output, same, List.reverse_append]
    exact List.dropWhile_cons_of_neg (by rw [ends]; decide)
  have split : (p.write s).output.reverse = p.output.reverse ++ (List.replicate n '\t' ++ s.toList) := by
    rw [output]
    simp
  have before : LaidOut 1 p.output.reverse ps :=
    h.laid.of_isPrefix (List.reverse_prefix.mpr (List.dropWhile_suffix _))
  rw [kept, split]
  refine before.append (.pad _ ?_)
  rw [List.count_reverse, ← h.line, tabs_count, Int.natCast_zero, Int.add_zero]
  have last : LaidOut p.line (s.toList ++ []) [⟨p.line, s⟩] := .here .nil
  rwa [List.append_nil] at last

theorem write_write (p : Printer) {s t : String} (ends : Open s) (more : t ≠ "") :
    (p.write s).write t = p.write (s ++ t) := by
  obtain ⟨d, ds, second⟩ : ∃ d ds, t.toList = d :: ds := by
    cases same : t.toList with
    | nil => exact absurd (String.toList_eq_nil_iff.mp same) more
    | cons d ds => exact ⟨d, ds, rfl⟩
  cases first : s.toList with
  | nil =>
    rw [String.toList_eq_nil_iff.mp first, String.empty_append]
    rfl
  | cons c cs =>
    rw [Open, first] at ends
    have stays : ((c :: cs).getLast? == some '\n') = false := beq_false_of_ne ends
    unfold write
    simp only [String.toList_append, first, second, List.cons_append, stays]
    have last : ((c :: cs) ++ d :: ds).getLast? = (d :: ds).getLast? := by
      rw [List.getLast?_append, List.getLast?_cons]
      rfl
    rw [← List.cons_append, last, List.count_append]
    simp [Int.add_assoc]

theorem directive_shows (h : p.Shows ps) {s : String}
    (one : OneLine s) : (p.directive s).Shows ps := by
  unfold directive
  apply newline_shows
  obtain ⟨line, laid⟩ := freshLine_shows h
  refine ⟨?_, laid_more laid _⟩
  rw [List.count_append, List.count_reverse]
  have none_ : s.toList.count '\n' = 0 := one
  rw [none_, Nat.zero_add]
  exact line

theorem text_laid (h : p.Shows ps) :
    LaidOut 1 p.text.toList ps := by
  unfold text
  rw [String.toList_ofList, List.reverse_cons]
  refine h.laid.of_isPrefix (List.IsPrefix.trans ?_ (List.prefix_append _ _))
  rw [List.reverse_prefix]
  -- line ends are blanks, so dropping blanks drops at least as much
  induction p.output with
  | nil => exact List.suffix_rfl
  | cons c cs ih =>
    by_cases ends : c = '\n'
    · subst ends
      exact ih
    · rw [List.dropWhile_cons_of_neg (p := (· = '\n')) (by simpa using ends)]
      exact List.dropWhile_suffix _

/-! ### Counting lines -/

/-- What a printer is asked for. -/
inductive Step where
  | align (line : Int)
  | write (s : String)
  | ownLine (s : String)
  | directive (s : String)
  | indent
  | dedent

def step (p : Printer) : Step → Printer
  | .align line => p.align line
  | .write s => p.write s
  | .ownLine s => p.ownLine s
  | .directive s => p.directive s
  | .indent => p.indent
  | .dedent => p.dedent

def run (steps : List Step) : Printer := steps.foldl step {}

/-- The line ends that a step writes and does not count. -/
def Step.uncounted : Step → Nat
  | .directive s => breaks s
  | _ => 0

/-- How many lines a printer is further down than it counts. -/
def missed (p : Printer) : Int := 1 + p.output.count '\n' - p.line

@[simp]
theorem newline_missed (p : Printer) : p.newline.missed = p.missed := by
  rw [missed, missed, newline_line, newline_count]
  omega

@[simp]
theorem newlines_missed (p : Printer) (n : Nat) : (p.newlines n).missed = p.missed := by
  induction n generalizing p with
  | zero => rfl
  | succ n ih => exact (ih p.newline).trans (newline_missed p)

@[simp]
theorem freshLine_missed (p : Printer) : p.freshLine.missed = p.missed := by
  unfold freshLine
  split
  · rfl
  · exact newline_missed p

@[simp]
theorem align_missed (p : Printer) (n : Int) : (p.align n).missed = p.missed := by
  unfold align
  split
  · exact newlines_missed p _
  · split
    · split
      · rfl
      · rw [missed, List.count_cons_of_ne (by decide)]
        rfl
    · exact freshLine_missed p

@[simp]
theorem write_missed (p : Printer) (s : String) : (p.write s).missed = p.missed := by
  rw [missed, missed, write_line, write_count]
  omega

@[simp]
theorem directive_missed (p : Printer) (s : String) :
    (p.directive s).missed = p.missed + breaks s := by
  rw [directive, newline_missed, ← freshLine_missed p]
  simp only [missed, List.count_append, List.count_reverse, breaks]
  omega

/-- A line starts where nothing is written yet, and behind a line end. -/
def MarksStart (p : Printer) : Prop :=
  p.atLineStart = true ↔ p.output = [] ∨ p.output.head? = some '\n'

theorem newline_marks (p : Printer) : p.newline.MarksStart :=
  ⟨fun _ => .inr rfl, fun _ => rfl⟩

theorem newlines_marks (h : p.MarksStart) (n : Nat) : (p.newlines n).MarksStart := by
  induction n generalizing p with
  | zero => exact h
  | succ n ih => exact ih (newline_marks p)

theorem freshLine_marks (h : p.MarksStart) : p.freshLine.MarksStart := by
  unfold freshLine
  split
  · exact h
  · exact newline_marks p

theorem align_marks (h : p.MarksStart) (n : Int) : (p.align n).MarksStart := by
  unfold align
  split
  · exact newlines_marks h _
  · split
    · split
      · exact h
      · next inside => simp [MarksStart, inside]
    · exact freshLine_marks h

theorem write_marks (h : p.MarksStart) (s : String) : (p.write s).MarksStart := by
  unfold write
  split
  · exact h
  · next c cs _ =>
    have last (ds : List Char) : ((c :: cs).reverse ++ ds).head? = (c :: cs).getLast? := by
      rw [List.head?_append, List.head?_reverse, List.getLast?_cons, Option.some_or]
    simp only [MarksStart, List.append_assoc, last]
    simp

theorem step_counts (h : p.MarksStart) (x : Step) :
    (p.step x).missed = p.missed + x.uncounted ∧ (p.step x).MarksStart := by
  cases x with
  | align n => exact ⟨by simp [step, Step.uncounted], align_marks h n⟩
  | write s => exact ⟨by simp [step, Step.uncounted], write_marks h s⟩
  | ownLine s => exact ⟨by simp [step, Step.uncounted, ownLine], newline_marks _⟩
  | directive s => exact ⟨directive_missed p s, newline_marks _⟩
  | indent => exact ⟨(Int.add_zero _).symm, h⟩
  | dedent => exact ⟨(Int.add_zero _).symm, h⟩

theorem steps_count (h : p.MarksStart) (xs : List Step) :
    (xs.foldl step p).missed = p.missed + (xs.map Step.uncounted).sum ∧
      (xs.foldl step p).MarksStart := by
  induction xs generalizing p with
  | nil => exact ⟨(Int.add_zero _).symm, h⟩
  | cons x xs ih =>
    obtain ⟨first, marked⟩ := step_counts h x
    obtain ⟨rest, marks⟩ := ih marked
    refine ⟨?_, marks⟩
    rw [List.foldl_cons, rest, first, List.map_cons, List.sum_cons]
    omega

theorem uncounted_eq_zero_iff {xs : List Step} :
    (xs.map Step.uncounted).sum = 0 ↔ ∀ s, .directive s ∈ xs → OneLine s := by
  induction xs with
  | nil => simp
  | cons x xs ih =>
    rw [List.map_cons, List.sum_cons, Nat.add_eq_zero_iff, ih]
    cases x <;> simp [Step.uncounted]

def written (p : Printer) : List Char := p.output.reverse

/-- The count of a printer is right if and only if no directive held a line end; otherwise it is
behind by the line ends that directives held. A line starts exactly where nothing is written yet and
behind a line end. A text that is written behind a move down to line `n` starts on that line, or as
many lines further down as the count is behind. -/
theorem lines_counted (steps : List Step) :
    ((run steps).line = 1 + (run steps).written.count '\n' ↔
        ∀ s, .directive s ∈ steps → OneLine s) ∧
      (run steps).line + (steps.map Step.uncounted).sum = 1 + (run steps).written.count '\n' ∧
      ((run steps).atLineStart = true ↔
        (run steps).written = [] ∨ (run steps).written.getLast? = some '\n') ∧
      ∀ (n : Int) (s : String), (run steps).line ≤ n →
        ∃ before, (((run steps).align n).write s).written = before ++ s.toList ∧
          1 + (before.count '\n' : Int) = n + (steps.map Step.uncounted).sum := by
  have start : MarksStart {} := ⟨fun _ => .inl rfl, fun _ => rfl⟩
  obtain ⟨behind, marks⟩ := steps_count start steps
  rw [show missed {} = 0 from rfl, Int.zero_add] at behind
  have counted : (run steps).line + (steps.map Step.uncounted).sum =
      1 + (run steps).written.count '\n' := by
    rw [written, List.count_reverse, ← behind, missed, run]
    omega
  refine ⟨?_, counted, ?_, fun n s above => ?_⟩
  · rw [← uncounted_eq_zero_iff]
    omega
  · rw [written, List.reverse_eq_nil_iff, List.getLast?_reverse]
    exact marks
  · obtain ⟨tabs, output⟩ := write_output ((run steps).align n) s
    refine ⟨((run steps).align n).output.reverse ++ List.replicate tabs '\t', ?_, ?_⟩
    · rw [written, output]
      simp
    · have still := align_missed (run steps) n
      rw [missed, align_line above, run, behind] at still
      rw [List.count_append, List.count_reverse, tabs_count, run]
      omega

/-- A line end in a directive is written and not counted, so a text for line 2 ends up on line 3. -/
theorem directive_miscounts :
    let p := run [.directive "a\nb"]
    p.line ≠ 1 + p.written.count '\n' ∧ p.line = 2 ∧
      ((p.align 2).write "x").written = ['a', '\n', 'b', '\n', 'x'] := by
  decide

end Printer

end TastyLang
