import Mathlib.Data.String.Basic
import TastyLang.Proofs.Graph.Cycles

/-!
# What a change affects

`Graph.mark` follows imports backwards and marks a unit before it goes on to those that import it.
So a walk may meet units that are marked while their importers are not all marked yet; apart from
these, what is marked contains its importers (`Closed`). Each step marks one more unit, so a walk
ends by itself before it has taken more steps than there are units (`mark_steps`), on cycles too.
-/

namespace TastyLang

namespace Graph

open Relation

variable {g : Graph} {id : String} {seen : List String}

/-! ### Sorted names -/

theorem sorted_ordered (xs : List String) : (sorted xs).Pairwise (· ≤ ·) := by
  have ordered : (sorted xs).Pairwise fun a b => decide (a ≤ b) :=
    List.pairwise_mergeSort (by simpa using fun _ _ _ => le_trans) (by simpa using le_total) xs
  exact ordered.imp of_decide_eq_true

theorem sorted_increasing {xs : List String} (distinct : xs.Nodup) :
    (sorted xs).Pairwise (· < ·) := by
  exact (sorted_ordered xs).imp₂ (fun _ _ => lt_of_le_of_ne) (nodup_sorted.mpr distinct)

/-! ### Marked units -/

/-- Units of the graph, each of them once. -/
structure Entered (g : Graph) (seen : List String) : Prop where
  distinct : seen.Nodup
  known : ∀ x ∈ seen, g.contains x = true

theorem Entered.nil : g.Entered [] := ⟨List.nodup_nil, fun _ member => absurd member List.not_mem_nil⟩

theorem Entered.cons (entered : g.Entered seen) (known : g.contains id = true) (new : id ∉ seen) :
    g.Entered (id :: seen) :=
  ⟨List.nodup_cons.mpr ⟨new, entered.distinct⟩, List.forall_mem_cons.mpr ⟨known, entered.known⟩⟩

theorem Entered.length_le (entered : g.Entered seen) : seen.length ≤ g.units.length := by
  have inside : seen ⊆ g.units.map (·.id) := fun x member =>
    contains_iff.mp (entered.known x member)
  simpa using (entered.distinct.subperm inside).length_le

theorem Entered.full (entered : g.Entered seen) (many : g.units.length ≤ seen.length)
    (known : g.contains id = true) : id ∈ seen := by
  by_contra new
  have more := (entered.cons known new).length_le
  rw [List.length_cons] at more
  omega

/-- What is marked contains its importers, but for those of the units that a walk is busy with. -/
def Closed (g : Graph) (busy seen : List String) : Prop :=
  ∀ x ∈ seen, x ∉ busy → ∀ y, g.Imports y x → y ∈ seen

/-- What marking the units `todo` makes of the units that were marked before. -/
structure Marks (g : Graph) (busy todo seen after : List String) : Prop where
  entered : g.Entered after
  grown : seen ⊆ after
  longer : seen.length ≤ after.length
  all : ∀ x ∈ todo, x ∈ after
  closed : g.Closed busy after
  only : ∀ x ∈ after, x ∈ seen ∨ ∃ y ∈ todo, ReflTransGen g.Imports x y

variable {busy todo : List String}

theorem Marks.again (entered : g.Entered seen) (closed : g.Closed busy seen) (there : id ∈ seen) :
    g.Marks busy [id] seen seen where
  entered := entered
  grown := List.Subset.refl seen
  longer := Nat.le_refl _
  all := fun _ here => List.mem_singleton.mp here ▸ there
  closed := closed
  only := fun _ member => .inl member

theorem marks_all {walk : List String → String → List String}
    (each : ∀ next ∈ todo, ∀ before, seen.length ≤ before.length → g.Entered before →
      g.Closed busy before → g.Marks busy [next] before (walk before next))
    (entered : g.Entered seen) (closed : g.Closed busy seen) :
    g.Marks busy todo seen (todo.foldl walk seen) := by
  induction todo generalizing seen with
  | nil =>
    exact ⟨entered, List.Subset.refl seen, Nat.le_refl _,
      fun x member => absurd member List.not_mem_nil, closed, fun x member => .inl member⟩
  | cons next todo ih =>
    have first := each next List.mem_cons_self seen (Nat.le_refl _) entered closed
    have rest := ih (fun x member before longer => each x (List.mem_cons_of_mem _ member) before
      (Nat.le_trans first.longer longer)) first.entered first.closed
    refine ⟨rest.entered, List.Subset.trans first.grown rest.grown,
      Nat.le_trans first.longer rest.longer, fun x member => ?_, rest.closed, fun x member => ?_⟩
    · rcases List.mem_cons.mp member with rfl | later
      · exact rest.grown (first.all x (List.mem_singleton.mpr rfl))
      · exact rest.all x later
    · rcases rest.only x member with early | ⟨y, later, reaches⟩
      · rcases first.only x early with old | ⟨y, here, reaches⟩
        · exact .inl old
        · exact .inr ⟨y, List.mem_singleton.mp here ▸ List.mem_cons_self, reaches⟩
      · exact .inr ⟨y, List.mem_cons_of_mem _ later, reaches⟩

theorem Marks.leave (built : g.Built) {after : List String}
    (marks : g.Marks (id :: busy) (g.importers id) (id :: seen) after) :
    g.Marks busy [id] seen after where
  entered := marks.entered
  grown := fun x member => marks.grown (List.mem_cons_of_mem _ member)
  longer := Nat.le_of_succ_le marks.longer
  all := fun x here => List.mem_singleton.mp here ▸ marks.grown List.mem_cons_self
  closed := by
    intro x member free y imports
    by_cases same : x = id
    · exact marks.all y ((mem_importers built).mpr (same ▸ imports))
    · exact marks.closed x member (by simp [free, same]) y imports
  only := by
    intro x member
    rcases marks.only x member with old | ⟨y, importer, reaches⟩
    · rcases List.mem_cons.mp old with rfl | old
      · exact .inr ⟨x, List.mem_singleton.mpr rfl, .refl⟩
      · exact .inl old
    · exact .inr ⟨id, List.mem_singleton.mpr rfl, reaches.tail ((mem_importers built).mp importer)⟩

theorem mark_marks (built : g.Built) {n : Nat} (known : g.contains id = true)
    (steps : g.units.length ≤ seen.length + n) (entered : g.Entered seen)
    (closed : g.Closed busy seen) : g.Marks busy [id] seen (g.mark n seen id) := by
  induction n generalizing busy seen id with
  | zero => exact .again entered closed (entered.full steps known)
  | succ n ih =>
    rw [mark]
    split
    next there => exact .again entered closed (List.contains_iff_mem.mp there)
    next new =>
      have new : id ∉ seen := fun there => new (List.contains_iff_mem.mpr there)
      refine .leave built (marks_all (fun next member before longer => ?_) (entered.cons known new) ?_)
      · have imports := (mem_importers built).mp member
        rw [List.length_cons] at longer
        exact ih (built.linked imports).1 (by omega)
      · intro x member free y imports
        rw [List.mem_cons, not_or] at free
        exact List.mem_cons_of_mem _
          (closed x ((List.mem_cons.mp member).resolve_left free.1) free.2 y imports)

/-! ### The end of a walk -/

theorem foldl_mark_eq (built : g.Built) {n k : Nat} (known : ∀ x ∈ todo, g.contains x = true)
    (steps : g.units.length ≤ seen.length + n) (entered : g.Entered seen)
    (each : ∀ next ∈ todo, ∀ before, seen.length ≤ before.length → g.Entered before →
      g.mark k before next = g.mark n before next) :
    todo.foldl (g.mark k) seen = todo.foldl (g.mark n) seen := by
  induction todo generalizing seen with
  | nil => rfl
  | cons next todo ih =>
    obtain ⟨first, others⟩ := List.forall_mem_cons.mp known
    rw [List.foldl_cons, List.foldl_cons, each next List.mem_cons_self seen (Nat.le_refl _) entered]
    -- how far the walk has come does not matter here, so every marked unit counts as busy
    have marks : g.Marks seen [next] seen (g.mark n seen next) :=
      mark_marks built first steps entered fun x member free => absurd member free
    have longer := marks.longer
    exact ih others (by omega) marks.entered fun x member before more =>
      each x (List.mem_cons_of_mem _ member) before (Nat.le_trans longer more)

theorem mark_steps (built : g.Built) {n k : Nat} (known : g.contains id = true)
    (steps : g.units.length ≤ seen.length + n) (entered : g.Entered seen) (more : n ≤ k) :
    g.mark k seen id = g.mark n seen id := by
  induction n generalizing k seen id with
  | zero =>
    have there := List.contains_iff_mem.mpr (entered.full steps known)
    cases k with
    | zero => rfl
    | succ k => rw [mark, mark, if_pos there]
  | succ n ih =>
    obtain ⟨k, rfl⟩ : ∃ j, k = j + 1 := ⟨k - 1, by omega⟩
    rw [mark, mark]
    split
    next => rfl
    next new =>
      have new : id ∉ seen := fun there => new (List.contains_iff_mem.mpr there)
      have rest : g.units.length ≤ (id :: seen).length + n := by
        rw [List.length_cons]
        omega
      refine foldl_mark_eq built (fun next member => ?_) rest (entered.cons known new)
        fun next member before longer entered => ?_
      · exact (built.linked ((mem_importers built).mp member)).1
      · exact ih (built.linked ((mem_importers built).mp member)).1 (by omega) entered (by omega)

/-! ### What is affected -/

theorem affected_marks (built : g.Built) (changed : List String) :
    g.Marks [] (changed.filter g.contains) []
      ((changed.filter g.contains).foldl (g.mark g.units.length) []) := by
  refine marks_all (fun next member before _ entered closed => ?_) .nil
    fun x member => absurd member List.not_mem_nil
  exact mark_marks built (List.mem_filter.mp member).2 (by omega) entered closed

theorem known_of_affected (built : g.Built) {changed : List String}
    (member : id ∈ g.affected changed) : g.contains id = true :=
  (affected_marks built changed).entered.known id (mem_sorted.mp member)

/-- What is affected are the known units that changed and all that lead to one of them along
imports, in increasing order. The walk that finds them ends by itself, on cycles too: with more steps
than there are units it finds the same. -/
theorem affected_closure (built : g.Built) (changed : List String) :
    (g.affected changed).Pairwise (· < ·) ∧
      (∀ id, id ∈ g.affected changed ↔ id ∈ changed ∧ g.contains id = true ∨
        ∃ x ∈ changed, g.contains x = true ∧ TransGen g.Imports id x) ∧
      ∀ steps, g.units.length ≤ steps →
        sorted ((changed.filter g.contains).foldl (g.mark steps) []) = g.affected changed := by
  have marks := affected_marks built changed
  refine ⟨sorted_increasing marks.entered.distinct, fun id => ?_, fun steps many => ?_⟩
  · rw [affected, mem_sorted]
    constructor
    · intro member
      rcases marks.only id member with none | ⟨x, given, reaches⟩
      · exact absurd none List.not_mem_nil
      obtain ⟨given, known⟩ := List.mem_filter.mp given
      rcases reflTransGen_iff_eq_or_transGen.mp reaches with rfl | reaches
      · exact .inl ⟨given, known⟩
      · exact .inr ⟨x, given, known, reaches⟩
    · rintro (given | ⟨x, given, known, reaches⟩)
      · exact marks.all id (List.mem_filter.mpr given)
      · have last := marks.all x (List.mem_filter.mpr ⟨given, known⟩)
        clear given known
        -- no unit is busy any more, so every step back along imports stays among the marked ones
        induction reaches using TransGen.head_induction_on with
        | single imports => exact marks.closed x last List.not_mem_nil _ imports
        | head imports _ ih => exact marks.closed _ ih List.not_mem_nil _ imports
  · rw [affected]
    refine congrArg sorted (foldl_mark_eq built (fun x given => (List.mem_filter.mp given).2)
      (Nat.le_add_left _ _) .nil fun x given before _ entered => ?_)
    exact mark_steps built (List.mem_filter.mp given).2 (Nat.le_add_left _ _) entered many

/-- A unit that leads to a cycle is affected by each unit on it. -/
theorem affected_closure_of_detour :
    detour.Built ∧ detour.affected ["c", "z"] = ["a", "b", "c"] ∧ TransGen detour.Imports "a" "c" := by
  have found : detour.affected ["c", "z"] = ["a", "b", "c"] := by cbv
  refine ⟨detour_built, found, ?_⟩
  obtain ⟨-, members, -⟩ := affected_closure detour_built ["c", "z"]
  rcases (members "a").mp (found ▸ List.mem_cons_self) with ⟨given, -⟩ | ⟨x, given, known, reaches⟩
  · exact absurd given (by decide)
  · simp only [List.mem_cons, List.not_mem_nil, or_false] at given
    rcases given with rfl | rfl
    · exact reaches
    · exact absurd known (by decide)

end Graph

end TastyLang
