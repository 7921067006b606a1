import Mathlib.Data.List.Chain
import Mathlib.Data.List.Nodup
import Mathlib.Data.List.Perm.Subperm
import Mathlib.Data.List.Permutation
import Mathlib.Logic.Relation
import TastyLang.Proofs.Graph.Building
import TastyLang.Proofs.Outcome

/-!
# Finding cycles

`Graph.cycle?` walks along imports and never enters a unit twice. When a walk leaves a unit without
a cycle, every way along imports ends from there (`Sinks`), so what it has left needs no second
look; when it meets a unit of its own path, the path from there on is a cycle (`IsCycle`). Since a
path holds no unit twice, the number of units bounds it.
-/

namespace TastyLang

/-! ## Chains and cycles

Searches along a relation keep the way they came as a list. A chain from an element back to itself
makes a cycle; an element from which every way ends is on none.
-/

section

open Relation

variable {α : Type} {r : α → α → Prop} {a b : α} {path : List α}

theorem transGen_of_isChain (chain : (a :: path ++ [b]).IsChain r) : TransGen r a b := by
  have linked := List.isChain_iff_pairwise.mp (chain.imp fun _ _ => TransGen.single)
  exact List.rel_of_pairwise_cons linked (by simp)

theorem not_transGen_of_acc (ends : Acc (flip r) a) : ¬ TransGen r a a := by
  intro cycle
  have lasting : Acc (TransGen (flip r)) a := Acc.transGen ends
  have back : TransGen (flip r) a a := transGen_swap.mpr cycle
  clear ends cycle
  induction lasting with
  | intro x _ ih => exact ih x back back

end

/-! ## Finding cycles -/

namespace Graph

open Relation

variable {g : Graph}

/-! ### Cycles -/

/-- A way along imports that ends where it starts and meets no unit twice before. -/
structure IsCycle (g : Graph) (path : List String) : Prop where
  long : 2 ≤ path.length
  closed : path.head? = path.getLast?
  distinct : path.dropLast.Nodup
  linked : path.IsChain g.Imports

theorem IsCycle.transGen {path : List String} (cycle : g.IsCycle path) :
    ∃ id, TransGen g.Imports id id := by
  obtain ⟨long, closed, -, linked⟩ := cycle
  match path, long with
  | a :: b :: rest, _ =>
    obtain ⟨init, last, whole⟩ : ∃ init last, b :: rest = init ++ [last] :=
      ⟨_, _, (List.dropLast_append_getLast (List.cons_ne_nil b rest)).symm⟩
    rw [whole] at closed linked
    have same : a = last := by
      rw [← List.cons_append, List.getLast?_concat] at closed
      exact Option.some.inj closed
    subst same
    exact ⟨a, transGen_of_isChain linked⟩

/-- Every way along imports from `id` ends. -/
def Sinks (g : Graph) (id : String) : Prop := Acc (flip g.Imports) id

/-! ### The walk -/

/-- A path of the walk: units, each importing the next and none there twice. -/
structure Trail (g : Graph) (path : List String) : Prop where
  linked : path.IsChain g.Imports
  distinct : path.Nodup
  known : ∀ x ∈ path, g.contains x = true

theorem Trail.length_le {path : List String} (trail : g.Trail path) :
    path.length ≤ g.units.length := by
  have inside : path ⊆ g.units.map (·.id) := fun x member => contains_iff.mp (trail.known x member)
  simpa using (trail.distinct.subperm inside).length_le

theorem Trail.snoc {path : List String} {id next : String} (built : g.Built)
    (trail : g.Trail (path ++ [id])) (imports : g.Imports id next) (new : next ∉ path ++ [id]) :
    g.Trail (path ++ [id] ++ [next]) where
  linked := by
    refine List.isChain_append.mpr ⟨trail.linked, List.isChain_singleton next, ?_⟩
    simpa using imports
  distinct := List.nodup_append.mpr ⟨trail.distinct, List.nodup_singleton next, by
    rintro x inside _ here rfl
    exact new (List.mem_singleton.mp here ▸ inside)⟩
  known := by
    intro x member
    rcases List.mem_append.mp member with old | here
    · exact trail.known x old
    · rw [List.mem_singleton.mp here]
      exact (built.linked imports).2

theorem Trail.isCycle {path : List String} {id next : String} (trail : g.Trail (path ++ [id]))
    (imports : g.Imports id next) (met : next ∈ path ++ [id]) :
    g.IsCycle ((path ++ [id]).dropWhile (· ≠ next) ++ [next]) := by
  obtain ⟨before, after, split, away⟩ := List.eq_append_cons_of_mem met
  have behind : (path ++ [id]).dropWhile (· ≠ next) = next :: after := by
    rw [split, List.dropWhile_append_of_pos (by
      intro x inside
      simpa using ne_of_mem_of_not_mem inside away)]
    simp
  have suffix : next :: after <:+ path ++ [id] := ⟨before, split.symm⟩
  have last : (next :: after).getLast? = some id := by
    rw [← List.getLast?_concat (a := id) (l := path), split, List.getLast?_append_cons]
  rw [behind]
  constructor
  · simp
  · rw [List.getLast?_concat, List.cons_append, List.head?_cons]
  · rw [List.dropLast_concat]
    exact trail.distinct.sublist suffix.sublist
  · refine List.isChain_append.mpr ⟨trail.linked.suffix suffix, List.isChain_singleton next, ?_⟩
    rw [last]
    simpa using imports

/-- Units that are left for good are on no cycle. -/
def Left (g : Graph) (path visited : List String) : Prop :=
  ∀ x ∈ visited, x ∉ path → g.Sinks x

/-- What a walk from the units `todo` may give: a cycle, or the units entered so far, among them
all of `todo`, none of which is on the path. -/
def Walked (g : Graph) (path todo visited : List String) :
    Except (List String) (List String) → Prop
  | .error cycle => g.IsCycle cycle
  | .ok after => g.Left path after ∧ visited ⊆ after ∧ ∀ x ∈ todo, x ∈ after ∧ x ∉ path

theorem walked_all {path todo visited : List String}
    {walk : List String → String → Except (List String) (List String)}
    (each : ∀ next ∈ todo, ∀ visited, g.Left path visited →
      g.Walked path [next] visited (walk visited next)) (left : g.Left path visited) :
    g.Walked path todo visited (todo.foldlM walk visited) := by
  induction todo generalizing visited with
  | nil => exact ⟨left, List.Subset.refl visited, fun x member => absurd member List.not_mem_nil⟩
  | cons next todo ih =>
    rw [List.foldlM_cons]
    have first := each next List.mem_cons_self visited left
    cases run : walk visited next with
    | error cycle =>
      rw [run] at first
      exact first
    | ok between =>
      rw [run] at first
      obtain ⟨left, grown, entered⟩ := first
      have rest := ih (fun x member => each x (List.mem_cons_of_mem _ member)) left
      rw [ok_bind]
      cases run : todo.foldlM walk between with
      | error cycle =>
        rw [run] at rest
        exact rest
      | ok after =>
        rw [run] at rest
        obtain ⟨left, grown', entered'⟩ := rest
        refine ⟨left, List.Subset.trans grown grown', fun x member => ?_⟩
        rcases List.mem_cons.mp member with rfl | later
        · obtain ⟨there, away⟩ := entered x (List.mem_singleton.mpr rfl)
          exact ⟨grown' there, away⟩
        · exact entered' x later

variable {id : String}

theorem Trail.away {path : List String} (trail : g.Trail (path ++ [id])) :
    id ∉ path := fun inside =>
  (List.nodup_append.mp trail.distinct).2.2 id inside id (List.mem_singleton.mpr rfl) rfl

theorem Walked.leave {path visited : List String} {result : Except (List String) (List String)}
    (away : id ∉ path) (walked : g.Walked (path ++ [id]) (g.imports id) (id :: visited) result) :
    g.Walked path [id] visited result := by
  cases result with
  | error cycle => exact walked
  | ok after =>
    obtain ⟨left, grown, ends⟩ := walked
    have sinks : g.Sinks id := Acc.intro id fun next imports =>
      have ended := ends next (mem_imports.mpr imports)
      left next ended.1 ended.2
    refine ⟨fun x member off => ?_, fun x member => grown (List.mem_cons_of_mem _ member),
      fun x here => ?_⟩
    · by_cases same : x = id
      · exact same ▸ sinks
      · exact left x member (by simp [off, same])
    · rw [List.mem_singleton.mp here]
      exact ⟨grown List.mem_cons_self, away⟩

theorem seekCycle_walked (built : g.Built) {n : Nat} {path visited : List String}
    (trail : g.Trail (path ++ [id])) (steps : g.units.length ≤ path.length + n)
    (left : g.Left path visited) : g.Walked path [id] visited (g.seekCycle n path visited id) := by
  induction n generalizing path visited id with
  | zero =>
    have short := trail.length_le
    rw [List.length_append, List.length_singleton] at short
    omega
  | succ n ih =>
    have entered : g.Left (path ++ [id]) (id :: visited) := by
      intro x member off
      rw [List.mem_append, List.mem_singleton, not_or] at off
      exact left x ((List.mem_cons.mp member).resolve_left off.2) off.1
    rw [seekCycle]
    refine .leave trail.away (walked_all (fun next member visited left => ?_) entered)
    have imports : g.Imports id next := mem_imports.mp member
    split
    next met => exact trail.isCycle imports (List.contains_iff_mem.mp met)
    next off =>
      have off : next ∉ path ++ [id] := fun inside => off (List.contains_iff_mem.mpr inside)
      split
      next seen =>
        refine ⟨left, List.Subset.refl visited, fun x here => ?_⟩
        rw [List.mem_singleton.mp here]
        exact ⟨List.contains_iff_mem.mp seen, off⟩
      next new =>
        refine ih (trail.snoc built imports off) ?_ left
        rw [List.length_append, List.length_singleton]
        omega

theorem mem_ids : id ∈ g.ids ↔ g.contains id = true := by
  rw [ids, mem_sorted, contains_iff]

theorem cycle?_cases (built : g.Built) :
    (∃ path, g.cycle? = some path ∧ g.IsCycle path) ∨
      g.cycle? = none ∧ ∀ id, ¬ TransGen g.Imports id id := by
  unfold cycle?
  extract_lets walk
  have walked : g.Walked [] g.ids [] walk := by
    refine walked_all (fun id member visited left => ?_)
      fun x inside => absurd inside List.not_mem_nil
    split
    next seen =>
      refine ⟨left, List.Subset.refl visited, fun x here => ?_⟩
      rw [List.mem_singleton.mp here]
      exact ⟨List.contains_iff_mem.mp seen, List.not_mem_nil⟩
    next new =>
      refine seekCycle_walked built ⟨?_, ?_, ?_⟩ (by simp) left
      · exact List.isChain_singleton id
      · exact List.nodup_singleton id
      · simpa using mem_ids.mp member
  clear_value walk
  cases walk with
  | error path => exact .inl ⟨path, rfl, walked⟩
  | ok visited =>
    obtain ⟨left, -, all⟩ := walked
    refine .inr ⟨rfl, fun id cycle => ?_⟩
    obtain ⟨next, imports, -⟩ := TransGen.head'_iff.mp cycle
    have here := (all id (mem_ids.mpr (built.linked imports).1)).1
    exact not_transGen_of_acc (left id here List.not_mem_nil) cycle

/-! ### What is found -/

/-- A graph has a cycle of imports if and only if the search finds one; a found one is a cycle.
Orders and levels exist for the other graphs, and fail with the cycle that was found. -/
theorem cycle_found_iff (built : g.Built) :
    (g.cycle? = none ↔ ¬ ∃ id, TransGen g.Imports id id) ∧
      (∀ path, g.cycle? = some path → g.IsCycle path) ∧
      ((∃ e, g.order = .error e) ↔ ∃ id, TransGen g.Imports id id) ∧
      ((∃ e, g.levels = .error e) ↔ ∃ id, TransGen g.Imports id id) ∧
      ∀ e, g.order = .error e ∨ g.levels = .error e → ∃ path, e = .cycle path ∧ g.IsCycle path := by
  rcases cycle?_cases built with ⟨path, found, cycle⟩ | ⟨none, acyclic⟩
  · have order : g.order = .error (.cycle path) := by rw [Graph.order, found]
    have levels : g.levels = .error (.cycle path) := by rw [Graph.levels, found]
    rw [found, order, levels]
    refine ⟨⟨nofun, fun none => absurd cycle.transGen none⟩, ?_, ?_, ?_, ?_⟩
    · rintro _ ⟨⟩
      exact cycle
    · exact ⟨fun _ => cycle.transGen, fun _ => ⟨_, rfl⟩⟩
    · exact ⟨fun _ => cycle.transGen, fun _ => ⟨_, rfl⟩⟩
    · rintro _ (h | h) <;> cases h <;> exact ⟨path, rfl, cycle⟩
  · have order : g.order = .ok g.linear := by rw [Graph.order, none]
    have levels : ∃ ls, g.levels = .ok ls := by
      rw [Graph.levels, none]
      exact ⟨_, rfl⟩
    obtain ⟨ls, levels⟩ := levels
    have acyclic : ¬ ∃ id, TransGen g.Imports id id := fun ⟨id, cycle⟩ => acyclic id cycle
    rw [none, order, levels]
    refine ⟨⟨fun _ => acyclic, fun _ => rfl⟩, nofun, ?_, ?_, ?_⟩
    · exact ⟨nofun, fun cycle => absurd cycle acyclic⟩
    · exact ⟨nofun, fun cycle => absurd cycle acyclic⟩
    · rintro _ (h | h) <;> cases h

/-- A unit in front of a cycle that it is no part of. -/
def detour : Graph where
  units := [⟨"a", "a.tasty"⟩, ⟨"b", "b.tasty"⟩, ⟨"c", "c.tasty"⟩]
  dependents := [("a", []), ("b", ["a", "c"]), ("c", ["b"])]
  parents := [("a", ["b"]), ("b", ["c"]), ("c", ["b"])]

theorem detour_built : detour.Built := by
  have made : detour = ({} : Graph).after ([⟨"a", "a.tasty"⟩, ⟨"b", "b.tasty"⟩,
      ⟨"c", "c.tasty"⟩].map .unit ++ [⟨"a", "b"⟩, ⟨"b", "c"⟩, ⟨"c", "b"⟩].map .link) := by
    decide +kernel
  exact made ▸ built_after _

theorem cycle_found_iff_of_detour :
    detour.Built ∧ detour.cycle? = some ["b", "c", "b"] ∧ detour.IsCycle ["b", "c", "b"] ∧
      (∃ id, TransGen detour.Imports id id) ∧ ∃ e, detour.order = .error e := by
  have found : detour.cycle? = some ["b", "c", "b"] := by cbv
  obtain ⟨-, cycles, order, -, -⟩ := cycle_found_iff detour_built
  have cycle := cycles _ found
  exact ⟨detour_built, found, cycle, cycle.transGen, order.mpr cycle.transGen⟩

end Graph

end TastyLang
