import Mathlib
import TastyLang.Command.Build
import TastyLang.Proofs.Graph.Affected

/-!
# Orders and levels

In a graph without cycles `Graph.place` puts a unit behind all that it imports, and what it puts
behind `done` can be reached along imports from the unit (`Places`), so never the unit itself. An
order of all units is built by such steps (`Placed`), and the depths of the units are found along it:
when a unit's turn comes, the longest chains of imports below its own imports are known. The walk that
finds depths and keeps them (`Graph.depthIn`) finds them in that order too (`gather_depths`).
-/

namespace TastyLang

namespace Graph

open Relation

variable {g : Graph} {id : String} {done todo : List String}

/-! ### Placing units -/

/-- Units of the graph, each once and behind all that it imports. -/
inductive Placed (g : Graph) : List String → Prop where
  | nil : Placed g []
  | snoc {done : List String} {id : String} (placed : Placed g done)
      (known : g.contains id = true) (new : id ∉ done) (imports : ∀ m, g.Imports id m → m ∈ done) :
      Placed g (done ++ [id])

theorem Placed.distinct (placed : g.Placed done) : done.Nodup := by
  induction placed with
  | nil => exact List.nodup_nil
  | snoc _ _ new _ ih => exact List.nodup_append.mpr ⟨ih, List.nodup_singleton _, by
      rintro x old _ here rfl
      exact new (List.mem_singleton.mp here ▸ old)⟩

theorem Placed.known (placed : g.Placed done) : ∀ x ∈ done, g.contains x = true := by
  induction placed with
  | nil => exact fun x member => absurd member List.not_mem_nil
  | snoc _ known _ _ ih =>
    intro x member
    rcases List.mem_append.mp member with old | new
    · exact ih x old
    · exact List.mem_singleton.mp new ▸ known

theorem Placed.before (placed : g.Placed done) {importer imported : String}
    (imports : g.Imports importer imported) (member : importer ∈ done) :
    [imported, importer].Sublist done := by
  induction placed with
  | nil => exact absurd member List.not_mem_nil
  | @snoc done id _ _ _ behind ih =>
    rcases List.mem_append.mp member with old | new
    · exact (ih old).trans (List.sublist_append_left done [id])
    · obtain rfl := List.mem_singleton.mp new
      exact (List.singleton_sublist.mpr (behind imported imports)).append (.refl [importer])

/-- What placing the units `todo` makes of the units that were placed before. -/
structure Places (g : Graph) (done todo after : List String) : Prop where
  placed : g.Placed after
  grown : done ⊆ after
  all : ∀ x ∈ todo, x ∈ after
  only : ∀ x ∈ after, x ∈ done ∨ ∃ y ∈ todo, ReflTransGen g.Imports y x

theorem places_all {step : List String → String → List String}
    (each : ∀ next ∈ todo, ∀ before, g.Placed before → g.Places before [next] (step before next))
    (placed : g.Placed done) : g.Places done todo (todo.foldl step done) := by
  induction todo generalizing done with
  | nil =>
    exact ⟨placed, List.Subset.refl done, fun x member => absurd member List.not_mem_nil,
      fun x member => .inl member⟩
  | cons next todo ih =>
    have first := each next List.mem_cons_self done placed
    have rest := ih (fun x member => each x (List.mem_cons_of_mem _ member)) first.placed
    refine ⟨rest.placed, List.Subset.trans first.grown rest.grown, fun x member => ?_,
      fun x member => ?_⟩
    · rcases List.mem_cons.mp member with rfl | later
      · exact rest.grown (first.all x (List.mem_singleton.mpr rfl))
      · exact rest.all x later
    · rcases rest.only x member with early | ⟨y, later, reaches⟩
      · rcases first.only x early with old | ⟨y, here, reaches⟩
        · exact .inl old
        · exact .inr ⟨y, List.mem_singleton.mp here ▸ List.mem_cons_self, reaches⟩
      · exact .inr ⟨y, List.mem_cons_of_mem _ later, reaches⟩

theorem Places.snoc {after : List String} (acyclic : ¬ ∃ id, TransGen g.Imports id id)
    (known : g.contains id = true) (new : id ∉ done)
    (places : g.Places done (g.imports id) after) : g.Places done [id] (after ++ [id]) where
  placed := by
    refine places.placed.snoc known (fun early => ?_) fun m imports =>
      places.all m (mem_imports.mpr imports)
    rcases places.only id early with old | ⟨m, imports, reaches⟩
    · exact new old
    · exact acyclic ⟨id, .head' (mem_imports.mp imports) reaches⟩
  grown := fun x member => List.mem_append_left _ (places.grown member)
  all := fun x here => List.mem_append_right _ here
  only := by
    intro x member
    rcases List.mem_append.mp member with early | here
    · rcases places.only x early with old | ⟨m, imports, reaches⟩
      · exact .inl old
      · exact .inr ⟨id, List.mem_singleton.mpr rfl, .head (mem_imports.mp imports) reaches⟩
    · exact .inr ⟨x, here, .refl⟩

theorem place_places (built : g.Built) (acyclic : ¬ ∃ id, TransGen g.Imports id id) {n : Nat}
    {path : List String} (trail : g.Trail (path ++ [id]))
    (steps : g.units.length ≤ path.length + n) (placed : g.Placed done) :
    g.Places done [id] (g.place n done id) := by
  induction n generalizing path done id with
  | zero =>
    have short := trail.length_le
    rw [List.length_append, List.length_singleton] at short
    omega
  | succ n ih =>
    rw [place]
    split
    next there =>
      refine ⟨placed, List.Subset.refl done, fun x here => ?_, fun x member => .inl member⟩
      exact List.mem_singleton.mp here ▸ List.contains_iff_mem.mp there
    next new =>
      have known : g.contains id = true := trail.known id (by simp)
      refine .snoc acyclic known (fun there => new (List.contains_iff_mem.mpr there))
        (places_all (fun next member before placed => ?_) placed)
      have imports := mem_imports.mp member
      have off : next ∉ path ++ [id] := fun met => acyclic (trail.isCycle imports met).transGen
      refine ih (trail.snoc built imports off) ?_ placed
      rw [List.length_append, List.length_singleton]
      omega

theorem walk_placed (built : g.Built) (acyclic : ¬ ∃ id, TransGen g.Imports id id)
    {us : List String} (all : ∀ id, id ∈ us ↔ g.contains id = true) :
    g.Placed (us.foldl (g.place g.units.length) []) ∧
      ∀ id, id ∈ us.foldl (g.place g.units.length) [] ↔ g.contains id = true := by
  have places : g.Places [] us (us.foldl (g.place g.units.length) []) := by
    refine places_all (fun id member before placed => ?_) .nil
    have trail : g.Trail ([] ++ [id]) := by
      refine ⟨List.isChain_singleton id, List.nodup_singleton id, ?_⟩
      simpa using (all id).mp member
    exact place_places built acyclic trail (Nat.le_add_left _ _) placed
  refine ⟨places.placed, fun id => ⟨places.placed.known id, fun known => ?_⟩⟩
  exact places.all id ((all id).mpr known)

theorem linear_placed (built : g.Built) (acyclic : ¬ ∃ id, TransGen g.Imports id id) :
    g.Placed g.linear ∧ ∀ id, id ∈ g.linear ↔ g.contains id = true :=
  walk_placed built acyclic fun _ => mem_ids

/-! ### Orders -/

theorem cycle?_none (built : g.Built) (acyclic : ¬ ∃ id, TransGen g.Imports id id) :
    g.cycle? = none := by
  rcases cycle?_cases built with ⟨path, -, cycle⟩ | ⟨none, -⟩
  · exact absurd cycle.transGen acyclic
  · exact none

theorem order_linear (built : g.Built) (acyclic : ¬ ∃ id, TransGen g.Imports id id) :
    g.order = .ok g.linear := by
  rw [order, cycle?_none built acyclic]

theorem affectedInOrder_filter (built : g.Built) (acyclic : ¬ ∃ id, TransGen g.Imports id id)
    {changed : List String}
    (known : ∀ given ∈ changed, g.contains (Command.moduleOf given) = true) :
    Command.affectedInOrder g changed =
      .ok (g.linear.filter (g.affected (changed.map Command.moduleOf)).contains) := by
  unfold Command.affectedInOrder
  have ids : (changed.mapM fun given =>
      let id := Command.moduleOf given
      if g.contains id then Except.ok id else .error (.unknownModule id)) =
      Except.ok (ε := CommandError) (changed.map Command.moduleOf) := by
    rw [mapM_congr fun given member => if_pos (known given member)]
    exact List.mapM_pure
  rw [ids, order_linear built acyclic]
  rfl

/-- Without cycles, the order holds every unit once, and what a unit imports stands in front of it.
The modules that a change of known ones affects, given by their names or the paths of their files,
are listed once each, and again behind those of the list that they import. -/
theorem imports_in_front (built : g.Built) (acyclic : ¬ ∃ id, TransGen g.Imports id id) :
    (∃ ids, g.order = .ok ids ∧ ids.Nodup ∧ (∀ id, id ∈ ids ↔ g.contains id = true) ∧
      ∀ importer imported, g.Imports importer imported → [imported, importer].Sublist ids) ∧
    ∀ changed, (∀ given ∈ changed, g.contains (Command.moduleOf given) = true) →
      ∃ ids, Command.affectedInOrder g changed = .ok ids ∧ ids.Nodup ∧
        (∀ id, id ∈ ids ↔ id ∈ g.affected (changed.map Command.moduleOf)) ∧
        ∀ importer ∈ ids, ∀ imported ∈ ids, g.Imports importer imported →
          [imported, importer].Sublist ids := by
  obtain ⟨placed, all⟩ := linear_placed built acyclic
  constructor
  · refine ⟨g.linear, order_linear built acyclic, placed.distinct, all, ?_⟩
    intro importer imported imports
    exact placed.before imports ((all importer).mpr (built.linked imports).1)
  · intro changed known
    refine ⟨_, affectedInOrder_filter built acyclic known, placed.distinct.filter _, ?_, ?_⟩
    · intro id
      rw [List.mem_filter, List.contains_iff_mem, all]
      exact ⟨And.right, fun member => ⟨known_of_affected built member, member⟩⟩
    · intro importer listed imported listed' imports
      have whole := placed.before imports (List.mem_filter.mp listed).1
      have part := whole.filter (g.affected (changed.map Command.moduleOf)).contains
      rwa [List.filter_cons_of_pos (List.mem_filter.mp listed').2,
        List.filter_cons_of_pos (List.mem_filter.mp listed).2, List.filter_nil] at part

/-- Two units that share an import, and a unit that imports all three. -/
def shared : Graph where
  units := [⟨"a", "a.tasty"⟩, ⟨"b", "b.tasty"⟩, ⟨"c", "c.tasty"⟩, ⟨"d", "d.tasty"⟩]
  dependents := [("a", []), ("b", ["a"]), ("c", ["a"]), ("d", ["a", "b", "c"])]
  parents := [("a", ["d", "c", "b"]), ("b", ["d"]), ("c", ["d"]), ("d", [])]

theorem shared_built : shared.Built := by
  have made : shared = ({} : Graph).after ([⟨"a", "a.tasty"⟩, ⟨"b", "b.tasty"⟩, ⟨"c", "c.tasty"⟩,
      ⟨"d", "d.tasty"⟩].map .unit ++ [⟨"a", "d"⟩, ⟨"a", "c"⟩, ⟨"a", "b"⟩, ⟨"b", "d"⟩,
      ⟨"c", "d"⟩].map .link) := by
    decide +kernel
  exact made ▸ built_after _

theorem shared_acyclic : ¬ ∃ id, TransGen shared.Imports id id := by
  have none : shared.cycle? = none := by cbv
  rcases cycle?_cases shared_built with ⟨path, found, -⟩ | ⟨-, acyclic⟩
  · rw [none] at found
    cases found
  · rintro ⟨id, cycle⟩
    exact acyclic id cycle

theorem imports_in_front_of_shared :
    shared.Built ∧ (¬ ∃ id, TransGen shared.Imports id id) ∧
      shared.order = .ok ["d", "b", "c", "a"] ∧
      (∀ given ∈ [" c.tasty"], shared.contains (Command.moduleOf given) = true) ∧
      Command.affectedInOrder shared [" c.tasty"] = .ok ["c", "a"] ∧ ["c", "a"].Nodup := by
  have order : shared.order = .ok ["d", "b", "c", "a"] := by cbv
  have given : ∀ given ∈ [" c.tasty"], shared.contains (Command.moduleOf given) = true := by
    decide +kernel
  have affected : Command.affectedInOrder shared [" c.tasty"] = .ok ["c", "a"] := by cbv
  obtain ⟨ids, found, distinct, -⟩ := (imports_in_front shared_built shared_acyclic).2 _ given
  cases affected.symm.trans found
  exact ⟨shared_built, shared_acyclic, order, given, affected, distinct⟩

/-! ### Depths -/

/-- There is a chain of `k` imports that starts at `id`. -/
def HasChain (g : Graph) (id : String) (k : Nat) : Prop :=
  ∃ path : List String, (id :: path).IsChain g.Imports ∧ path.length = k

/-- The longest chain of imports that starts at `id` has `k` of them. -/
def IsDepth (g : Graph) (id : String) (k : Nat) : Prop := IsGreatest {n | g.HasChain id n} k

theorem hasChain_zero (g : Graph) (id : String) : g.HasChain id 0 :=
  ⟨[], List.isChain_singleton id, rfl⟩

theorem hasChain_succ {k : Nat} :
    g.HasChain id (k + 1) ↔ ∃ m, g.Imports id m ∧ g.HasChain m k := by
  constructor
  · rintro ⟨path, chain, long⟩
    cases path with
    | nil => cases long
    | cons m path =>
      obtain ⟨imports, chain⟩ := List.isChain_cons_cons.mp chain
      exact ⟨m, imports, path, chain, Nat.succ.inj long⟩
  · rintro ⟨m, imports, path, chain, rfl⟩
    exact ⟨m :: path, List.isChain_cons_cons.mpr ⟨imports, chain⟩, rfl⟩

theorem IsDepth.below {k : Nat} (depth : g.IsDepth id (k + 1)) :
    ∃ m, g.Imports id m ∧ g.IsDepth m k := by
  obtain ⟨m, imports, chain⟩ := hasChain_succ.mp depth.1
  refine ⟨m, imports, chain, fun n longer => ?_⟩
  exact Nat.le_of_succ_le_succ (depth.2 (hasChain_succ.mpr ⟨m, imports, longer⟩))

theorem IsDepth.lt {m : String} {j k : Nat} (depth : g.IsDepth id k) (imports : g.Imports id m)
    (below : g.IsDepth m j) : j < k := depth.2 (hasChain_succ.mpr ⟨m, imports, below.1⟩)

theorem isGreatest_foldl_max (n : Nat) (ns : List Nat) :
    IsGreatest {m | m ∈ n :: ns} (ns.foldl max n) := by
  have greatest : (n :: ns).max? = some (ns.foldl max n) := rfl
  exact List.max?_eq_some_iff.mp greatest

/-- One more than the greatest depth known of an import, and 0 without imports. -/
def depthFrom (g : Graph) (known : List (String × Nat)) (id : String) : Nat :=
  ((g.imports id).map fun m => (known.lookup m).getD 0 + 1).foldl max 0

theorem isDepth_depthFrom {known : List (String × Nat)}
    (below : ∀ m, g.Imports id m → ∃ d, known.lookup m = some d ∧ g.IsDepth m d) :
    g.IsDepth id (g.depthFrom known id) := by
  obtain ⟨there, above⟩ :=
    isGreatest_foldl_max 0 ((g.imports id).map fun m => (known.lookup m).getD 0 + 1)
  rw [depthFrom]
  constructor
  · rcases List.mem_cons.mp there with none | member
    · rw [none]
      exact hasChain_zero g id
    · obtain ⟨m, imports, same⟩ := List.mem_map.mp member
      have imports := mem_imports.mp imports
      obtain ⟨d, found, depth⟩ := below m imports
      rw [found, Option.getD_some] at same
      rw [← same]
      exact hasChain_succ.mpr ⟨m, imports, depth.1⟩
  · intro n chain
    cases n with
    | zero => exact Nat.zero_le _
    | succ n =>
      obtain ⟨m, imports, chain⟩ := hasChain_succ.mp chain
      obtain ⟨d, found, depth⟩ := below m imports
      have longest : n ≤ d := depth.2 chain
      have counted := above (List.mem_cons_of_mem _ (List.mem_map_of_mem (mem_imports.mpr imports)))
      rw [found, Option.getD_some] at counted
      omega

/-- The depths of units, found one after the other. -/
def depthsAlong (g : Graph) (ids : List String) : List (String × Nat) :=
  ids.foldl (fun known id => known ++ [(id, g.depthFrom known id)]) []

theorem depthsAlong_concat (done : List String) (id : String) : g.depthsAlong (done ++ [id]) =
    g.depthsAlong done ++ [(id, g.depthFrom (g.depthsAlong done) id)] := List.foldl_concat _ _ _ _

theorem depthsAlong_prefix {later : List String} (more : done <+: later) :
    g.depthsAlong done <+: g.depthsAlong later := by
  obtain ⟨rest, rfl⟩ := more
  induction rest using List.reverseRecOn with
  | nil => rw [List.append_nil]
  | append_singleton rest id ih =>
    rw [← List.append_assoc, depthsAlong_concat]
    exact ih.trans (List.prefix_append _ _)

theorem names_depthsAlong (done : List String) : (g.depthsAlong done).map (·.1) = done := by
  induction done using List.reverseRecOn with
  | nil => rfl
  | append_singleton done id ih => rw [depthsAlong_concat, List.map_append, ih, List.map_singleton]

theorem lookup_depthsAlong : ((g.depthsAlong done).lookup id).isSome = done.contains id := by
  rw [Bool.eq_iff_iff, List.lookup_isSome_iff, List.contains_iff_mem]
  constructor
  · rintro ⟨e, member, same⟩
    rw [← g.names_depthsAlong done, eq_of_beq same]
    exact List.mem_map_of_mem member
  · intro there
    rw [← g.names_depthsAlong done] at there
    obtain ⟨e, member, same⟩ := List.mem_map.mp there
    exact ⟨e, member, beq_iff_eq.mpr same.symm⟩

theorem lookup_depthsAlong_later {later : List String} (more : done <+: later) (there : id ∈ done) :
    (g.depthsAlong later).lookup id = (g.depthsAlong done).lookup id := by
  obtain ⟨rest, same⟩ := g.depthsAlong_prefix more
  obtain ⟨d, found⟩ := Option.isSome_iff_exists.mp
    (lookup_depthsAlong.trans (List.contains_iff_mem.mpr there))
  rw [← same, List.lookup_append, found, Option.some_or]

/-! ### Depths found along walks -/

theorem prefix_foldl {step : List String → String → List String}
    (each : ∀ before, ∀ next ∈ todo, before <+: step before next) : done <+: todo.foldl step done := by
  induction todo generalizing done with
  | nil => exact List.prefix_refl done
  | cons next todo ih =>
    exact (each done next List.mem_cons_self).trans
      (ih fun before x member => each before x (List.mem_cons_of_mem _ member))

theorem prefix_place (n : Nat) : done <+: g.place n done id := by
  induction n generalizing done id with
  | zero => exact List.prefix_refl done
  | succ n ih =>
    rw [place]
    split
    · exact List.prefix_refl done
    · exact (prefix_foldl fun _ _ _ => ih).trans (List.prefix_append _ _)

/-- A walk that finds depths goes where one that places units goes, and what it gathers from the
depths of the units that it takes is what their depths in the end give. -/
theorem gather_depths {α : Type} {n : Nat} (f : α → Nat → α) (a : α)
    (each : ∀ next ∈ todo, ∀ before, g.Placed before → g.Places before [next] (g.place n before next) ∧
      g.depthIn n (g.depthsAlong before) next = g.depthsAlong (g.place n before next))
    (placed : g.Placed done) :
    todo.foldl (fun (known, a) m =>
        let known := g.depthIn n known m
        (known, f a ((known.lookup m).getD 0))) (g.depthsAlong done, a) =
      (g.depthsAlong (todo.foldl (g.place n) done),
        (todo.map fun m =>
          ((g.depthsAlong (todo.foldl (g.place n) done)).lookup m).getD 0).foldl f a) := by
  induction todo generalizing done a with
  | nil => rfl
  | cons next todo ih =>
    obtain ⟨places, same⟩ := each next List.mem_cons_self done placed
    have there : next ∈ g.place n done next := places.all next (List.mem_singleton.mpr rfl)
    have more : g.place n done next <+: todo.foldl (g.place n) (g.place n done next) :=
      prefix_foldl fun _ _ _ => prefix_place n
    have kept := lookup_depthsAlong_later (g := g) more there
    have rest := ih (f a (((g.depthsAlong (g.place n done next)).lookup next).getD 0))
      (fun x member => each x (List.mem_cons_of_mem _ member)) places.placed
    rw [List.foldl_cons]
    dsimp only
    rw [same, List.foldl_cons, List.map_cons, List.foldl_cons, kept]
    exact rest

theorem depthIn_place (built : g.Built) (acyclic : ¬ ∃ id, TransGen g.Imports id id) {n : Nat}
    {path : List String} (trail : g.Trail (path ++ [id]))
    (steps : g.units.length ≤ path.length + n) (placed : g.Placed done) :
    g.depthIn n (g.depthsAlong done) id = g.depthsAlong (g.place n done id) := by
  induction n generalizing path done id with
  | zero => rfl
  | succ n ih =>
    rw [depthIn, place, lookup_depthsAlong]
    split
    · rfl
    · have each : ∀ next ∈ g.imports id, ∀ before, g.Placed before →
          g.Places before [next] (g.place n before next) ∧
            g.depthIn n (g.depthsAlong before) next = g.depthsAlong (g.place n before next) := by
        intro next member before placed
        have imports := mem_imports.mp member
        have off : next ∉ path ++ [id] := fun met => acyclic (trail.isCycle imports met).transGen
        have longer : g.units.length ≤ (path ++ [id]).length + n := by
          rw [List.length_append, List.length_singleton]
          omega
        exact ⟨place_places built acyclic (trail.snoc built imports off) longer placed,
          ih (trail.snoc built imports off) longer placed⟩
      rw [gather_depths (fun depth d => max depth (d + 1)) 0 each placed, depthsAlong_concat, depthFrom,
        List.foldl_map, List.foldl_map]

/-- All units, each with its depth. -/
structure Measures (g : Graph) (ds : List (String × Nat)) : Prop where
  distinct : (ds.map (·.1)).Nodup
  all : ∀ id, id ∈ ds.map (·.1) ↔ g.contains id = true
  depth : ∀ e ∈ ds, g.IsDepth e.1 e.2

theorem Placed.depths (placed : g.Placed done) :
    ∀ e ∈ g.depthsAlong done, g.IsDepth e.1 e.2 := by
  induction placed with
  | nil => exact fun e member => absurd member List.not_mem_nil
  | @snoc done id _ _ _ behind depths =>
    rw [depthsAlong_concat]
    refine List.forall_mem_append.mpr ⟨depths, List.forall_mem_singleton.mpr ?_⟩
    refine isDepth_depthFrom fun m imports => ?_
    obtain ⟨d, found⟩ := Option.isSome_iff_exists.mp
      (lookup_depthsAlong.trans (List.contains_iff_mem.mpr (behind m imports)))
    obtain ⟨before, after, split, -⟩ := List.lookup_eq_some_iff.mp found
    refine ⟨d, found, depths (m, d) ?_⟩
    rw [split]
    exact List.mem_append_right _ List.mem_cons_self

theorem Placed.measures (placed : g.Placed done)
    (all : ∀ id, id ∈ done ↔ g.contains id = true) : g.Measures (g.depthsAlong done) := by
  refine ⟨?_, fun id => ?_, placed.depths⟩
  · rw [names_depthsAlong]
    exact placed.distinct
  · rw [names_depthsAlong]
    exact all id

section

variable {ds ds' : List (String × Nat)} {k : Nat}

theorem Measures.mem_iff (measures : g.Measures ds) :
    (id, k) ∈ ds ↔ g.contains id = true ∧ g.IsDepth id k := by
  constructor
  · intro member
    exact ⟨(measures.all id).mp (List.mem_map_of_mem member), measures.depth _ member⟩
  · rintro ⟨known, depth⟩
    obtain ⟨e, member, rfl⟩ := List.mem_map.mp ((measures.all id).mpr known)
    rwa [depth.unique (measures.depth e member)]

theorem Measures.lookup (measures : g.Measures ds) (known : g.contains id = true) :
    (id, (ds.lookup id).getD 0) ∈ ds := by
  obtain ⟨e, member, rfl⟩ := List.mem_map.mp ((measures.all id).mpr known)
  obtain ⟨d, found⟩ :=
    Option.isSome_iff_exists.mp (List.lookup_isSome_iff.mpr ⟨e, member, BEq.rfl⟩)
  obtain ⟨before, after, split, -⟩ := List.lookup_eq_some_iff.mp found
  rw [found, split]
  exact List.mem_append_right _ List.mem_cons_self

/-! ### Levels -/

def level (ds : List (String × Nat)) (k : Nat) : List String :=
  sorted ((ds.filter (·.2 == k)).map (·.1))

def height (ds : List (String × Nat)) : Nat := (ds.map fun d => d.2 + 1).foldl max 0

def levelsOf (ds : List (String × Nat)) : List (List String) :=
  (List.range (height ds)).map (level ds)

theorem Measures.mem_level (measures : g.Measures ds) :
    id ∈ level ds k ↔ g.contains id = true ∧ g.IsDepth id k := by
  rw [← measures.mem_iff, level, mem_sorted, List.mem_map]
  constructor
  · rintro ⟨e, member, rfl⟩
    obtain ⟨member, same⟩ := List.mem_filter.mp member
    rwa [← eq_of_beq same]
  · intro member
    exact ⟨(id, k), List.mem_filter.mpr ⟨member, BEq.rfl⟩, rfl⟩

theorem Measures.level_increases (measures : g.Measures ds) (k : Nat) :
    (level ds k).Pairwise (· < ·) :=
  sorted_increasing (measures.distinct.sublist (List.filter_sublist.map _))

theorem lt_foldl_max {ns : List Nat} : k < (ns.map (· + 1)).foldl max 0 ↔ ∃ n ∈ ns, k ≤ n := by
  obtain ⟨there, above⟩ := isGreatest_foldl_max 0 (ns.map (· + 1))
  constructor
  · intro lt
    rcases List.mem_cons.mp there with none | member
    · omega
    · obtain ⟨n, member, same⟩ := List.mem_map.mp member
      exact ⟨n, member, by omega⟩
  · rintro ⟨n, member, le⟩
    have counted : n + 1 ≤ _ := above (List.mem_cons_of_mem _ (List.mem_map_of_mem member))
    omega

theorem lt_height : k < height ds ↔ ∃ e ∈ ds, k ≤ e.2 := by
  have same : height ds = ((ds.map (·.2)).map (· + 1)).foldl max 0 := by
    rw [height, List.map_map]
    rfl
  rw [same, lt_foldl_max]
  simp only [List.mem_map, exists_exists_and_eq_and]

theorem IsDepth.descend (built : g.Built) {d : Nat} (depth : g.IsDepth id d)
    (known : g.contains id = true) (le : k ≤ d) : ∃ m, g.contains m = true ∧ g.IsDepth m k := by
  induction d generalizing id with
  | zero =>
    obtain rfl := Nat.le_zero.mp le
    exact ⟨id, known, depth⟩
  | succ d ih =>
    rcases Nat.le_succ_iff.mp le with lower | rfl
    · obtain ⟨m, imports, below⟩ := depth.below
      exact ih below (built.linked imports).2 lower
    · exact ⟨id, known, depth⟩

theorem Measures.lt_height_iff (built : g.Built) (measures : g.Measures ds) :
    k < height ds ↔ ∃ id, g.contains id = true ∧ g.IsDepth id k := by
  rw [lt_height]
  constructor
  · rintro ⟨e, member, le⟩
    obtain ⟨known, depth⟩ := measures.mem_iff.mp member
    exact depth.descend built known le
  · rintro ⟨id, found⟩
    exact ⟨(id, k), measures.mem_iff.mpr found, Nat.le_refl k⟩

theorem Measures.levelsOf_eq (built : g.Built) (measures : g.Measures ds)
    (measures' : g.Measures ds') : levelsOf ds = levelsOf ds' := by
  have heights : height ds = height ds' := eq_of_forall_lt_iff fun k => by
    rw [measures.lt_height_iff built, measures'.lt_height_iff built]
  rw [levelsOf, levelsOf, heights]
  refine List.map_congr_left fun k _ => ?_
  refine (measures.level_increases k).sortedLT.eq_of_mem_iff
    (measures'.level_increases k).sortedLT fun id => ?_
  rw [measures.mem_level, measures'.mem_level]

theorem levelsOf_getElem? {l : List String} :
    (levelsOf ds)[k]? = some l ↔ k < height ds ∧ level ds k = l := by
  rw [levelsOf, List.getElem?_map, Option.map_eq_some_iff]
  constructor
  · rintro ⟨k', found, rfl⟩
    obtain ⟨lt, same⟩ := List.getElem?_eq_some_iff.mp found
    rw [List.getElem_range] at same
    rw [List.length_range] at lt
    exact ⟨lt, same ▸ rfl⟩
  · rintro ⟨lt, rfl⟩
    exact ⟨k, List.getElem?_range lt, rfl⟩

theorem Measures.in_level (built : g.Built) (measures : g.Measures ds) :
    (∃ l, (levelsOf ds)[k]? = some l ∧ id ∈ l) ↔ g.contains id = true ∧ g.IsDepth id k := by
  constructor
  · rintro ⟨l, found, inside⟩
    obtain ⟨-, rfl⟩ := levelsOf_getElem?.mp found
    exact measures.mem_level.mp inside
  · intro found
    have lt := (measures.lt_height_iff built).mpr ⟨id, found⟩
    exact ⟨_, levelsOf_getElem?.mpr ⟨lt, rfl⟩, measures.mem_level.mpr found⟩

theorem Measures.levelsOf_distinct (measures : g.Measures ds) : (levelsOf ds).flatten.Nodup := by
  rw [List.nodup_flatten, levelsOf, List.pairwise_map]
  constructor
  · intro l member
    obtain ⟨k, -, rfl⟩ := List.mem_map.mp member
    exact (measures.level_increases k).imp ne_of_lt
  · refine List.pairwise_lt_range.imp fun {j k} lt => ?_
    intro id member member'
    have same := (measures.mem_level.mp member).2.unique (measures.mem_level.mp member').2
    omega

end

/-! ### The levels of the walk -/

theorem foldl_deepen (ns : List Nat) (h : Nat) :
    ns.foldl deepen (List.replicate h []) = List.replicate ((ns.map (· + 1)).foldl max h) [] := by
  induction ns generalizing h with
  | nil => rfl
  | cons n ns ih =>
    have one : deepen (List.replicate h []) n = List.replicate (max h (n + 1)) [] := by
      rw [deepen, List.length_replicate, List.replicate_append_replicate]
      congr 1
      omega
    rw [List.foldl_cons, one, ih, List.map_cons, List.foldl_cons]

/-- Each unit is put at the end of the level of its depth. -/
theorem file_getElem? (ds : List (String × Nat)) (ls : List (List String)) (k : Nat) :
    (ds.foldl (fun ls (id, depth) => ls.modify depth (· ++ [id])) ls)[k]? =
      ls[k]?.map (· ++ (ds.filter (·.2 == k)).map (·.1)) := by
  induction ds generalizing ls with
  | nil => simp
  | cons d ds ih =>
    rw [List.foldl_cons, ih, List.getElem?_modify, List.filter_cons]
    by_cases same : d.2 = k
    · simp [same, Function.comp_def]
    · simp [same]

theorem file_levelsOf (ds : List (String × Nat)) :
    (ds.foldl (fun ls (id, depth) => ls.modify depth (· ++ [id]))
      (List.replicate (height ds) [])).map sorted = levelsOf ds := by
  refine List.ext_getElem? fun k => ?_
  rw [List.getElem?_map, file_getElem?, levelsOf, List.getElem?_map, List.getElem?_replicate]
  by_cases lt : k < height ds
  · rw [if_pos lt, List.getElem?_range lt]
    rfl
  · rw [if_neg lt, List.getElem?_eq_none (by simpa using lt)]
    rfl

theorem Measures.height_eq (measures : g.Measures ds) :
    ((g.ids.map fun id => (ds.lookup id).getD 0).map (· + 1)).foldl max 0 = height ds := by
  refine eq_of_forall_lt_iff fun k => ?_
  rw [lt_foldl_max, lt_height]
  constructor
  · rintro ⟨n, member, le⟩
    obtain ⟨id, listed, rfl⟩ := List.mem_map.mp member
    exact ⟨_, measures.lookup (mem_ids.mp listed), le⟩
  · rintro ⟨e, member, le⟩
    obtain ⟨known, depth⟩ := measures.mem_iff.mp member
    have same := depth.unique (measures.mem_iff.mp (measures.lookup known)).2
    exact ⟨_, List.mem_map_of_mem (mem_ids.mpr known), same ▸ le⟩

theorem levels_levelsOf (built : g.Built) (acyclic : ¬ ∃ id, TransGen g.Imports id id) :
    g.levels = .ok (levelsOf (g.depthsAlong g.linear)) := by
  obtain ⟨placed, all⟩ := linear_placed built acyclic
  have measures := placed.measures all
  have each : ∀ id ∈ g.ids, ∀ before, g.Placed before →
      g.Places before [id] (g.place g.units.length before id) ∧
      g.depthIn g.units.length (g.depthsAlong before) id =
        g.depthsAlong (g.place g.units.length before id) := by
    intro id member before placed
    have trail : g.Trail ([] ++ [id]) := by
      refine ⟨List.isChain_singleton id, List.nodup_singleton id, ?_⟩
      simpa using mem_ids.mp member
    exact ⟨place_places built acyclic trail (Nat.le_add_left _ _) placed,
      depthIn_place built acyclic trail (Nat.le_add_left _ _) placed⟩
  have walk := gather_depths deepen [] each .nil
  have deepened := foldl_deepen (g.ids.map fun id => ((g.depthsAlong g.linear).lookup id).getD 0) 0
  rw [measures.height_eq] at deepened
  have walk := walk.trans (congrArg (Prod.mk _) deepened)
  rw [levels, cycle?_none built acyclic]
  dsimp only
  rw [show g.ids.foldl _ ([], []) = _ from walk]
  exact congrArg _ (file_levelsOf _)

/-- Without cycles, the levels hold every unit once, in increasing order and with no level empty; a
unit is in level `k` when the longest chain of imports that starts at it has `k` of them. So the
units of level 0 import nothing, and the others only from lower levels. The order in which the units
are taken does not matter. -/
theorem levels_are_depths (built : g.Built) (acyclic : ¬ ∃ id, TransGen g.Imports id id) :
    ∃ ls : List (List String), g.levels = .ok ls ∧ ls.flatten.Nodup ∧
      (∀ id, id ∈ ls.flatten ↔ g.contains id = true) ∧
      (∀ l ∈ ls, l ≠ [] ∧ l.Pairwise (· < ·)) ∧
      (∀ k id, (∃ l, ls[k]? = some l ∧ id ∈ l) ↔ g.contains id = true ∧ g.IsDepth id k) ∧
      (∀ l, ls[0]? = some l → ∀ id ∈ l, g.imports id = []) ∧
      (∀ (k : Nat) l, ls[k]? = some l → ∀ id ∈ l, ∀ m ∈ g.imports id,
        ∃ j l', j < k ∧ ls[j]? = some l' ∧ m ∈ l') ∧
      ∀ us : List String, (∀ id, id ∈ us ↔ g.contains id = true) →
        levelsOf (g.depthsAlong (us.foldl (g.place g.units.length) [])) = ls := by
  obtain ⟨placed, all⟩ := linear_placed built acyclic
  have measures := placed.measures all
  refine ⟨_, levels_levelsOf built acyclic, measures.levelsOf_distinct, fun id => ?_, ?_,
    fun k id => measures.in_level built, ?_, ?_, ?_⟩
  · rw [List.mem_flatten, ← measures.all id]
    constructor
    · rintro ⟨l, member, inside⟩
      obtain ⟨k, -, rfl⟩ := List.mem_map.mp member
      exact List.mem_map_of_mem (measures.mem_iff.mpr (measures.mem_level.mp inside))
    · intro member
      obtain ⟨e, listed, rfl⟩ := List.mem_map.mp member
      obtain ⟨l, found, inside⟩ := (measures.in_level built).mpr (measures.mem_iff.mp listed)
      exact ⟨l, List.mem_of_getElem? found, inside⟩
  · intro l member
    obtain ⟨k, lt, rfl⟩ := List.mem_map.mp member
    obtain ⟨id, found⟩ := (measures.lt_height_iff built).mp (List.mem_range.mp lt)
    exact ⟨List.ne_nil_of_mem (measures.mem_level.mpr found), measures.level_increases k⟩
  · intro l found id inside
    obtain ⟨-, depth⟩ := (measures.in_level built).mp ⟨l, found, inside⟩
    refine List.eq_nil_iff_forall_not_mem.mpr fun m member => ?_
    have chain := hasChain_succ.mpr ⟨m, mem_imports.mp member, hasChain_zero g m⟩
    exact absurd (depth.2 chain) (by decide)
  · intro k l found id inside m member
    obtain ⟨-, depth⟩ := (measures.in_level built).mp ⟨l, found, inside⟩
    have imports := mem_imports.mp member
    obtain ⟨e, listed, rfl⟩ := List.mem_map.mp ((measures.all m).mpr (built.linked imports).2)
    have below := measures.mem_iff.mp listed
    obtain ⟨l', found', inside'⟩ := (measures.in_level built).mpr below
    exact ⟨e.2, l', depth.lt imports below.2, found', inside'⟩
  · intro us same
    obtain ⟨placed', all'⟩ := walk_placed built acyclic same
    exact (placed'.measures all').levelsOf_eq built measures

theorem levels_are_depths_of_shared :
    shared.Built ∧ (¬ ∃ id, TransGen shared.Imports id id) ∧
      shared.levels = .ok [["d"], ["b", "c"], ["a"]] ∧ shared.IsDepth "a" 2 := by
  have found : shared.levels = .ok [["d"], ["b", "c"], ["a"]] := by cbv
  refine ⟨shared_built, shared_acyclic, found, ?_⟩
  obtain ⟨ls, found', -, -, -, depths, -⟩ := levels_are_depths shared_built shared_acyclic
  cases found.symm.trans found'
  exact ((depths 2 "a").mp ⟨["a"], rfl, List.mem_cons_self⟩).2

end Graph

end TastyLang
