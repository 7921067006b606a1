import Mathlib
import TastyLang.Graph.Basic

/-!
# Building graphs

A graph notes an import in two registers, by the unit that imports and by the unit that is imported,
with a step for each. Whatever is added, in whatever order, the two registers agree and stay among
the units (`Built.registered`); a call that fails changes neither. When all units come before all
imports, what was added can be read off again (`Records`).
-/

namespace TastyLang

/-! ## Registers -/

namespace Register

variable {r : Register} {k k' x y : String}

theorem under_insert {xs : List String} :
    under (Keyed.insert k xs r) k' = if k' = k then xs else r.under k' := by
  rw [under, Keyed.lookup_insert]
  split <;> rfl

theorem mem_note : y ∈ (r.note k x).under k' ↔ y ∈ r.under k' ∨ k' = k ∧ y = x := by
  rw [note]
  split
  next there =>
    refine ⟨.inl, fun h => h.elim (·) ?_⟩
    rintro ⟨rfl, rfl⟩
    exact List.contains_iff_mem.mp there
  next =>
    rw [under_insert]
    by_cases same : k' = k
    · rw [if_pos same, same, List.mem_append, List.mem_singleton]
      simp
    · simp [same]

theorem nodup_note (distinct : ∀ k, (r.under k).Nodup) (k' : String) :
    ((r.note k x).under k').Nodup := by
  rw [note]
  split
  next => exact distinct k'
  next new =>
    rw [under_insert]
    split
    next =>
      have new : x ∉ r.under k := fun there => new (List.contains_iff_mem.mpr there)
      exact List.nodup_append.mpr ⟨distinct k, List.nodup_singleton x, by
        rintro y old _ here rfl
        exact new (List.mem_singleton.mp here ▸ old)⟩
    next => exact distinct k'

theorem isSome_insert {xs : List String} :
    ((Keyed.insert k xs r).lookup k').isSome ↔ k' = k ∨ (r.lookup k').isSome := by
  rw [Keyed.lookup_insert]
  split
  next same => simp [same]
  next other => simp [other]

theorem isSome_note (kept : (r.lookup k).isSome) :
    ((r.note k x).lookup k').isSome ↔ (r.lookup k').isSome := by
  rw [note]
  split
  next => rfl
  next =>
    rw [isSome_insert]
    refine ⟨fun h => h.elim ?_ (·), .inr⟩
    rintro rfl
    exact kept

end Register

/-! ## Building graphs -/

namespace Graph

variable {g g' : Graph} {id file : String} {importer imported : String}

def Imports (g : Graph) (importer imported : String) : Prop :=
  imported ∈ g.parents.under importer

theorem mem_sorted {x : String} {xs : List String} : x ∈ sorted xs ↔ x ∈ xs :=
  List.mem_mergeSort

theorem nodup_sorted {xs : List String} : (sorted xs).Nodup ↔ xs.Nodup :=
  (List.mergeSort_perm _ _).nodup_iff

theorem mem_imports {id next : String} : next ∈ g.imports id ↔ g.Imports id next := mem_sorted

/-- The graphs that adding units and imports makes. An import that fails changes nothing. -/
inductive Built : Graph → Prop where
  | empty : Built {}
  | unit {g : Graph} (id file : String) (built : Built g) : Built (g.addUnit id file)
  | link {g g' : Graph} {importer imported : String} (built : Built g)
      (added : g.addImport importer imported = .ok g') : Built g'

/-! ### What a call does -/

theorem contains_iff {id : String} : g.contains id = true ↔ id ∈ g.units.map (·.id) := by
  simp only [contains, unit?, List.find?_isSome, List.mem_map, beq_iff_eq]

theorem addUnit_old (old : g.contains id = true) :
    g.addUnit id file =
      { g with units := g.units.map fun u => if u.id == id then ⟨id, file⟩ else u } :=
  if_pos old

theorem addUnit_new (new : ¬ g.contains id = true) :
    g.addUnit id file =
      { g with
        units := g.units ++ [⟨id, file⟩]
        dependents := Keyed.insert id [] g.dependents
        parents := Keyed.insert id [] g.parents } := if_neg new

theorem contains_addUnit {id file x : String} :
    (g.addUnit id file).contains x = true ↔ g.contains x = true ∨ x = id := by
  by_cases old : g.contains id = true
  · have names : (g.units.map fun u => if u.id == id then (⟨id, file⟩ : GraphUnit) else u).map
        (·.id) = g.units.map (·.id) := by
      rw [List.map_map]
      refine List.map_congr_left fun u _ => ?_
      by_cases same : u.id = id <;> simp [same]
    rw [addUnit_old old, contains_iff, contains_iff, names]
    refine ⟨.inl, fun h => h.elim (·) ?_⟩
    rintro rfl
    exact contains_iff.mp old
  · rw [addUnit_new old]
    simp [contains_iff]

/-- The graph with a module from outside noted as an import. -/
def opened (g : Graph) (importer imported : String) : Graph :=
  { g with foreign := g.foreign.note importer imported }

/-- The graph with an import between units noted for both of its ends. -/
def joined (g : Graph) (importer imported : String) : Graph :=
  { g with
    dependents := g.dependents.note imported importer
    parents := g.parents.note importer imported }

theorem noteImport_eq (g : Graph) (importer imported : String) : noteImport importer imported g =
    if g.contains importer = false then .error (.missing importer) g
    else if g.contains imported = false then .ok () (g.opened importer imported)
    else if importer = imported then .error (.cycle [importer, importer]) g
    else .ok () (g.joined importer imported) := by
  simp only [noteImport, bind, EStateM.bind, get, getThe, MonadStateOf.get, EStateM.get,
    Bool.not_eq_eq_eq_not, Bool.not_true]
  split
  · rfl
  · split
    · rfl
    · split <;> rfl

theorem noteImport_cases (g : Graph) (importer imported : String) :
    (∃ e, noteImport importer imported g = .error e g ∧
      (g.contains importer = false ∨ importer = imported)) ∨
    (g.contains importer = true ∧ g.contains imported = false ∧
      noteImport importer imported g = .ok () (g.opened importer imported)) ∨
    g.contains importer = true ∧ g.contains imported = true ∧ importer ≠ imported ∧
      noteImport importer imported g = .ok () (g.joined importer imported) := by
  rw [noteImport_eq]
  split
  next unknown => exact .inl ⟨_, rfl, .inl unknown⟩
  next known =>
    split
    next outside => exact .inr (.inl ⟨by simpa using known, outside, rfl⟩)
    next there =>
      split
      next same => exact .inl ⟨_, rfl, .inr same⟩
      next apart => exact .inr (.inr ⟨by simpa using known, by simpa using there, apart, rfl⟩)

theorem addImport_cases (h : g.addImport importer imported = .ok g') :
    g' = g.opened importer imported ∨ g.contains importer = true ∧ g.contains imported = true ∧
      importer ≠ imported ∧ g' = g.joined importer imported := by
  rw [addImport] at h
  rcases noteImport_cases g importer imported with
    ⟨e, run, -⟩ | ⟨-, -, run⟩ | ⟨known, there, apart, run⟩
  · rw [run] at h
    cases h
  · rw [run] at h
    cases h
    exact .inl rfl
  · rw [run] at h
    cases h
    exact .inr ⟨known, there, apart, rfl⟩

theorem addImport_units (h : g.addImport importer imported = .ok g') : g'.units = g.units := by
  rcases addImport_cases h with rfl | ⟨-, -, -, rfl⟩ <;> rfl

/-! ### What every call keeps -/

/-- The registers of a graph agree with each other and with its units. -/
structure Registered (g : Graph) : Prop where
  mirrored : ∀ importer imported,
    importer ∈ g.dependents.under imported ↔ imported ∈ g.parents.under importer
  /-- a list is kept for every unit and for nothing else -/
  headed : ∀ id, ((g.dependents.lookup id).isSome ↔ g.contains id = true) ∧
    ((g.parents.lookup id).isSome ↔ g.contains id = true)
  known : ∀ importer imported, g.Imports importer imported →
    g.contains importer = true ∧ g.contains imported = true
  distinct : ∀ id, (g.dependents.under id).Nodup ∧ (g.parents.under id).Nodup ∧
    (g.foreign.under id).Nodup
  loopless : ∀ id, ¬ g.Imports id id

theorem Registered.empty : ({} : Graph).Registered := by
  constructor <;> simp [Register.under, contains, unit?, Imports]

theorem Registered.under_addUnit (registered : g.Registered) (id file k : String) :
    (g.addUnit id file).dependents.under k = g.dependents.under k ∧
      (g.addUnit id file).parents.under k = g.parents.under k ∧
      (g.addUnit id file).foreign.under k = g.foreign.under k := by
  by_cases old : g.contains id = true
  · rw [addUnit_old old]
    exact ⟨rfl, rfl, rfl⟩
  · rw [addUnit_new old, Register.under_insert, Register.under_insert]
    split
    next same =>
      subst same
      have unlisted : ∀ x, x ∉ g.dependents.under k := fun x member =>
        old (registered.known x k ((registered.mirrored x k).mp member)).2
      have importless : ∀ x, x ∉ g.parents.under k := fun x member =>
        old (registered.known k x member).1
      exact ⟨(List.eq_nil_iff_forall_not_mem.mpr unlisted).symm,
        (List.eq_nil_iff_forall_not_mem.mpr importless).symm, rfl⟩
    next => exact ⟨rfl, rfl, rfl⟩

theorem Registered.addUnit (registered : g.Registered) (id file : String) :
    (g.addUnit id file).Registered where
  mirrored := by
    intro importer imported
    rw [(registered.under_addUnit id file imported).1,
      (registered.under_addUnit id file importer).2.1]
    exact registered.mirrored importer imported
  headed := by
    intro x
    rw [contains_addUnit]
    by_cases old : g.contains id = true
    · have same : g.contains x = true ∨ x = id ↔ g.contains x = true :=
        ⟨fun h => h.elim (·) (· ▸ old), .inl⟩
      rw [addUnit_old old, same]
      exact registered.headed x
    · rw [addUnit_new old, Register.isSome_insert, Register.isSome_insert, (registered.headed x).1,
        (registered.headed x).2]
      exact ⟨or_comm, or_comm⟩
  known := by
    intro importer imported imports
    rw [Imports, (registered.under_addUnit id file importer).2.1] at imports
    obtain ⟨first, second⟩ := registered.known importer imported imports
    exact ⟨contains_addUnit.mpr (.inl first), contains_addUnit.mpr (.inl second)⟩
  distinct := by
    intro k
    obtain ⟨dependents, parents, foreign⟩ := registered.under_addUnit id file k
    rw [dependents, parents, foreign]
    exact registered.distinct k
  loopless := by
    intro x imports
    rw [Imports, (registered.under_addUnit id file x).2.1] at imports
    exact registered.loopless x imports

theorem Registered.opened (registered : g.Registered) (importer imported : String) :
    (g.opened importer imported).Registered where
  mirrored := registered.mirrored
  headed := registered.headed
  known := registered.known
  distinct k := ⟨(registered.distinct k).1, (registered.distinct k).2.1,
    Register.nodup_note (fun k => (registered.distinct k).2.2) k⟩
  loopless := registered.loopless

theorem Registered.joined (registered : g.Registered) (first : g.contains importer = true)
    (second : g.contains imported = true) (apart : importer ≠ imported) :
    (g.joined importer imported).Registered where
  mirrored a b := by
    rw [Graph.joined, Register.mem_note, Register.mem_note, registered.mirrored, and_comm]
  headed x := by
    rw [Graph.joined, Register.isSome_note ((registered.headed imported).1.mpr second),
      Register.isSome_note ((registered.headed importer).2.mpr first)]
    exact registered.headed x
  known a b imports := by
    rcases Register.mem_note.mp imports with old | ⟨rfl, rfl⟩
    · exact registered.known a b old
    · exact ⟨first, second⟩
  distinct k := ⟨Register.nodup_note (fun k => (registered.distinct k).1) k,
    Register.nodup_note (fun k => (registered.distinct k).2.1) k, (registered.distinct k).2.2⟩
  loopless x imports := by
    rcases Register.mem_note.mp imports with old | ⟨rfl, same⟩
    · exact registered.loopless x old
    · exact apart same

theorem Built.registered (built : g.Built) : g.Registered := by
  induction built with
  | empty => exact .empty
  | unit id file _ ih => exact ih.addUnit id file
  | link _ added ih =>
    rcases addImport_cases added with rfl | ⟨first, second, apart, rfl⟩
    · exact ih.opened _ _
    · exact ih.joined first second apart

theorem Built.linked (built : g.Built) {a b : String} (imports : g.Imports a b) :
    g.contains a = true ∧ g.contains b = true := built.registered.known a b imports

theorem mem_importers (built : g.Built) {next : String} :
    next ∈ g.importers id ↔ g.Imports next id := by
  rw [importers, mem_sorted, built.registered.mirrored, Imports]

/-! ### Sequences of calls -/

/-- A call that adds something to a graph. -/
inductive Call where
  | unit (u : GraphUnit)
  | link (e : Edge)
  deriving DecidableEq

def Call.run : Call → EStateM GraphError Graph Unit
  | .unit u => modify fun g => g.addUnit u.id u.file
  | .link e => noteImport e.importer e.imported

/-- The graph that a call leaves, whether it fails or not. -/
def call (g : Graph) (c : Call) : Graph :=
  match c.run g with
  | .ok _ g' => g'
  | .error _ g' => g'

/-- The graph after calls, each made whatever became of those before it. -/
def after (g : Graph) (cs : List Call) : Graph := cs.foldl call g

theorem run_error {c : Call} {e : GraphError} (failed : c.run g = .error e g') : g' = g := by
  cases c with
  | unit u => cases failed
  | link l =>
    have run : noteImport l.importer l.imported g = .error e g' := failed
    rcases noteImport_cases g l.importer l.imported with
      ⟨_, kept, -⟩ | ⟨-, -, done⟩ | ⟨-, -, -, done⟩
    · cases kept.symm.trans run
      rfl
    · cases done.symm.trans run
    · cases done.symm.trans run

theorem Built.call (built : g.Built) (c : Call) : (g.call c).Built := by
  rw [Graph.call]
  split
  next g' run =>
    cases c with
    | unit u =>
      cases run
      exact built.unit u.id u.file
    | link l =>
      refine @Built.link _ _ l.importer l.imported built ?_
      have run : noteImport l.importer l.imported g = .ok () g' := run
      rw [addImport, run]
  next e g' failed =>
    rw [run_error failed]
    exact built

theorem built_after (cs : List Call) : (({} : Graph).after cs).Built := by
  suffices ∀ g : Graph, g.Built → (g.after cs).Built from this {} .empty
  induction cs with
  | nil => exact fun _ built => built
  | cons c cs ih => exact fun g built => ih (g.call c) (built.call c)

/-! ### Units first -/

/-- What noting the imports `ls` makes of a graph. -/
structure Records (g : Graph) (ls : List Edge) (g' : Graph) : Prop where
  units : g'.units = g.units
  parents : ∀ id m, m ∈ g'.parents.under id ↔ m ∈ g.parents.under id ∨
    g.contains id = true ∧ g.contains m = true ∧ m ≠ id ∧ ⟨id, m⟩ ∈ ls
  foreign : ∀ id m, m ∈ g'.foreign.under id ↔ m ∈ g.foreign.under id ∨
    g.contains id = true ∧ g.contains m = false ∧ ⟨id, m⟩ ∈ ls

theorem records_link (g : Graph) (e : Edge) : g.Records [e] (g.call (.link e)) := by
  obtain ⟨importer, imported⟩ := e
  have run : (Call.link ⟨importer, imported⟩).run g = noteImport importer imported g := rfl
  have added (id m : String) : (⟨id, m⟩ : Edge) ∈ [⟨importer, imported⟩] ↔
      id = importer ∧ m = imported := by simp
  rw [call, run]
  rcases noteImport_cases g importer imported with
    ⟨e, failed, why⟩ | ⟨known, outside, done⟩ | ⟨known, there, apart, done⟩
  · rw [failed]
    exact ⟨rfl, by grind, by grind⟩
  · rw [done]
    exact ⟨rfl, by grind [opened], by grind [opened, Register.mem_note]⟩
  · rw [done]
    exact ⟨rfl, by grind [joined, Register.mem_note], by grind [joined]⟩

theorem Records.trans {g₁ g₂ : Graph} {ls ls' : List Edge} (first : g.Records ls g₁)
    (second : g₁.Records ls' g₂) : g.Records (ls ++ ls') g₂ := by
  have known (x : String) : g₁.contains x = g.contains x := by
    simp only [contains, unit?, first.units]
  refine ⟨second.units.trans first.units, fun id m => ?_, fun id m => ?_⟩
  · rw [second.parents, first.parents, known, known, List.mem_append]
    grind
  · rw [second.foreign, first.foreign, known, known, List.mem_append]
    grind

theorem records_after (g : Graph) (ls : List Edge) : g.Records ls (g.after (ls.map .link)) := by
  induction ls generalizing g with
  | nil => exact ⟨rfl, by simp [after], by simp [after]⟩
  | cons e ls ih => exact (records_link g e).trans (ih (g.call (.link e)))

theorem after_units (us : List GraphUnit) (id : String) :
    (({} : Graph).after (us.map .unit)).parents.under id = [] ∧
      (({} : Graph).after (us.map .unit)).foreign.under id = [] := by
  suffices ∀ g : Graph, (∀ id, g.parents.under id = [] ∧ g.foreign.under id = []) → ∀ id,
      (g.after (us.map .unit)).parents.under id = [] ∧
        (g.after (us.map .unit)).foreign.under id = [] from this {} (fun _ => ⟨rfl, rfl⟩) id
  induction us with
  | nil => exact fun g none => none
  | cons u us ih =>
    intro g none
    refine ih (g.addUnit u.id u.file) fun id => ?_
    by_cases old : g.contains u.id = true
    · rw [addUnit_old old]
      exact none id
    · rw [addUnit_new old, Register.under_insert, (none id).1, (none id).2, ite_self]
      exact ⟨rfl, rfl⟩

theorem after_append (g : Graph) (cs cs' : List Call) :
    g.after (cs ++ cs') = (g.after cs).after cs' := List.foldl_append

/-- Whatever is added to a graph, in whatever order, its registers agree with each other and with
its units, and a call that fails changes nothing. When all units come before all imports, what is
external to one is no unit of the graph, and the imports of a unit and what is external to it are,
together and each once, the modules other than itself that were added as its imports; every import
that is added for what is no unit fails. -/
theorem registers_agree (cs : List Call) (us : List GraphUnit) (ls : List Edge) (id : String) :
    (({} : Graph).after cs).Registered ∧
      (∀ (c : Call) e g, c.run (({} : Graph).after cs) = .error e g → g = ({} : Graph).after cs) ∧
      let g := ({} : Graph).after (us.map .unit ++ ls.map .link)
      (∀ m ∈ g.external id, g.contains m = false) ∧ (g.imports id ++ g.external id).Nodup ∧
      (∀ m, m ∈ g.imports id ++ g.external id ↔ g.contains id = true ∧ m ≠ id ∧ ⟨id, m⟩ ∈ ls) ∧
      (g.contains id = false → ∀ before m rest, ls = before ++ ⟨id, m⟩ :: rest →
        let g' := ({} : Graph).after (us.map .unit ++ before.map .link)
        (Call.link ⟨id, m⟩).run g' = .error (.missing id) g') := by
  refine ⟨(built_after cs).registered, fun c e g failed => run_error failed, ?_⟩
  intro g
  have registered : g.Registered := (built_after _).registered
  have records : (({} : Graph).after (us.map .unit)).Records ls g := by
    rw [show g = _ from after_append {} (us.map .unit) (ls.map .link)]
    exact records_after _ ls
  have known (x : String) : (({} : Graph).after (us.map .unit)).contains x = g.contains x := by
    simp only [contains, unit?, records.units]
  have inside (m : String) : m ∈ g.imports id ↔
      g.contains id = true ∧ g.contains m = true ∧ m ≠ id ∧ ⟨id, m⟩ ∈ ls := by
    rw [mem_imports, Imports, records.parents, (after_units us id).1, known, known]
    simp
  have outside (m : String) : m ∈ g.external id ↔
      g.contains id = true ∧ g.contains m = false ∧ ⟨id, m⟩ ∈ ls := by
    rw [external, mem_sorted, records.foreign, (after_units us id).2, known, known]
    simp
  refine ⟨fun m member => ((outside m).mp member).2.1, ?_, fun m => ?_, fun unknown before m rest _ => ?_⟩
  · obtain ⟨-, parents, foreign⟩ := registered.distinct id
    refine List.nodup_append.mpr ⟨nodup_sorted.mpr parents, nodup_sorted.mpr foreign, ?_⟩
    rintro m listed _ listed' rfl
    have unit := ((inside m).mp listed).2.1
    rw [((outside m).mp listed').2.1] at unit
    cases unit
  · rw [List.mem_append, inside, outside]
    grind
  · intro g'
    have records : (({} : Graph).after (us.map .unit)).Records before g' := by
      rw [show g' = _ from after_append {} (us.map .unit) (before.map .link)]
      exact records_after _ before
    have outside : g'.contains id = false := by
      rw [← unknown, ← known]
      simp only [contains, unit?, records.units]
    exact (noteImport_eq g' id m).trans (if_pos outside)

/-- Units that are added again, and imports that are repeated, that fail or that lead outside. -/
def mixed : List GraphUnit × List Edge :=
  ([⟨"a", "a.tasty"⟩, ⟨"b", "b.tasty"⟩, ⟨"a", "a/a.tasty"⟩],
    [⟨"a", "b"⟩, ⟨"a", "q"⟩, ⟨"z", "a"⟩, ⟨"a", "a"⟩, ⟨"a", "b"⟩])

theorem registers_agree_of_mixed :
    let g := ({} : Graph).after (mixed.1.map .unit ++ mixed.2.map .link)
    (Call.link ⟨"z", "a"⟩).run g = .error (.missing "z") g ∧ g.contains "b" = true ∧
      g.external "a" = ["q"] ∧ g.contains "q" = false ∧ g.imports "a" = ["b"] ∧
      ⟨"a", "b"⟩ ∈ mixed.2 ∧ g.contains "z" = false ∧
      let g' := ({} : Graph).after (mixed.1.map .unit ++ (mixed.2.take 2).map .link)
      (Call.link ⟨"z", "a"⟩).run g' = .error (.missing "z") g' := by
  intro g
  have made : g = {
      units := [⟨"a", "a/a.tasty"⟩, ⟨"b", "b.tasty"⟩]
      dependents := [("a", []), ("b", ["a"])]
      parents := [("a", ["b"]), ("b", [])]
      foreign := [("a", ["q"])] } := by decide +kernel
  obtain ⟨-, kept, outside, -, members, -⟩ :=
    registers_agree (mixed.1.map .unit ++ mixed.2.map .link) mixed.1 mixed.2 "a"
  obtain ⟨-, -, -, -, -, fails⟩ :=
    registers_agree (mixed.1.map .unit ++ mixed.2.map .link) mixed.1 mixed.2 "z"
  have unknown : g.contains "z" = false := by
    rw [made]
    rfl
  have external : g.external "a" = ["q"] := by
    rw [made]
    cbv
  have imports : g.imports "a" = ["b"] := by
    rw [made]
    cbv
  have failed : ∃ g', (Call.link ⟨"z", "a"⟩).run g = .error (.missing "z") g' := by
    rw [made]
    exact ⟨_, rfl⟩
  obtain ⟨g', failed⟩ := failed
  have same : g' = g := kept _ _ _ failed
  have listed : "b" ∈ g.imports "a" ++ g.external "a" := by
    rw [imports]
    exact List.mem_cons_self
  refine ⟨same ▸ failed, ?_, external, outside "q" (external ▸ List.mem_cons_self), imports,
    ((members "b").mp listed).2.2, unknown, fails unknown _ "a" _ rfl⟩
  rw [made]
  rfl

/-- The imports of what is no unit fail, so nothing is noted for it. -/
theorem unknown_importer_unnoted :
    ¬ ∀ (us : List GraphUnit) (ls : List Edge) (id m : String),
      let g := ({} : Graph).after (us.map .unit ++ ls.map .link)
      m ∈ g.imports id ++ g.external id ↔ m ≠ id ∧ ⟨id, m⟩ ∈ ls := by
  intro whole
  have noted := (whole [⟨"a", "a.tasty"⟩] [⟨"z", "a"⟩] "z" "a").mpr ⟨by decide, List.mem_cons_self⟩
  have made : ({} : Graph).after ([⟨"a", "a.tasty"⟩].map .unit ++ [⟨"z", "a"⟩].map .link) =
      { units := [⟨"a", "a.tasty"⟩], dependents := [("a", [])], parents := [("a", [])] } := by
    decide +kernel
  rw [made] at noted
  rcases List.mem_append.mp noted with member | member <;> cases mem_sorted.mp member

end Graph

end TastyLang
