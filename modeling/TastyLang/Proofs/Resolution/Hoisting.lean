import Mathlib.Data.List.Induction
import TastyLang.Proofs.Evaluation
import TastyLang.Proofs.Reading.Marks
import TastyLang.Proofs.Resolution.Charting
import TastyLang.Proofs.Resolution.Completeness
import TastyLang.Proofs.Resolution.Frames
import TastyLang.Proofs.Resolution.Readings
import TastyLang.Proofs.Resolution.SignatureTypes

/-!
# What is read once

In a file that was read the classes stand at places of their own (`File.chart_apart`), the written types
of its signatures are read once each (`File.readings_once`), and so is the target of a binding, as its
landmark says (`Decl.binds_landmarkOf`).
-/

namespace TastyLang

/-! ### Classes have places of their own -/

mutual

theorem Decl.classesAt_marks (π : Path) : (d : Decl) →
    ((d.classesAt π).map fun x => Mark.place x.1.start.offset).Sublist (marksOf d.nodes)
  | .item i => by
    rw [Decl.classesAt]
    exact List.nil_sublist _
  | .scope info name ds => by
    rw [Decl.classesAt, Decl.nodes, marksOf_cons]
    exact Decl.classesAtOf_marks (name :: π) ds
  | .cls info name bases items => by
    rw [Decl.classesAt, Decl.nodes, marksOf_cons]
    exact (List.nil_sublist _).cons_cons _
  | .includes _ _ _ _ | .assume _ _ _ | .abstraction _ _ _ _ | .refurbish _ _ _
  | .attributeDef _ _ _ _ => List.nil_sublist _

theorem Decl.classesAtOf_marks (π : Path) : (ds : List Decl) →
    ((Decl.classesAtOf π ds).map fun x => Mark.place x.1.start.offset).Sublist
      (marksOf (Decl.nodesOf ds))
  | [] => List.nil_sublist _
  | d :: ds => by
    rw [Decl.classesAtOf, Decl.nodesOf, List.map_append, marksOf_append]
    exact (Decl.classesAt_marks π d).append (Decl.classesAtOf_marks π ds)

end

theorem File.chart_once {table : Table} {name src : String} {file : File}
    (read : File.read table name src = .ok file) :
    (file.chart.classes.map fun x => x.1.start.offset).Nodup := by
  have sorted := File.read_marks read
  have marks : ((Decl.classesAtOf [] file.decls).map
      fun x => Mark.place x.1.start.offset).Sublist (marksOf file.nodes) := by
    rw [File.nodes, marksOf_cons]
    exact Decl.classesAtOf_marks [] file.decls
  have apart := sorted.sublist marks
  rw [List.pairwise_map] at apart
  rw [List.Nodup, List.pairwise_map]
  exact apart.imp fun lt => Int.ne_of_lt lt

theorem File.chart_apart {table : Table} {name src : String} {file : File}
    (read : File.read table name src = .ok file) : file.chart.Apart :=
  fun x here y there same =>
    List.inj_on_of_nodup_map (File.chart_once read) here there (by rw [same])

/-! ### Every written type of a signature is read once -/

theorem TypeExpr.typeSpans_nodes (t : TypeExpr) :
    ∃ rest, typeSpans t.nodes = t.span :: rest := by
  cases t with
  | tuple span elems stars => exact ⟨typeSpans (TypeExpr.nodesOf elems), rfl⟩
  | named span name args stars => exact ⟨typeSpans (TypeExpr.nodesOf args), rfl⟩
  | func span params result stars =>
    cases result with
    | none => exact ⟨typeSpans (TypeExpr.nodesOf params ++ []), rfl⟩
    | some r => exact ⟨typeSpans (TypeExpr.nodesOf params ++ r.nodes), rfl⟩

mutual

theorem TypeExpr.notes_spans (f : String → Ty) : (t : TypeExpr) →
    ((t.notes f).map Prod.fst).Perm (typeSpans t.nodes)
  | .tuple span elems stars => by
    rw [notes, List.map_append, nodes]
    exact List.perm_append_comm.trans ((notesOf_spans f elems).cons span)
  | .func span params none stars => by
    rw [notes, List.map_append, List.append_nil, nodes]
    refine List.perm_append_comm.trans (List.Perm.cons span ?_)
    rw [List.append_nil]
    exact notesOf_spans f params
  | .func span params (some r) stars => by
    rw [notes, List.map_append, List.map_append, nodes]
    refine List.perm_append_comm.trans (List.Perm.cons span ?_)
    change (_ ++ _ : List Span).Perm (typeSpans (nodesOf params ++ r.nodes))
    rw [typeSpans_append]
    exact (notesOf_spans f params).append (notes_spans f r)
  | .named span name args stars => by
    rw [notes, List.map_append, nodes]
    exact List.perm_append_comm.trans ((notesOf_spans f args).cons span)

theorem TypeExpr.notesOf_spans (f : String → Ty) : (ts : List TypeExpr) →
    ((notesOf f ts).map Prod.fst).Perm (typeSpans (nodesOf ts))
  | [] => .refl _
  | t :: ts => by
    rw [notesOf, List.map_append, nodesOf, typeSpans_append]
    exact (notes_spans f t).append (notesOf_spans f ts)

end

/-- The places of all parts of the written types that are read. -/
def readSpans (rs : List Reading) : List Span := rs.flatMap fun r => typeSpans r.type.nodes

theorem readSpans_append (rs rs' : List Reading) :
    readSpans (rs ++ rs') = readSpans rs ++ readSpans rs' := List.flatMap_append

theorem readSpans_flatMap {α : Type} {f : α → List Reading} {g : α → List Node} {xs : List α}
    (same : ∀ x, readSpans (f x) = typeSpans (g x)) :
    readSpans (xs.flatMap f) = typeSpans (xs.flatMap g) := by
  induction xs with
  | nil => rfl
  | cons x xs ih =>
    rw [List.flatMap_cons, readSpans_append, ih, same, List.flatMap_cons, typeSpans_append]

theorem readSpans_types (π : Path) (ts : List TypeExpr) :
    readSpans (ts.map fun t => { path := π, type := t }) = typeSpans (TypeExpr.nodesOf ts) := by
  rw [TypeExpr.nodesOf_eq, List.map_eq_flatMap]
  exact readSpans_flatMap fun t => List.append_nil _

theorem FuncDecl.readSpans_readings (π : Path) (f : FuncDecl) :
    readSpans (f.readings π) = typeSpans f.early := by
  have params : readSpans (f.params.map fun q => { path := π, type := q.type }) =
      typeSpans (f.params.flatMap fun q => q.type.nodes) := by
    rw [List.map_eq_flatMap]
    exact readSpans_flatMap fun q => List.append_nil _
  rw [FuncDecl.readings, FuncDecl.early, readSpans_append, typeSpans_append, params]
  cases f.result with
  | none => rfl
  | some r => exact congrArg _ (List.append_nil _)

theorem Item.readSpans_readings (π : Path) (i : Item) :
    readSpans (i.readings π) = typeSpans i.early := by
  cases i with
  | var d =>
    rw [Item.readings, Item.early]
    cases d.type with
    | none => rfl
    | some t => exact List.append_nil _
  | func f => exact f.readSpans_readings π
  | enum _ | inject _ _ => rfl

mutual

theorem Decl.readSpans_readings (π : Path) : (d : Decl) →
    readSpans (d.readings π) = typeSpans d.early
  | .item i => by
    rw [Decl.readings, Decl.early]
    exact i.readSpans_readings π
  | .scope info name ds => by
    rw [Decl.readings, Decl.early]
    exact Decl.readSpans_readingsOf (name :: π) ds
  | .cls info name bases items => by
    rw [Decl.readings, Decl.early, readSpans_append, typeSpans_append, readSpans_types,
      readSpans_flatMap fun i => Item.readSpans_readings (name :: π) i]
  | .abstraction info name target fs => by
    rw [Decl.readings, Decl.early, typeSpans_append,
      ← readSpans_flatMap fun f => FuncDecl.readSpans_readings (name :: π) f]
    rfl
  | .refurbish info target fs => by
    rw [Decl.readings, Decl.early, typeSpans_append,
      ← readSpans_flatMap fun f => FuncDecl.readSpans_readings π f]
    rfl
  | .includes _ _ _ _ | .assume _ _ _ | .attributeDef _ _ _ _ => rfl

theorem Decl.readSpans_readingsOf (π : Path) : (ds : List Decl) →
    readSpans (Decl.readingsOf π ds) = typeSpans (Decl.earlyOf ds)
  | [] => rfl
  | d :: ds => by
    rw [Decl.readingsOf, Decl.earlyOf, readSpans_append, typeSpans_append,
      Decl.readSpans_readings π d, Decl.readSpans_readingsOf π ds]

end

theorem Chart.notes_spans (c : Chart) (table : Table) (seen : Bindings) (rs : List Reading) :
    ((c.notes table seen rs).map Prod.fst).Perm (readSpans rs) := by
  induction rs generalizing seen with
  | nil => exact .refl _
  | cons r rs ih =>
    rw [Chart.notes, List.map_append]
    exact (TypeExpr.notes_spans _ r.type).append (ih _)

theorem spans_sublist (rs : List Reading) :
    (rs.map fun r => r.type.span).Sublist (readSpans rs) := by
  induction rs with
  | nil => exact .refl _
  | cons r rs ih =>
    obtain ⟨rest, spans⟩ := r.type.typeSpans_nodes
    have split : readSpans (r :: rs) = r.type.span :: (rest ++ readSpans rs) := by
      rw [← List.cons_append, ← spans]
      rfl
    rw [split, List.map_cons]
    exact (ih.trans (List.sublist_append_right _ _)).cons_cons _

theorem File.readings_once {table : Table} {name src : String} {file : File}
    (read : File.read table name src = .ok file) :
    (readSpans (Decl.readingsOf [] file.decls)).Nodup := by
  rw [Decl.readSpans_readingsOf]
  exact (List.nodup_append.mp (File.zones read)).1

/-! ### Bindings are read as their landmarks say -/

theorem FuncDecl.not_binds {π : Path} {f : FuncDecl} : ∀ r ∈ f.readings π, r.binds = none := by
  intro r member
  simp only [FuncDecl.readings, List.mem_append, List.mem_map] at member
  rcases member with ⟨q, -, rfl⟩ | ⟨t, -, rfl⟩ <;> rfl

theorem Item.not_binds {π : Path} {i : Item} : ∀ r ∈ i.readings π, r.binds = none := by
  cases i with
  | var d =>
    intro r member
    obtain ⟨t, -, rfl⟩ := List.mem_map.mp member
    rfl
  | func f => exact f.not_binds
  | enum _ | inject _ _ => exact fun r member => by cases member

mutual

theorem Decl.binds_landmark {π : Path} {r : Reading} {name : String} (binds : r.binds = some name) :
    (d : Decl) → r ∈ d.readings π → ⟨r.path, name, .binding r.type⟩ ∈ d.landmarks π
  | .item i, member => by
    rw [Decl.readings] at member
    rw [Item.not_binds r member] at binds
    cases binds
  | .scope info own ds, member => by
    rw [Decl.readings] at member
    rw [Decl.landmarks]
    exact List.mem_cons_of_mem _ (Decl.binds_landmarkOf binds ds member)
  | .cls info own bases items, member => by
    rw [Decl.readings] at member
    rcases List.mem_append.mp member with member | member
    · obtain ⟨t, -, rfl⟩ := List.mem_map.mp member
      cases binds
    · obtain ⟨i, -, member⟩ := List.mem_flatMap.mp member
      rw [Item.not_binds r member] at binds
      cases binds
  | .abstraction info own target fs, member => by
    rw [Decl.readings] at member
    rw [Decl.landmarks]
    rcases List.mem_cons.mp member with rfl | member
    · cases binds
      exact List.mem_cons_self
    · obtain ⟨f, -, member⟩ := List.mem_flatMap.mp member
      rw [FuncDecl.not_binds r member] at binds
      cases binds
  | .refurbish info target fs, member => by
    rw [Decl.readings] at member
    rcases List.mem_cons.mp member with rfl | member
    · cases binds
    · obtain ⟨f, -, member⟩ := List.mem_flatMap.mp member
      rw [FuncDecl.not_binds r member] at binds
      cases binds
  | .includes _ _ _ _, member | .assume _ _ _, member | .attributeDef _ _ _ _, member => by
    cases member

theorem Decl.binds_landmarkOf {π : Path} {r : Reading} {name : String}
    (binds : r.binds = some name) : (ds : List Decl) → r ∈ Decl.readingsOf π ds →
    ⟨r.path, name, .binding r.type⟩ ∈ Decl.landmarksOf π ds
  | [], member => by cases member
  | d :: ds, member => by
    rw [Decl.landmarksOf]
    rcases List.mem_append.mp member with member | member
    · exact List.mem_append_left _ (Decl.binds_landmark binds d member)
    · exact List.mem_append_right _ (Decl.binds_landmarkOf binds ds member)

end

/-! ## Declarations in any order

All names of a file are declared before a type is read, so a type of a signature may stand above the
declarations that it names, and changing the order of these changes nothing (`File.resolve_reordered`).
Only abstract bindings are not hoisted: one stands for its target from the place of its declaration on,
and above that its name means nothing (`File.resolve_keeps_late_binding`).
-/

/-- For each written type of the signatures, the bindings that it names out of those that are declared
above it. -/
def File.sights (table : Table) (file : File) : List (Span × List BindingKey) :=
  file.chart.sights table [] (Decl.readingsOf [] file.decls)

/-- What a dotted name is assumed to be, the last time. -/
def File.assumption? (file : File) (name : String) : Option AssumeKind :=
  file.chart.assumed.reverse.lookup name

theorem Decl.landmarksOf_perm {ds ds' : List Decl} (perm : ds.Perm ds') (π : Path) :
    (Decl.landmarksOf π ds).Perm (Decl.landmarksOf π ds') := by
  rw [Decl.landmarksOf_eq, Decl.landmarksOf_eq]
  exact perm.flatMap_right _

theorem Decl.classesAtOf_perm {ds ds' : List Decl} (perm : ds.Perm ds') (π : Path) :
    (Decl.classesAtOf π ds).Perm (Decl.classesAtOf π ds') := by
  rw [Decl.classesAtOf_eq, Decl.classesAtOf_eq]
  exact perm.flatMap_right _

theorem Decl.readingsOf_perm {ds ds' : List Decl} (perm : ds.Perm ds') (π : Path) :
    (Decl.readingsOf π ds).Perm (Decl.readingsOf π ds') := by
  rw [Decl.readingsOf_eq, Decl.readingsOf_eq]
  exact perm.flatMap_right _

namespace Resolution

variable {table : Table} {file : File} {ds : List Decl} {s₁ s₂ s : State}

theorem Passed.known (passed : Passed table file ds s₁ s₂ s) :
    s₁.Known (Decl.chartOf [] ds) [] := by
  have charting := declareDecls_charts State.charted_initial .root ds passed.declared
  have unbound := charting.unbound fun id lt => absurd lt (Nat.not_lt_zero id)
  refine ⟨charting.charted, fun span id found => (passed.first.formed.vars span id found).2, ?_⟩
  intro sc id π name here found kind
  have lt := charting.charted.table.rooted.known sc id (SymbolTable.lookupLocal?_mem found).1
  rw [unbound id lt kind]
  rfl

theorem getElem?_noting {notes : List (Span × Ty)} {span : Span}
    (noted : span ∈ notes.map Prod.fst) :
    ∃ t, (span, t) ∈ notes ∧ (s.noting notes).info.typeExprs[span]? = some t := by
  induction notes using List.reverseRecOn with
  | nil => cases noted
  | append_singleton notes n ih =>
    obtain ⟨k, t⟩ := n
    rw [State.noting_append]
    change ∃ u, _ ∧ ((s.noting notes).info.typeExprs.insert k t)[span]? = some u
    rw [Std.TreeMap.getElem?_insert]
    split
    · next same =>
      have same := Std.LawfulEqOrd.eq_of_compare same
      exact ⟨t, by simp [same], rfl⟩
    · next apart =>
      rw [List.map_append, List.mem_append] at noted
      obtain ⟨u, listed, found⟩ := ih <| noted.resolve_right fun here => by
        obtain rfl := List.mem_singleton.mp here
        exact apart Std.ReflOrd.compare_self
      exact ⟨u, List.mem_append_left _ listed, found⟩

theorem Passed.typed (passed : Passed table file ds s₁ s₂ s) (apart : (Decl.chartOf [] ds).Apart)
    {span : Span} (read : span ∈ readSpans (Decl.readingsOf [] ds))
    (late : span ∉ typeSpans file.late) : ∃ t, s.info.typeExprs[span]? = some t ∧
      (span, t.bare) ∈ (Decl.chartOf [] ds).notes table [] (Decl.readingsOf [] ds) := by
  obtain ⟨notes, typeExprs, bare⟩ := (signatures_reads (p := outermost table) apart passed.known .root
    ds (fun _ h => h) (fun _ h => h) passed.signed).notes
  have spans := ((Decl.chartOf [] ds).notes_spans table [] (Decl.readingsOf [] ds)).mem_iff.mpr read
  have bare : notes.map bareNote =
    (Decl.chartOf [] ds).notes table [] (Decl.readingsOf [] ds) := bare
  rw [← bare, List.map_map] at spans
  obtain ⟨t, listed, found⟩ := getElem?_noting (s := s₁) (show span ∈ notes.map Prod.fst from spans)
  refine ⟨t, ?_, ?_⟩
  · rw [(resolving_frames passed.third).2 span late, typeExprs, found]
  · rw [← bare]
    exact List.mem_map_of_mem (f := bareNote) listed

end Resolution

open Resolution

theorem File.reordered {table : Table} {name src : String} {file : File} {ds : List Decl}
    {s₁ s₂ s : State} (read : File.read table name src = .ok file) (perm : ds.Perm file.decls)
    (passed : Passed table file file.decls s₁ s₂ s)
    (assumed : ∀ name, file.assumption? name = File.assumption? { file with decls := ds } name) :
    Reordered file.chart (Decl.chartOf [] ds) (Decl.readingsOf [] file.decls)
      (Decl.readingsOf [] ds) := by
  have agree := passed.known.charted.table.agree
  have landmarks := Decl.landmarksOf_perm perm []
  have readings := Decl.readingsOf_perm perm []
  have once := (File.readings_once read).sublist (spans_sublist (Decl.readingsOf [] file.decls))
  refine ⟨Chart.lookup?_congr agree (fun l => landmarks.mem_iff.symm) assumed,
    fun r => readings.mem_iff.symm, once, ?_, fun x here y there key own own' => ?_⟩
  · exact (readings.map _).nodup_iff.mpr once
  · obtain ⟨name, binds, rfl⟩ := Option.map_eq_some_iff.mp own
    obtain ⟨name', binds', same⟩ := Option.map_eq_some_iff.mp own'
    obtain ⟨path, rfl⟩ := Prod.mk.inj same
    have target := agree _ (Decl.binds_landmarkOf binds _ here) _
      (Decl.binds_landmarkOf binds' _ there) path.symm rfl
    obtain ⟨_, _, _⟩ := x
    obtain ⟨_, _, _⟩ := y
    dsimp only at path target binds binds'
    rw [Meant.binding.injEq] at target
    rw [path, target, binds, binds']

/-- Where the bindings that a signature names stand above it in both orders or in neither, its written
types are the same in both orders, wherever all else that they name is declared. -/
theorem File.resolve_reordered {table : Table} {name src : String} {file : File} {info info' : Info}
    {ds : List Decl} (read : File.read table name src = .ok file) (perm : ds.Perm file.decls)
    (resolved : file.resolve table = .ok info)
    (resolved' : File.resolve table { file with decls := ds } = .ok info')
    (sights : (file.sights table).Perm (File.sights table { file with decls := ds }))
    (assumed : ∀ name, file.assumption? name = File.assumption? { file with decls := ds } name)
    {t : TypeExpr} (early : .type t ∈ file.early) :
    t.span ∈ info.typeExprs ∧ t.span ∈ info'.typeExprs ∧
      (info.typeOfExpr t).equal (info'.typeOfExpr t) = true ∧
      (info.typeOfExpr t).cpp = (info'.typeOfExpr t).cpp := by
  obtain ⟨p, q, lies⟩ := File.read_lies read
  obtain ⟨s₁, s₂, s, passed, rfl⟩ := File.read_passed read resolved
  obtain ⟨s', run, rfl⟩ := resolve_ok resolved'
  obtain ⟨s₁', s₂', passed'⟩ := passes_passed (File.read_zoned read)
    (FuncsLie.listed lies.funcs).apart perm run
  have zones := File.zones read
  have late : t.span ∉ typeSpans file.late := fun late =>
    (List.nodup_append.mp zones).2.2 _ (mem_typeSpans.mpr ⟨t, early, rfl⟩) _ late rfl
  have apart := File.chart_apart read
  have classes := Decl.classesAtOf_perm perm []
  have apart' : (Decl.chartOf [] ds).Apart := fun x here y there =>
    apart x (classes.mem_iff.mp here) y (classes.mem_iff.mp there)
  have readings := Decl.readingsOf_perm perm []
  have here : t.span ∈ readSpans (Decl.readingsOf [] file.decls) := by
    rw [Decl.readSpans_readingsOf]
    exact mem_typeSpans.mpr ⟨t, early, rfl⟩
  have here' : t.span ∈ readSpans (Decl.readingsOf [] ds) :=
    (readings.flatMap_right _).mem_iff.mpr here
  obtain ⟨u, found, noted⟩ := passed.typed apart here late
  obtain ⟨u', found', noted'⟩ := passed'.typed apart' here' late
  have noted := (File.reordered read perm passed assumed).notes_subset sights noted
  have once : (((Decl.chartOf [] ds).notes table [] (Decl.readingsOf [] ds)).map Prod.fst).Nodup := by
    apply (Chart.notes_spans _ _ _ _).nodup_iff.mpr
    exact (readings.flatMap_right _).nodup_iff.mpr (File.readings_once read)
  have same : u.bare = u'.bare := congrArg Prod.snd (List.inj_on_of_nodup_map once noted noted' rfl)
  have proper : u.Proper := Ty.proper_of_bare u <|
    Chart.proper_notes (Decl.landmarksOf_proper [] ds) (by simp) _ _ noted
  have type : s.info.typeOfExpr t = u := by
    rw [Info.typeOfExpr, Std.TreeMap.getD_eq_getD_getElem?, found]
    rfl
  have type' : s'.info.typeOfExpr t = u' := by
    rw [Info.typeOfExpr, Std.TreeMap.getD_eq_getD_getElem?, found']
    rfl
  rw [type, type']
  exact ⟨mem_iff_found.mpr ⟨_, found⟩, mem_iff_found.mpr ⟨_, found'⟩,
    Ty.equal_of_bare u u' proper same, Ty.cpp_of_bare same⟩

/-! ### Two orders of a file -/

def Node.type? : Node → Option TypeExpr
  | .type t => some t
  | _ => none

theorem mem_filterMap_type {ns : List Node} {t : TypeExpr} (h : t ∈ ns.filterMap Node.type?) :
    .type t ∈ ns := by
  obtain ⟨n, member, same⟩ := List.mem_filterMap.mp h
  cases n <;> cases same
  exact member

/-- A file, with what it is resolved to as it stands and with its declarations in another order. -/
def reordered? (table : Table) (src : String) (order : List Decl → List Decl) :
    Option (File × Info × Info) := do
  let (file, info) ← resolved? table "main.tasty" src
  let info' ← (File.resolve table { file with decls := order file.decls }).toOption
  return (file, info, info')

theorem reordered?_some {table : Table} {src : String} {order : List Decl → List Decl} {file : File}
    {info info' : Info} (h : reordered? table src order = some (file, info, info')) :
    File.read table "main.tasty" src = .ok file ∧ file.resolve table = .ok info ∧
      File.resolve table { file with decls := order file.decls } = .ok info' := by
  obtain ⟨⟨_, _⟩, steps, h⟩ := Option.bind_eq_some_iff.mp h
  obtain ⟨_, again, h⟩ := Option.bind_eq_some_iff.mp h
  cases h
  obtain ⟨read, resolved⟩ := resolved?_some steps
  exact ⟨read, resolved, toOption_eq_some again⟩

/-- A class that is named above its declaration, and a binding that is named below. -/
def aboveText : String := "abstract Int becomes int {}
extern copy x: (N.C, Int);
namespace N { class C {} }
"

/-- The namespace may stand above the variable that names its class. -/
theorem File.resolve_reordered_of_above :
    ∃ file info info', File.read Table.default "main.tasty" aboveText = .ok file ∧
      file.resolve Table.default = .ok info ∧
      File.resolve Table.default
        { file with decls := file.decls.take 1 ++ (file.decls.drop 1).reverse } = .ok info' ∧
      ∃ t, .type t ∈ file.early ∧ (info.typeOfExpr t).cpp = "std::tuple<N::C, int>" ∧
        (info.typeOfExpr t).equal (info'.typeOfExpr t) = true ∧
        (info.typeOfExpr t).cpp = (info'.typeOfExpr t).cpp := by
  have found : (reordered? Table.default aboveText fun ds => ds.take 1 ++ (ds.drop 1).reverse).any
      (fun (file, info, _) =>
        let file' : File := { file with decls := file.decls.take 1 ++ (file.decls.drop 1).reverse }
        decide ((file.sights Table.default).Perm (file'.sights Table.default)) &&
          file.chart.assumed.isEmpty && file'.chart.assumed.isEmpty &&
          (file.early.filterMap Node.type?).any fun t =>
            (info.typeOfExpr t).cpp = "std::tuple<N::C, int>") = true := by
    rw [reordered?, resolved?, aboveText, File.read_ofList]
    decide +kernel
  obtain ⟨⟨file, info, info'⟩, steps, here⟩ := (Option.any_eq_true _ _).mp found
  obtain ⟨read, resolved, resolved'⟩ := reordered?_some steps
  simp only [Bool.and_eq_true, decide_eq_true_eq, List.isEmpty_iff, List.any_eq_true] at here
  obtain ⟨⟨⟨sights, none⟩, none'⟩, t, listed, cpp⟩ := here
  have early := mem_filterMap_type listed
  have perm : (file.decls.take 1 ++ (file.decls.drop 1).reverse).Perm file.decls := by
    refine (List.Perm.append_left _ (List.reverse_perm _)).trans ?_
    rw [List.take_append_drop]
  obtain ⟨-, -, equal, same⟩ := File.resolve_reordered read perm resolved resolved' sights
    (fun name => by rw [File.assumption?, File.assumption?, none, none']) early
  exact ⟨file, info, info', read, resolved, resolved', t, early, cpp, equal, same⟩

/-- A binding that is named above its declaration. -/
def lateText : String := "extern copy x: Int;
abstract Int becomes int {}
"

/-- Whether a name is left as it is written, and then found to be a binding to a primitive. -/
def Ty.boundLater : Ty → Ty → Bool
  | .unknown "Int", .via "Int" (.prim _) => true
  | _, _ => false

/-- The type of the variable is that of the binding only where the binding stands above it. -/
theorem File.resolve_keeps_late_binding :
    ∃ file info info', File.read Table.default "main.tasty" lateText = .ok file ∧
      file.resolve Table.default = .ok info ∧
      File.resolve Table.default { file with decls := file.decls.reverse } = .ok info' ∧
      ∃ t, .type t ∈ file.early ∧ (info.typeOfExpr t).cpp = "Int" ∧
        (info'.typeOfExpr t).cpp = "int" ∧
        (info.typeOfExpr t).equal (info'.typeOfExpr t) = false := by
  have found : (reordered? Table.default lateText List.reverse).any (fun r =>
      (r.1.early.filterMap Node.type?).any fun t => (r.2.2.typeOfExpr t).cpp = "int" &&
        (r.2.1.typeOfExpr t).boundLater (r.2.2.typeOfExpr t)) = true := by
    rw [reordered?, resolved?, lateText, File.read_ofList]
    decide +kernel
  obtain ⟨⟨file, info, info'⟩, steps, here⟩ := (Option.any_eq_true _ _).mp found
  obtain ⟨read, resolved, resolved'⟩ := reordered?_some steps
  simp only [Bool.and_eq_true, decide_eq_true_eq, List.any_eq_true] at here
  obtain ⟨t, listed, cpp', shapes⟩ := here
  unfold Ty.boundLater at shapes
  have early := mem_filterMap_type listed
  have plain : Ty.scopedName "Int" = "Int" := by decide
  refine ⟨file, info, info', read, resolved, resolved', t, early, ?_, cpp', ?_⟩
  · split at shapes
    · next left _ =>
      rw [left]
      exact plain
    · cases shapes
  · split at shapes
    · next left right => simp [left, right, Ty.equal, Ty.core, Ty.equalCore]
    · cases shapes

end TastyLang
