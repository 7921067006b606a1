import TastyLang.Proofs.Evaluation
import TastyLang.Proofs.Resolution.Clauses
import TastyLang.Proofs.Resolution.Completeness
import TastyLang.Proofs.Ty.Inheritance

/-!
# The hierarchy of a file

A file is resolved also when its classes extend each other in a circle, and then its hierarchy has a
circle as well. Otherwise every way from base to base ends (`File.resolve_inherits`), because each
base comes from a clause of the file.
-/

namespace TastyLang

open Relation

/-- A class of the file has a clause that stands for another class of the file. -/
def File.Extends (file : File) (info : Info) (c d : Decl) : Prop :=
  .decl c ∈ file.nodes ∧ .decl d ∈ file.nodes ∧ ∃ b ∈ c.clauses, ∃ t,
    info.classType? d.info.span = some t ∧ (info.typeOfExpr b).equal t = true

theorem Ty.equal_cls {x : String} {n m : Nat} : (t : Ty) → t.core = .cls x n →
    t.equal (.cls x m) = true
  | .via _ t, core => by
    exact Ty.equal_cls t core
  | .cls _ _, core => by
    cases core
    simp [Ty.equal, Ty.core, Ty.equalCore]

namespace Resolution

variable {table : Table} {file : File} {s₁ s₂ s : State} {t u : Ty} {x : String} {n : Nat}

theorem Passed.linked (passed : Passed table file file.decls s₁ s₂ s)
    (zones : (typeSpans file.early ++ typeSpans file.late).Nodup) : s₂.Linked file := by
  have blank : s₁.Blank :=
    (declareDecls_numbers SymbolTable.global file.decls).run State.blank_initial passed.declared
  exact signatures_link passed.first.formed passed.bared passed.first.formed.root blank.linked file.decls
    (fun _ h => List.mem_cons_of_mem _ h) (fun _ h => h) (fun _ h => h)
    (outermost_attached table file.decls) passed.stand
    (List.nodup_append.mp zones).1 (fun span _ => blank.unwritten span) passed.signed

theorem Passed.extends (passed : Passed table file file.decls s₁ s₂ s)
    (zones : (typeSpans file.early ++ typeSpans file.late).Nodup) (base : s.info.hierarchy.Base t u)
    (core : t.core = .cls x n) (calls : s₂.Calls x n) : s.Extends file x u := by
  obtain ⟨hierarchy, kept⟩ := resolving_frames passed.third
  obtain ⟨_, _, bs, core', found, member⟩ := Hierarchy.Base.cls _ base
  cases core.symm.trans core'
  rw [hierarchy] at found
  obtain ⟨y, ⟨c, b, k, listed, clause, early, written, type⟩, unique⟩ :=
    (passed.linked zones).derived n bs found u member
  obtain rfl := unique x calls
  refine ⟨c, b, k, listed, clause, early, ?_, ?_⟩
  · rw [kept b.span fun late => ?_, written]
    exact (List.nodup_append.mp zones).2.2 _ (mem_typeSpans.mpr ⟨b, early, rfl⟩) _ late rfl
  · exact classType?_mono passed.formed (Regime.grows passed.third) type

theorem Passed.calls (passed : Passed table file file.decls s₁ s₂ s)
    (zones : (typeSpans file.early ++ typeSpans file.late).Nodup)
    (base : s.info.hierarchy.Base t u) : ∃ y m, u.core = .cls y m ∧ s₂.Calls y m := by
  obtain ⟨_, _, bs, -, found, member⟩ := Hierarchy.Base.cls _ base
  rw [(resolving_frames passed.third).1] at found
  have listed := List.mem_of_getElem? found
  obtain ⟨y, m, core⟩ := (passed.linked zones).classes bs listed u member
  exact ⟨y, m, core, .inr ⟨bs, listed, u, member, core⟩⟩

/-- A way from base to base follows clauses of the file, between classes called as its ends are. -/
theorem Passed.path (passed : Passed table file file.decls s₁ s₂ s)
    (zones : (typeSpans file.early ++ typeSpans file.late).Nodup) (core : t.core = .cls x n)
    (calls : s₂.Calls x n) (path : TransGen s.info.hierarchy.Base t u) :
    ∃ c k, .decl c ∈ file.nodes ∧ s.info.classType? c.info.span = some (.cls x k) ∧
      ∀ d y m l, .decl d ∈ file.nodes → u.core = .cls y m →
        s.info.classType? d.info.span = some (.cls y l) → TransGen (file.Extends s.info) c d := by
  have step : ∀ {t u : Ty} {x : String} {n : Nat}, t.core = .cls x n → s₂.Calls x n →
      s.info.hierarchy.Base t u → ∃ c k, .decl c ∈ file.nodes ∧
        s.info.classType? c.info.span = some (.cls x k) ∧ ∀ d y m l, .decl d ∈ file.nodes →
          u.core = .cls y m → s.info.classType? d.info.span = some (.cls y l) →
          file.Extends s.info c d := by
    intro t u x n core calls base
    obtain ⟨c, b, k, listed, clause, -, written, type⟩ := passed.extends zones base core calls
    refine ⟨c, k, listed, type, fun d y m l other core found => ?_⟩
    refine ⟨listed, other, b, clause, .cls y l, found, ?_⟩
    rw [Info.typeOfExpr, Std.TreeMap.getD_eq_getD_getElem?, written]
    exact Ty.equal_cls u core
  induction path with
  | single base =>
    obtain ⟨c, k, listed, type, reaches⟩ := step core calls base
    exact ⟨c, k, listed, type, fun d y m l other core found => .single (reaches d y m l other core found)⟩
  | @tail v u path base ih =>
    obtain ⟨c, k, listed, type, reaches⟩ := ih
    obtain ⟨z, j, core', calls'⟩ : ∃ z j, v.core = .cls z j ∧ s₂.Calls z j := by
      obtain ⟨w, -, last⟩ := TransGen.tail'_iff.mp path
      exact passed.calls zones last
    obtain ⟨c', k', listed', type', reaches'⟩ := step core' calls' base
    refine ⟨c, k, listed, type, fun d y m l other core found => ?_⟩
    exact (reaches c' z j k' listed' core' type').tail (reaches' d y m l other core found)

end Resolution

open Resolution

/-- Where no class of a file extends itself, over however many clauses, no type is among its own
bases; going from a type to its bases ends, and a type is a subclass of exactly those types that it
reaches so. -/
theorem File.resolve_inherits {table : Table} {name src : String} {file : File} {info : Info}
    (read : File.read table name src = .ok file) (resolved : file.resolve table = .ok info)
    (acyclic : ∀ c, ¬ TransGen (file.Extends info) c c) :
    (∀ t, ¬ TransGen info.hierarchy.Base t t) ∧
    (WellFounded fun u t => info.hierarchy.Base t u) ∧
    ∀ d b, Hierarchy.isAbsent d = false → Hierarchy.isAbsent b = false →
      info.hierarchy.isSubclass d b =
        (d.equal b || (info.hierarchy.basesOf d).any fun u => info.hierarchy.isSubclass u b) ∧
      (info.hierarchy.isSubclass d b = true ↔
        ∃ t, ReflTransGen info.hierarchy.Base d t ∧ t.equal b = true) := by
  obtain ⟨s₁, s₂, s, passed, rfl⟩ := File.read_passed read resolved
  have zones := File.zones read
  have circle : ∀ t, ¬ TransGen s.info.hierarchy.Base t t := by
    intro t path
    obtain ⟨w, -, last⟩ := TransGen.tail'_iff.mp path
    obtain ⟨x, n, core, calls⟩ := passed.calls zones last
    obtain ⟨c, k, listed, type, reaches⟩ := passed.path zones core calls path
    exact acyclic c (reaches c x n k listed core type)
  refine ⟨circle, Hierarchy.wellFounded_of_acyclic circle, fun d b derived base => ?_⟩
  refine ⟨Hierarchy.isSubclass_eq derived base fun u member => ?_,
    Hierarchy.isSubclass_iff derived base⟩
  obtain ⟨y, m, core, -⟩ := passed.calls zones member
  cases u with
  | absent => cases core
  | _ => rfl

/-! ### Files with and without circles -/

def Node.decl? : Node → Option Decl
  | .decl d => some d
  | _ => none

/-- Clauses of the file name only classes that stand above. -/
def File.extendsAbove (file : File) (info : Info) : Bool :=
  let ds := file.nodes.filterMap Node.decl?
  ds.all fun c => c.clauses.all fun b => ds.all fun d =>
    match info.classType? d.info.span with
    | some (.cls x _) => (info.typeOfExpr b).name != x ||
      decide (d.info.span.start.offset < c.info.span.start.offset)
    | some _ => false
    | none => true

theorem Ty.name_of_equal_cls {x : String} {n : Nat} : (t : Ty) → t.equal (.cls x n) = true →
    t.name = x
  | .via _ t, same => by
    exact Ty.name_of_equal_cls t same
  | .cls y _, same => by simpa [Ty.equal, Ty.core, Ty.equalCore, Ty.name] using same
  | .void, same | .null, same | .prim _, same | .enum _, same | .scope _, same
  | .template _ _, same | .tuple _, same | .pointer _ _, same | .reference _ _, same
  | .smart _ _, same | .func _ _, same | .range _, same | .unknown _, same | .invalid, same
  | .absent, same => by simp [Ty.equal, Ty.core, Ty.equalCore] at same

theorem File.extends_acyclic {file : File} {info : Info} (above : file.extendsAbove info = true)
    (c : Decl) : ¬ TransGen (file.Extends info) c c := by
  have lower : ∀ {c d : Decl}, TransGen (file.Extends info) c d →
      d.info.span.start.offset < c.info.span.start.offset := by
    have step : ∀ {c d : Decl}, file.Extends info c d →
        d.info.span.start.offset < c.info.span.start.offset := by
      rintro c d ⟨left, right, b, clause, t, type, same⟩
      have listed : ∀ {d : Decl}, .decl d ∈ file.nodes → d ∈ file.nodes.filterMap Node.decl? :=
        fun h => List.mem_filterMap.mpr ⟨_, h, rfl⟩
      have here := List.all_eq_true.mp (List.all_eq_true.mp (List.all_eq_true.mp above c (listed left))
        b clause) d (listed right)
      rw [type] at here
      cases t with
      | cls x n => simpa [Ty.name_of_equal_cls _ same] using here
      | _ => cases here
    intro c d path
    induction path with
    | single h => exact step h
    | tail _ h ih => exact (step h).trans ih
  exact fun path => Int.lt_irrefl _ (lower path)

/-- A class that inherits through an abstract binding. -/
def derivedText : String := "class A {}
abstract X becomes A {}
class B extends X {}
class C extends B {}
"

/-- Whether these are the bases that `derivedText` gives. -/
def isDerived : List (List Ty) → Bool
  | [[], [.via "X" (.cls "A" 3)], [.cls "B" 1], []] => true
  | _ => false

theorem File.resolve_inherits_of_binding :
    ∃ file info, File.read Table.default "main.tasty" derivedText = .ok file ∧
      file.resolve Table.default = .ok info ∧ (∀ c, ¬ TransGen (file.Extends info) c c) ∧
      (∀ t, ¬ TransGen info.hierarchy.Base t t) ∧
      (WellFounded fun u t => info.hierarchy.Base t u) ∧
      info.hierarchy.isSubclass (.cls "C" 2) (.cls "A" 0) = true ∧
      info.hierarchy.isSubclass (.cls "A" 0) (.cls "C" 2) = false := by
  have found : (resolved? Table.default "main.tasty" derivedText).any (fun r =>
      r.1.extendsAbove r.2 && isDerived r.2.hierarchy.bases) = true := by
    rw [resolved?, derivedText, File.read_ofList]
    decide +kernel
  obtain ⟨⟨file, info⟩, steps, here⟩ := (Option.any_eq_true _ _).mp found
  obtain ⟨read, resolved⟩ := resolved?_some steps
  simp only [Bool.and_eq_true] at here
  obtain ⟨above, here⟩ := here
  unfold isDerived at here
  have acyclic := File.extends_acyclic above
  obtain ⟨circle, ends, subclasses⟩ := File.resolve_inherits read resolved acyclic
  refine ⟨file, info, read, resolved, acyclic, circle, ends, ?_, ?_⟩
  · rw [(subclasses _ _ rfl rfl).2]
    refine ⟨.via "X" (.cls "A" 3), .head (b := .cls "B" 1) ?_ (.single ?_), Ty.equal_cls _ rfl⟩
    all_goals
      split at here
      · next bases => simp [Hierarchy.Base, Hierarchy.basesOf, bases]
      · cases here
  · rw [(subclasses _ _ rfl rfl).1]
    split at here
    · next bases => simp [Hierarchy.basesOf, bases, Ty.equal, Ty.core, Ty.equalCore]
    · cases here

/-- Two classes that extend each other. -/
def circularText : String := "class A extends B {}
class B extends A {}
"

/-- Whether these are the bases that `circularText` gives. -/
def isCircular : List (List Ty) → Bool
  | [[.cls "B" 1], [.cls "A" 0]] => true
  | _ => false

/-- Such classes are a circle of the hierarchy. -/
theorem File.resolve_admits_circle :
    ∃ file info, File.read Table.default "main.tasty" circularText = .ok file ∧
      file.resolve Table.default = .ok info ∧ ∃ t, TransGen info.hierarchy.Base t t := by
  have found : (resolved? Table.default "main.tasty" circularText).any (fun r =>
      isCircular r.2.hierarchy.bases) = true := by
    rw [resolved?, circularText, File.read_ofList]
    decide +kernel
  obtain ⟨⟨file, info⟩, steps, here⟩ := (Option.any_eq_true _ _).mp found
  obtain ⟨read, resolved⟩ := resolved?_some steps
  refine ⟨file, info, read, resolved, .cls "A" 0, .head (b := .cls "B" 1) ?_ (.single ?_)⟩
  all_goals
    dsimp only [isCircular] at here
    split at here
    · next bases => simp [Hierarchy.Base, Hierarchy.basesOf, bases]
    · cases here

end TastyLang
