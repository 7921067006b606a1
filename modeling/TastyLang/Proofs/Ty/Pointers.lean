import TastyLang.Proofs.Ty.Conversion

/-!
# Pointers

What a conversion between pointers moves to. A raw pointer only moves to a base class of what it points
to; a smart pointer also fits where a value of what it points to would (`Ty.pointers_move_up_iff`).
-/

namespace TastyLang

open Relation

variable {h : Hierarchy} {a b x y : Ty}

namespace Hierarchy

/-- Only classes are bases. -/
def OfClasses (h : Hierarchy) : Prop := ∀ t u, h.Base t u → ∃ x n, u.core = .cls x n

theorem Derives.cls (derives : h.Derives b a) : ∃ x n, b.core = .cls x n := by
  obtain ⟨t, path, -⟩ := derives
  obtain ⟨_, first, -⟩ := TransGen.head'_iff.mp path
  obtain ⟨x, n, -, core, -⟩ := Base.cls _ first
  exact ⟨x, n, core⟩

theorem Derives.classes (bases : h.OfClasses) (derives : h.Derives b a) :
    (∃ x n, a.core = .cls x n) ∧ ∃ x n, b.core = .cls x n := by
  refine ⟨?_, derives.cls⟩
  obtain ⟨t, path, same⟩ := derives
  obtain ⟨_, -, last⟩ := TransGen.tail'_iff.mp path
  obtain ⟨x, n, core⟩ := bases _ _ last
  obtain ⟨m, core⟩ := Ty.core_of_equal_class core same
  exact ⟨x, m, core⟩

end Hierarchy

namespace Ty

/-! ### Moving to a base class -/

/-- Pointers to the second type move to a base class where pointers to the first one are asked for: it
is a class that derives from the first, or both are pointers of one sort and the same holds of what they
point to. -/
inductive MovesUp (h : Hierarchy) : Ty → Ty → Prop
  | derived {a b : Ty} (differ : a.equal b = false) (derives : h.Derives b a) : MovesUp h a b
  | raw {a b x y : Ty} (place : a.value = pointer x 1) (given : b.value = pointer y 1)
    (differ : x.equal y = false) (derives : h.Derives y x) : MovesUp h a b
  | smart {a b x y : Ty} {u : Bool} (place : a.value = smart x u) (given : b.value = smart y u)
    (inner : MovesUp h x y) : MovesUp h a b

/-- Pointers of one sort. -/
def BothPoint (a b : Ty) : Prop :=
  (∃ x y n, a.value = pointer x n ∧ b.value = pointer y n) ∨
    ∃ x y u, a.value = smart x u ∧ b.value = smart y u

/-- Behind smart pointers that are opened together, a value is converted that is no pointer, or that
differs by references only. -/
inductive ByValue (h : Hierarchy) : Ty → Ty → Prop
  | same {a b : Ty} (equal : a.value.equal b.value = true) : ByValue h a b
  | value {a b : Ty} (plain : ¬ BothPoint a b) (fits : a.convertible h b = true) : ByValue h a b
  | smart {a b x y : Ty} {u : Bool} (place : a.value = smart x u) (given : b.value = smart y u)
    (inner : ByValue h x y) : ByValue h a b

theorem value_of_class {z : String} {n : Nat} : (t : Ty) → t.core = cls z n → t.value = cls z n
  | via _ t, core => value_of_class t core
  | cls _ _, core => core

theorem MovesUp.differ (bases : h.OfClasses) (moves : MovesUp h a b) : a.value.equal b.value = false := by
  induction moves with
  | @derived a b differ derives =>
    obtain ⟨⟨x, n, core⟩, y, m, core'⟩ := derives.classes bases
    rwa [value_of_class a core, value_of_class b core', ← core, ← core', equal_core_left, equal_core_right]
  | raw place given differ =>
    rw [place, given]
    simpa [equal, core, equalCore] using differ
  | @smart a b x y u place given inner ih =>
    have inside : x.equal y = false := by
      by_contra same
      rw [equal_value x y (by simpa using same)] at ih
      cases ih
    rw [place, given]
    simpa [equal, core, equalCore] using inside

theorem MovesUp.not_byValue (bases : h.OfClasses) (moves : MovesUp h a b) (built : b.Built) :
    ¬ ByValue h a b := by
  induction moves with
  | @derived a b differ derives =>
    obtain ⟨⟨x, n, core⟩, y, m, core'⟩ := derives.classes bases
    have place := value_of_class a core
    have given := value_of_class b core'
    have apart := MovesUp.differ bases (.derived differ derives)
    rintro (equal | ⟨-, fits⟩ | ⟨place', -, -⟩)
    · exact Bool.false_ne_true (apart.symm.trans equal)
    · rw [convertible_iff built, place, given] at fits
      rw [place, given] at apart
      rcases fits with unknown | unknown | fits
      · cases unknown
      · cases unknown
      · cases fits with
        | single _ _ same => exact Bool.false_ne_true (apart.symm.trans same)
    · cases place.symm.trans place'
  | raw place given differ derives =>
    have apart := MovesUp.differ bases (.raw place given differ derives)
    rintro (equal | ⟨plain, -⟩ | ⟨place', -, -⟩)
    · exact Bool.false_ne_true (apart.symm.trans equal)
    · exact plain (.inl ⟨_, _, _, place, given⟩)
    · cases place.symm.trans place'
  | @smart a b x y u place given inner ih =>
    have apart := MovesUp.differ bases (.smart place given inner)
    rintro (equal | ⟨plain, -⟩ | ⟨place', given', inner'⟩)
    · exact Bool.false_ne_true (apart.symm.trans equal)
    · exact plain (.inr ⟨_, _, _, place, given⟩)
    · cases place.symm.trans place'
      cases given.symm.trans given'
      have part := Every.value built
      rw [given] at part
      exact ih part.2 inner'

/-! ### What conversions do -/

theorem sizeOf_value (t : Ty) : sizeOf t.value ≤ sizeOf t := by
  fun_induction value t with
  | case1 b t ih => simp only [via.sizeOf_spec]; omega
  | case2 t c ih => simp only [reference.sizeOf_spec]; omega
  | case3 => exact Nat.le_refl _

theorem isSubclass_iff_of_differ (ka : a.Known) (kb : b.Known) (differ : a.equal b = false) :
    h.isSubclass b a = true ↔ h.Derives b a := by
  rw [Hierarchy.isSubclass_iff_derives kb.present ka.present, equal_symm b a, differ]
  simp

theorem moves_or_byValue (a b : Ty) (ka : a.Known) (kb : b.Known) (built : b.Built)
    (fits : a.convertible h b = true) : MovesUp h a b ∨ ByValue h a b := by
  have whole := fits
  have ka' : a.value.Known := Every.value ka
  have kb' : b.value.Known := Every.value kb
  have built' : b.value.Built := Every.value built
  have smaller := sizeOf_value a
  rw [convertible_iff built, Every.self ka', Every.self kb'] at fits
  simp only [Bool.false_eq_true, false_or] at fits
  -- a conversion whose sides are no pointers of one sort
  have byValue (plain : ¬ BothPoint a b) : MovesUp h a b ∨ ByValue h a b := .inr (.value plain whole)
  unfold BothPoint at byValue
  have same (equal : a.value.equal b.value = true) : MovesUp h a b ∨ ByValue h a b := .inr (.same equal)
  generalize place : a.value = d at *
  generalize given : b.value = v at *
  cases fits with
  | null | prim | tuple | template =>
    refine byValue ?_
    rintro (⟨x, y, n, left, right⟩ | ⟨x, y, u, left, right⟩) <;> first | cases left; done | cases right
  | single _ _ equal => exact same equal
  | @pointer x y n elem =>
    simp only [Every.self ka'.2, Every.self kb'.2, Bool.false_eq_true, false_or] at elem
    cases equal : x.equal y with
    | true => exact same (equal_iff.mpr (.pointer n equal))
    | false =>
      obtain ⟨rfl, below⟩ := elem.resolve_left (by simp [equal])
      exact .inl (.raw place given equal ((isSubclass_iff_of_differ ka'.2 kb'.2 equal).mp below))
  | @smart x y u elem =>
    cases equal : x.equal y with
    | true => exact same (equal_iff.mpr (.smart u equal))
    | false =>
      obtain fits | below := elem
      · have inside : sizeOf x < sizeOf a := by
          simp only [smart.sizeOf_spec] at smaller
          omega
        exact (moves_or_byValue x y ka'.2 kb'.2 built'.2 fits).imp (.smart place given) (.smart place given)
      · have derives := (isSubclass_iff_of_differ ka'.2 kb'.2 equal).mp below
        exact .inl (.smart place given (.derived equal derives))
termination_by sizeOf a

theorem convertible_smart {u : Bool} (ka : a.Known) (kb : b.Known) (built : b.Built)
    (differ : a.equal b = false) :
    (smart a u).convertible h (smart b u) = true ↔ a.convertible h b = true ∨ h.Derives b a := by
  have shared : (smart b u).Built := ⟨trivial, built⟩
  rw [convertible_iff shared]
  simp only [value, isUnknown, Bool.false_eq_true, false_or]
  rw [← isSubclass_iff_of_differ ka kb differ]
  constructor
  · rintro (_ | _ | _ | elem | _ | _ | place)
    · exact elem
    · cases place
  · exact .smart

theorem MovesUp.fits (built : b.Built) (ka : a.Known) (kb : b.Known) (moves : MovesUp h a b) :
    a.convertible h b = true ∨ h.Derives b a := by
  induction moves with
  | derived _ derives => exact .inr derives
  | @raw a b x y place given differ derives =>
    have ka' : (pointer x 1).Known := place ▸ Every.value ka
    have kb' : (pointer y 1).Known := given ▸ Every.value kb
    have below := (isSubclass_iff_of_differ ka'.2 kb'.2 differ).mpr derives
    rw [convertible_iff built, place, given]
    exact .inl (.inr (.inr (.pointer (.inr (.inr (.inr ⟨rfl, below⟩))))))
  | @smart a b x y u place given inner ih =>
    have ka' : (Ty.smart x u).Known := place ▸ Every.value ka
    have kb' : (Ty.smart y u).Known := given ▸ Every.value kb
    have built' : (Ty.smart y u).Built := given ▸ Every.value built
    rw [convertible_iff built, place, given]
    refine .inl (.inr (.inr (.smart ((ih built'.2 ka'.2 kb'.2).imp_right fun derives => ?_))))
    exact (Hierarchy.isSubclass_iff_derives (Known.present kb'.2) (Known.present ka'.2)).mpr (.inr derives)

theorem ByValue.fits (built : b.Built) (byValue : ByValue h a b) : a.convertible h b = true := by
  induction byValue with
  | same equal => exact convertible_of built.once (by rw [equal, Bool.or_true])
  | value _ fits => exact fits
  | @smart a b x y u place given inner ih =>
    have built' : (Ty.smart y u).Built := given ▸ Every.value built
    rw [convertible_iff built, place, given]
    exact .inr (.inr (.smart (.inl (ih built'.2))))

theorem fits_pointer {n m : Nat} (ka : a.Known) (kb : b.Known) :
    Fits h (pointer a n) (pointer b m) ↔
      n = m ∧ (a.equal b = true ∨ n = 1 ∧ h.isSubclass b a = true) := by
  constructor
  · rintro (_ | _ | elem | _ | _ | _ | place)
    · simp only [Every.self ka, Every.self kb, Bool.false_eq_true, false_or] at elem
      exact ⟨rfl, elem⟩
    · cases place
  · rintro ⟨rfl, elem⟩
    exact .pointer (elem.imp_right fun one => .inr (.inr one))

theorem convertible_pointerTo (bases : h.OfClasses) (ba : a.Built) (bb : b.Built) (ka : a.Known)
    (kb : b.Known) (differ : a.equal b = false) {n : Nat} (real : 0 < n) :
    (a.pointerTo n).convertible h (b.pointerTo n) = true ↔ n = 1 ∧ h.Derives b a := by
  rw [convertible_iff (bb.pointerTo n)]
  rcases pointerTo_cases a real with ⟨x, k, shape, made⟩ | ⟨other, made⟩ <;>
    rcases pointerTo_cases b real with ⟨y, l, shape', made'⟩ | ⟨other', made'⟩ <;> rw [made, made'] <;>
    simp only [value, isUnknown, Bool.false_eq_true, false_or]
  · -- pointers to pointers are converted only when they are equal
    have ca : (pointer x k).Built := shape ▸ Every.core ba
    have kx : (pointer x k).Known := shape ▸ Every.core ka
    have ky : (pointer y l).Known := shape' ▸ Every.core kb
    rw [fits_pointer kx.2 ky.2]
    constructor
    · rintro ⟨level, same | ⟨one, -⟩⟩
      · obtain rfl : k = l := by omega
        have equal : a.equal b = true := by
          rw [equal_iff, shape, shape']
          exact .pointer k same
        exact absurd equal (by simp [differ])
      · have := ca.1.1
        omega
    · rintro ⟨-, derives⟩
      obtain ⟨⟨z, m, core⟩, -⟩ := derives.classes bases
      cases shape.symm.trans core
  · have ca : (pointer x k).Built := shape ▸ Every.core ba
    have kx : (pointer x k).Known := shape ▸ Every.core ka
    rw [fits_pointer kx.2 kb]
    constructor
    · rintro ⟨level, -⟩
      have := ca.1.1
      omega
    · rintro ⟨-, derives⟩
      obtain ⟨⟨z, m, core⟩, -⟩ := derives.classes bases
      cases shape.symm.trans core
  · have cb : (pointer y l).Built := shape' ▸ Every.core bb
    have ky : (pointer y l).Known := shape' ▸ Every.core kb
    rw [fits_pointer ka ky.2]
    constructor
    · rintro ⟨level, -⟩
      have := cb.1.1
      omega
    · rintro ⟨-, derives⟩
      obtain ⟨-, z, m, core⟩ := derives.classes bases
      cases shape'.symm.trans core
  · rw [fits_pointer ka kb, differ, isSubclass_iff_of_differ ka kb differ]
    simp

theorem convertible_smart_prim {p q : Primitive} {u v : Bool} :
    (smart (prim p) u).convertible h (smart (prim q) v) = true ↔
      u = v ∧ (p.name = q.name ∨ 1 ≤ p.rank ∧ 1 ≤ q.rank ∧ q.rank ≤ p.rank) := by
  have built : (smart (prim q) v).Built := ⟨trivial, trivial⟩
  have inner : (prim q).Built := trivial
  rw [convertible_iff built]
  simp only [value, isUnknown, Bool.false_eq_true, false_or]
  constructor
  · rintro (_ | _ | _ | fits | _ | _ | place)
    · refine ⟨rfl, ?_⟩
      rcases fits with fits | below
      · rw [convertible_iff inner] at fits
        rcases fits with unknown | unknown | fits
        · cases unknown
        · cases unknown
        · cases fits with
          | prim wide => exact wide
          | single place => cases place
      · rcases (Hierarchy.isSubclass_iff_derives rfl rfl).mp below with same | derives
        · have names : (q.name == p.name) = true := same
          exact .inl (eq_of_beq names).symm
        · obtain ⟨_, _, core⟩ := derives.cls
          cases core
    · cases place
  · rintro ⟨rfl, wide⟩
    exact .smart (.inl ((convertible_iff inner).mpr (.inr (.inr (.prim wide)))))

/-- Between two different types that are known, raw pointers are converted only from a class to one that
it derives from. Smart pointers are converted also where the values are that they point to, and then they
do not move to a base class; so one to a number fits where one to a wider number is asked for. -/
theorem pointers_move_up_iff (bases : h.OfClasses) (ba : a.Built) (bb : b.Built) (ka : a.Known)
    (kb : b.Known) (differ : a.equal b = false) :
    (∀ n, 0 < n → ((a.pointerTo n).convertible h (b.pointerTo n) = true ↔ n = 1 ∧ h.Derives b a)) ∧
      (∀ u, (smart a u).convertible h (smart b u) = true ↔ MovesUp h a b ∨ ByValue h a b) ∧
      ¬ (MovesUp h a b ∧ ByValue h a b) ∧
      ∀ p q u v, (smart (prim p) u).convertible h (smart (prim q) v) = true ↔
        u = v ∧ (p.name = q.name ∨ 1 ≤ p.rank ∧ 1 ≤ q.rank ∧ q.rank ≤ p.rank) := by
  refine ⟨fun n real => convertible_pointerTo bases ba bb ka kb differ real, fun u => ?_, ?_,
    fun p q u v => convertible_smart_prim⟩
  · rw [convertible_smart ka kb bb differ]
    constructor
    · rintro (fits | derives)
      · exact moves_or_byValue a b ka kb bb fits
      · exact .inl (.derived differ derives)
    · rintro (moves | byValue)
      · exact moves.fits bb ka kb
      · exact .inl (byValue.fits bb)
  · rintro ⟨moves, byValue⟩
    exact moves.not_byValue bases bb byValue

/-- Smart pointers to pointers to a class. -/
theorem pointers_move_up_iff_of_nested :
    let h : Hierarchy := ⟨[[], [.cls "B" 0]]⟩
    let a := smart (pointer (.cls "B" 0) 1) true
    let b := smart (pointer (.cls "D" 1) 1) true
    h.OfClasses ∧ a.Built ∧ b.Built ∧ a.Known ∧ b.Known ∧ a.equal b = false ∧ MovesUp h a b ∧
      (smart a false).convertible h (smart b false) = true ∧
      (a.pointerTo 1).convertible h (b.pointerTo 1) = false := by
  intro h a b
  have bases : h.OfClasses := by
    intro t u base
    obtain ⟨_, n, bs, -, found, member⟩ := Hierarchy.Base.cls t base
    match n, found with
    | 1, found =>
      cases found
      exact ⟨"B", 0, by rw [List.mem_singleton.mp member]; rfl⟩
    | 0, found =>
      cases found
      cases member
  have ba : a.Built := by simp [a, Built, Every, Joint, core]
  have bb : b.Built := by simp [b, Built, Every, Joint, core]
  have ka : a.Known := by simp [a, Known, Every, isUnknown]
  have kb : b.Known := by simp [b, Known, Every, isUnknown]
  have differ : a.equal b = false := by decide
  have up : h.Base (.cls "D" 1) (.cls "B" 0) := List.mem_singleton.mpr rfl
  have moves : MovesUp h a b :=
    .smart rfl rfl (.raw rfl rfl (by decide) ⟨.cls "B" 0, .single up, by decide⟩)
  obtain ⟨raw, shared, -, -⟩ := pointers_move_up_iff bases ba bb ka kb differ
  refine ⟨bases, ba, bb, ka, kb, differ, moves, (shared false).mpr (.inl moves), ?_⟩
  have none : ¬ h.Derives b a := fun derives => by
    obtain ⟨_, _, core⟩ := derives.cls
    cases core
  simpa [none] using raw 1 Nat.one_pos

/-- A shared pointer to an `int` fits a place for one to a `double`. -/
theorem smart_pointer_widens :
    ∃ p ∈ Table.default.primitives, ∃ q ∈ Table.default.primitives, p.name = "double" ∧ q.name = "int" ∧
      (prim p).equal (prim q) = false ∧
      (smart (prim p) false).convertible {} (smart (prim q) false) = true ∧
      ¬ MovesUp {} (prim p) (prim q) := by
  refine ⟨⟨"double", "double", 8, false, ""⟩, by decide, ⟨"int", "int", 4, true, ""⟩, by decide, rfl, rfl,
    by decide, by decide +kernel, ?_⟩
  rintro (⟨-, derives⟩ | ⟨place, -⟩ | ⟨place, -⟩)
  · obtain ⟨_, _, core⟩ := derives.cls
    cases core
  · cases place
  · cases place

end Ty

end TastyLang
