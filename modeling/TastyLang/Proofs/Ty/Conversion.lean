import TastyLang.Proofs.Ty.Bounds
import TastyLang.Proofs.Ty.Inheritance

/-!
# Conversions

What equal types have in common (`Ty.equal_iff`) and the rules by which a value fits a place
(`Ty.convertible_iff`), each as a relation between the heads of two types. The rules compose: over the
default table and classes that are known by their names, `Ty.convertible` is a preorder
(`Ty.convertible_preorder`).
-/

namespace TastyLang

open Relation

namespace Ty

variable {h : Hierarchy} {a b c t u : Ty}

/-! ### Equal types -/

/-- The heads of equal types. -/
inductive Alike : Ty → Ty → Prop
  | void : Alike void void
  | null : Alike null null
  | absent : Alike absent absent
  | prim {p q : Primitive} (name : p.name = q.name) : Alike (prim p) (prim q)
  | cls (x : String) (n m : Nat) : Alike (cls x n) (cls x m)
  | enum (x : String) : Alike (enum x) (enum x)
  | scope (x : String) : Alike (scope x) (scope x)
  | unknown (x : String) : Alike (unknown x) (unknown x)
  | pointer {x y : Ty} (n : Nat) (elem : x.equal y = true) : Alike (pointer x n) (pointer y n)
  | reference {x y : Ty} (c : Bool) (elem : x.equal y = true) : Alike (reference x c) (reference y c)
  | smart {x y : Ty} (u : Bool) (elem : x.equal y = true) : Alike (smart x u) (smart y u)
  | range {x y : Ty} (elem : x.equal y = true) : Alike (range x) (range y)
  | template {x y : Ty} {as bs : List Ty} (base : x.equal y = true) (args : equalList as bs = true) :
    Alike (template x as) (template y bs)
  | func {x y : Ty} {as bs : List Ty} (result : x.equal y = true) (params : equalList as bs = true) :
    Alike (func as x) (func bs y)
  | tuple {as bs : List Ty} (elems : equalList as bs = true) : Alike (tuple as) (tuple bs)

theorem equal_iff : a.equal b = true ↔ Alike a.core b.core := by
  rw [← equal_core_left, equal]
  have regular := fun c u => core_ne_via (b := c) (u := u) a
  generalize a.core = v at regular
  generalize b.core = w
  constructor
  · intro same
    unfold equalCore at same
    split at same
    · exact absurd rfl (regular _ _)
    · exact .void
    · exact .null
    · exact .absent
    · exact .prim (eq_of_beq same)
    · exact eq_of_beq same ▸ .cls _ _ _
    · exact eq_of_beq same ▸ .enum _
    · exact eq_of_beq same ▸ .scope _
    · exact eq_of_beq same ▸ .unknown _
    · obtain ⟨level, elem⟩ := Bool.and_eq_true_iff.mp same
      exact eq_of_beq level ▸ .pointer _ elem
    · obtain ⟨kind, elem⟩ := Bool.and_eq_true_iff.mp same
      exact eq_of_beq kind ▸ .reference _ elem
    · obtain ⟨owner, elem⟩ := Bool.and_eq_true_iff.mp same
      exact eq_of_beq owner ▸ .smart _ elem
    · exact .range same
    · obtain ⟨base, args⟩ := Bool.and_eq_true_iff.mp same
      exact .template base args
    · obtain ⟨result, params⟩ := Bool.and_eq_true_iff.mp same
      exact .func result params
    · exact .tuple same
    · cases same
  · intro alike
    cases alike <;> simp_all [equalCore, equal]

theorem equal_trans_of_heads (heads : ∀ v w, Alike a.core v → Alike v w → Alike a.core w)
    (left : a.equal b = true) (right : b.equal c = true) : a.equal c = true :=
  equal_iff.mpr (heads _ _ (equal_iff.mp left) (equal_iff.mp right))

mutual

theorem equal_trans : (a b c : Ty) → a.equal b = true → b.equal c = true → a.equal c = true
  | via _ a, b, c => equal_trans a b c
  | pointer x _, _, _ => equal_trans_of_heads fun
    | _, _, .pointer n left, .pointer _ right => .pointer n (equal_trans x _ _ left right)
  | reference x _, _, _ => equal_trans_of_heads fun
    | _, _, .reference c left, .reference _ right => .reference c (equal_trans x _ _ left right)
  | smart x _, _, _ => equal_trans_of_heads fun
    | _, _, .smart u left, .smart _ right => .smart u (equal_trans x _ _ left right)
  | range x, _, _ => equal_trans_of_heads fun
    | _, _, .range left, .range right => .range (equal_trans x _ _ left right)
  | template x as, _, _ => equal_trans_of_heads fun
    | _, _, .template left lefts, .template right rights =>
      .template (equal_trans x _ _ left right) (equalList_trans as _ _ lefts rights)
  | func as x, _, _ => equal_trans_of_heads fun
    | _, _, .func left lefts, .func right rights =>
      .func (equal_trans x _ _ left right) (equalList_trans as _ _ lefts rights)
  | tuple as, _, _ => equal_trans_of_heads fun
    | _, _, .tuple lefts, .tuple rights => .tuple (equalList_trans as _ _ lefts rights)
  | prim _, _, _ => equal_trans_of_heads fun
    | _, _, .prim left, .prim right => .prim (left.trans right)
  | void, _, _ | null, _, _ | cls _ _, _, _ | enum _, _, _ | scope _, _, _ | unknown _, _, _
  | invalid, _, _ | absent, _, _ => equal_trans_of_heads fun _ _ left right => by
    cases left <;> cases right <;> constructor

theorem equalList_trans : (as bs cs : List Ty) → equalList as bs = true → equalList bs cs = true →
    equalList as cs = true
  | [], [], _, _, right => right
  | a :: as, b :: bs, c :: cs, left, right => by
    rw [equalList, Bool.and_eq_true] at left right ⊢
    exact ⟨equal_trans a b c left.1 right.1, equalList_trans as bs cs left.2 right.2⟩

end

theorem name_core : (t : Ty) → t.core.name = t.name
  | via _ t => name_core t
  | void | null | prim _ | cls _ _ | enum _ | scope _ | template _ _ | tuple _ | pointer _ _
  | reference _ _ | smart _ _ | func _ _ | range _ | unknown _ | invalid | absent => rfl

theorem name_equal : (a b : Ty) → a.equal b = true → a.name = b.name
  | via _ a, b, same => name_equal a b same
  | template x _, b, same => by
    have alike := equal_iff.mp same
    rw [← name_core b]
    generalize b.core = w at alike
    cases alike
    next base _ =>
    have inner := name_equal x _ base
    exact inner
  | void, b, same | null, b, same | prim _, b, same | cls _ _, b, same | enum _, b, same
  | scope _, b, same | tuple _, b, same | pointer _ _, b, same | reference _ _, b, same
  | smart _ _, b, same | func _ _, b, same | range _, b, same | unknown _, b, same
  | invalid, b, same | absent, b, same => by
    have alike := equal_iff.mp same
    rw [← name_core b]
    generalize b.core = w at alike
    cases alike <;> first | rfl | assumption

theorem core_of_equal_class {x : String} {n : Nat} (core : a.core = cls x n) (same : a.equal b = true) :
    ∃ m, b.core = cls x m := by
  have alike := equal_iff.mp same
  rw [core] at alike
  generalize b.core = w at alike
  cases alike
  exact ⟨_, rfl⟩

/-! ### Parts of types -/

mutual

/-- Every part of a type is good, the type itself included. The base of a template only lends its name,
so it is no part. -/
def Every (good : Ty → Prop) : Ty → Prop
  | template base args => good (template base args) ∧ EveryIn good args
  | tuple elems => good (tuple elems) ∧ EveryIn good elems
  | pointer elem n => good (pointer elem n) ∧ Every good elem
  | reference elem c => good (reference elem c) ∧ Every good elem
  | smart elem u => good (smart elem u) ∧ Every good elem
  | range elem => good (range elem) ∧ Every good elem
  | func params result => good (func params result) ∧ EveryIn good params ∧ Every good result
  | via b t => good (via b t) ∧ Every good t
  | void => good void
  | null => good null
  | prim p => good (prim p)
  | cls x n => good (cls x n)
  | enum x => good (enum x)
  | scope x => good (scope x)
  | unknown x => good (unknown x)
  | invalid => good invalid
  | absent => good absent

def EveryIn (good : Ty → Prop) : List Ty → Prop
  | [] => True
  | t :: ts => Every good t ∧ EveryIn good ts

end

variable {good : Ty → Prop}

theorem Every.self : {t : Ty} → t.Every good → good t
  | template _ _, every | tuple _, every | pointer _ _, every | reference _ _, every
  | smart _ _, every | range _, every | func _ _, every | via _ _, every => every.1
  | void, every | null, every | prim _, every | cls _ _, every | enum _, every | scope _, every
  | unknown _, every | invalid, every | absent, every => every

theorem Every.value (every : t.Every good) : t.value.Every good := by
  fun_induction Ty.value t with
  | case1 _ t ih => exact ih every.2
  | case2 t _ ih => exact ih every.2
  | case3 => exact every

theorem Every.core : {t : Ty} → t.Every good → t.core.Every good
  | via _ t, every => Every.core (t := t) every.2
  | void, every | null, every | prim _, every | cls _ _, every | enum _, every | scope _, every
  | template _ _, every | tuple _, every | pointer _ _, every | reference _ _, every
  | smart _ _, every | func _ _, every | range _, every | unknown _, every | invalid, every
  | absent, every => every

/-- How a type is put together at its head: a binding names a type that is named through no other, and
pointers to pointers are one. -/
def Joint : Ty → Prop
  | via _ t => ∀ b u, t ≠ via b u
  | pointer elem n => 0 < n ∧ ∀ u m, elem.core ≠ pointer u m
  | template base _ => base.Proper
  | invalid => False
  | _ => True

/-- A type as the constructors of types make it. -/
def Built (t : Ty) : Prop := t.Every Joint

/-- A type that nothing unknown is a part of. -/
def Known (t : Ty) : Prop := t.Every fun t => t.isUnknown = false

theorem isAbsent_of_isUnknown (known : t.isUnknown = false) : Hierarchy.isAbsent t = false := by
  cases t <;> first | rfl | cases known

theorem Known.present (known : t.Known) : Hierarchy.isAbsent t = false :=
  isAbsent_of_isUnknown (Every.self known)

theorem Built.once : {t : Ty} → t.Built → t.Once
  | via _ t, built => ⟨built.1, Built.once (t := t) built.2⟩
  | reference t _, built => Built.once (t := t) built.2
  | template _ _, _ | tuple _, _ | pointer _ _, _ | smart _ _, _ | range _, _ | func _ _, _ | void, _
  | null, _ | prim _, _ | cls _ _, _ | enum _, _ | scope _, _ | unknown _, _ | invalid, _
  | absent, _ => trivial

theorem pointerTo_cases (t : Ty) {n : Nat} (real : 0 < n) :
    (∃ x k, t.core = pointer x k ∧ t.pointerTo n = pointer x (k + n)) ∨
      (∀ x k, t.core ≠ pointer x k) ∧ t.pointerTo n = pointer t n := by
  unfold pointerTo
  rw [if_neg (Nat.ne_of_gt real)]
  split
  · next x k shape => exact .inl ⟨x, k, shape, rfl⟩
  · next other => exact .inr ⟨other, rfl⟩

theorem Built.pointerTo (built : t.Built) (n : Nat) : (t.pointerTo n).Built := by
  obtain rfl | real := Nat.eq_zero_or_pos n
  · rwa [Ty.pointerTo, if_pos rfl]
  · rcases pointerTo_cases t real with ⟨x, k, shape, made⟩ | ⟨other, made⟩
    · have part := Every.core built
      rw [shape] at part
      rw [made]
      exact ⟨⟨by omega, part.1.2⟩, part.2⟩
    · rw [made]
      exact ⟨⟨real, other⟩, built⟩

mutual

theorem Built.proper : {t : Ty} → t.Built → t.Proper
  | template _ _, built => ⟨built.1, EveryIn.proper built.2⟩
  | tuple _, built => EveryIn.proper built.2
  | pointer elem _, built | reference elem _, built | smart elem _, built | range elem, built
  | via _ elem, built => Built.proper (t := elem) built.2
  | func _ result, built => ⟨EveryIn.proper built.2.1, Built.proper (t := result) built.2.2⟩
  | void, _ | null, _ | prim _, _ | cls _ _, _ | enum _, _ | scope _, _ | unknown _, _
  | absent, _ => trivial

theorem EveryIn.proper : {ts : List Ty} → EveryIn Joint ts → ProperAll ts
  | [], _ => trivial
  | t :: _, built => ⟨Built.proper (t := t) built.1, EveryIn.proper built.2⟩

end

/-! ### What fits -/

/-- A type of which values fit only places of the same type. -/
def Single : Ty → Prop
  | void | cls _ _ | enum _ | scope _ | func _ _ | range _ => True
  | _ => False

/-- The rules by which a value of the second type fits a place of the first one. -/
inductive Fits (h : Hierarchy) : Ty → Ty → Prop
  | null {a : Ty} (likely : a.isPointerLike = true) : Fits h a null
  | prim {p q : Primitive}
    (wide : p.name = q.name ∨ 1 ≤ p.rank ∧ 1 ≤ q.rank ∧ q.rank ≤ p.rank) : Fits h (prim p) (prim q)
  | pointer {x y : Ty} {n : Nat}
    (elem : x.equal y = true ∨ x.isUnknown = true ∨ y.isUnknown = true ∨
      n = 1 ∧ h.isSubclass y x = true) : Fits h (pointer x n) (pointer y n)
  | smart {x y : Ty} {u : Bool} (elem : x.convertible h y = true ∨ h.isSubclass y x = true) :
    Fits h (smart x u) (smart y u)
  | tuple {as bs : List Ty} (elems : convertibleList h as bs = true) : Fits h (tuple as) (tuple bs)
  | template {x y : Ty} {as bs : List Ty} (name : x.name = y.name) (args : equalList as bs = true) :
    Fits h (template x as) (template y bs)
  | single {a b : Ty} (place : a.Single) (given : b.Single) (same : a.equal b = true) : Fits h a b

theorem convertible_of_equal (once : b.Once) (same : a.equal b = true) : a.convertible h b = true :=
  convertible_of once (by rw [equal_value a b same, Bool.or_true])

theorem convertibleList_of_equal : (as bs : List Ty) → EveryIn Joint bs → equalList as bs = true →
    convertibleList h as bs = true
  | [], [], _, _ => by rw [convertibleList]
  | a :: as, b :: bs, built, same => by
    rw [equalList, Bool.and_eq_true] at same
    rw [convertibleList, Bool.and_eq_true]
    exact ⟨convertible_of_equal (Built.once (t := b) built.1) same.1,
      convertibleList_of_equal as bs built.2 same.2⟩

theorem Fits.of_equal (built : b.Built) (direct : ∀ u c, a ≠ reference u c) (known : a.isUnknown = false)
    (alike : Alike a b) : Fits h a b := by
  cases alike with
  | null => exact .null rfl
  | prim name => exact .prim (.inl name)
  | pointer n elem => exact .pointer (.inl elem)
  | smart u elem => exact .smart (.inl (convertible_of_equal (Built.once built.2) elem))
  | tuple elems => exact .tuple (convertibleList_of_equal _ _ built.2 elems)
  | template base args => exact .template (name_equal _ _ base) args
  | reference c elem => exact absurd rfl (direct _ _)
  | unknown x => cases known
  | absent => cases known
  | _ => exact .single trivial trivial (equal_iff.mpr (by constructor <;> assumption))

theorem core_of_plain (regular : ∀ c u, t ≠ via c u) : t.core = t := by
  cases t <;> first | rfl | exact absurd rfl (regular _ _)

theorem Single.likely (single : t.Single) : t.isPointerLike = false := by
  cases t <;> first | rfl | cases single

theorem convertible_iff (built : b.Built) : a.convertible h b = true ↔
    a.value.isUnknown = true ∨ b.value.isUnknown = true ∨ Fits h a.value b.value := by
  rw [← convertible_value_left]
  have regular := fun c u => value_ne_via (b := c) (u := u) a
  have direct := fun u c => value_ne_reference (u := u) (c := c) a
  have regular' := core_of_plain fun c u => value_ne_via (b := c) (u := u) b
  have given := deref_core built.once
  have part := Every.value built
  generalize a.value = d at regular direct
  generalize b.value = v at given part regular'
  have alike : d.equal v = true ↔ Alike d v := by rw [equal_iff, core_of_plain regular, regular']
  unfold convertible
  split
  · exact absurd rfl (regular _ _)
  · exact absurd rfl (direct _ _)
  dsimp only
  rw [given]
  by_cases unknown : (d.isUnknown || v.isUnknown) = true
  · rw [if_pos unknown]
    exact iff_of_true rfl (or_assoc.mp (.inl (Bool.or_eq_true_iff.mp unknown)))
  rw [if_neg unknown]
  simp only [Bool.or_eq_true, not_or, Bool.not_eq_true] at unknown
  simp only [unknown, Bool.false_eq_true, false_or]
  by_cases same : d.equal v = true
  · rw [if_pos same]
    exact iff_of_true rfl (.of_equal part direct unknown.1 (alike.mp same))
  rw [if_neg same]
  constructor
  · intro fits
    split at fits
    · next p q =>
      simp only [Bool.and_eq_true, decide_eq_true_eq] at fits
      exact .prim (.inr ⟨fits.1.1, fits.1.2, fits.2⟩)
    · next x n y m =>
      simp only [Bool.and_eq_true, Bool.or_eq_true, beq_iff_eq, or_assoc] at fits
      obtain ⟨rfl, elem⟩ := fits
      exact .pointer (.inr elem)
    · next x u y w =>
      simp only [Bool.and_eq_true, Bool.or_eq_true, beq_iff_eq] at fits
      obtain ⟨rfl, elem⟩ := fits
      exact .smart elem
    · exact .tuple fits
    · next x as y bs =>
      simp only [Bool.and_eq_true, beq_iff_eq] at fits
      exact .template fits.1 fits.2
    · exact .null fits
    · cases fits
  · intro fits
    cases fits with
    | null likely =>
      cases d with
      | pointer | smart | prim => exact likely
      | null => exact absurd rfl same
      | via => exact absurd rfl (regular _ _)
      | _ => cases likely
    | prim wide =>
      obtain name | ⟨left, right, wide⟩ := wide
      · exact absurd (alike.mpr (.prim name)) same
      · simp [left, right, wide]
    | pointer elem =>
      obtain elem | elem := elem
      · exact absurd (alike.mpr (.pointer _ elem)) same
      · simpa [or_assoc] using elem
    | smart elem => simp [elem]
    | tuple elems => exact elems
    | template name args => simp [name, args]
    | single place given equal => exact absurd equal same

end Ty

/-! ### Classes that are known by their names -/

namespace Hierarchy

variable {h : Hierarchy} {classes : String → Nat → Prop} {a b c d t u : Ty}

/-- `d` inherits from `b`, over one class at least. -/
def Derives (h : Hierarchy) (d b : Ty) : Prop := ∃ t, TransGen h.Base d t ∧ t.equal b = true

theorem isSubclass_iff_derives (derived : isAbsent d = false) (base : isAbsent b = false) :
    h.isSubclass d b = true ↔ d.equal b = true ∨ h.Derives d b := by
  rw [isSubclass_iff derived base]
  constructor
  · rintro ⟨t, path, same⟩
    obtain rfl | path := reflTransGen_iff_eq_or_transGen.mp path
    · exact .inl same
    · exact .inr ⟨t, path, same⟩
  · rintro (same | ⟨t, path, same⟩)
    · exact ⟨d, .refl, same⟩
    · exact ⟨t, path.to_reflTransGen, same⟩

/-- A type is one of these classes if it is a class. -/
def Among (classes : String → Nat → Prop) (t : Ty) : Prop :=
  ∀ x n, t.core = .cls x n → classes x n

/-- These classes inherit only from each other, and those of one name have equal bases. -/
structure Coherent (h : Hierarchy) (classes : String → Nat → Prop) : Prop where
  closed : ∀ x n, classes x n → ∀ u ∈ h.bases.getD n [], ∃ y m, u.core = .cls y m ∧ classes y m
  agree : ∀ x n m, classes x n → classes x m →
    Ty.equalList (h.bases.getD n []) (h.bases.getD m []) = true

theorem Coherent.base (coherent : h.Coherent classes) (among : Among classes t) (base : h.Base t u) :
    ∃ y m, u.core = .cls y m ∧ classes y m := by
  obtain ⟨x, n, -, core, -⟩ := Base.cls t base
  exact coherent.closed x n (among x n core) u ((base_iff core).mp base)

theorem Among.of_class {y : String} {m : Nat} (core : u.core = .cls y m) (listed : classes y m) :
    Among classes u := by
  intro x n core'
  cases core.symm.trans core'
  exact listed

theorem Coherent.among (coherent : h.Coherent classes) (among : Among classes d)
    (path : ReflTransGen h.Base d t) : Among classes t := by
  induction path with
  | refl => exact among
  | tail _ base ih =>
    obtain ⟨y, m, core, listed⟩ := coherent.base ih base
    exact .of_class core listed

theorem mem_of_equalList : (as bs : List Ty) → Ty.equalList as bs = true → b ∈ bs →
    ∃ a ∈ as, a.equal b = true
  | [], [], _, member => nomatch member
  | a :: as, b' :: bs, same, member => by
    rw [Ty.equalList, Bool.and_eq_true] at same
    obtain rfl | member := List.mem_cons.mp member
    · exact ⟨a, List.mem_cons_self, same.1⟩
    · obtain ⟨a', member, equal⟩ := mem_of_equalList as bs same.2 member
      exact ⟨a', List.mem_cons_of_mem _ member, equal⟩

theorem Coherent.path_equal (coherent : h.Coherent classes) (among : Among classes d)
    (among' : Among classes c) (same : c.equal d = true) (path : ReflTransGen h.Base d t) :
    ∃ u, ReflTransGen h.Base c u ∧ u.equal t = true := by
  induction path using ReflTransGen.head_induction_on generalizing c with
  | refl => exact ⟨c, .refl, same⟩
  | @head d e base _ ih =>
    obtain ⟨x, n, -, core, -⟩ := Base.cls d base
    obtain ⟨m, core'⟩ := Ty.core_of_equal_class core ((Ty.equal_symm d c).trans same)
    have lists := coherent.agree x m n (among' x m core') (among x n core)
    obtain ⟨e', base', same'⟩ := mem_of_equalList _ _ lists ((base_iff core).mp base)
    have base' := (base_iff core').mpr base'
    obtain ⟨u, path, equal⟩ := ih (coherent.among among (.single base))
      (coherent.among among' (.single base')) same'
    exact ⟨u, .head base' path, equal⟩

theorem Coherent.isSubclass_trans (coherent : h.Coherent classes) (among : Among classes c)
    (among' : Among classes b) (known : isAbsent a = false) (known' : isAbsent b = false)
    (known'' : isAbsent c = false) (lower : h.isSubclass c b = true) (upper : h.isSubclass b a = true) :
    h.isSubclass c a = true := by
  obtain ⟨t, path, same⟩ := (isSubclass_iff known'' known').mp lower
  obtain ⟨u, path', same'⟩ := (isSubclass_iff known' known).mp upper
  obtain ⟨v, path'', equal⟩ := coherent.path_equal among' (coherent.among among path) same path'
  exact (isSubclass_iff known'' known).mpr ⟨v, path.trans path'', Ty.equal_trans _ _ _ equal same'⟩

end Hierarchy

namespace Ty

variable {h : Hierarchy} {classes : String → Nat → Prop} {a b c : Ty}

/-! ### The order of conversions -/

/-- What a checked type may have for a part: no reference, nothing unknown, primitives of the default
table, and these classes. -/
def Admitted (classes : String → Nat → Prop) : Ty → Prop
  | prim p => p ∈ Table.default.primitives
  | cls x n => classes x n
  | reference _ _ | unknown _ | absent => False
  | _ => True

/-- A checked type, but for references. -/
structure Regular (classes : String → Nat → Prop) (t : Ty) : Prop where
  built : t.Built
  parts : t.Every (Admitted classes)

/-- A checked type: references stand only around it. -/
structure Checked (classes : String → Nat → Prop) (t : Ty) : Prop where
  built : t.Built
  parts : t.value.Every (Admitted classes)

/-- Checked types in a list. -/
structure RegularIn (classes : String → Nat → Prop) (ts : List Ty) : Prop where
  built : EveryIn Joint ts
  parts : EveryIn (Admitted classes) ts

namespace Regular

theorem value (regular : a.Regular classes) : a.value.Regular classes :=
  ⟨Every.value regular.built, Every.value regular.parts⟩

theorem elem {u : Bool} (regular : (smart a u).Regular classes) : a.Regular classes :=
  ⟨regular.built.2, regular.parts.2⟩

theorem pointee {n : Nat} (regular : (pointer a n).Regular classes) : a.Regular classes :=
  ⟨regular.built.2, regular.parts.2⟩

theorem among : {a : Ty} → a.Regular classes → Hierarchy.Among classes a
  | via _ a, regular => fun x n core => among (a := a) ⟨regular.built.2, regular.parts.2⟩ x n core
  | cls _ _, regular => fun _ _ core => by
    cases core
    exact regular.parts
  | void, _ | null, _ | prim _, _ | enum _, _ | scope _, _ | template _ _, _ | tuple _, _
  | pointer _ _, _ | reference _ _, _ | smart _ _, _ | func _ _, _ | range _, _ | unknown _, _
  | invalid, _ | absent, _ => fun _ _ core => by cases core

theorem known : {a : Ty} → a.Regular classes → a.isUnknown = false
  | via _ a, regular => known (a := a) ⟨regular.built.2, regular.parts.2⟩
  | reference _ _, regular => regular.parts.1.elim
  | unknown _, regular | absent, regular => regular.parts.elim
  | void, _ | null, _ | prim _, _ | cls _ _, _ | enum _, _ | scope _, _ | template _ _, _ | tuple _, _
  | pointer _ _, _ | smart _ _, _ | func _ _, _ | range _, _ | invalid, _ => rfl

theorem present (regular : a.Regular classes) : Hierarchy.isAbsent a = false :=
  isAbsent_of_isUnknown regular.known

theorem convertible_iff (regular : a.Regular classes) (regular' : b.Regular classes) :
    a.convertible h b = true ↔ Fits h a.value b.value := by
  rw [Ty.convertible_iff regular'.built, regular.value.known, regular'.value.known]
  simp

theorem value_eq : {a : Ty} → a.Regular classes → a.value = a.core
  | via _ a, regular => value_eq (a := a) ⟨regular.built.2, regular.parts.2⟩
  | reference _ _, regular => regular.parts.1.elim
  | void, _ | null, _ | prim _, _ | cls _ _, _ | enum _, _ | scope _, _ | template _ _, _ | tuple _, _
  | pointer _ _, _ | smart _ _, _ | func _ _, _ | range _, _ | unknown _, _ | invalid, _
  | absent, _ => rfl

theorem isSubclass_of_equal (regular : a.Regular classes) (regular' : b.Regular classes)
    (same : a.equal b = true) : h.isSubclass b a = true :=
  (Hierarchy.isSubclass_iff_derives regular'.present regular.present).mpr
    (.inl ((equal_symm b a).trans same))

theorem isSubclass_trans (coherent : h.Coherent classes) (pa : a.Regular classes) (pb : b.Regular classes)
    (pc : c.Regular classes) (upper : h.isSubclass b a = true) (lower : h.isSubclass c b = true) :
    h.isSubclass c a = true :=
  coherent.isSubclass_trans pc.among pb.among pa.present pb.present pc.present lower upper

theorem equal_of_class {x : String} {n : Nat} (pa : a.Regular classes) (pb : b.Regular classes)
    (core : a.core = .cls x n ∨ b.core = .cls x n) (fits : a.convertible h b = true) :
    a.equal b = true := by
  rw [pa.convertible_iff pb, pa.value_eq, pb.value_eq] at fits
  rw [← equal_core_left, ← equal_core_right]
  generalize a.core = v at fits core
  generalize b.core = w at fits core
  cases fits with
  | single place given same => exact same
  | null likely => rcases core with rfl | core <;> cases ‹_›
  | _ => rcases core with core | core <;> cases core

end Regular

theorem text_rank : ∀ p ∈ Table.default.primitives, p.name = "text" → p.rank = 0 := by
  decide

theorem primitive_of_name : ∀ p ∈ Table.default.primitives, ∀ q ∈ Table.default.primitives,
    p.name = q.name → p = q := by
  decide

theorem fits_prim_trans {p q r : Primitive} (mp : p ∈ Table.default.primitives)
    (mq : q ∈ Table.default.primitives) (mr : r ∈ Table.default.primitives) (left : Fits h (prim p) (prim q))
    (right : Fits h (prim q) (prim r)) : Fits h (prim p) (prim r) := by
  cases left with
  | single place => cases place
  | prim wide =>
    cases right with
    | single place => cases place
    | prim wide' =>
      obtain name | ⟨one, two, wide⟩ := wide
      · rw [primitive_of_name p mp q mq name]
        exact .prim wide'
      obtain name | ⟨-, three, wide'⟩ := wide'
      · rw [← primitive_of_name q mq r mr name]
        exact .prim (.inr ⟨one, two, wide⟩)
      · exact .prim (.inr ⟨one, three, Int.le_trans wide' wide⟩)

theorem smart_step (coherent : h.Coherent classes) {x y z : Ty} (px : x.Regular classes)
    (py : y.Regular classes) (pz : z.Regular classes)
    (trans : x.convertible h y = true → y.convertible h z = true → x.convertible h z = true)
    (left : x.convertible h y = true ∨ h.isSubclass y x = true)
    (right : y.convertible h z = true ∨ h.isSubclass z y = true) :
    x.convertible h z = true ∨ h.isSubclass z x = true := by
  rcases left with left | upper <;> rcases right with right | lower
  · exact .inl (trans left right)
  · obtain same | ⟨t, path, same⟩ := (Hierarchy.isSubclass_iff_derives pz.present py.present).mp lower
    · exact .inl (trans left (convertible_of_equal pz.built.once ((equal_symm y z).trans same)))
    · -- a class that something derives from
      obtain ⟨e, way, last⟩ := TransGen.tail'_iff.mp path
      obtain ⟨s, n, core, -⟩ := coherent.base (coherent.among pz.among way) last
      obtain ⟨m, core⟩ := core_of_equal_class core same
      exact .inr (px.isSubclass_trans coherent py pz
        (px.isSubclass_of_equal py (px.equal_of_class py (.inr core) left)) lower)
  · obtain same | ⟨t, path, -⟩ := (Hierarchy.isSubclass_iff_derives py.present px.present).mp upper
    · exact .inl (trans (convertible_of_equal py.built.once ((equal_symm x y).trans same)) right)
    · obtain ⟨e, first, -⟩ := TransGen.head'_iff.mp path
      obtain ⟨s, n, -, core, -⟩ := Hierarchy.Base.cls y first
      exact .inr (px.isSubclass_trans coherent py pz upper
        (py.isSubclass_of_equal pz (py.equal_of_class pz (.inl core) right)))
  · exact .inr (px.isSubclass_trans coherent py pz upper lower)

theorem fits_trans (coherent : h.Coherent classes) (pa : a.Regular classes) (pb : b.Regular classes)
    (pc : c.Regular classes)
    (elem : ∀ x u, a = smart x u → ∀ y z, y.Regular classes → z.Regular classes →
      x.convertible h y = true → y.convertible h z = true → x.convertible h z = true)
    (elems : ∀ as, a = tuple as → ∀ bs cs, RegularIn classes bs → RegularIn classes cs →
      convertibleList h as bs = true → convertibleList h bs cs = true → convertibleList h as cs = true)
    (left : Fits h a b) (right : Fits h b c) : Fits h a c := by
  cases left with
  | null likely =>
    cases right with
    | null => exact .null likely
    | single place => cases place
  | @prim p q wide =>
    cases right with
    | null likely =>
      refine .null ?_
      obtain name | ⟨-, numeric, -⟩ := wide
      · simpa [isPointerLike, name] using likely
      · have bare := text_rank q pb.parts (by simpa [isPointerLike] using likely)
        omega
    | prim wide' => exact fits_prim_trans pa.parts pb.parts pc.parts (.prim wide) (.prim wide')
    | single place => cases place
  | @pointer x y n one =>
    cases right with
    | null => exact .null rfl
    | @pointer _ z _ two =>
      have px := pa.pointee
      have py := pb.pointee
      have pz := pc.pointee
      simp only [px.known, py.known, pz.known, Bool.false_eq_true, false_or] at one two
      refine .pointer ?_
      obtain one | ⟨rfl, one⟩ := one
      · obtain two | ⟨rfl, two⟩ := two
        · exact .inl (equal_trans x y z one two)
        · exact .inr (.inr (.inr ⟨rfl,
            px.isSubclass_trans coherent py pz (px.isSubclass_of_equal py one) two⟩))
      · have lower : h.isSubclass z y = true := two.elim (py.isSubclass_of_equal pz) And.right
        exact .inr (.inr (.inr ⟨rfl, px.isSubclass_trans coherent py pz one lower⟩))
    | single place => cases place
  | @smart x y u one =>
    cases right with
    | null => exact .null rfl
    | @smart _ z _ two =>
      exact .smart (smart_step coherent pa.elem pb.elem pc.elem
        (elem x u rfl y z pb.elem pc.elem) one two)
    | single place => cases place
  | tuple one =>
    cases right with
    | null likely => cases likely
    | tuple two =>
      exact .tuple (elems _ rfl _ _ ⟨pb.built.2, pb.parts.2⟩ ⟨pc.built.2, pc.parts.2⟩ one two)
    | single place => cases place
  | template name args =>
    cases right with
    | null likely => cases likely
    | template name' args' => exact .template (name.trans name') (equalList_trans _ _ _ args args')
    | single place => cases place
  | single place given same =>
    cases right with
    | null likely => cases given.likely.symm.trans likely
    | single place' given' same' => exact .single place given' (equal_trans _ _ _ same same')
    | _ => cases given

mutual

theorem convertible_trans_regular (coherent : h.Coherent classes) : (a b c : Ty) → a.Regular classes →
    b.Regular classes → c.Regular classes → a.convertible h b = true → b.convertible h c = true →
    a.convertible h c = true
  | via _ a, b, c, pa, pb, pc, left, right => by
    rw [convertible] at left ⊢
    exact convertible_trans_regular coherent a b c ⟨pa.built.2, pa.parts.2⟩ pb pc left right
  | smart x u, b, c, pa, pb, pc, left, right => by
    rw [pa.convertible_iff pc]
    rw [pa.convertible_iff pb] at left
    rw [pb.convertible_iff pc] at right
    refine fits_trans coherent pa pb.value pc.value ?_ (fun _ other => by cases other) left right
    rintro _ _ ⟨⟩ y z py pz
    exact convertible_trans_regular coherent x y z pa.elem py pz
  | tuple as, b, c, pa, pb, pc, left, right => by
    rw [pa.convertible_iff pc]
    rw [pa.convertible_iff pb] at left
    rw [pb.convertible_iff pc] at right
    refine fits_trans coherent pa pb.value pc.value (fun _ _ other => by cases other) ?_ left right
    rintro _ ⟨⟩ bs cs pbs pcs
    exact convertibleList_trans coherent as bs cs ⟨pa.built.2, pa.parts.2⟩ pbs pcs
  | reference _ _, _, _, pa, _, _, _, _ => pa.parts.1.elim
  | void, b, c, pa, pb, pc, left, right | null, b, c, pa, pb, pc, left, right
  | prim _, b, c, pa, pb, pc, left, right | cls _ _, b, c, pa, pb, pc, left, right
  | enum _, b, c, pa, pb, pc, left, right | scope _, b, c, pa, pb, pc, left, right
  | template _ _, b, c, pa, pb, pc, left, right | pointer _ _, b, c, pa, pb, pc, left, right
  | func _ _, b, c, pa, pb, pc, left, right | range _, b, c, pa, pb, pc, left, right
  | unknown _, b, c, pa, pb, pc, left, right | invalid, b, c, pa, pb, pc, left, right
  | absent, b, c, pa, pb, pc, left, right => by
    rw [pa.convertible_iff pc]
    rw [pa.convertible_iff pb] at left
    rw [pb.convertible_iff pc] at right
    exact fits_trans coherent pa pb.value pc.value (fun _ _ other => by cases other)
      (fun _ other => by cases other) left right

theorem convertibleList_trans (coherent : h.Coherent classes) : (as bs cs : List Ty) →
    RegularIn classes as → RegularIn classes bs → RegularIn classes cs → convertibleList h as bs = true →
    convertibleList h bs cs = true → convertibleList h as cs = true
  | [], [], _, _, _, _, _, right => right
  | a :: as, b :: bs, c :: cs, pa, pb, pc, left, right => by
    rw [convertibleList, Bool.and_eq_true] at left right ⊢
    exact ⟨convertible_trans_regular coherent a b c ⟨pa.built.1, pa.parts.1⟩ ⟨pb.built.1, pb.parts.1⟩
        ⟨pc.built.1, pc.parts.1⟩ left.1 right.1,
      convertibleList_trans coherent as bs cs ⟨pa.built.2, pa.parts.2⟩ ⟨pb.built.2, pb.parts.2⟩
        ⟨pc.built.2, pc.parts.2⟩ left.2 right.2⟩

end

theorem value_value (t : Ty) : t.value.value = t.value := by
  have regular := fun c u => value_ne_via (b := c) (u := u) t
  have direct := fun u c => value_ne_reference (u := u) (c := c) t
  generalize t.value = v at regular direct
  cases v with
  | via b u => exact absurd rfl (regular b u)
  | reference u c => exact absurd rfl (direct u c)
  | _ => rfl

theorem convertible_values (built : b.Built) :
    a.value.convertible h b.value = a.convertible h b := by
  rw [Bool.eq_iff_iff, convertible_iff (Every.value built), convertible_iff built, value_value, value_value]

theorem Checked.regular (checked : a.Checked classes) : a.value.Regular classes :=
  ⟨Every.value checked.built, checked.parts⟩

/-- Conversions between checked types are a preorder: every value fits a place of its own type, and what
fits a place over a place in between fits it at once. -/
theorem convertible_preorder (coherent : h.Coherent classes) :
    (∀ a : Ty, a.Checked classes → a.convertible h a = true) ∧
    ∀ a b c : Ty, a.Checked classes → b.Checked classes → c.Checked classes →
      a.convertible h b = true → b.convertible h c = true → a.convertible h c = true := by
  constructor
  · intro a checked
    exact convertible_of_equal checked.built.once (equal_refl checked.built.proper)
  · intro a b c ca cb cc left right
    rw [← convertible_values cb.built] at left
    rw [← convertible_values cc.built] at right ⊢
    exact convertible_trans_regular coherent _ _ _ ca.regular cb.regular cc.regular left right

/-- Two classes of one name, and pointers to them in tuples. -/
theorem convertible_preorder_of_namesakes :
    let h : Hierarchy := ⟨[[], [.cls "B" 0], [.via "X" (.cls "B" 0)]]⟩
    let classes : String → Nat → Prop := fun x n => (x, n) ∈ [("B", 0), ("D", 1), ("D", 2)]
    let a := reference (tuple [smart (.cls "B" 0) false, .prim ⟨"double", "double", 8, false, ""⟩]) true
    let b := tuple [smart (.cls "D" 1) false, .prim ⟨"int", "int", 4, true, ""⟩]
    let c := tuple [smart (.cls "D" 2) false, .prim ⟨"bool", "bool", 1, false, ""⟩]
    h.Coherent classes ∧ a.Checked classes ∧ b.Checked classes ∧ c.Checked classes ∧
      a.convertible h b = true ∧ b.convertible h c = true ∧ a.convertible h c = true := by
  intro h classes a b c
  have coherent : h.Coherent classes := by
    constructor
    · intro x n listed u member
      simp only [classes, List.mem_cons, Prod.mk.injEq, List.not_mem_nil, or_false] at listed
      rcases listed with ⟨rfl, rfl⟩ | ⟨rfl, rfl⟩ | ⟨rfl, rfl⟩ <;> simp_all [h, classes, core]
    · intro x n m listed listed'
      simp only [classes, List.mem_cons, Prod.mk.injEq, List.not_mem_nil, or_false] at listed listed'
      rcases listed with ⟨rfl, rfl⟩ | ⟨rfl, rfl⟩ | ⟨rfl, rfl⟩ <;>
        rcases listed' with ⟨name, rfl⟩ | ⟨name, rfl⟩ | ⟨name, rfl⟩ <;> first | decide | simp at name
  have ca : a.Checked classes := by
    constructor <;> simp [a, classes, Built, Every, EveryIn, Joint, Admitted, value, Table.default,
      Table.defaultPrimitives]
  have cb : b.Checked classes := by
    constructor <;> simp [b, classes, Built, Every, EveryIn, Joint, Admitted, value, Table.default,
      Table.defaultPrimitives]
  have cc : c.Checked classes := by
    constructor <;> simp [c, classes, Built, Every, EveryIn, Joint, Admitted, value, Table.default,
      Table.defaultPrimitives]
  have left : a.convertible h b = true := by decide +kernel
  have right : b.convertible h c = true := by decide +kernel
  exact ⟨coherent, ca, cb, cc, left, right,
    (convertible_preorder coherent).2 a b c ca cb cc left right⟩

end Ty

end TastyLang
