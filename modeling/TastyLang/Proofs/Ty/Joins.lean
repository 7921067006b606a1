import Mathlib.Data.List.Infix
import TastyLang.Proofs.Evaluation
import TastyLang.Proofs.Ty.Conversion

/-!
# Types of several values

`Ty.common` takes the types of a list one after the other, and what it has taken so far is always the type
of one of them. So it depends on the order whether there is a common type: each type has to cover what
stands before it, or be covered by it (`Ty.common_isSome_iff`). Where a class extends itself, a search
for a base may never end, so this is said of hierarchies without such classes.
-/

namespace TastyLang

open Relation Resolution

namespace Ty

variable {h : Hierarchy} {classes : String → Nat → Prop} {a b c t u : Ty} {ts us : List Ty}

/-! ### Types that cover others -/

/-- A value that is put together from others, so that a conversion would have to convert its parts. -/
def isComposite : Ty → Bool
  | smart _ _ | tuple _ | template _ _ => true
  | via _ t => isComposite t
  | _ => false

/-- What makes the first type the one that both have in common: the values are of equal types, those of
the second type fit and do not have to be taken apart, or both are pointers of one level and the element
of the second inherits from that of the first. -/
def Covers (h : Hierarchy) (a b : Ty) : Prop :=
  a.value.equal b.value = true ∨ b.value.isComposite = false ∧ a.convertible h b = true ∨
    ∃ x y n, a.value = pointer x n ∧ b.value = pointer y n ∧ h.isSubclass y x = true

/-- The reasons for which a type covers another one. -/
inductive Above (h : Hierarchy) : Ty → Ty → Prop
  | same {a b : Ty} (same : a.equal b = true) : Above h a b
  | number {p q : Primitive} (ranks : 1 ≤ p.rank ∧ 1 ≤ q.rank) (wide : q.rank ≤ p.rank) :
    Above h (prim p) (prim q)
  | null {a : Ty} (likely : a.isPointerLike = true) : Above h a null
  | pointer {x y : Ty} {n : Nat} (below : h.isSubclass y x = true) : Above h (pointer x n) (pointer y n)

theorem Known.value (known : t.Known) : t.value.isUnknown = false := (Every.value known).self

theorem covers_iff (built : b.Built) (known : a.Known) (known' : b.Known) :
    Covers h a b ↔ Above h a.value b.value := by
  have parts : a.value.Known := Every.value known
  have parts' : b.value.Known := Every.value known'
  unfold Covers
  rw [convertible_iff built, parts.self, parts'.self]
  simp only [Bool.false_eq_true, false_or]
  generalize a.value = v at parts
  generalize b.value = w at parts'
  constructor
  · rintro (same | ⟨whole, fits⟩ | ⟨x, y, n, rfl, rfl, below⟩)
    · exact .same same
    · cases fits with
      | null likely => exact .null likely
      | prim wide =>
        obtain name | ⟨one, two, wide⟩ := wide
        · exact .same (equal_iff.mpr (.prim name))
        · exact .number ⟨one, two⟩ wide
      | pointer elem =>
        rcases elem with same | strange | strange | ⟨-, below⟩
        · exact .same (equal_iff.mpr (.pointer _ same))
        · exact absurd strange (Bool.eq_false_iff.mp (Every.self parts.2))
        · exact absurd strange (Bool.eq_false_iff.mp (Every.self parts'.2))
        · exact .pointer below
      | single _ _ same => exact .same same
      | _ => cases whole
    · exact .pointer below
  · intro above
    cases above with
    | same same => exact .inl same
    | number ranks wide => exact .inr (.inl ⟨rfl, .prim (.inr ⟨ranks.1, ranks.2, wide⟩)⟩)
    | null likely => exact .inr (.inl ⟨rfl, .null likely⟩)
    | pointer below => exact .inr (.inr ⟨_, _, _, rfl, rfl, below⟩)

/-! ### Two types -/

/-- A type that a value may have when types are joined: no binding stands for a binding, and it is known. -/
structure Settled (t : Ty) : Prop where
  once : t.Once
  known : t.value.isUnknown = false

theorem Settled.of_built (built : t.Built) (known : t.Known) : t.Settled := ⟨built.once, known.value⟩

theorem Once.deref (once : t.Once) : t.deref.Once := by
  fun_induction Ty.deref t with
  | case1 t c ih => exact ih once
  | case2 b u c ih => exact ih once.2
  | case3 => exact once
  | case4 => exact once

theorem Settled.deref (settled : t.Settled) : t.deref.Settled :=
  ⟨settled.once.deref, by rw [value_deref, settled.known]⟩

theorem Settled.isUnknown (settled : t.Settled) : t.isUnknown = false :=
  Bool.eq_false_iff.mpr fun strange =>
    Bool.eq_false_iff.mp settled.known (isUnknown_value strange)

theorem Settled.isAbsent (settled : t.Settled) : Hierarchy.isAbsent t = false := by
  have known := settled.isUnknown
  cases t <;> first | rfl | cases known

theorem unify_above (left : a.Settled) (right : b.Settled) (unified : unify h a b = some u) :
    u.Settled ∧
      (u.value = a.value ∧ Above h a.value b.value ∨ u.value = b.value ∧ Above h b.value a.value) := by
  constructor
  · rcases unify_mem unified with rfl | rfl | rfl | rfl
    · exact left
    · exact right
    · exact left.deref
    · exact right.deref
  · obtain ⟨one, reason⟩ := unify_cases left.once right.once unified
    rcases reason with same | ⟨p, q, number, number', rank, rank', wider⟩ |
      ⟨nothing, likely, result⟩ | ⟨nothing, likely, result⟩ | ⟨x, y, n, place, place', related⟩
    · rw [left.known, right.known, Bool.false_or, Bool.false_or] at same
      exact one.imp (⟨·, .same same⟩) (⟨·, .same ((equal_symm _ _).trans same)⟩)
    · rw [number, number']
      rw [number, number'] at wider
      obtain ⟨wide, result⟩ | ⟨wide, result⟩ := wider
      · exact .inr ⟨result, .number ⟨rank', rank⟩ (Int.le_of_lt wide)⟩
      · exact .inl ⟨result, .number ⟨rank, rank'⟩ wide⟩
    · exact .inr ⟨result, nothing ▸ .null likely⟩
    · exact .inl ⟨result, nothing ▸ .null likely⟩
    · rw [place, place']
      rw [place, place'] at related
      exact related.imp (fun r => ⟨r.1, .pointer r.2⟩) (fun r => ⟨r.1, .pointer r.2⟩)

theorem unify_of_above (left : a.Settled) (right : b.Settled)
    (above : Above h a.value b.value ∨ Above h b.value a.value) : (unify h a b).isSome = true := by
  have whole : a.deref.equal b.deref = a.value.equal b.value := by
    rw [← equal_core_left, ← equal_core_right, deref_core left.once, deref_core right.once]
  have turn := equal_symm a.value b.value
  unfold unify
  simp only [left.isAbsent, right.isAbsent, left.isUnknown, right.isUnknown, Bool.false_eq_true,
    if_false, deref_core left.once, deref_core right.once, whole]
  split
  · rfl
  split
  · rfl
  next differ =>
    generalize a.value = v at above differ turn
    generalize b.value = w at above differ turn
    rcases above with above | above
    · cases above with
      | same same => exact absurd same differ
      | number ranks wide => simp [ranks]
      | null likely => split <;> simp_all
      | pointer below => simp [below]
    · cases above with
      | same same => exact absurd (turn.trans same) differ
      | number ranks wide => simp [ranks]
      | null likely => simp [likely]
      | @pointer x y n below =>
        simp only [below, ne_eq, not_true, if_false, if_true]
        split <;> rfl

theorem unify_isSome_iff (left : a.Settled) (right : b.Settled) :
    (unify h a b).isSome = true ↔ Above h a.value b.value ∨ Above h b.value a.value := by
  constructor
  · intro unified
    obtain ⟨u, unified⟩ := Option.isSome_iff_exists.mp unified
    exact (unify_above left right unified).2.imp And.right And.right
  · exact unify_of_above left right

/-! ### Types that are known by their names -/

/-- Types that are known, and known by their names: classes of one name have equal bases and primitives of
one name are of one rank, which for `text` is none. -/
structure ByName (h : Hierarchy) (classes : String → Nat → Prop) (ts : List Ty) : Prop where
  built : ∀ t ∈ ts, t.Built
  known : ∀ t ∈ ts, t.Known
  coherent : h.Coherent classes
  among : ∀ t ∈ ts, t.Every (Hierarchy.Among classes)
  rank : ∀ a ∈ ts, ∀ b ∈ ts, ∀ p q, a.value = prim p → b.value = prim q → p.name = q.name → p.rank = q.rank
  text : ∀ t ∈ ts, ∀ p, t.value = prim p → p.name = "text" → p.rank < 1

theorem ByName.mono (named : ByName h classes ts) (within : us ⊆ ts) : ByName h classes us :=
  ⟨fun t member => named.built t (within member), fun t member => named.known t (within member),
    named.coherent, fun t member => named.among t (within member),
    fun a left b right => named.rank a (within left) b (within right),
    fun t member => named.text t (within member)⟩

theorem ByName.settled (named : ByName h classes ts) : ∀ t ∈ ts, t.Settled :=
  fun t member => .of_built (named.built t member) (named.known t member)

theorem value_plain (t : Ty) : t.value.core = t.value :=
  core_of_plain fun c u => value_ne_via (b := c) (u := u) t

theorem likely_of_alike (alike : Alike a b) (likely : b.isPointerLike = true) : a.isPointerLike = true := by
  cases alike with
  | prim name => simpa [isPointerLike, name] using likely
  | pointer | smart | null => rfl
  | _ => cases likely

theorem ByName.element {x : Ty} {n : Nat} (named : ByName h classes ts) (member : t ∈ ts)
    (place : t.value = pointer x n) :
    Hierarchy.Among classes x ∧ Hierarchy.isAbsent x = false := by
  have among := Every.value (named.among t member)
  have parts := Every.value (named.known t member)
  rw [place] at among parts
  exact ⟨Every.self among.2, Known.present parts.2⟩

theorem ByName.isSubclass_trans {x y z : Ty} {n m k : Nat} (named : ByName h classes ts)
    (ma : a ∈ ts) (mb : b ∈ ts) (mc : c ∈ ts) (pa : a.value = pointer x n)
    (pb : b.value = pointer y m) (pc : c.value = pointer z k) (upper : h.isSubclass y x = true)
    (lower : h.isSubclass z y = true) : h.isSubclass z x = true := by
  obtain ⟨-, present⟩ := named.element ma pa
  obtain ⟨among, present'⟩ := named.element mb pb
  obtain ⟨among', present''⟩ := named.element mc pc
  exact named.coherent.isSubclass_trans among' among present present' present'' lower upper

theorem ByName.isSubclass_of_equal {x y : Ty} {n m : Nat} (named : ByName h classes ts)
    (ma : a ∈ ts) (mb : b ∈ ts) (pa : a.value = pointer x n)
    (pb : b.value = pointer y m) (same : x.equal y = true) : h.isSubclass y x = true :=
  (Hierarchy.isSubclass_iff_derives (named.element mb pb).2 (named.element ma pa).2).mpr
    (.inl ((equal_symm y x).trans same))

theorem above_trans (named : ByName h classes ts) (ma : a ∈ ts) (mb : b ∈ ts) (mc : c ∈ ts)
    (left : Above h a.value b.value) (right : Above h b.value c.value) : Above h a.value c.value := by
  have ranks := named.rank a ma b mb
  have ranks' := named.rank b mb c mc
  have texts := named.text b mb
  have below := fun x y n m => named.isSubclass_of_equal (x := x) (y := y) (n := n) (m := m) ma mb
  have below' := fun x y n m => named.isSubclass_of_equal (x := x) (y := y) (n := n) (m := m) mb mc
  have trans := fun x y z n m k =>
    named.isSubclass_trans (x := x) (y := y) (z := z) (n := n) (m := m) (k := k) ma mb mc
  have plain := value_plain a
  have plain' := value_plain b
  have plain'' := value_plain c
  generalize a.value = u at *
  generalize b.value = v at *
  generalize c.value = w at *
  cases left with
  | same same =>
    have alike := equal_iff.mp same
    rw [plain, plain'] at alike
    cases right with
    | same same' => exact .same (equal_trans _ _ _ same same')
    | number numbers wide =>
      cases alike with
      | prim name =>
        rw [← ranks _ _ rfl rfl name] at numbers wide
        exact .number numbers wide
    | null likely => exact .null (likely_of_alike alike likely)
    | pointer lower =>
      cases alike with
      | pointer n elem => exact .pointer (trans _ _ _ _ _ _ rfl rfl rfl (below _ _ _ _ rfl rfl elem) lower)
  | number numbers wide =>
    cases right with
    | same same =>
      have alike := equal_iff.mp same
      rw [plain', plain''] at alike
      cases alike with
      | prim name =>
        rw [ranks' _ _ rfl rfl name] at numbers wide
        exact .number numbers wide
    | number numbers' wide' => exact .number ⟨numbers.1, numbers'.2⟩ (Int.le_trans wide' wide)
    | null likely =>
      -- a number is no text
      have bare := texts _ rfl (by simpa [isPointerLike] using likely)
      omega
  | null likely =>
    cases right with
    | same same =>
      have alike := equal_iff.mp same
      rw [plain', plain''] at alike
      cases alike
      exact .null likely
    | null => exact .null likely
  | pointer upper =>
    cases right with
    | same same =>
      have alike := equal_iff.mp same
      rw [plain', plain''] at alike
      cases alike with
      | pointer n elem => exact .pointer (trans _ _ _ _ _ _ rfl rfl rfl upper (below' _ _ _ _ rfl rfl elem))
    | null => exact .null rfl
    | pointer lower => exact .pointer (trans _ _ _ _ _ _ rfl rfl rfl upper lower)

/-! ### Lists of types -/

theorem common_single (h : Hierarchy) (t : Ty) : common h [t] = some t := by
  have first : unify h absent t = some t := by
    unfold unify
    exact if_pos rfl
  simp [common, first]

theorem common_append_single (h : Hierarchy) (us : List Ty) (t : Ty) :
    common h (us ++ [t]) = (common h us).bind fun u => unify h u t := by
  simp [common, List.foldlM_append]

theorem common_one_of (settled : ∀ t ∈ ts, t.Settled) (some' : ts ≠ []) (shared : common h ts = some u) :
    u.Settled ∧ ∃ t ∈ ts, u.value = t.value := by
  induction ts using List.reverseRecOn generalizing u with
  | nil => exact absurd rfl some'
  | append_singleton us t ih =>
    have last : t ∈ us ++ [t] := List.mem_append_right _ List.mem_cons_self
    by_cases first : us = []
    · subst first
      cases (common_single h t).symm.trans shared
      exact ⟨settled _ last, _, last, rfl⟩
    · rw [common_append_single] at shared
      obtain ⟨v, before, unified⟩ := Option.bind_eq_some_iff.mp shared
      obtain ⟨good, w, member, same⟩ :=
        ih (fun x inside => settled x (List.mem_append_left _ inside)) first before
      obtain ⟨good', ⟨one, -⟩ | ⟨one, -⟩⟩ := unify_above good (settled t last) unified
      · exact ⟨good', w, List.mem_append_left _ member, one.trans same⟩
      · exact ⟨good', t, last, one⟩

theorem common_of_pairwise (settled : ∀ t ∈ ts, t.Settled)
    (pairs : ts.Pairwise fun a b => Above h a.value b.value ∨ Above h b.value a.value) :
    (common h ts).isSome = true := by
  induction ts using List.reverseRecOn with
  | nil => rfl
  | append_singleton us t ih =>
    have last : t ∈ us ++ [t] := List.mem_append_right _ List.mem_cons_self
    obtain ⟨pairs, -, outer⟩ := List.pairwise_append.mp pairs
    by_cases first : us = []
    · subst first
      exact congrArg Option.isSome (common_single h t)
    · have inner := fun x inside => settled x (List.mem_append_left [t] inside)
      obtain ⟨v, before⟩ := Option.isSome_iff_exists.mp (ih inner pairs)
      obtain ⟨good, w, member, same⟩ := common_one_of inner first before
      rw [common_append_single, before]
      refine unify_of_above good (settled t last) ?_
      rw [same]
      exact outer w member t List.mem_cons_self

theorem common_perms_iff (settled : ∀ t ∈ ts, t.Settled) :
    (∀ us, us.Perm ts → (common h us).isSome = true) ↔
      ts.Pairwise fun a b => Above h a.value b.value ∨ Above h b.value a.value := by
  constructor
  · intro every
    refine List.pairwise_iff_forall_sublist.mpr fun {a b} inside => ?_
    obtain ⟨rest, order⟩ := inside.exists_perm_append
    have shared := every _ order.symm
    have pair : (common h [a, b]).isSome = true := by
      obtain ⟨u, shared⟩ := Option.isSome_iff_exists.mp shared
      rw [common, List.foldlM_append] at shared
      obtain ⟨v, before, -⟩ := Option.bind_eq_some_iff.mp shared
      exact Option.isSome_iff_exists.mpr ⟨v, before⟩
    rw [common_pair] at pair
    exact (unify_isSome_iff (settled a (inside.subset List.mem_cons_self))
      (settled b (inside.subset (List.mem_cons_of_mem _ List.mem_cons_self)))).mp pair
  · intro pairs us order
    refine common_of_pairwise (fun t member => settled t (order.subset member)) ?_
    exact (order.pairwise_iff fun related => related.symm).mpr pairs

theorem ByName.above_refl (named : ByName h classes ts) (member : t ∈ ts) : Above h t.value t.value :=
  .same (equal_refl (named.built t member).proper.value)

theorem common_above (named : ByName h classes ts) (some' : ts ≠ []) (shared : common h ts = some u) :
    ∃ t ∈ ts, u.value = t.value ∧ ∀ x ∈ ts, Above h t.value x.value := by
  induction ts using List.reverseRecOn generalizing u with
  | nil => exact absurd rfl some'
  | append_singleton us t ih =>
    have last : t ∈ us ++ [t] := List.mem_append_right _ List.mem_cons_self
    have inner : us ⊆ us ++ [t] := List.subset_append_left us [t]
    by_cases first : us = []
    · subst first
      cases (common_single h t).symm.trans shared
      refine ⟨_, last, rfl, fun x member => ?_⟩
      cases List.mem_singleton.mp member
      exact named.above_refl last
    · rw [common_append_single] at shared
      obtain ⟨v, before, unified⟩ := Option.bind_eq_some_iff.mp shared
      have named' := named.mono inner
      obtain ⟨w, member, same, top⟩ := ih named' first before
      obtain ⟨good, -⟩ := common_one_of named'.settled first before
      obtain ⟨-, ⟨one, above⟩ | ⟨one, above⟩⟩ := unify_above good (named.settled t last) unified
      · refine ⟨w, inner member, one.trans same, fun x inside => ?_⟩
        rcases List.mem_append.mp inside with inside | inside
        · exact top x inside
        · cases List.mem_singleton.mp inside
          rwa [← same]
      · refine ⟨t, last, one, fun x inside => ?_⟩
        rcases List.mem_append.mp inside with inside | inside
        · rw [same] at above
          exact above_trans named last (inner member) (inner inside) above (top x inside)
        · cases List.mem_singleton.mp inside
          exact named.above_refl last

theorem common_append_iff (named : ByName h classes (us ++ [t])) (some' : us ≠ [])
    (shared : common h us = some u) : (common h (us ++ [t])).isSome = true ↔
      ∃ v ∈ us ++ [t], ∀ x ∈ us ++ [t], Above h v.value x.value := by
  have last : t ∈ us ++ [t] := List.mem_append_right _ List.mem_cons_self
  have inner : us ⊆ us ++ [t] := List.subset_append_left us [t]
  constructor
  · intro whole
    obtain ⟨v, whole⟩ := Option.isSome_iff_exists.mp whole
    obtain ⟨w, member, -, top⟩ := common_above named (by simp) whole
    exact ⟨w, member, top⟩
  · rintro ⟨v, inside, top⟩
    obtain ⟨w, member, same, above⟩ := common_above (named.mono inner) some' shared
    obtain ⟨good, -⟩ := common_one_of (named.mono inner).settled some' shared
    rw [common_append_single, shared]
    refine unify_of_above good (named.settled t last) ?_
    rw [same]
    rcases List.mem_append.mp inside with inside | inside
    · exact .inl (above_trans named (inner member) (inner inside) last (above v inside) (top t last))
    · cases List.mem_singleton.mp inside
      exact .inr (top w (inner member))

theorem common_prefixes_iff (named : ByName h classes ts) : (common h ts).isSome = true ↔
    ∀ us, us ≠ [] → us <+: ts → ∃ u ∈ us, ∀ t ∈ us, Above h u.value t.value := by
  induction ts using List.reverseRecOn with
  | nil => exact iff_of_true rfl fun us some' before => absurd (List.prefix_nil.mp before) some'
  | append_singleton us t ih =>
    have earlier := ih (named.mono (List.subset_append_left us [t]))
    constructor
    · intro shared vs some' before
      rcases List.prefix_concat_iff.mp before with rfl | before
      · obtain ⟨u, shared⟩ := Option.isSome_iff_exists.mp shared
        obtain ⟨w, member, -, top⟩ := common_above named some' shared
        exact ⟨w, member, top⟩
      · refine earlier.mp ?_ vs some' before
        rw [common_append_single] at shared
        exact Option.isSome_of_isSome_bind shared
    · intro tops
      by_cases first : us = []
      · subst first
        exact congrArg Option.isSome (common_single h t)
      · obtain ⟨v, before⟩ := Option.isSome_iff_exists.mp (earlier.mpr fun vs some' before =>
          tops vs some' (before.trans (List.prefix_append us [t])))
        exact (common_append_iff named first before).mpr (tops _ (by simp) (List.prefix_refl _))

theorem common_some_perm_iff (named : ByName h classes ts) (some' : ts ≠ []) :
    (∃ us, us.Perm ts ∧ (common h us).isSome = true) ↔ ∃ u ∈ ts, ∀ t ∈ ts, Above h u.value t.value := by
  constructor
  · rintro ⟨us, order, shared⟩
    obtain ⟨u, shared⟩ := Option.isSome_iff_exists.mp shared
    obtain ⟨w, member, -, top⟩ := common_above (named.mono order.subset)
      (fun none => some' (none ▸ order).nil_eq.symm) shared
    exact ⟨w, order.subset member, fun t inside => top t (order.symm.subset inside)⟩
  · rintro ⟨u, member, top⟩
    obtain ⟨front, back, rfl⟩ := List.append_of_mem member
    have order : (u :: (front ++ back)).Perm (front ++ u :: back) := List.perm_middle.symm
    refine ⟨_, order, (common_prefixes_iff (named.mono order.subset)).mpr fun us some' before => ?_⟩
    -- the type that covers all stands first
    obtain ⟨v, vs, rfl⟩ := List.exists_cons_of_ne_nil some'
    cases (List.cons_prefix_cons.mp before).1
    exact ⟨u, List.mem_cons_self, fun t inside => top t (order.subset (before.subset inside))⟩

/-! ### Inferred results -/

theorem inferResult_iff {table : Table} {st : FuncState} {s : State} (some' : ts ≠ []) :
    (∃ result, inferResult table st ts s = .ok (result, s)) ↔
      (common s.info.hierarchy ts).isSome = true := by
  obtain ⟨t, rest, rfl⟩ := List.exists_cons_of_ne_nil some'
  cases found : common s.info.hierarchy (t :: rest) with
  | some u => exact iff_of_true ⟨u.deref, inferResult_some found⟩ rfl
  | none =>
    refine iff_of_false (fun ⟨_, run⟩ => ?_) Bool.false_ne_true
    rw [inferResult_none found] at run
    cases run

/-- Where no class extends itself, every search for a base ends, with the answer that is counted on here.
Known types have something in common in every order exactly if of any two of them one covers the other. If
they are known by their names, they have in some order exactly if one of them covers all, and in the
order they stand in exactly if, wherever one stops, one of those so far does. Results are inferred from
returned values in the same cases. -/
theorem common_isSome_iff (acyclic : ∀ t, ¬ TransGen h.Base t t) (built : ∀ t ∈ ts, t.Built)
    (known : ∀ t ∈ ts, t.Known) :
    h.Settles ∧
      ((∀ us, us.Perm ts → (common h us).isSome = true) ↔
        ts.Pairwise fun a b => Covers h a b ∨ Covers h b a) ∧
      (∀ classes, ByName h classes ts → ts ≠ [] →
        ((∃ us, us.Perm ts ∧ (common h us).isSome = true) ↔ ∃ u ∈ ts, ∀ t ∈ ts, Covers h u t) ∧
        ((common h ts).isSome = true ↔
          ∀ us, us ≠ [] → us <+: ts → ∃ u ∈ us, ∀ t ∈ us, Covers h u t)) ∧
      ∀ (table : Table) (st : FuncState) (s : State), s.info.hierarchy = h → ts ≠ [] →
        ((∃ result, inferResult table st ts s = .ok (result, s)) ↔ (common h ts).isSome = true) := by
  have covers : ∀ a ∈ ts, ∀ b ∈ ts, Covers h a b ↔ Above h a.value b.value := fun a ma b mb =>
    covers_iff (built b mb) (known a ma) (known b mb)
  have tops : ∀ us ⊆ ts, (∃ u ∈ us, ∀ t ∈ us, Covers h u t) ↔
      ∃ u ∈ us, ∀ t ∈ us, Above h u.value t.value := fun us within =>
    exists_congr fun u => and_congr_right fun member => forall₂_congr fun t inside =>
      covers u (within member) t (within inside)
  refine ⟨Hierarchy.settles_of_acyclic acyclic, ?_, fun classes named some' => ⟨?_, ?_⟩, ?_⟩
  · rw [common_perms_iff fun t member => .of_built (built t member) (known t member)]
    exact List.Pairwise.iff_of_mem fun {a b} ma mb =>
      or_congr (covers a ma b mb).symm (covers b mb a ma).symm
  · rw [common_some_perm_iff named some', tops ts (List.Subset.refl ts)]
  · rw [common_prefixes_iff named]
    exact forall₃_congr fun us _ before => (tops us before.subset).symm
  · rintro table st s rfl some'
    exact inferResult_iff some'

/-- Pointers to two classes of one base and, between them, to the base. -/
theorem common_isSome_iff_of_siblings :
    let h : Hierarchy := ⟨[[], [.cls "B" 0], [.cls "B" 0]]⟩
    let classes : String → Nat → Prop := fun x n => (x, n) ∈ [("B", 0), ("L", 1), ("R", 2)]
    let ts := [pointer (.cls "L" 1) 1, pointer (.cls "B" 0) 1, pointer (.cls "R" 2) 1]
    (∀ t, ¬ TransGen h.Base t t) ∧ (∀ t ∈ ts, t.Built) ∧ (∀ t ∈ ts, t.Known) ∧ ByName h classes ts ∧ ts ≠ [] ∧
      (∀ us, us ≠ [] → us <+: ts → ∃ u ∈ us, ∀ t ∈ us, Covers h u t) ∧
      (∃ u ∈ ts, ∀ t ∈ ts, Covers h u t) ∧ ¬ ts.Pairwise fun a b => Covers h a b ∨ Covers h b a := by
  intro h classes ts
  have acyclic : ∀ t, ¬ TransGen h.Base t t := Hierarchy.acyclic_of_isOrdered (by decide)
  have built : ∀ t ∈ ts, t.Built := by simp [ts, Built, Every, Joint, core]
  have known : ∀ t ∈ ts, t.Known := by simp [ts, Known, Every, isUnknown]
  have named : ByName h classes ts := by
    refine ⟨built, known, ⟨?_, ?_⟩, ?_, ?_, ?_⟩
    · intro x n listed u member
      simp only [classes, List.mem_cons, Prod.mk.injEq, List.not_mem_nil, or_false] at listed
      rcases listed with ⟨rfl, rfl⟩ | ⟨rfl, rfl⟩ | ⟨rfl, rfl⟩ <;> simp_all [h, classes, core]
    · intro x n m listed listed'
      simp only [classes, List.mem_cons, Prod.mk.injEq, List.not_mem_nil, or_false] at listed listed'
      rcases listed with ⟨rfl, rfl⟩ | ⟨rfl, rfl⟩ | ⟨rfl, rfl⟩ <;>
        rcases listed' with ⟨name, rfl⟩ | ⟨name, rfl⟩ | ⟨name, rfl⟩ <;> first | decide | simp at name
    · simp [ts, Every, Hierarchy.Among, core, classes]
    · simp [ts, value]
    · simp [ts, value]
  have some' : ts ≠ [] := List.cons_ne_nil _ _
  have shared : (common h ts).isSome = true := by decide +kernel
  obtain ⟨-, orders, named', -⟩ := common_isSome_iff acyclic built known
  obtain ⟨some'', here⟩ := named' classes named some'
  refine ⟨acyclic, built, known, named, some', here.mp shared, some''.mp ⟨ts, .refl ts, shared⟩,
    fun pairs => ?_⟩
  -- the base comes too late behind both of the others
  have last : [ts[0], ts[2], ts[1]].Perm ts := .cons _ (.swap _ _ _)
  exact absurd (orders.mpr pairs _ last) (by decide +kernel)

end Ty

/-- A text with three returns of pointers, to two classes and to the base of both. -/
def siblingsText (first second third : String) : String := "class B {}
class L extends B {}
class R extends B {}
fn f(n: int, b: B*, l: L*, r: R*) \x7b
    if n == 0 \x7b return " ++ first ++ "; \x7d
    if n == 1 \x7b return " ++ second ++ "; \x7d
    return " ++ third ++ ";
\x7d
"

/-- Pointers to two classes have nothing in common although the base that comes behind them fits both;
in the other order they have, and so it is with the returns of a function. -/
theorem siblings_before_base :
    let h : Hierarchy := ⟨[[], [.cls "B" 0], [.cls "B" 0]]⟩
    let b := Ty.pointer (.cls "B" 0) 1
    let l := Ty.pointer (.cls "L" 1) 1
    let r := Ty.pointer (.cls "R" 2) 1
    (∀ t ∈ [l, r, b], b.convertible h t = true) ∧ (Ty.common h [l, r, b]).isSome = false ∧
      (Ty.common h [b, r, l]).isSome = true ∧
      (∃ file e, File.read Table.default "main.tasty" (siblingsText "l" "r" "b") = .ok file ∧
        file.resolve Table.default = .error e ∧
        e.message = "type error at line 4, column 1: return types of f disagree: L*, R*, B*") ∧
      ∃ file info, File.read Table.default "main.tasty" (siblingsText "b" "r" "l") = .ok file ∧
        file.resolve Table.default = .ok info := by
  intro h b l r
  refine ⟨by decide +kernel, by decide +kernel, by decide +kernel, ?_, ?_⟩
  · have found : (File.read Table.default "main.tasty" (siblingsText "l" "r" "b")).toOption.any
        (fun file => match file.resolve Table.default with
          | .error e => e.message ==
            "type error at line 4, column 1: return types of f disagree: L*, R*, B*"
          | .ok _ => false) = true := by
      unfold siblingsText
      rw [append_ofList (append_ofList (append_ofList (append_ofList (append_ofList (append_ofList
        rfl rfl) rfl) rfl) rfl) rfl) rfl, File.read_ofList]
      decide +kernel
    obtain ⟨file, read, here⟩ := (Option.any_eq_true _ _).mp found
    split at here
    · next e failed => exact ⟨file, e, toOption_eq_some read, failed, eq_of_beq here⟩
    · cases here
  · have found : (resolved? Table.default "main.tasty" (siblingsText "b" "r" "l")).isSome = true := by
      unfold resolved? siblingsText
      rw [append_ofList (append_ofList (append_ofList (append_ofList (append_ofList (append_ofList
        rfl rfl) rfl) rfl) rfl) rfl) rfl, File.read_ofList]
      decide +kernel
    obtain ⟨⟨file, info⟩, steps⟩ := Option.isSome_iff_exists.mp found
    exact ⟨file, info, resolved?_some steps⟩

end TastyLang
