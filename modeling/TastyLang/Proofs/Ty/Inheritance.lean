import Mathlib.Data.Finset.Card
import Mathlib.Data.Fintype.Order
import Mathlib.Data.Set.Finite.List
import Mathlib.Logic.Relation
import Mathlib.Order.WellFounded
import TastyLang.Ty.Relations

/-!
# Inheritance

`h.Base t u` says that `u` is a direct base of `t`. The bounded search of `Hierarchy.isSubclass` finds
exactly the types that can be reached through bases: a search that needs more steps than there are
classes meets a class twice. A search without a bound (`Hierarchy.descend`) never ends where it only
meets classes that extend one another (`descend_endless`). Without cycles it ends, with the answer of
the bounded one (`settles_of_acyclic`).
-/

namespace TastyLang

open Relation

namespace Hierarchy

variable {h : Hierarchy} {d b t u : Ty} {S : Finset Nat}

def Base (h : Hierarchy) (t u : Ty) : Prop := u ∈ h.basesOf t

theorem basesOf_core (h : Hierarchy) : (t : Ty) → h.basesOf t.core = h.basesOf t
  | .via _ t => basesOf_core h t
  | .void | .null | .prim _ | .cls _ _ | .enum _ | .scope _ | .template _ _ | .tuple _
  | .pointer _ _ | .reference _ _ | .smart _ _ | .func _ _ | .range _ | .unknown _ | .invalid
  | .absent => rfl

theorem basesOf_cls {x : String} {n : Nat} (core : t.core = .cls x n) :
    h.basesOf t = h.bases.getD n [] := by
  rw [← basesOf_core, core, basesOf]

theorem Base.cls : (t : Ty) → h.Base t u →
    ∃ x n bs, t.core = .cls x n ∧ h.bases[n]? = some bs ∧ u ∈ bs
  | .via _ t, base => Base.cls t base
  | .cls x n, base => by
    obtain ⟨bs, found, member⟩ : ∃ bs, h.bases[n]? = some bs ∧ u ∈ bs := by
      cases found : h.bases[n]? with
      | none => simp [Base, basesOf, found] at base
      | some bs => exact ⟨bs, rfl, by simpa [Base, basesOf, found] using base⟩
    exact ⟨x, n, bs, rfl, found, member⟩

theorem base_iff {x : String} {n : Nat} (core : t.core = .cls x n) :
    h.Base t u ↔ u ∈ h.bases.getD n [] := by
  rw [Base, basesOf_cls core]

/-! ### Searching -/

theorem reaches_sound {n : Nat} (found : h.reaches n d b = true) :
    ∃ t, ReflTransGen h.Base d t ∧ t.equal b = true := by
  induction n generalizing d with
  | zero => exact ⟨d, .refl, found⟩
  | succ n ih =>
    simp only [reaches, Bool.or_eq_true, List.any_eq_true] at found
    rcases found with here | ⟨u, base, found⟩
    · exact ⟨d, .refl, here⟩
    · obtain ⟨t, path, same⟩ := ih found
      exact ⟨t, .head base path, same⟩

/-- A step to a base of a class whose number is in `S`. -/
def BaseIn (h : Hierarchy) (S : Finset Nat) (t u : Ty) : Prop :=
  ∃ x, ∃ n ∈ S, t.core = .cls x n ∧ h.Base t u

theorem avoid (n : Nat) (path : ReflTransGen (h.BaseIn S) d t) :
    ReflTransGen (h.BaseIn (S.erase n)) d t ∨
      ∃ u ∈ h.bases.getD n [], ReflTransGen (h.BaseIn (S.erase n)) u t := by
  induction path using ReflTransGen.head_induction_on with
  | refl => exact .inl .refl
  | @head e f step _ ih =>
    rcases ih with avoids | behind
    · obtain ⟨x, m, inside, core, base⟩ := step
      by_cases same : m = n
      · subst same
        exact .inr ⟨f, (base_iff core).mp base, avoids⟩
      · exact .inl (.head ⟨x, m, Finset.mem_erase.mpr ⟨same, inside⟩, core, base⟩ avoids)
    · exact .inr behind

theorem reaches_complete {k : Nat} (few : S.card ≤ k) (path : ReflTransGen (h.BaseIn S) d t)
    (same : t.equal b = true) : h.reaches k d b = true := by
  induction k generalizing S d with
  | zero =>
    obtain rfl : d = t := by
      rcases path.cases_head with rfl | ⟨e, ⟨x, n, inside, -⟩, -⟩
      · rfl
      · rw [Finset.card_eq_zero.mp (Nat.le_zero.mp few)] at inside
        exact absurd inside (Finset.notMem_empty n)
    exact same
  | succ k ih =>
    simp only [reaches, Bool.or_eq_true, List.any_eq_true]
    rcases path.cases_head with rfl | ⟨e, ⟨x, n, inside, core, base⟩, rest⟩
    · exact .inl same
    · have fewer : (S.erase n).card ≤ k := by
        rw [Finset.card_erase_of_mem inside]
        omega
      obtain ⟨u, base, path⟩ : ∃ u ∈ h.basesOf d, ReflTransGen (h.BaseIn (S.erase n)) u t := by
        rw [basesOf_cls core]
        rcases avoid n rest with path | behind
        · exact ⟨e, (base_iff core).mp base, path⟩
        · exact behind
      exact .inr ⟨u, base, ih fewer path⟩

theorem reaches_iff : h.reaches (h.bases.length + 1) d b = true ↔
    ∃ t, ReflTransGen h.Base d t ∧ t.equal b = true := by
  refine ⟨reaches_sound, ?_⟩
  rintro ⟨t, path, same⟩
  have few : (Finset.range h.bases.length).card ≤ h.bases.length + 1 := by
    rw [Finset.card_range]
    omega
  refine reaches_complete few (ReflTransGen.mono (fun e f base => ?_) _ _ path) same
  obtain ⟨x, n, bs, core, found, -⟩ := Base.cls _ base
  obtain ⟨lt, -⟩ := List.getElem?_eq_some_iff.mp found
  exact ⟨x, n, Finset.mem_range.mpr lt, core, base⟩

theorem isSubclass_iff (derived : isAbsent d = false) (base : isAbsent b = false) :
    h.isSubclass d b = true ↔ ∃ t, ReflTransGen h.Base d t ∧ t.equal b = true := by
  rw [isSubclass, derived, base]
  exact reaches_iff

theorem isSubclass_eq (derived : isAbsent d = false) (base : isAbsent b = false)
    (bases : ∀ u ∈ h.basesOf d, isAbsent u = false) :
    h.isSubclass d b = (d.equal b || (h.basesOf d).any fun u => h.isSubclass u b) := by
  rw [Bool.eq_iff_iff, isSubclass_iff derived base, Bool.or_eq_true, List.any_eq_true]
  constructor
  · rintro ⟨t, path, same⟩
    rcases path.cases_head with rfl | ⟨u, step, rest⟩
    · exact .inl same
    · exact .inr ⟨u, step, (isSubclass_iff (bases u step) base).mpr ⟨t, rest, same⟩⟩
  · rintro (same | ⟨u, step, found⟩)
    · exact ⟨d, .refl, same⟩
    · obtain ⟨t, path, same⟩ := (isSubclass_iff (bases u step) base).mp found
      exact ⟨t, .head step path, same⟩

/-! ### Hierarchies without cycles -/

theorem base_mem (base : h.Base t u) : u ∈ h.bases.flatten := by
  obtain ⟨_, _, bs, -, found, member⟩ := Base.cls _ base
  exact List.mem_flatten.mpr ⟨bs, List.mem_of_getElem? found, member⟩

theorem wellFounded_of_acyclic (acyclic : ∀ t, ¬ TransGen h.Base t t) :
    WellFounded fun u t => h.Base t u := by
  let Listed := { t // t ∈ h.bases.flatten }
  have : Finite Listed := (List.finite_toSet h.bases.flatten).to_subtype
  let below (u t : Listed) : Prop := TransGen h.Base t.1 u.1
  have : IsTrans Listed below := ⟨fun _ _ _ first second => second.trans first⟩
  have : Std.Irrefl below := ⟨fun t => acyclic t.1⟩
  have wf : WellFounded below := Finite.wellFounded_of_trans_of_irrefl below
  have listed (t : Listed) : Acc (fun u t => h.Base t u) t.1 := by
    induction t using wf.induction with
    | _ t ih => exact ⟨_, fun u base => ih ⟨u, base_mem base⟩ (.single base)⟩
  exact ⟨fun t => ⟨t, fun u base => listed ⟨u, base_mem base⟩⟩⟩

/-- The number of a class. -/
def number? (t : Ty) : Option Nat :=
  match t.core with
  | .cls _ n => some n
  | _ => none

/-- Every class has a larger number than its bases. -/
def isOrdered (h : Hierarchy) : Bool :=
  (List.range h.bases.length).all fun n => (h.bases.getD n []).all fun u => (number? u).any (· < n)

theorem acyclic_of_isOrdered (ordered : h.isOrdered = true) (t : Ty) : ¬ TransGen h.Base t t := by
  have step {t u : Ty} (base : h.Base t u) :
      ∃ n m, number? t = some n ∧ number? u = some m ∧ m < n := by
    obtain ⟨x, n, bs, core, found, member⟩ := Base.cls t base
    obtain ⟨lt, -⟩ := List.getElem?_eq_some_iff.mp found
    have here := List.all_eq_true.mp ordered n (List.mem_range.mpr lt)
    rw [List.getD_eq_getElem?_getD, found] at here
    obtain ⟨m, number, below⟩ := (Option.any_eq_true _ _).mp (List.all_eq_true.mp here u member)
    exact ⟨n, m, by simp [number?, core], number, of_decide_eq_true below⟩
  suffices descends : ∀ u, TransGen h.Base t u →
      ∃ n m, number? t = some n ∧ number? u = some m ∧ m < n by
    intro circle
    obtain ⟨n, m, number, number', below⟩ := descends t circle
    obtain rfl := Option.some.inj (number.symm.trans number')
    exact absurd below (Nat.lt_irrefl n)
  intro u path
  induction path with
  | single base => exact step base
  | tail _ base ih =>
    obtain ⟨n, m, number, number', below⟩ := ih
    obtain ⟨m', k, same, number'', below'⟩ := step base
    obtain rfl := Option.some.inj (number'.symm.trans same)
    exact ⟨n, k, number, number'', below'.trans below⟩

/-! ### Searching without a bound -/

/-- The search for a base among the bases of a class, and theirs, in their order: `none` if it is still
going on after so many generations. -/
def descend (h : Hierarchy) : Nat → Ty → Ty → Option Bool
  | 0, _, _ => none
  | n + 1, derived, base =>
    if derived.equal base then some true
    else (h.basesOf derived).anyM fun b => descend h n b base

/-- Every search among types that are there ends, with the answer of `isSubclass`. -/
def Settles (h : Hierarchy) : Prop :=
  ∀ derived base, isAbsent derived = false → isAbsent base = false →
    ∃ n, h.descend n derived base = some (h.isSubclass derived base)

section

variable {α : Type} {f g : α → Option Bool} {xs : List α} {n m : Nat} {a : Bool}

theorem anyM_cons_eq (f : α → Option Bool) (x : α) (xs : List α) :
    (x :: xs).anyM f = (f x).bind fun found => if found then some true else xs.anyM f := by
  rw [List.anyM]
  cases f x with
  | none => rfl
  | some found => cases found <;> rfl

theorem anyM_some (answer : xs.anyM f = some a) :
    if a then ∃ x ∈ xs, f x = some true else ∀ x ∈ xs, f x = some false := by
  induction xs with
  | nil =>
    cases answer
    exact fun _ member => by cases member
  | cons x xs ih =>
    rw [anyM_cons_eq] at answer
    obtain ⟨found, here, rest⟩ := Option.bind_eq_some_iff.mp answer
    cases found with
    | true =>
      cases rest
      exact ⟨x, List.mem_cons_self, here⟩
    | false =>
      have later := ih rest
      cases a with
      | true =>
        obtain ⟨y, member, there⟩ := later
        exact ⟨y, List.mem_cons_of_mem _ member, there⟩
      | false => exact List.forall_mem_cons.mpr ⟨here, later⟩

theorem anyM_mono (more : ∀ x ∈ xs, ∀ b, f x = some b → g x = some b)
    (answer : xs.anyM f = some a) : xs.anyM g = some a := by
  induction xs with
  | nil => exact answer
  | cons x xs ih =>
    rw [anyM_cons_eq] at answer ⊢
    obtain ⟨found, here, rest⟩ := Option.bind_eq_some_iff.mp answer
    rw [more x List.mem_cons_self found here]
    cases found with
    | true => exact rest
    | false => exact ih (fun y member => more y (List.mem_cons_of_mem _ member)) rest

theorem anyM_isSome (all : ∀ x ∈ xs, (f x).isSome = true) : (xs.anyM f).isSome = true := by
  induction xs with
  | nil => rfl
  | cons x xs ih =>
    obtain ⟨found, here⟩ := Option.isSome_iff_exists.mp (all x List.mem_cons_self)
    rw [anyM_cons_eq, here]
    cases found with
    | true => rfl
    | false => exact ih fun y member => all y (List.mem_cons_of_mem _ member)

theorem descend_sound (answer : h.descend n d b = some a) :
    a = true ↔ ∃ t, ReflTransGen h.Base d t ∧ t.equal b = true := by
  induction n generalizing d a with
  | zero => cases answer
  | succ n ih =>
    rw [descend] at answer
    split at answer
    · next same =>
      cases answer
      exact iff_of_true rfl ⟨d, .refl, same⟩
    · next other =>
      have bases := anyM_some answer
      cases a with
      | true =>
        obtain ⟨u, base, found⟩ := bases
        obtain ⟨t, path, same⟩ := (ih found).mp rfl
        exact iff_of_true rfl ⟨t, .head base path, same⟩
      | false =>
        refine iff_of_false Bool.false_ne_true ?_
        rintro ⟨t, path, same⟩
        rcases path.cases_head with rfl | ⟨u, base, rest⟩
        · exact other same
        · exact absurd ((ih (bases u base)).mpr ⟨t, rest, same⟩) Bool.false_ne_true

/-- Where the search without a bound ends, the bounded one has the same answer. -/
theorem descend_eq (answer : h.descend n d b = some a) :
    h.reaches (h.bases.length + 1) d b = a := by
  rw [Bool.eq_iff_iff, reaches_iff, descend_sound answer]

theorem descend_mono (fewer : n ≤ m) (answer : h.descend n d b = some a) :
    h.descend m d b = some a := by
  induction n generalizing d m a with
  | zero => cases answer
  | succ n ih =>
    obtain ⟨k, rfl⟩ := Nat.exists_eq_add_of_lt fewer
    rw [descend] at answer ⊢
    split
    · next same => rwa [if_pos same] at answer
    · next other =>
      rw [if_neg other] at answer
      exact anyM_mono (fun u _ c found => ih (Nat.le_add_right n k) found) answer

/-- Some bound is enough for each of finitely many searches. -/
theorem descend_bound {us : List Ty} (each : ∀ u ∈ us, ∃ n, (h.descend n u b).isSome = true) :
    ∃ n, ∀ u ∈ us, (h.descend n u b).isSome = true := by
  induction us with
  | nil => exact ⟨0, fun _ member => by cases member⟩
  | cons u us ih =>
    obtain ⟨n, here⟩ := each u List.mem_cons_self
    obtain ⟨m, rest⟩ := ih fun v member => each v (List.mem_cons_of_mem _ member)
    have more {k : Nat} {v : Ty} (fewer : k ≤ max n m) (ends : (h.descend k v b).isSome = true) :
        (h.descend (max n m) v b).isSome = true := by
      obtain ⟨c, found⟩ := Option.isSome_iff_exists.mp ends
      rw [descend_mono fewer found]
      rfl
    refine ⟨max n m, List.forall_mem_cons.mpr ⟨more (Nat.le_max_left n m) here, ?_⟩⟩
    exact fun v member => more (Nat.le_max_right n m) (rest v member)

theorem descend_of_acyclic (acyclic : ∀ t, ¬ TransGen h.Base t t) (d b : Ty) :
    ∃ n, (h.descend n d b).isSome = true := by
  induction d using (wellFounded_of_acyclic acyclic).induction with
  | _ d ih =>
    obtain ⟨n, all⟩ := descend_bound ih
    refine ⟨n + 1, ?_⟩
    rw [descend]
    split
    · rfl
    · exact anyM_isSome all

end

theorem settles_of_acyclic (acyclic : ∀ t, ¬ TransGen h.Base t t) : h.Settles := by
  intro derived base there there'
  obtain ⟨n, ends⟩ := descend_of_acyclic acyclic derived base
  obtain ⟨a, answer⟩ := Option.isSome_iff_exists.mp ends
  refine ⟨n, ?_⟩
  rw [isSubclass, there, there', answer, ← descend_eq answer]
  rfl

/-- A search does not end if all that it meets has bases and is not what is searched for: classes that
extend one another, say. -/
theorem descend_endless (around : ∀ t, ReflTransGen h.Base d t → h.basesOf t ≠ [] ∧ t.equal b = false)
    (n : Nat) : h.descend n d b = none := by
  induction n generalizing d with
  | zero => rfl
  | succ n ih =>
    obtain ⟨some', other⟩ := around d .refl
    obtain ⟨u, us, bases⟩ := List.exists_cons_of_ne_nil some'
    have base : h.Base d u := by
      rw [Base, bases]
      exact List.mem_cons_self
    rw [descend, other, bases, anyM_cons_eq, ih fun t path => around t (.head base path)]
    rfl

end Hierarchy

end TastyLang
