import TastyLang.Proofs.Text.Characters
import TastyLang.Ty.Relations

/-!
# Names in types

`Ty.Spelt good t` says that every name which `t` is built from is good. The operations on types take
types apart and put them together, so they keep this, whatever good means. Names of one line make a
type that takes one line in C++ (`Ty.Spelt.cpp`).
-/

namespace TastyLang

namespace Ty

mutual

def Spelt (good : String → Prop) : Ty → Prop
  | prim p => good p.name ∧ good p.cpp
  | cls n _ | enum n | scope n | unknown n => good n
  | template base args => Spelt good base ∧ SpeltAll good args
  | tuple elems => SpeltAll good elems
  | pointer elem _ | reference elem _ | smart elem _ | range elem => Spelt good elem
  | func params result => SpeltAll good params ∧ Spelt good result
  | via _ t => Spelt good t
  | void | null | invalid | absent => True

def SpeltAll (good : String → Prop) : List Ty → Prop
  | [] => True
  | t :: ts => Spelt good t ∧ SpeltAll good ts

end

variable {good : String → Prop}

theorem speltAll_iff {ts : List Ty} : SpeltAll good ts ↔ ∀ t ∈ ts, t.Spelt good := by
  induction ts with
  | nil => simp [SpeltAll]
  | cons t ts ih => simp [SpeltAll, ih]

theorem unify_mem {h : Hierarchy} {a b t : Ty} (same : unify h a b = some t) :
    t = a ∨ t = b ∨ t = a.deref ∨ t = b.deref := by
  unfold unify at same
  dsimp only at same
  -- the conditions are taken off one by one: `split` would go through the whole match for each
  by_cases absent : Hierarchy.isAbsent a = true
  · rw [if_pos absent] at same
    exact .inr (.inl (Option.some.inj same).symm)
  by_cases absent' : Hierarchy.isAbsent b = true
  · rw [if_neg absent, if_pos absent'] at same
    exact .inl (Option.some.inj same).symm
  rw [if_neg absent, if_neg absent'] at same
  by_cases known : a.isUnknown = true
  · rw [if_pos known] at same
    exact .inl (Option.some.inj same).symm
  by_cases known' : b.isUnknown = true
  · rw [if_neg known, if_pos known'] at same
    exact .inr (.inl (Option.some.inj same).symm)
  rw [if_neg known, if_neg known'] at same
  by_cases whole : a.equal b = true
  · rw [if_pos whole] at same
    exact .inl (Option.some.inj same).symm
  by_cases value : a.deref.equal b.deref = true
  · rw [if_neg whole, if_pos value] at same
    exact .inr (.inr (.inl (Option.some.inj same).symm))
  rw [if_neg whole, if_neg value] at same
  split at same
  all_goals
    repeat' split at same
    all_goals cases same
    all_goals simp

namespace Spelt

theorem core : {t : Ty} → t.Spelt good → t.core.Spelt good
  | .via _ t, h => core (t := t) h
  | .void, h | .null, h | .prim _, h | .cls _ _, h | .enum _, h | .scope _, h | .template _ _, h
  | .tuple _, h | .pointer _ _, h | .reference _ _, h | .smart _ _, h | .func _ _, h
  | .range _, h | .unknown _, h | .invalid, h | .absent, h => h

theorem deref : {t : Ty} → t.Spelt good → t.deref.Spelt good
  | .reference t _, h => deref (t := t) h
  | .via _ t, h => by
    unfold Ty.deref
    split
    · next u _ => exact deref (t := u) h
    · exact h
  | .void, h | .null, h | .prim _, h | .cls _ _, h | .enum _, h | .scope _, h | .template _ _, h
  | .tuple _, h | .pointer _ _, h | .smart _ _, h | .func _ _, h
  | .range _, h | .unknown _, h | .invalid, h | .absent, h => h

theorem viaBinding {t : Ty} (h : t.Spelt good) (b : String) : (t.viaBinding b).Spelt good := by
  rw [Ty.viaBinding]
  split
  · exact h.core
  · exact h.core

theorem pointerTo {t : Ty} (h : t.Spelt good) (level : Nat) : (t.pointerTo level).Spelt good := by
  rw [Ty.pointerTo]
  split
  · exact h
  · split
    · next elem n same =>
      have inner := h.core
      rwa [same] at inner
    · exact h

theorem shared {t : Ty} (h : t.Spelt good) : (n : Nat) → (t.shared n).Spelt good
  | 0 => h
  | n + 1 => shared h n

theorem typeOf {t : Ty} (h : t.Spelt good) (s : Storage) : (s.typeOf t).Spelt good := by
  rw [Storage.typeOf]
  split
  · exact h
  · apply Spelt.shared
    split <;> exact h
  · split <;> exact h
  · split <;> exact h
  · exact h
  · exact h
  · exact h

theorem unify {h : Hierarchy} {a b t : Ty} (same : Ty.unify h a b = some t) (left : a.Spelt good)
    (right : b.Spelt good) : t.Spelt good := by
  rcases Ty.unify_mem same with rfl | rfl | rfl | rfl
  · exact left
  · exact right
  · exact left.deref
  · exact right.deref

theorem common {h : Hierarchy} {ts : List Ty} {t : Ty} (same : Ty.common h ts = some t)
    (all : ∀ u ∈ ts, u.Spelt good) : t.Spelt good := by
  have folded : ∀ (ts : List Ty) (u : Ty), u.Spelt good → (∀ u ∈ ts, u.Spelt good) →
      ts.foldlM (Ty.unify h) u = some t → t.Spelt good := by
    intro ts
    induction ts with
    | nil =>
      intro u spelt _ same
      cases same
      exact spelt
    | cons x ts ih =>
      intro u spelt all same
      obtain ⟨v, first, same⟩ := Option.bind_eq_some_iff.mp same
      refine ih v (unify first spelt (all x List.mem_cons_self)) ?_ same
      exact fun u member => all u (List.mem_cons_of_mem _ member)
  exact folded ts .absent trivial all same

end Spelt

theorem spelt_ofPrimitive {p : Primitive} (name : good p.name) (cpp : good p.cpp) :
    (ofPrimitive p).Spelt good := by
  rw [ofPrimitive]
  split
  · trivial
  · exact ⟨name, cpp⟩

/-! ### Types in C++ -/

open Text

theorem Spelt.name : {t : Ty} → t.Spelt OneLine → OneLine t.name
  | .prim _, h => h.1
  | .cls _ _, h | .enum _, h | .scope _, h | .unknown _, h => h
  | .template base _, h => name (t := base) h.1
  | .via _ t, h => name (t := t) h
  | .void, _ | .null, _ | .tuple _, _ | .pointer _ _, _ | .reference _ _, _ | .smart _ _, _
  | .func _ _, _ | .range _, _ | .invalid, _ | .absent, _ => rfl

theorem oneLine_scopedName {name : String} (h : OneLine name) : OneLine (scopedName name) :=
  oneLine_replaceChar rfl h

mutual

theorem Spelt.cpp : {t : Ty} → t.Spelt OneLine → OneLine t.cpp
  | .prim _, h => h.2
  | .cls _ _, h | .enum _, h | .scope _, h => oneLine_scopedName h
  | .unknown n, h => by
    unfold Ty.cpp
    split
    · rfl
    · exact oneLine_scopedName h
  | .template base args, h => by
    have name := oneLine_scopedName (Spelt.name (t := base) h.1)
    have list : OneLine (cppList args) := SpeltAll.cppList h.2
    unfold Ty.cpp
    rw [OneLine, breaks_append, breaks_append, breaks_append, name, list]
    rfl
  | .tuple elems, h => by
    have list : OneLine (cppList elems) := SpeltAll.cppList h
    unfold Ty.cpp
    rw [OneLine, breaks_append, breaks_append, list]
    rfl
  | .pointer elem _, h => by
    have inner : OneLine (cpp elem) := Spelt.cpp h
    unfold Ty.cpp
    rw [OneLine, breaks_append, breaks_repeated, inner]
    rfl
  | .reference elem isConst, h => by
    have inner : OneLine (cpp elem) := Spelt.cpp h
    unfold Ty.cpp
    rw [OneLine, breaks_append, breaks_append, inner]
    cases isConst <;> rfl
  | .smart elem unique, h => by
    have inner : OneLine (cpp elem) := Spelt.cpp h
    unfold Ty.cpp
    rw [OneLine, breaks_append, breaks_append, inner]
    cases unique <;> rfl
  | .func params result, h => by
    have list : OneLine (cppList params) := SpeltAll.cppList h.1
    have last : OneLine (cpp result) := Spelt.cpp h.2
    unfold Ty.cpp
    rw [OneLine, breaks_append, breaks_append, breaks_append, breaks_append, last, list]
    rfl
  | .via _ t, h => Spelt.cpp (t := t) h
  | .void, _ | .null, _ | .invalid, _ | .absent, _ => by
    unfold Ty.cpp
    rfl
  | .range _, _ => by
    unfold Ty.cpp
    rfl

theorem SpeltAll.cppList : {ts : List Ty} → SpeltAll OneLine ts → OneLine (cppList ts)
  | [], _ => rfl
  | [t], h => Spelt.cpp (t := t) h.1
  | t :: u :: ts, h => by
    have first : OneLine (cpp t) := Spelt.cpp h.1
    have rest : OneLine (cppList (u :: ts)) := SpeltAll.cppList h.2
    unfold Ty.cppList
    rw [OneLine, breaks_append, breaks_append, first, rest]
    rfl

end

end Ty

end TastyLang
