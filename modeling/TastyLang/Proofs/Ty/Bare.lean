import TastyLang.Ty.Relations

/-!
# Bare types

The numbers of classes, and the bindings that types were named through, depend on what was resolved
before a type. `Ty.bare` leaves them out. They show neither in the C++ of a type nor in what it
equals, so types that are bare alike are equal and written alike (`Ty.equal_of_bare`,
`Ty.cpp_of_bare`).
-/

namespace TastyLang.Ty

mutual

def bare : Ty → Ty
  | cls n _ => cls n 0
  | template base args => template (bare base) (bareAll args)
  | tuple elems => tuple (bareAll elems)
  | pointer elem level => pointer (bare elem) level
  | reference elem isConst => reference (bare elem) isConst
  | smart elem unique => smart (bare elem) unique
  | func params result => func (bareAll params) (bare result)
  | range elem => range (bare elem)
  | via _ t => bare t
  | void => void
  | null => null
  | prim p => prim p
  | enum n => enum n
  | scope n => scope n
  | unknown n => unknown n
  | invalid => invalid
  | absent => absent

def bareAll : List Ty → List Ty
  | [] => []
  | t :: ts => bare t :: bareAll ts

end

mutual

/-- No part of the type is invalid, so that it equals itself. -/
def Proper : Ty → Prop
  | invalid => False
  | template base args => Proper base ∧ ProperAll args
  | tuple elems => ProperAll elems
  | pointer elem _ | reference elem _ | smart elem _ | range elem => Proper elem
  | func params result => ProperAll params ∧ Proper result
  | via _ t => Proper t
  | void | null | prim _ | cls _ _ | enum _ | scope _ | unknown _ | absent => True

def ProperAll : List Ty → Prop
  | [] => True
  | t :: ts => Proper t ∧ ProperAll ts

end

@[simp] theorem bareAll_eq (ts : List Ty) : bareAll ts = ts.map bare := by
  induction ts with
  | nil => rfl
  | cons t ts ih => rw [bareAll, ih, List.map_cons]

theorem bare_core : (t : Ty) → t.core.bare = t.bare
  | .via _ t => by
    rw [core, bare]
    exact bare_core t
  | .void | .null | .prim _ | .cls _ _ | .enum _ | .scope _ | .template _ _ | .tuple _
  | .pointer _ _ | .reference _ _ | .smart _ _ | .func _ _ | .range _ | .unknown _ | .invalid
  | .absent => rfl

theorem bare_viaBinding (t : Ty) (b : String) : (t.viaBinding b).bare = t.bare := by
  unfold viaBinding
  split
  · exact t.bare_core
  · rw [bare, bare_core]

theorem core_ne_via {b : String} {u : Ty} : (t : Ty) → t.core ≠ via b u
  | .via _ t => core_ne_via t
  | .void | .null | .prim _ | .cls _ _ | .enum _ | .scope _ | .template _ _ | .tuple _
  | .pointer _ _ | .reference _ _ | .smart _ _ | .func _ _ | .range _ | .unknown _ | .invalid
  | .absent => fun h => by cases h

theorem bare_pointerTo (t : Ty) (level : Nat) :
    (t.pointerTo level).bare = t.bare.pointerTo level := by
  unfold pointerTo
  split
  · rfl
  · have same := t.bare_core
    cases shape : t.core
    case via b u => exact absurd shape (core_ne_via t)
    all_goals
      rw [shape] at same
      simp only [bare, ← same, core]

/-! ### What bare types keep -/

theorem name_bare : (t : Ty) → t.bare.name = t.name
  | .template base _ => name_bare base
  | .via _ t => name_bare t
  | .void | .null | .prim _ | .cls _ _ | .enum _ | .scope _ | .tuple _
  | .pointer _ _ | .reference _ _ | .smart _ _ | .func _ _ | .range _ | .unknown _ | .invalid
  | .absent => rfl

mutual

theorem cpp_bare : (t : Ty) → t.bare.cpp = t.cpp
  | .template base args => by
    show scopedName base.bare.name ++ "<" ++ cppList (bareAll args) ++ ">" = _
    rw [name_bare base, cppList_bare args]
    rfl
  | .tuple elems => by
    show "std::tuple<" ++ cppList (bareAll elems) ++ ">" = _
    rw [cppList_bare elems]
    rfl
  | .pointer elem level => congrArg (· ++ Text.repeated "*" level) (cpp_bare elem)
  | .reference elem isConst =>
    congrArg (fun s => (if isConst then "const " else "") ++ s ++ "&") (cpp_bare elem)
  | .smart elem unique =>
    congrArg (fun s => (if unique then "std::unique_ptr<" else "std::shared_ptr<") ++ s ++ ">")
      (cpp_bare elem)
  | .func params result => by
    show "std::function<" ++ result.bare.cpp ++ "(" ++ cppList (bareAll params) ++ ")>" = _
    rw [cpp_bare result, cppList_bare params]
    rfl
  | .via _ t => cpp_bare t
  | .void | .null | .prim _ | .cls _ _ | .enum _ | .scope _ | .range _ | .unknown _ | .invalid
  | .absent => rfl

theorem cppList_bare : (ts : List Ty) → cppList (bareAll ts) = cppList ts
  | [] => rfl
  | [t] => cpp_bare t
  | t :: u :: ts => by
    have rest := cppList_bare (u :: ts)
    simp only [bareAll, cppList, cpp_bare t] at rest ⊢
    rw [rest]

end

mutual

theorem proper_of_bare : (t : Ty) → t.bare.Proper → t.Proper
  | .template base args, h => ⟨proper_of_bare base h.1, properAll_of_bare args h.2⟩
  | .tuple elems, h => properAll_of_bare elems h
  | .func params result, h => ⟨properAll_of_bare params h.1, proper_of_bare result h.2⟩
  | .pointer elem _, h | .reference elem _, h | .smart elem _, h | .range elem, h =>
    proper_of_bare elem h
  | .via _ t, h => proper_of_bare t h
  | .invalid, h => h
  | .void, _ | .null, _ | .prim _, _ | .cls _ _, _ | .enum _, _ | .scope _, _ | .unknown _, _
  | .absent, _ => trivial

theorem properAll_of_bare : (ts : List Ty) → ProperAll (bareAll ts) → ProperAll ts
  | [], _ => trivial
  | t :: ts, h => ⟨proper_of_bare t h.1, properAll_of_bare ts h.2⟩

end

theorem cpp_of_bare {t u : Ty} (same : t.bare = u.bare) : t.cpp = u.cpp := by
  rw [← t.cpp_bare, same, u.cpp_bare]

theorem core_core : (t : Ty) → t.core.core = t.core
  | .via _ t => core_core t
  | .void | .null | .prim _ | .cls _ _ | .enum _ | .scope _ | .template _ _ | .tuple _
  | .pointer _ _ | .reference _ _ | .smart _ _ | .func _ _ | .range _ | .unknown _ | .invalid
  | .absent => rfl

theorem equal_core_right (t u : Ty) : t.equal u.core = t.equal u := by
  show t.equalCore u.core.core = t.equalCore u.core
  rw [core_core]

theorem equal_of_core {t u : Ty} (same : t.bare = u.bare)
    (cores : ∀ v, (∀ b w, v ≠ via b w) → t.bare = v.bare → t.equal v = true) :
    t.equal u = true := by
  rw [← equal_core_right]
  exact cores u.core (fun _ _ => core_ne_via u) (same.trans u.bare_core.symm)

mutual

theorem equal_of_bare : (t u : Ty) → t.Proper → t.bare = u.bare → t.equal u = true
  | .via _ t, u, proper, same => by
    rw [bare] at same
    exact equal_of_bare t u proper same
  | .template base args, u, proper, same => by
    refine equal_of_core same fun v plain same => ?_
    cases v <;> simp only [bare, reduceCtorEq, template.injEq] at same
    · simp only [equal, core, equalCore, Bool.and_eq_true]
      exact ⟨equal_of_bare base _ proper.1 same.1, equalList_of_bare args _ proper.2 same.2⟩
    · exact absurd rfl (plain _ _)
  | .tuple elems, u, proper, same => by
    refine equal_of_core same fun v plain same => ?_
    cases v <;> simp only [bare, reduceCtorEq, tuple.injEq] at same
    · simp only [equal, core, equalCore]
      exact equalList_of_bare elems _ proper same
    · exact absurd rfl (plain _ _)
  | .pointer elem _, u, proper, same => by
    refine equal_of_core same fun v plain same => ?_
    cases v <;> simp only [bare, reduceCtorEq, pointer.injEq] at same
    · simp only [equal, core, equalCore, Bool.and_eq_true]
      exact ⟨by rw [same.2, beq_self_eq_true], equal_of_bare elem _ proper same.1⟩
    · exact absurd rfl (plain _ _)
  | .reference elem _, u, proper, same => by
    refine equal_of_core same fun v plain same => ?_
    cases v <;> simp only [bare, reduceCtorEq, reference.injEq] at same
    · simp only [equal, core, equalCore, Bool.and_eq_true]
      exact ⟨by rw [same.2, beq_self_eq_true], equal_of_bare elem _ proper same.1⟩
    · exact absurd rfl (plain _ _)
  | .smart elem _, u, proper, same => by
    refine equal_of_core same fun v plain same => ?_
    cases v <;> simp only [bare, reduceCtorEq, smart.injEq] at same
    · simp only [equal, core, equalCore, Bool.and_eq_true]
      exact ⟨by rw [same.2, beq_self_eq_true], equal_of_bare elem _ proper same.1⟩
    · exact absurd rfl (plain _ _)
  | .func params result, u, proper, same => by
    refine equal_of_core same fun v plain same => ?_
    cases v <;> simp only [bare, reduceCtorEq, func.injEq] at same
    · simp only [equal, core, equalCore, Bool.and_eq_true]
      exact ⟨equal_of_bare result _ proper.2 same.2, equalList_of_bare params _ proper.1 same.1⟩
    · exact absurd rfl (plain _ _)
  | .range elem, u, proper, same => by
    refine equal_of_core same fun v plain same => ?_
    cases v <;> simp only [bare, reduceCtorEq, range.injEq] at same
    · simp only [equal, core, equalCore]
      exact equal_of_bare elem _ proper same
    · exact absurd rfl (plain _ _)
  | .void, u, _, same | .null, u, _, same | .prim _, u, _, same | .cls _ _, u, _, same
  | .enum _, u, _, same | .scope _, u, _, same | .unknown _, u, _, same
  | .absent, u, _, same => by
    refine equal_of_core same fun v plain same => ?_
    cases v <;> simp only [bare, reduceCtorEq, prim.injEq, cls.injEq, enum.injEq, scope.injEq,
      unknown.injEq] at same
    · simp [equal, core, equalCore, same]
    · exact absurd rfl (plain _ _)

theorem equalList_of_bare : (ts us : List Ty) → ProperAll ts → bareAll ts = bareAll us →
    equalList ts us = true
  | [], [], _, _ => by rw [equalList]
  | t :: ts, u :: us, proper, same => by
    rw [bareAll, bareAll, List.cons.injEq] at same
    rw [equalList, Bool.and_eq_true]
    exact ⟨equal_of_bare t u proper.1 same.1, equalList_of_bare ts us proper.2 same.2⟩

end

end TastyLang.Ty
