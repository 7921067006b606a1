import TastyLang.Proofs.Evaluation
import TastyLang.Proofs.Resolution.Completeness
import TastyLang.Proofs.Ty.Bare

/-!
# Upper bounds of two types

What two types have in common fits both of them, but for pointers of more than one level. There
`unify` still goes from a class to its base, and `convertible` does not (`Ty.Deep`).
`unify_bounds_iff` says so of `unify`, and of the result that is inferred for a function with two
returns.
-/

namespace TastyLang

namespace Ty

variable {h : Hierarchy} {a b t u : Ty}

/-! ### Types of values -/

/-- The type of a value: references and bindings aside. -/
def value : Ty → Ty
  | via _ t => value t
  | reference t _ => value t
  | t => t

theorem value_ne_via {b : String} (t : Ty) : t.value ≠ via b u := by
  fun_induction value t with
  | case1 _ t ih => exact ih
  | case2 t _ ih => exact ih
  | case3 t alone direct => exact alone _ _

theorem value_ne_reference {c : Bool} (t : Ty) : t.value ≠ reference u c := by
  fun_induction value t with
  | case1 _ t ih => exact ih
  | case2 t _ ih => exact ih
  | case3 t alone direct => exact direct _ _

/-- No binding stands for a binding. -/
def Once : Ty → Prop
  | via _ t => (∀ b u, t ≠ via b u) ∧ Once t
  | reference t _ => Once t
  | _ => True

/-- A type as declarations make them: all of its parts are valid, and it is named through one binding
at a time. -/
structure Formed (t : Ty) : Prop where
  proper : t.Proper
  once : t.Once

theorem value_deref (t : Ty) : t.deref.value = t.value := by
  fun_induction deref t with
  | case1 t c ih => rw [ih, value]
  | case2 b u c ih => rw [ih, value, value]
  | case3 => rfl
  | case4 => rfl

theorem deref_core (once : t.Once) : t.deref.core = t.value := by
  fun_induction deref t with
  | case1 t c ih =>
    rw [value]
    exact ih once
  | case2 b u c ih =>
    rw [value, value]
    exact ih once.2
  | case3 b t plain =>
    rw [core, value]
    have alone := once.1
    cases t <;> first | rfl | exact absurd rfl (plain _ _) | exact absurd rfl (alone _ _)
  | case4 t other plain =>
    cases t <;> first | rfl | exact absurd rfl (plain _ _) | exact absurd rfl (other _ _)

theorem isUnknown_value (known : t.isUnknown = true) : t.value.isUnknown = true := by
  fun_induction value t with
  | case1 _ t ih => exact ih known
  | case2 t _ ih => simp [isUnknown] at known
  | case3 => exact known

theorem Proper.value (proper : t.Proper) : t.value.Proper := by
  fun_induction Ty.value t with
  | case1 _ t ih => exact ih proper
  | case2 t _ ih => exact ih proper
  | case3 => exact proper

/-! ### Equal types -/

theorem equal_refl (proper : t.Proper) : t.equal t = true := equal_of_bare t t proper rfl

theorem equalCore_core (u : Ty) : (t : Ty) → t.core.equalCore u = t.equalCore u
  | via _ t => equalCore_core u t
  | void | null | prim _ | cls _ _ | enum _ | scope _ | template _ _ | tuple _ | pointer _ _
  | reference _ _ | smart _ _ | func _ _ | range _ | unknown _ | invalid | absent => rfl

theorem equal_core_left (t u : Ty) : t.core.equal u = t.equal u := equalCore_core u.core t

theorem equal_symm_of_core (cores : ∀ v, (∀ c w, v ≠ via c w) → a.equal v = v.equal a) :
    a.equal b = b.equal a := by
  rw [← equal_core_right, ← equal_core_left b a]
  exact cores b.core fun _ _ => core_ne_via b

theorem both_congr {p p' q q' : Bool} (left : p = p') (right : q = q') : (p && q) = (p' && q') := by
  rw [left, right]

mutual

theorem equal_symm : (a b : Ty) → a.equal b = b.equal a
  | via c a, b => equal_symm a b
  | template base args, b => by
    refine equal_symm_of_core fun v plain => ?_
    cases v with
    | template base' args' => exact both_congr (equal_symm base base') (equalList_symm args args')
    | via => exact absurd rfl (plain _ _)
    | _ => rfl
  | tuple elems, b => by
    refine equal_symm_of_core fun v plain => ?_
    cases v with
    | tuple elems' => exact equalList_symm elems elems'
    | via => exact absurd rfl (plain _ _)
    | _ => rfl
  | func params result, b => by
    refine equal_symm_of_core fun v plain => ?_
    cases v with
    | func params' result' => exact both_congr (equal_symm result result') (equalList_symm params params')
    | via => exact absurd rfl (plain _ _)
    | _ => rfl
  | range elem, b => by
    refine equal_symm_of_core fun v plain => ?_
    cases v with
    | range elem' => exact equal_symm elem elem'
    | via => exact absurd rfl (plain _ _)
    | _ => rfl
  | pointer elem _, b => by
    refine equal_symm_of_core fun v plain => ?_
    cases v with
    | pointer elem' _ => exact both_congr BEq.comm (equal_symm elem elem')
    | via => exact absurd rfl (plain _ _)
    | _ => rfl
  | reference elem _, b => by
    refine equal_symm_of_core fun v plain => ?_
    cases v with
    | reference elem' _ => exact both_congr BEq.comm (equal_symm elem elem')
    | via => exact absurd rfl (plain _ _)
    | _ => rfl
  | smart elem _, b => by
    refine equal_symm_of_core fun v plain => ?_
    cases v with
    | smart elem' _ => exact both_congr BEq.comm (equal_symm elem elem')
    | via => exact absurd rfl (plain _ _)
    | _ => rfl
  | void, b | null, b | prim _, b | cls _ _, b | enum _, b | scope _, b | unknown _, b | invalid, b
  | absent, b => by
    refine equal_symm_of_core fun v plain => ?_
    cases v <;> first | rfl | exact absurd rfl (plain _ _) | exact BEq.comm

theorem equalList_symm : (as bs : List Ty) → equalList as bs = equalList bs as
  | [], [] | [], _ :: _ | _ :: _, [] => by simp [equalList]
  | a :: as, b :: bs => by
    show (a.equal b && equalList as bs) = (b.equal a && equalList bs as)
    rw [equal_symm a b, equalList_symm as bs]

end

theorem value_core : (t : Ty) → t.core.value = t.value
  | via _ t => value_core t
  | void | null | prim _ | cls _ _ | enum _ | scope _ | template _ _ | tuple _ | pointer _ _
  | reference _ _ | smart _ _ | func _ _ | range _ | unknown _ | invalid | absent => rfl

theorem equal_value : (a b : Ty) → a.equal b = true → a.value.equal b.value = true
  | via _ a, b, same => equal_value a b same
  | reference a c, b, same => by
    rw [← equal_core_right] at same
    rw [← value_core b]
    have plain := fun c w => core_ne_via (b := c) (u := w) b
    cases shape : b.core <;>
      simp only [shape, equal, core, equalCore, Bool.and_eq_true, Bool.false_eq_true] at same
    · rw [value, value]
      exact equal_value a _ same.2
    · exact absurd shape (plain _ _)
  | void, b, same | null, b, same | prim _, b, same | cls _ _, b, same | enum _, b, same
  | scope _, b, same | template _ _, b, same | tuple _, b, same | pointer _ _, b, same
  | smart _ _, b, same | func _ _, b, same | range _, b, same | unknown _, b, same
  | invalid, b, same | absent, b, same => by
    rw [← equal_core_right] at same
    rw [← value_core b]
    have plain := fun c w => core_ne_via (b := c) (u := w) b
    cases shape : b.core <;> rw [shape] at same
    case via => exact absurd shape (plain _ _)
    case reference => simp [equal, core, equalCore] at same
    all_goals exact same

/-! ### What fits -/

theorem convertible_value_left (a : Ty) : a.value.convertible h b = a.convertible h b := by
  fun_induction value a with
  | case1 _ a ih => rw [ih, convertible]
  | case2 a _ ih => rw [ih, convertible]
  | case3 => rfl

theorem convertible_of (once : b.Once)
    (fits : (a.value.isUnknown || b.value.isUnknown || a.value.equal b.value) = true) :
    a.convertible h b = true := by
  rw [← convertible_value_left]
  rw [← deref_core once] at fits
  have alone := fun c u => value_ne_via (b := c) (u := u) a
  have direct := fun u c => value_ne_reference (u := u) (c := c) a
  generalize a.value = d at fits alone direct
  unfold convertible
  split
  · exact absurd rfl (alone _ _)
  · exact absurd rfl (direct _ _)
  · dsimp only
    split
    · rfl
    · split
      · rfl
      · simp_all

theorem convertible_pointer {x y : Ty} {n m : Nat} (once : b.Once) (place : a.value = pointer x n)
    (given : b.value = pointer y m) : a.convertible h b = true ↔
      n = m ∧ (x.equal y = true ∨ x.isUnknown = true ∨ y.isUnknown = true ∨
        n = 1 ∧ h.isSubclass y x = true) := by
  rw [← convertible_value_left, place]
  rw [← deref_core once] at given
  unfold convertible
  have whole : (pointer x n).equal (pointer y m) = (n == m && x.equal y) := rfl
  simp only [given, isUnknown, whole]
  grind

theorem convertible_null (once : b.Once) (given : b.value = null)
    (likely : a.value.isPointerLike = true) : a.convertible h b = true := by
  rw [← convertible_value_left]
  rw [← deref_core once] at given
  have alone := fun c u => value_ne_via (b := c) (u := u) a
  generalize a.value = d at likely alone
  cases d with
  | via c u => exact absurd rfl (alone c u)
  | pointer _ _ | smart _ _ | null | prim _ => simp_all [convertible, isPointerLike]
  | _ => simp [isPointerLike] at likely

theorem convertible_number {p q : Primitive} (once : b.Once) (place : a.value = prim p)
    (given : b.value = prim q) (numbers : 1 ≤ p.rank ∧ 1 ≤ q.rank) (wide : q.rank ≤ p.rank) :
    a.convertible h b = true := by
  rw [← convertible_value_left, place]
  rw [← deref_core once] at given
  simp [convertible, given, numbers, wide]

/-! ### What two types have in common -/

/-- Pointers of the same level above the first, to different known types. -/
def Deep (a b : Ty) : Prop :=
  ∃ x y n, a.value = pointer x n ∧ b.value = pointer y n ∧ n ≠ 1 ∧
    x.isUnknown = false ∧ y.isUnknown = false ∧ x.equal y = false

/-- What two types have in common is one of them, and fits both for one of these reasons. -/
theorem unify_cases (left : a.Once) (right : b.Once) (unified : unify h a b = some u) :
    (u.value = a.value ∨ u.value = b.value) ∧
      ((a.value.isUnknown || b.value.isUnknown || a.value.equal b.value) = true ∨
        (∃ p q, a.value = prim p ∧ b.value = prim q ∧ 1 ≤ p.rank ∧ 1 ≤ q.rank ∧
          (p.rank < q.rank ∧ u.value = b.value ∨ q.rank ≤ p.rank ∧ u.value = a.value)) ∨
        (a.value = null ∧ b.value.isPointerLike = true ∧ u.value = b.value) ∨
        (b.value = null ∧ a.value.isPointerLike = true ∧ u.value = a.value) ∨
        ∃ x y n, a.value = pointer x n ∧ b.value = pointer y n ∧
          (u.value = a.value ∧ h.isSubclass y x = true ∨ u.value = b.value ∧ h.isSubclass x y = true)) := by
  have whole : a.deref.equal b.deref = a.value.equal b.value := by
    rw [← equal_core_left, ← equal_core_right, deref_core left, deref_core right]
  have strange (t : Ty) (absent : Hierarchy.isAbsent t = true) : t.value.isUnknown = true := by
    cases t <;> first | rfl | cases absent
  unfold unify at unified
  simp only [deref_core left, deref_core right, whole] at unified
  by_cases absent : Hierarchy.isAbsent a = true
  · rw [if_pos absent] at unified
    cases unified
    simp [strange a absent]
  by_cases absent' : Hierarchy.isAbsent b = true
  · rw [if_neg absent, if_pos absent'] at unified
    cases unified
    simp [strange b absent']
  rw [if_neg absent, if_neg absent'] at unified
  by_cases known : a.isUnknown = true
  · rw [if_pos known] at unified
    cases unified
    simp [isUnknown_value known]
  by_cases known' : b.isUnknown = true
  · rw [if_neg known, if_pos known'] at unified
    cases unified
    simp [isUnknown_value known']
  rw [if_neg known, if_neg known'] at unified
  by_cases same : a.equal b = true
  · rw [if_pos same] at unified
    cases unified
    simp [equal_value a b same]
  by_cases same' : a.value.equal b.value = true
  · rw [if_neg same, if_pos same'] at unified
    cases unified
    simp [value_deref, same']
  rw [if_neg same, if_neg same'] at unified
  split at unified
  · next p q number number' =>
    split at unified
    · next ranks =>
      simp only [Bool.and_eq_true, decide_eq_true_eq] at ranks
      cases unified
      by_cases wide : p.rank < q.rank
      · rw [if_pos wide, value_deref]
        exact ⟨.inr rfl, .inr (.inl ⟨p, q, number, number', ranks.1, ranks.2, .inl ⟨wide, rfl⟩⟩)⟩
      · rw [if_neg wide, value_deref]
        exact ⟨.inl rfl, .inr (.inl ⟨p, q, number, number', ranks.1, ranks.2, .inr ⟨by omega, rfl⟩⟩)⟩
    · cases unified
  · next nothing =>
    split at unified
    · next likely =>
      cases unified
      rw [value_deref]
      exact ⟨.inr rfl, .inr (.inr (.inl ⟨nothing, likely, rfl⟩))⟩
    · cases unified
  · next nothing _ =>
    split at unified
    · next likely =>
      cases unified
      rw [value_deref]
      exact ⟨.inl rfl, .inr (.inr (.inr (.inl ⟨nothing, likely, rfl⟩)))⟩
    · cases unified
  · next x n y m pointer pointer' =>
    split at unified
    · cases unified
    · next level =>
      have level : n = m := by simpa using level
      subst level
      split at unified
      · next below =>
        cases unified
        rw [value_deref]
        exact ⟨.inl rfl, .inr (.inr (.inr (.inr ⟨x, y, n, pointer, pointer', .inl ⟨rfl, below⟩⟩)))⟩
      · split at unified
        · next above =>
          cases unified
          rw [value_deref]
          exact ⟨.inr rfl, .inr (.inr (.inr (.inr ⟨x, y, n, pointer, pointer', .inr ⟨rfl, above⟩⟩)))⟩
        · cases unified
  · cases unified

/-- What two types have in common fits both, unless they are pointers of more than one level to
different types. -/
theorem convertible_unify (left : a.Formed) (right : b.Formed) (unified : unify h a b = some u) :
    u.convertible h a = true ∧ u.convertible h b = true ↔ ¬ Deep a b := by
  obtain ⟨one, reason⟩ := unify_cases left.once right.once unified
  have own := equal_refl left.proper.value
  have own' := equal_refl right.proper.value
  have turn := equal_symm a.value b.value
  constructor
  · rintro ⟨fits, fits'⟩ ⟨x, y, n, place, place', high, known, known', differ⟩
    have differ' : y.equal x = false := equal_symm x y ▸ differ
    rcases one with one | one
    · rw [convertible_pointer right.once (one.trans place) place'] at fits'
      simp [differ, known, known', high] at fits'
    · rw [convertible_pointer left.once (one.trans place') place] at fits
      simp [differ', known, known', high] at fits
  · intro shallow
    rcases reason with trivially | ⟨p, q, number, number', rank, rank', wider⟩ |
      ⟨nothing, likely, result⟩ | ⟨nothing, likely, result⟩ | ⟨x, y, n, place, place', related⟩
    · constructor
      · refine convertible_of left.once ?_
        rcases one with one | one <;> rw [one] <;> grind
      · refine convertible_of right.once ?_
        rcases one with one | one <;> rw [one] <;> grind
    · rcases wider with ⟨wide, one⟩ | ⟨wide, one⟩
      · rw [number'] at one
        exact ⟨convertible_number left.once one number ⟨rank', rank⟩ (by omega),
          convertible_number right.once one number' ⟨rank', rank'⟩ (by omega)⟩
      · rw [number] at one
        exact ⟨convertible_number left.once one number ⟨rank, rank⟩ (by omega),
          convertible_number right.once one number' ⟨rank, rank'⟩ (by omega)⟩
    · rw [← result] at likely
      exact ⟨convertible_null left.once nothing likely,
        convertible_of right.once (by rw [result, own', Bool.or_true])⟩
    · rw [← result] at likely
      exact ⟨convertible_of left.once (by rw [result, own, Bool.or_true]),
        convertible_null right.once nothing likely⟩
    · have level : n = 1 ∨ x.isUnknown = true ∨ y.isUnknown = true ∨ x.equal y = true := by
        refine Decidable.byContradiction fun none => ?_
        simp only [not_or, Bool.not_eq_true] at none
        exact shallow ⟨x, y, n, place, place', none⟩
      rcases related with ⟨one, below⟩ | ⟨one, above⟩
      · refine ⟨convertible_of left.once (by rw [one, own, Bool.or_true]), ?_⟩
        rw [convertible_pointer right.once (one.trans place) place']
        grind
      · refine ⟨?_, convertible_of right.once (by rw [one, own', Bool.or_true])⟩
        rw [convertible_pointer left.once (one.trans place') place, equal_symm y x]
        grind

/-! ### Inferred results -/

section

open Resolution

theorem assignable_ok : t.assignable h u = .ok () ↔ t.convertible h u = true := by
  unfold assignable
  split <;> simp [*]

theorem common_pair (h : Hierarchy) (a b : Ty) : common h [a, b] = unify h a b := by
  have first : unify h absent a = some a := by
    unfold unify
    exact if_pos rfl
  simp [common, first]

theorem state_bind (f : State → Resolver Ty) (s : State) : (get >>= f) s = f s s := rfl

theorem inferResult_some {table : Table} {st : FuncState} {s : State} {ts : List Ty}
    (found : common s.info.hierarchy (a :: ts) = some u) :
    inferResult table st (a :: ts) s = .ok (u.deref, s) := by
  unfold inferResult
  dsimp only
  rw [state_bind, found]
  rfl

theorem inferResult_none {table : Table} {st : FuncState} {s : State} {ts : List Ty}
    (found : common s.info.hierarchy (a :: ts) = none) :
    inferResult table st (a :: ts) s =
      failType (.ambiguous st.decl.name ((a :: ts).map (·.text))) st.decl.info.span.start s := by
  unfold inferResult
  dsimp only
  rw [state_bind, found]

theorem inferResult_run {table : Table} {st : FuncState} {s : State}
    (unified : unify s.info.hierarchy a b = some u) :
    inferResult table st [a, b] s = .ok (u.deref, s) :=
  inferResult_some ((common_pair ..).trans unified)

theorem convertible_value (t : Ty) : t.deref.convertible h u = t.convertible h u := by
  rw [← convertible_value_left, value_deref, convertible_value_left]

/-- What two types have in common fits both of them exactly if they are no pointers above the first
level to different types. So does the result that is inferred for a function that returns both. -/
theorem unify_bounds_iff (left : a.Formed) (right : b.Formed) (unified : unify h a b = some u) :
    (u.convertible h a = true ∧ u.convertible h b = true ↔ ¬ Deep a b) ∧
      ∀ (table : Table) (st : FuncState) (s : State), s.info.hierarchy = h →
        ∃ result, inferResult table st [a, b] s = .ok (result, s) ∧
          ((∀ t ∈ [a, b], result.assignable h t = .ok ()) ↔ ¬ Deep a b) := by
  have bound := convertible_unify left right unified
  refine ⟨bound, fun table st s same => ?_⟩
  subst same
  refine ⟨u.deref, inferResult_run unified, ?_⟩
  rw [← bound]
  simp [assignable_ok, convertible_value]

/-- A pointer to a class and one to its base. -/
theorem unify_bounds_iff_of_classes :
    let h : Hierarchy := ⟨[[], [.cls "B" 0]]⟩
    let a := pointer (.cls "B" 0) 1
    let b := pointer (.cls "D" 1) 1
    ∃ u, unify h a b = some u ∧
      (u.convertible h a = true ∧ u.convertible h b = true ↔ ¬ Deep a b) ∧
      ∃ t, inferResult Table.default default [a, b] { info := { hierarchy := h } } =
        .ok (t, { info := { hierarchy := h } }) := by
  intro h a b
  obtain ⟨u, unified⟩ := Option.isSome_iff_exists.mp (by decide : (unify h a b).isSome = true)
  obtain ⟨bound, inferred⟩ := unify_bounds_iff (a := a) (b := b) ⟨trivial, trivial⟩ ⟨trivial, trivial⟩ unified
  obtain ⟨t, run, -⟩ := inferred Table.default default { info := { hierarchy := h } } rfl
  exact ⟨u, unified, bound, t, run⟩

end

end Ty

/-- The value that a statement returns. -/
def Node.returned? : Node → Option Expr
  | .stmt (.ret _ value _ _ _) => value
  | _ => none

/-- Two returns of pointers to pointers. -/
def pointersText : String := "class B {}
class D extends B {}
fn f(c: bool, p: B**, q: D**) {
    if c {
        return p;
    }
    return q;
}
"

/-- A function whose result is inferred from two returns, and what these return. -/
def Node.inferred? : Node → Option (FuncDecl × Expr × Expr)
  | .func f =>
    match f.infer, f.nodes.filterMap Node.returned? with
    | true, [p, q] => some (f, p, q)
    | _, _ => none
  | _ => none

/-- A function that returns a pointer that its result does not fit. -/
theorem result_leaves_return_out :
    ∃ file info f p q u, File.read Table.default "main.tasty" pointersText = .ok file ∧
      file.resolve Table.default = .ok info ∧ .func f ∈ file.nodes ∧ f.infer = true ∧
      f.nodes.filterMap Node.returned? = [p, q] ∧
      Ty.unify info.hierarchy (info.typeOf p) (info.typeOf q) = some u ∧
      u.convertible info.hierarchy (info.typeOf q) = false ∧
      (info.result f).convertible info.hierarchy (info.typeOf q) = false := by
  have found : (resolved? Table.default "main.tasty" pointersText).any (fun r =>
      r.1.nodes.any fun n => n.inferred?.any fun q =>
        (Ty.unify r.2.hierarchy (r.2.typeOf q.2.1) (r.2.typeOf q.2.2)).any (fun u =>
          !u.convertible r.2.hierarchy (r.2.typeOf q.2.2)) &&
        !(r.2.result q.1).convertible r.2.hierarchy (r.2.typeOf q.2.2)) = true := by
    rw [resolved?, pointersText, File.read_ofList]
    decide +kernel
  obtain ⟨⟨file, info⟩, steps, here⟩ := (Option.any_eq_true _ _).mp found
  obtain ⟨read, resolved⟩ := resolved?_some steps
  obtain ⟨n, inside, here⟩ := List.any_eq_true.mp here
  obtain ⟨⟨f, p, q⟩, shape, here⟩ := (Option.any_eq_true _ _).mp here
  simp only [Bool.and_eq_true, Bool.not_eq_true', Option.any_eq_true] at here
  obtain ⟨⟨u, unified, out⟩, out'⟩ := here
  unfold Node.inferred? at shape
  split at shape
  · split at shape
    · next f' p' q' inferred returned =>
      cases shape
      exact ⟨file, info, f, p, q, u, read, resolved, inside, inferred, returned, unified, out, out'⟩
    · cases shape
  · cases shape

end TastyLang
