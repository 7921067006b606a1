import TastyLang.Proofs.Ty.Conversion

/-!
# Casts

The rules of the language forbid casts between tuples and other values, casts from and to no value,
dynamic casts of what is neither a pointer nor a reference, and static casts between pointers and
primitives that are no integers (`Ty.Breaks`). These casts are refused; beside them only dynamic casts of
references, unless they refer to a pointer (`Ty.cast_refused_iff`).
-/

namespace TastyLang.Ty

variable {t src dst : Ty} {kind : CastKind} {fault : CastFault}

/-! ### Sorts of values -/

def Groups (t : Ty) : Prop := ∃ ts, t.value = tuple ts

def Points (t : Ty) : Prop := (∃ x n, t.value = pointer x n) ∨ ∃ x u, t.value = smart x u

def PointsRaw (t : Ty) : Prop := ∃ x n, t.value = pointer x n

/-- Values of the type are primitive and no integers. -/
def Uncountable (t : Ty) : Prop := ∃ p, t.value = prim p ∧ p.integer = false

def Refers (t : Ty) : Prop := ∃ u isConst, t.core = reference u isConst

/-- The rules that a cast can break. -/
inductive Breaks (src dst : Ty) : CastKind → CastFault → Prop
  | tupleMismatch {kind : CastKind} (one : ¬ (src.Groups ↔ dst.Groups)) : Breaks src dst kind .tupleMismatch
  | voidValue {kind : CastKind} (none : src.value = void ∨ dst.value = void) : Breaks src dst kind .voidValue
  | notPointer (direct : ¬ src.Points) (value : ¬ src.Refers) : Breaks src dst .dynamic .notPointer
  | fromPointer (given : src.PointsRaw ∨ src.value = null) (place : dst.Uncountable) :
    Breaks src dst .static .nonInteger
  | toPointer (place : dst.PointsRaw) (given : src.Uncountable) : Breaks src dst .static .nonInteger

/-- A reference that leads to no pointer. -/
structure RefersToValue (t : Ty) : Prop where
  refers : t.Refers
  value : ¬ t.Points

theorem not_uncountable (raw : t.PointsRaw ∨ t.value = null) : ¬ t.Uncountable := by
  rintro ⟨p, shape, -⟩
  rcases raw with ⟨x, n, shape'⟩ | shape' <;> cases shape.symm.trans shape'

/-! ### What is checked -/

theorem isTuple_value : t.value.isTuple = true ↔ t.Groups := by
  have regular := fun b u => value_ne_via (b := b) (u := u) t
  unfold Groups
  generalize t.value = v at regular
  cases v with
  | via b u => exact absurd rfl (regular b u)
  | _ => simp [isTuple]

theorem isVoid_value : t.value.isVoid = true ↔ t.value = void := by
  have regular := fun b u => value_ne_via (b := b) (u := u) t
  generalize t.value = v at regular
  cases v with
  | via b u => exact absurd rfl (regular b u)
  | _ => simp [isVoid]

theorem primitive?_value {p : Primitive} : t.value.primitive? = some p ↔ t.value = prim p := by
  have regular := fun b u => value_ne_via (b := b) (u := u) t
  generalize t.value = v at regular
  cases v with
  | via b u => exact absurd rfl (regular b u)
  | _ => simp [primitive?]

/-- The check of a primitive that stands against a pointer. -/
def nonInteger? (t : Ty) : Option CastFault :=
  match t.primitive? with
  | some p => if p.integer then none else some .nonInteger
  | none => none

theorem nonInteger?_value : t.value.nonInteger? = some fault ↔ fault = .nonInteger ∧ t.Uncountable := by
  unfold nonInteger? Uncountable
  constructor
  · intro found
    split at found
    · next p is =>
      by_cases integer : p.integer = true
      · rw [if_pos integer] at found
        cases found
      · rw [if_neg integer] at found
        exact ⟨(Option.some.inj found).symm, p, primitive?_value.mp is, eq_false_of_ne_true integer⟩
    · cases found
  · rintro ⟨rfl, p, is, broken⟩
    rw [primitive?_value.mpr is]
    simp [broken]

def isPointing : Ty → Bool
  | pointer _ _ | smart _ _ => true
  | _ => false

theorem isPointing_value : t.value.isPointing = true ↔ t.Points := by
  unfold Points
  cases t.value <;> simp [isPointing]

def isRaw : Ty → Bool
  | pointer _ _ => true
  | _ => false

def isRawOrNull : Ty → Bool
  | pointer _ _ | null => true
  | _ => false

theorem isRaw_value : t.value.isRaw = true ↔ t.PointsRaw := by
  unfold PointsRaw
  cases t.value <;> simp [isRaw]

theorem isRawOrNull_value : t.value.isRawOrNull = true ↔ t.PointsRaw ∨ t.value = null := by
  unfold PointsRaw
  cases t.value <;> simp [isRawOrNull]

section
variable (once : src.Once) (once' : dst.Once) (known : src.value.isUnknown = false)
  (known' : dst.value.isUnknown = false)
include once once' known known'

theorem castFault?_of_mismatch (one : ¬ (src.Groups ↔ dst.Groups)) :
    castFault? src dst kind = some .tupleMismatch := by
  have differ : src.value.isTuple ≠ dst.value.isTuple := by
    intro same
    apply one
    rw [← isTuple_value, ← isTuple_value, same]
  unfold castFault?
  simp [deref_core once, deref_core once', known, known', differ]

theorem castFault?_of_void (same : src.Groups ↔ dst.Groups) (none : src.value = void ∨ dst.value = void) :
    castFault? src dst kind = some .voidValue := by
  rw [← isTuple_value, ← isTuple_value, ← Bool.eq_iff_iff] at same
  rw [← isVoid_value, ← isVoid_value] at none
  unfold castFault?
  simp [deref_core once, deref_core once', known, known', same, none]

section
variable (same : src.Groups ↔ dst.Groups) (full : ¬ (src.value = void ∨ dst.value = void))
include same full

theorem castFault?_form : castFault? src dst kind =
    match kind with
    | .dynamic => if src.value.isPointing then none else some .notPointer
    | .static =>
      if src.value.isRawOrNull != dst.value.isRaw then
        (if dst.value.isRaw then src.value else dst.value).nonInteger?
      else none
    | .plain | .reinterpret => none := by
  rw [← isTuple_value, ← isTuple_value, ← Bool.eq_iff_iff] at same
  rw [← isVoid_value, ← isVoid_value] at full
  unfold castFault?
  simp only [deref_core once, deref_core once', known, known', same, full, bne_self_eq_false,
    Bool.or_self, Bool.or_eq_true, Bool.false_eq_true, if_false]
  cases kind with
  | dynamic => cases src.value <;> rfl
  | static | plain | reinterpret => rfl

theorem castFault?_dynamic :
    castFault? src dst .dynamic = some fault ↔ fault = .notPointer ∧ ¬ src.Points := by
  rw [castFault?_form once once' known known' same full, ← isPointing_value]
  cases src.value.isPointing <;> simp [eq_comm]

theorem castFault?_static : castFault? src dst .static = some fault ↔
    fault = .nonInteger ∧ ((src.PointsRaw ∨ src.value = null) ∧ dst.Uncountable ∨
      dst.PointsRaw ∧ src.Uncountable) := by
  rw [castFault?_form once once' known known' same full]
  dsimp only
  -- primitives stand on the other side of the pointer
  cases place : dst.value.isRaw with
  | true =>
    have raw := isRaw_value.mp place
    cases given : src.value.isRawOrNull with
    | true =>
      have lead := isRawOrNull_value.mp given
      simp [not_uncountable (.inl raw), not_uncountable lead]
    | false =>
      simp [nonInteger?_value, raw, not_uncountable (.inl raw)]
  | false =>
    have other : ¬ dst.PointsRaw := by simp [← isRaw_value, place]
    rw [← isRawOrNull_value]
    cases given : src.value.isRawOrNull with
    | true => simp [nonInteger?_value, other]
    | false => simp [other]

end

/-- A refused cast breaks the rule that it is refused for, or is a dynamic cast of a reference to a value;
another cast breaks no rule. -/
theorem castFault?_cases :
    (∃ fault, castFault? src dst kind = some fault ∧
      (Breaks src dst kind fault ∨ kind = .dynamic ∧ fault = .notPointer ∧ src.RefersToValue)) ∨
    castFault? src dst kind = none ∧ (∀ fault, ¬ Breaks src dst kind fault) ∧
      ¬ (kind = .dynamic ∧ src.RefersToValue) := by
  by_cases same : src.Groups ↔ dst.Groups
  swap
  · exact .inl ⟨_, castFault?_of_mismatch once once' known known' same, .inl (.tupleMismatch same)⟩
  by_cases full : src.value = void ∨ dst.value = void
  · exact .inl ⟨_, castFault?_of_void once once' known known' same full, .inl (.voidValue full)⟩
  cases kind with
  | plain | reinterpret =>
    refine .inr ⟨?_, ?_, nofun⟩
    · exact castFault?_form once once' known known' same full
    · rintro _ (one | none)
      · exact one same
      · exact full none
  | dynamic =>
    by_cases points : src.Points
    · refine .inr ⟨?_, ?_, fun broken => broken.2.value points⟩
      · rw [Option.eq_none_iff_forall_ne_some]
        intro fault found
        exact ((castFault?_dynamic once once' known known' same full).mp found).2 points
      · rintro _ (one | none | ⟨direct, -⟩)
        · exact one same
        · exact full none
        · exact direct points
    · refine .inl ⟨_, (castFault?_dynamic once once' known known' same full).mpr ⟨rfl, points⟩, ?_⟩
      by_cases refers : src.Refers
      · exact .inr ⟨rfl, rfl, refers, points⟩
      · exact .inl (.notPointer points refers)
  | static =>
    have found : ∀ fault, castFault? src dst .static = some fault ↔ _ :=
      fun _ => castFault?_static once once' known known' same full
    by_cases broken : (src.PointsRaw ∨ src.value = null) ∧ dst.Uncountable ∨
        dst.PointsRaw ∧ src.Uncountable
    · refine .inl ⟨_, (found _).mpr ⟨rfl, broken⟩, .inl ?_⟩
      exact broken.elim (fun h => .fromPointer h.1 h.2) (fun h => .toPointer h.1 h.2)
    · refine .inr ⟨?_, ?_, nofun⟩
      · rw [Option.eq_none_iff_forall_ne_some]
        intro fault there
        exact broken ((found fault).mp there).2
      · rintro _ (one | none | _ | ⟨given, place⟩ | ⟨place, given⟩)
        · exact one same
        · exact full none
        · exact broken (.inl ⟨given, place⟩)
        · exact broken (.inr ⟨place, given⟩)

/-- Casts between known types are refused if and only if they break one of the rules, or are dynamic casts of
references that lead to no pointer. The error tells both types without references, the form of the cast, and
the rule. -/
theorem cast_refused_iff :
    ((∃ cause, checkCast src dst kind = .error cause) ↔
      (∃ fault, Breaks src dst kind fault) ∨ kind = .dynamic ∧ src.RefersToValue) ∧
    ∀ cause, checkCast src dst kind = .error cause → ∃ fault, cause = .cast src.deref dst.deref kind fault ∧
      (Breaks src dst kind fault ∨ kind = .dynamic ∧ fault = .notPointer ∧ src.RefersToValue) := by
  unfold checkCast
  have outcome : (∃ fault, castFault? src dst kind = some fault ∧ _) ∨ _ :=
    castFault?_cases once once' known known'
  rcases outcome with ⟨fault, found, why⟩ | ⟨found, kept, other⟩
  · rw [found]
    refine ⟨iff_of_true ⟨_, rfl⟩ ?_, fun cause refused => ⟨fault, (Except.error.inj refused).symm, why⟩⟩
    exact why.imp (fun broken => ⟨fault, broken⟩) (fun broken => ⟨broken.1, broken.2.2⟩)
  · rw [found]
    refine ⟨iff_of_false (fun ⟨_, refused⟩ => nomatch refused) ?_, fun _ refused => nomatch refused⟩
    rintro (⟨fault, broken⟩ | broken)
    · exact kept fault broken
    · exact other broken

end

/-- A dynamic cast of a reference to an object. -/
theorem cast_refused_iff_of_reference :
    let src := reference (cls "W" 0) false
    let dst := pointer (cls "D" 1) 1
    src.Once ∧ dst.Once ∧ src.value.isUnknown = false ∧ dst.value.isUnknown = false ∧
      ((∃ cause, checkCast src dst .dynamic = .error cause) ↔
        (∃ fault, Breaks src dst .dynamic fault) ∨ CastKind.dynamic = .dynamic ∧ src.RefersToValue) := by
  intro src dst
  have once : src.Once := trivial
  have once' : dst.Once := trivial
  exact ⟨once, once', rfl, rfl, (cast_refused_iff once once' rfl rfl).1⟩

/-- No rule forbids the cast of a reference to a pointer. -/
theorem dynamic_cast_of_reference_refused :
    let src := reference (cls "W" 0) false
    let dst := pointer (cls "W" 0) 1
    (∀ fault, ¬ Breaks src dst .dynamic fault) ∧
      checkCast src dst .dynamic = .error (.cast (cls "W" 0) dst .dynamic .notPointer) := by
  intro src dst
  refine ⟨?_, rfl⟩
  rintro _ (one | none | ⟨-, value⟩)
  · exact one (iff_of_false (fun ⟨_, shape⟩ => nomatch shape) (fun ⟨_, shape⟩ => nomatch shape))
  · rcases none with shape | shape <;> cases shape
  · exact value ⟨_, _, rfl⟩

end TastyLang.Ty
