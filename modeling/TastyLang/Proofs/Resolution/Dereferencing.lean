import Mathlib.Logic.Function.Iterate
import TastyLang.Proofs.Evaluation
import TastyLang.Proofs.Resolution.Completeness
import TastyLang.Proofs.Ty.Conversion

/-!
# Reaching members through pointers

Members are looked up in what all pointers of a receiver lead to (`Ty.pointee`), while its access is
written with as many dereferences as `Ty.pointerDepth` counts. The two meet unless a raw pointer on the
way points to a pointer (`Ty.depth_reaches_pointee_iff`).
-/

namespace TastyLang

open Resolution

namespace Ty

variable {p : Place} {t u : Ty}

/-! ### Levels -/

/-- All pointers in a row, raw and smart ones. -/
def levels : Ty → Nat
  | pointer elem n => n + levels elem
  | smart elem _ => 1 + levels elem
  | reference t _ => levels t
  | via _ t => levels t
  | _ => 0

/-- No raw pointer on the way points to a pointer. -/
def Straight : Ty → Prop
  | pointer elem _ => levels elem = 0
  | smart elem _ => Straight elem
  | reference t _ => Straight t
  | via _ t => Straight t
  | _ => True

theorem levels_value (t : Ty) : t.value.levels = t.levels := by
  fun_induction value t with
  | case1 b t ih => rw [ih, levels]
  | case2 t c ih => rw [ih, levels]
  | case3 => rfl

theorem levels_deref (t : Ty) : t.deref.levels = t.levels := by
  rw [← levels_value, value_deref, levels_value]

theorem levels_core : (t : Ty) → t.core.levels = t.levels
  | via _ t => levels_core t
  | void | null | prim _ | cls _ _ | enum _ | scope _ | template _ _ | tuple _ | pointer _ _
  | reference _ _ | smart _ _ | func _ _ | range _ | unknown _ | invalid | absent => rfl

theorem levels_pointerTo (t : Ty) (n : Nat) : (t.pointerTo n).levels = n + t.levels := by
  obtain rfl | real := Nat.eq_zero_or_pos n
  · rw [pointerTo, if_pos rfl, Nat.zero_add]
  · rcases pointerTo_cases t real with ⟨x, k, shape, made⟩ | ⟨-, made⟩
    · rw [made, ← levels_core t, shape, levels, levels]
      omega
    · rw [made, levels]

theorem pointerDepth_le_levels : (t : Ty) → t.pointerDepth ≤ t.levels
  | pointer _ _ => by rw [pointerDepth, levels]; omega
  | smart elem _ => by
    have := pointerDepth_le_levels elem
    rw [pointerDepth, levels]
    omega
  | reference t _ | via _ t => pointerDepth_le_levels t
  | void | null | prim _ | cls _ _ | enum _ | scope _ | template _ _ | tuple _ | func _ _ | range _
  | unknown _ | invalid | absent => Nat.le_refl 0

theorem pointerDepth_eq_levels_iff : (t : Ty) → (t.pointerDepth = t.levels ↔ t.Straight)
  | pointer _ _ => by rw [pointerDepth, levels, Straight]; omega
  | smart elem _ => by
    rw [pointerDepth, levels, Straight, ← pointerDepth_eq_levels_iff elem]
    omega
  | reference t _ | via _ t => pointerDepth_eq_levels_iff t
  | void | null | prim _ | cls _ _ | enum _ | scope _ | template _ _ | tuple _ | func _ _ | range _
  | unknown _ | invalid | absent => iff_of_true rfl trivial

/-! ### What pointers lead to -/

theorem deref_cases (built : t.Built) : t.deref = t.value ∨ ∃ b, t.deref = via b t.value := by
  fun_induction deref t with
  | case1 t c ih => exact ih built.2
  | case2 b u c ih => exact ih built.2.2
  | case3 b t plain =>
    have once := built.1
    refine .inr ⟨b, congrArg (via b) ?_⟩
    cases t <;> first | rfl | exact absurd rfl (plain _ _) | exact absurd rfl (once _ _)
  | case4 t other plain =>
    cases t <;> first | exact .inl rfl | exact absurd rfl (plain _ _) | exact absurd rfl (other _ _)

theorem pointee_deref (built : t.Built) : t.deref.pointee = t.pointee := by
  fun_induction deref t with
  | case1 t c ih => exact ih built.2
  | case2 b u c ih => exact ih built.2.2
  | case3 => rfl
  | case4 => rfl

theorem pointee_of_flat (built : t.Built) (flat : t.levels = 0) : t.pointee = t.deref := by
  have part : t.value.Built := Every.value built
  rw [← levels_value] at flat
  rw [← pointee_deref built]
  have shape := deref_cases built
  have direct := fun u c => value_ne_reference (u := u) (c := c) t
  have alone := fun b u => value_ne_via (b := b) (u := u) t
  generalize t.deref = d at shape
  generalize t.value = v at part flat shape direct alone
  cases v with
  | pointer elem n =>
    have := part.1.1
    rw [levels] at flat
    omega
  | smart elem u =>
    rw [levels] at flat
    omega
  | reference u c => exact absurd rfl (direct u c)
  | via b u => exact absurd rfl (alone b u)
  | _ => rcases shape with rfl | ⟨b, rfl⟩ <;> rfl

theorem pointee_of_value {elem : Ty} (built : t.Built)
    (shape : (∃ n, t.value = pointer elem n) ∨ ∃ u, t.value = smart elem u) :
    t.pointee = elem.pointee := by
  rw [← pointee_deref built]
  rcases deref_cases built with direct | ⟨b, named⟩ <;> rcases shape with ⟨n, shape⟩ | ⟨u, shape⟩
  · rw [direct, shape, pointee]
  · rw [direct, shape, pointee]
  · rw [named, shape, pointee]
  · rw [named, shape, pointee]

theorem value_of_pointer {x : Ty} {n : Nat} : (t : Ty) → t.core = pointer x n → t.value = pointer x n
  | via _ t, core => value_of_pointer t core
  | pointer _ _, core => core

theorem pointee_pointerTo (built : t.Built) (n : Nat) : (t.pointerTo n).pointee = t.pointee := by
  obtain rfl | real := Nat.eq_zero_or_pos n
  · rw [pointerTo, if_pos rfl]
  · rcases pointerTo_cases t real with ⟨x, k, shape, made⟩ | ⟨-, made⟩
    · rw [made, pointee]
      exact (pointee_of_value built (.inl ⟨k, value_of_pointer t shape⟩)).symm
    · rw [made, pointee]

theorem levels_pointee (built : t.Built) : t.pointee.levels = 0 := by
  fun_induction pointee t with
  | case1 _ _ ih | case2 _ _ ih | case3 _ _ ih => exact ih built.2
  | case4 _ _ _ ih | case5 _ _ _ ih | case6 _ _ _ ih => exact ih built.2.2
  | case7 b t pointer smart reference =>
    have alone := built.1
    cases t with
    | pointer => exact absurd rfl (pointer _ _)
    | smart => exact absurd rfl (smart _ _)
    | reference => exact absurd rfl (reference _ _)
    | via => exact absurd rfl (alone _ _)
    | _ => rfl
  | case8 t pointer smart reference alone =>
    cases t with
    | pointer => exact absurd rfl (pointer _ _)
    | smart => exact absurd rfl (smart _ _)
    | reference => exact absurd rfl (reference _ _)
    | via => exact absurd rfl (alone _ _)
    | _ => rfl

/-! ### Dereferencing -/

theorem star_steps (built : t.Built) (deep : 0 < t.levels) :
    (unaryType p .star t).Built ∧ (unaryType p .star t).levels + 1 = t.levels ∧
      (unaryType p .star t).pointee = t.pointee := by
  have part : t.value.Built := Every.value built
  have leads : ∀ elem : Ty, ((∃ n, t.value = pointer elem n) ∨ ∃ u, t.value = smart elem u) →
      t.pointee = elem.pointee := fun _ => pointee_of_value built
  rw [← levels_value t] at deep ⊢
  simp only [unaryType, deref_core built.once]
  have direct := fun u c => value_ne_reference (u := u) (c := c) t
  have alone := fun b u => value_ne_via (b := b) (u := u) t
  generalize t.value = v at part deep leads direct alone
  cases v with
  | pointer elem n =>
    refine ⟨Built.pointerTo part.2 _, ?_, ?_⟩
    · have := part.1.1
      simp only [peeled, levels_pointerTo, levels]
      omega
    · simp only [peeled, pointee_pointerTo part.2, leads elem (.inl ⟨n, rfl⟩)]
  | smart elem u =>
    refine ⟨part.2, ?_, (leads elem (.inr ⟨u, rfl⟩)).symm⟩
    simp only [levels]
    omega
  | reference u c => exact absurd rfl (direct u c)
  | via b u => exact absurd rfl (alone b u)
  | _ => exact absurd deep (Nat.lt_irrefl 0)

theorem stars_step (built : t.Built) {k : Nat} (le : k ≤ t.levels) :
    ((unaryType p .star)^[k] t).Built ∧ ((unaryType p .star)^[k] t).levels + k = t.levels ∧
      ((unaryType p .star)^[k] t).pointee = t.pointee := by
  induction k with
  | zero => exact ⟨built, rfl, rfl⟩
  | succ k ih =>
    obtain ⟨inner, count, same⟩ := ih (by omega)
    obtain ⟨inner', count', same'⟩ := star_steps (p := p) inner (by omega)
    rw [Function.iterate_succ_apply']
    exact ⟨inner', by omega, same'.trans same⟩

theorem stars_reach_iff (built : t.Built) {k : Nat} (le : k ≤ t.levels) :
    ((unaryType p .star)^[k] t).deref = t.pointee ↔ k = t.levels := by
  obtain ⟨inner, count, same⟩ := stars_step (p := p) built le
  constructor
  · intro reached
    have flat := levels_pointee built
    rw [← reached, levels_deref] at flat
    omega
  · intro all
    rw [← same, pointee_of_flat inner (by omega)]

/-! ### Accesses -/

/-- The member that an access to a value of this type finds. -/
def foundMember (s : State) (t : Ty) (name : String) : Option SymbolId :=
  match t.pointee.core with
  | .cls c _ => (s.classes.lookup c).bind fun owner => s.member? owner name
  | _ => none

theorem access_on_value {s : State} {span : Span} {x : Expr} {name : String} {accessor : Accessor}
    {receiver : Ty} (value : s.info.typeNames.contains x.span = false) :
    ∃ s', access span x name accessor receiver s = .ok (foundMember s' receiver name, s') ∧
      s'.info.access[span]? = some (accessForm accessor false receiver) := by
  let noted (form : Access) : State :=
    { s with info := { s.info with access := s.info.access.insert span form } }
  have step : access span x name accessor receiver s =
      let onTypeName := s.info.typeNames.contains x.span
      let s' := noted (accessForm accessor onTypeName receiver)
      .ok (if onTypeName then (scopeSymbol? s'.info x).bind fun owner =>
          (s'.info.symbols.symbol owner).members.bind fun m => s'.info.symbols.lookupLocal? m name
        else (s'.classOf? receiver).bind fun c => s'.member? c name, s') := by
    unfold access
    change (if s.info.typeNames.contains x.span = true then Pure.pure _ else Pure.pure _ :
      Resolver (Option SymbolId)) _ = _
    dsimp only
    split <;> rfl
  refine ⟨noted (accessForm accessor false receiver), ?_, by simp [noted]⟩
  rw [step, value]
  unfold foundMember State.classOf?
  cases receiver.pointee.core <;> rfl

theorem render_dot (t : Ty) (receiver member : String) :
    (accessForm .dot false t).render receiver member =
      match t.pointerDepth with
      | 0 => receiver ++ "." ++ member
      | 1 => receiver ++ "->" ++ member
      | d + 2 => "(" ++ Text.repeated "*" (d + 1) ++ receiver ++ ")->" ++ member := by
  unfold accessForm
  rw [if_neg Bool.false_ne_true]
  match t.pointerDepth with
  | 0 => rfl
  | 1 => rfl
  | d + 2 =>
    have deep : ¬ ((d + 2 : Nat) : Int) ≤ 1 := by omega
    have stars : (((d + 2 : Nat) : Int) - 1).toNat = d + 1 := by omega
    simp only [Access.render, if_pos (show 1 ≤ d + 2 by omega), if_neg deep, stars]

/-- The dereferences that are written for an access with a dot, one for each level that `Ty.pointerDepth`
counts, reach what the member is looked up in exactly if no raw pointer on the way points to a pointer. -/
theorem depth_reaches_pointee_iff (built : t.Built) :
    (((unaryType p .star)^[t.pointerDepth] t).deref = t.pointee ↔ t.Straight) ∧
      (∀ k ≤ t.levels, ((unaryType p .star)^[k] t).deref = t.pointee ↔ k = t.levels) ∧
      (∀ receiver member, (accessForm .dot false t).render receiver member =
        match t.pointerDepth with
        | 0 => receiver ++ "." ++ member
        | 1 => receiver ++ "->" ++ member
        | d + 2 => "(" ++ Text.repeated "*" (d + 1) ++ receiver ++ ")->" ++ member) ∧
      ∀ (s : State) (span : Span) (x : Expr) (name : String), s.info.typeNames.contains x.span = false →
        ∃ s', access span x name .dot t s = .ok (foundMember s' t name, s') ∧
          s'.info.access[span]? = some (accessForm .dot false t) :=
  ⟨(stars_reach_iff built (pointerDepth_le_levels t)).trans (pointerDepth_eq_levels_iff t),
    fun _ le => stars_reach_iff built le, render_dot t, fun _ _ _ _ value => access_on_value value⟩

/-- A smart pointer to pointers to pointers, behind a reference. -/
theorem depth_reaches_pointee_of_smart :
    let p : Place := ⟨.default, 0, none, none, fun _ => pure ()⟩
    let t := reference (smart (pointer (cls "W" 0) 2) false) true
    t.Built ∧ t.Straight ∧ t.pointerDepth = 3 ∧ ((unaryType p .star)^[3] t).deref = cls "W" 0 ∧
      t.pointee = cls "W" 0 ∧ (accessForm .dot false t).render "p" "n" = "(**p)->n" := by
  intro p t
  have built : t.Built := by simp [t, Built, Every, Joint, core]
  have straight : t.Straight := by simp [t, Straight, levels]
  obtain ⟨reached, -, text, -⟩ := depth_reaches_pointee_iff (p := p) built
  exact ⟨built, straight, rfl, reached.mpr straight, rfl, (text "p" "n").trans (by decide +kernel)⟩

end Ty

/-- A text with an access through a raw pointer to a smart one. -/
def addressText : String := "class W { fn m() {} }
fn f() {
    autoptr p = new W();
    copy q = &p;
    q.m();
}
"

/-- A call of the member `m` without arguments: its place, that of the member, and the receiver. -/
def Node.memberCall? : Node → Option (Span × Span × Expr)
  | .expr (.call at' (.member span x "m" .dot) []) => some (at', span, x)
  | _ => none

/-- The number of the class that a raw pointer to a smart one leads to. -/
def Ty.sharedTarget? : Ty → Option Nat
  | .pointer (.smart (.cls "W" n) false) 1 => some n
  | _ => none

/-- The method is looked up in the element of the smart pointer, and the access stops at the pointer. -/
theorem access_stops_at_smart_pointer :
    let p : Place := ⟨.default, 0, none, none, fun _ => pure ()⟩
    ∃ file info span at' x n, File.read Table.default "main.tasty" addressText = .ok file ∧
      file.resolve Table.default = .ok info ∧ .expr (.call at' (.member span x "m" .dot) []) ∈ file.nodes ∧
      info.typeOf x = .pointer (.smart (.cls "W" n) false) 1 ∧ (info.typeOf x).Built ∧
      (info.typeOf x).pointee = .cls "W" n ∧
      ((unaryType p .star)^[(info.typeOf x).pointerDepth] (info.typeOf x)).deref =
        .smart (.cls "W" n) false ∧
      (info.access[span]?.map fun form => form.render "q" "m") = some "q->m" := by
  intro p
  have found : (resolved? Table.default "main.tasty" addressText).any (fun r =>
      r.1.nodes.any fun n => n.memberCall?.any fun q => (r.2.typeOf q.2.2).sharedTarget?.isSome &&
        (r.2.access[q.2.1]?.map fun form => form.render "q" "m") == some "q->m") = true := by
    rw [resolved?, addressText, File.read_ofList]
    decide +kernel
  obtain ⟨⟨file, info⟩, steps, here⟩ := (Option.any_eq_true _ _).mp found
  obtain ⟨read, resolved⟩ := resolved?_some steps
  obtain ⟨y, inside, here⟩ := List.any_eq_true.mp here
  obtain ⟨⟨at', span, x⟩, call, here⟩ := (Option.any_eq_true _ _).mp here
  obtain ⟨shaped, text⟩ := Bool.and_eq_true_iff.mp here
  obtain ⟨n, shaped⟩ := Option.isSome_iff_exists.mp shaped
  unfold Node.memberCall? at call
  split at call
  · cases call
    unfold Ty.sharedTarget? at shaped
    split at shaped
    · next _ n' type =>
      cases shaped
      refine ⟨file, info, span, at', x, n, read, resolved, inside, type, ?_⟩
      rw [type]
      refine ⟨?_, rfl, rfl, eq_of_beq text⟩
      simp [Ty.Built, Ty.Every, Ty.Joint, Ty.core]
    · cases shaped
  · cases call

end TastyLang
