import TastyLang.Proofs.Resolution.Changes
import TastyLang.Proofs.Resolution.Keys
import TastyLang.Proofs.Ty.Bare

/-!
# What written types stand for

What a written type stands for follows from what its names stand for (`TypeExpr.meaning`). Reading
one off in a scope gives just that, and notes the same for each of its parts (`typeExpr_run`).
-/

namespace TastyLang

mutual

/-- The type that a written type stands for when names stand for `names`. -/
def TypeExpr.meaning (names : String → Ty) : TypeExpr → Ty
  | .tuple _ elems stars => (Ty.tuple (meanings names elems)).pointerTo stars
  | .func _ params result stars =>
    (Ty.func (meanings names params)
      (match result with
        | some r => meaning names r
        | none => .void)).pointerTo stars
  | .named _ name args stars =>
    (if args.isEmpty then names name else .template (names name) (meanings names args)).pointerTo
      stars

def TypeExpr.meanings (names : String → Ty) : List TypeExpr → List Ty
  | [] => []
  | t :: ts => meaning names t :: meanings names ts

end

namespace Resolution

/-- What a dotted name stands for in a scope. -/
def State.nameType (s : State) (table : Table) (sc : ScopeId) (name : String) : Ty :=
  match table.primitive? name with
  | some prim => .ofPrimitive prim
  | none =>
    match (s.lookupDotted? sc name).map s.info.symbols.symbol with
    | some sym =>
      match sym.kind, sym.type with
      | .cls, some t | .enum, some t | .abstraction, some t => t
      | _, _ => .unknown name
    | none => .unknown name

variable {p : Place} {s s' : State}

theorem namedType_run (p : Place) (name : String) (s : State) :
    namedType p name s = .ok (s.nameType p.table p.scope name, s) := by
  unfold namedType State.nameType
  cases p.table.primitive? name with
  | some prim => rfl
  | none =>
    dsimp only
    rw [show ∀ f : State → Resolver Ty, (get >>= f) s = f s s from fun _ => rfl]
    cases (s.lookupDotted? p.scope name).map s.info.symbols.symbol with
    | none => rfl
    | some sym =>
      obtain ⟨x, kind, type, home, members, origin, unknown, assumed, static⟩ := sym
      cases kind <;> cases type <;> rfl

/-- The state with notes of written types, the last one last. -/
def State.noting (s : State) (notes : List (Span × Ty)) : State :=
  { s with info := { s.info with
    typeExprs := notes.foldl (fun m note => m.insert note.1 note.2) s.info.typeExprs } }

@[simp] theorem State.noting_nil (s : State) : s.noting [] = s := rfl

theorem State.noting_append (s : State) (ns ms : List (Span × Ty)) :
    s.noting (ns ++ ms) = (s.noting ns).noting ms := by
  unfold State.noting
  rw [List.foldl_append]

@[simp] theorem State.nameType_noting (s : State) (ns : List (Span × Ty)) :
    (s.noting ns).nameType = s.nameType := rfl

end Resolution

mutual

/-- What is noted for a written type and its parts, the parts first. -/
def TypeExpr.notes (names : String → Ty) (t : TypeExpr) : List (Span × Ty) :=
  (match t with
    | .tuple _ elems _ => notesOf names elems
    | .func _ params result _ =>
      notesOf names params ++
        match result with
        | some r => notes names r
        | none => []
    | .named _ _ args _ => notesOf names args) ++ [(t.span, t.meaning names)]

def TypeExpr.notesOf (names : String → Ty) : List TypeExpr → List (Span × Ty)
  | [] => []
  | t :: ts => notes names t ++ notesOf names ts

end

namespace Resolution

variable {p : Place} {s s' : State}

mutual

theorem typeExpr_run (p : Place) : (t : TypeExpr) → (s : State) →
    typeExpr p t s = .ok (t.meaning (s.nameType p.table p.scope),
      s.noting (t.notes (s.nameType p.table p.scope)))
  | .tuple span elems stars, s => by
    rw [typeExpr, TypeExpr.notes, State.noting_append]
    change (typeExprs p elems s >>= _) = _
    rw [typeExprs_run p elems s]
    rfl
  | .func span params none stars, s => by
    rw [typeExpr, TypeExpr.notes, State.noting_append]
    change (typeExprs p params s >>= _) = _
    rw [typeExprs_run p params s, List.append_nil]
    rfl
  | .func span params (some r) stars, s => by
    rw [typeExpr, TypeExpr.notes, State.noting_append, State.noting_append]
    change (typeExprs p params s >>= _) = _
    rw [typeExprs_run p params s, ok_bind]
    change (typeExpr p r _ >>= _) = _
    rw [typeExpr_run p r, State.nameType_noting]
    rfl
  | .named span name args stars, s => by
    rw [typeExpr, TypeExpr.notes, State.noting_append]
    change (namedType p name s >>= _) = _
    rw [namedType_run, ok_bind]
    change (typeExprs p args s >>= _) = _
    rw [typeExprs_run p args s]
    rfl

theorem typeExprs_run (p : Place) : (ts : List TypeExpr) → (s : State) →
    typeExprs p ts s = .ok (TypeExpr.meanings (s.nameType p.table p.scope) ts,
      s.noting (TypeExpr.notesOf (s.nameType p.table p.scope) ts))
  | [], s => rfl
  | t :: ts, s => by
    rw [typeExprs, TypeExpr.notesOf, State.noting_append]
    change (typeExpr p t s >>= _) = _
    rw [typeExpr_run p t, ok_bind]
    change (typeExprs p ts _ >>= _) = _
    rw [typeExprs_run p ts, State.nameType_noting]
    rfl

end

end Resolution

/-! ## Words of written types

What a written type stands for depends on its words only (`TypeExpr.meaning_congr`), and its bare
meaning on what they are bare (`TypeExpr.bare_meaning`). The same goes for what is noted for it and its
parts.
-/

mutual

theorem TypeExpr.meaning_congr {f g : String → Ty} : (t : TypeExpr) →
    (∀ w ∈ t.words, f w = g w) → t.meaning f = t.meaning g
  | .tuple _ elems _, same => by
    rw [meaning, meaning, meanings_congr elems same]
  | .func _ params none _, same => by
    rw [meaning, meaning, meanings_congr params fun w h => same w (List.mem_append_left _ h)]
  | .func _ params (some r) _, same => by
    simp only [meaning]
    rw [meanings_congr params fun w h => same w (List.mem_append_left _ h),
      meaning_congr r fun w h => same w (List.mem_append_right _ h)]
  | .named _ name args _, same => by
    rw [meaning, meaning, meanings_congr args fun w h => same w (List.mem_cons_of_mem _ h),
      same name List.mem_cons_self]

theorem TypeExpr.meanings_congr {f g : String → Ty} : (ts : List TypeExpr) →
    (∀ w ∈ wordsOf ts, f w = g w) → meanings f ts = meanings g ts
  | [], _ => rfl
  | t :: ts, same => by
    rw [meanings, meanings, meaning_congr t fun w h => same w (List.mem_append_left _ h),
      meanings_congr ts fun w h => same w (List.mem_append_right _ h)]

end

mutual

theorem TypeExpr.notes_congr {f g : String → Ty} : (t : TypeExpr) →
    (∀ w ∈ t.words, f w = g w) → t.notes f = t.notes g
  | .tuple _ elems _, same => by
    rw [notes, notes, meaning_congr _ same]
    rw [notesOf_congr elems same]
  | .func _ params none _, same => by
    rw [notes, notes, meaning_congr _ same]
    rw [notesOf_congr params fun w h => same w (List.mem_append_left _ h)]
  | .func _ params (some r) _, same => by
    rw [notes, notes, meaning_congr _ same]
    rw [notesOf_congr params fun w h => same w (List.mem_append_left _ h),
      notes_congr r fun w h => same w (List.mem_append_right _ h)]
  | .named _ name args _, same => by
    rw [notes, notes, meaning_congr _ same]
    rw [notesOf_congr args fun w h => same w (List.mem_cons_of_mem _ h)]

theorem TypeExpr.notesOf_congr {f g : String → Ty} : (ts : List TypeExpr) →
    (∀ w ∈ wordsOf ts, f w = g w) → notesOf f ts = notesOf g ts
  | [], _ => rfl
  | t :: ts, same => by
    rw [notesOf, notesOf, notes_congr t fun w h => same w (List.mem_append_left _ h),
      notesOf_congr ts fun w h => same w (List.mem_append_right _ h)]

end

/-! ### Bare meanings -/

mutual

theorem TypeExpr.bare_meaning (f : String → Ty) : (t : TypeExpr) →
    (t.meaning f).bare = t.meaning fun w => (f w).bare
  | .tuple _ elems _ => by
    rw [meaning, meaning, Ty.bare_pointerTo, Ty.bare, Ty.bareAll_eq, bare_meanings f elems]
  | .func _ params none _ => by
    rw [meaning, meaning, Ty.bare_pointerTo, Ty.bare, Ty.bareAll_eq, bare_meanings f params]
    rfl
  | .func _ params (some r) _ => by
    simp only [meaning]
    rw [Ty.bare_pointerTo, Ty.bare, Ty.bareAll_eq, bare_meanings f params, bare_meaning f r]
  | .named _ name args _ => by
    rw [meaning, meaning, Ty.bare_pointerTo]
    split
    · rfl
    · rw [Ty.bare, Ty.bareAll_eq, bare_meanings f args]

theorem TypeExpr.bare_meanings (f : String → Ty) : (ts : List TypeExpr) →
    (meanings f ts).map Ty.bare = meanings (fun w => (f w).bare) ts
  | [] => rfl
  | t :: ts => by
    rw [meanings, meanings, List.map_cons, bare_meaning f t, bare_meanings f ts]

end

def bareNote (n : Span × Ty) : Span × Ty := (n.1, n.2.bare)

mutual

theorem TypeExpr.bare_notes (f : String → Ty) : (t : TypeExpr) →
    (t.notes f).map bareNote = t.notes fun w => (f w).bare
  | .tuple _ elems _ => by
    rw [notes, notes, List.map_append, ← bare_meaning f]
    rw [bare_notesOf f elems]
    rfl
  | .func _ params none _ => by
    rw [notes, notes, List.map_append, ← bare_meaning f]
    rw [List.map_append, bare_notesOf f params]
    rfl
  | .func _ params (some r) _ => by
    rw [notes, notes, List.map_append, ← bare_meaning f]
    rw [List.map_append, bare_notesOf f params, bare_notes f r]
    rfl
  | .named _ name args _ => by
    rw [notes, notes, List.map_append, ← bare_meaning f]
    rw [bare_notesOf f args]
    rfl

theorem TypeExpr.bare_notesOf (f : String → Ty) : (ts : List TypeExpr) →
    (notesOf f ts).map bareNote = notesOf (fun w => (f w).bare) ts
  | [] => rfl
  | t :: ts => by
    rw [notesOf, notesOf, List.map_append, bare_notes f t, bare_notesOf f ts]

end

/-! ### Proper meanings -/

theorem Ty.proper_pointerTo {t : Ty} (proper : t.Proper) (level : Nat) :
    (t.pointerTo level).Proper := by
  have core : ∀ t : Ty, t.Proper → t.core.Proper := by
    intro t h
    fun_induction Ty.core t with
    | case1 b t ih => exact ih h
    | case2 t other => exact h
  unfold pointerTo
  split
  · exact proper
  · have inner := core t proper
    split
    · next elem n shape =>
      rw [shape] at inner
      exact inner
    · exact proper

mutual

theorem TypeExpr.proper_meaning {f : String → Ty} (proper : ∀ w, (f w).Proper) :
    (t : TypeExpr) → (t.meaning f).Proper
  | .tuple _ elems _ => by
    rw [meaning]
    exact Ty.proper_pointerTo (t := .tuple _) (proper_meanings proper elems) _
  | .func _ params none _ => by
    rw [meaning]
    exact Ty.proper_pointerTo (t := .func _ .void) ⟨proper_meanings proper params, trivial⟩ _
  | .func _ params (some r) _ => by
    rw [meaning]
    exact Ty.proper_pointerTo (t := .func _ _)
      ⟨proper_meanings proper params, proper_meaning proper r⟩ _
  | .named _ name args _ => by
    rw [meaning]
    refine Ty.proper_pointerTo ?_ _
    split
    · exact proper name
    · exact ⟨proper name, proper_meanings proper args⟩

theorem TypeExpr.proper_meanings {f : String → Ty} (proper : ∀ w, (f w).Proper) :
    (ts : List TypeExpr) → Ty.ProperAll (meanings f ts)
  | [] => trivial
  | t :: ts => ⟨proper_meaning proper t, proper_meanings proper ts⟩

end

mutual

theorem TypeExpr.proper_notes {f : String → Ty} (proper : ∀ w, (f w).Proper) :
    (t : TypeExpr) → ∀ n ∈ t.notes f, n.2.Proper
  | .tuple span elems stars => by
    rw [notes, List.forall_mem_append]
    exact ⟨proper_notesOf proper elems,
      by simpa using proper_meaning proper (.tuple span elems stars)⟩
  | .func span params none stars => by
    rw [notes, List.append_nil, List.forall_mem_append]
    exact ⟨proper_notesOf proper params,
      by simpa using proper_meaning proper (.func span params none stars)⟩
  | .func span params (some r) stars => by
    rw [notes, List.forall_mem_append, List.forall_mem_append]
    exact ⟨⟨proper_notesOf proper params, proper_notes proper r⟩,
      by simpa using proper_meaning proper (.func span params (some r) stars)⟩
  | .named span name args stars => by
    rw [notes, List.forall_mem_append]
    exact ⟨proper_notesOf proper args,
      by simpa using proper_meaning proper (.named span name args stars)⟩

theorem TypeExpr.proper_notesOf {f : String → Ty} (proper : ∀ w, (f w).Proper) :
    (ts : List TypeExpr) → ∀ n ∈ notesOf f ts, n.2.Proper
  | [] => by simp [notesOf]
  | t :: ts => by
    rw [notesOf, List.forall_mem_append]
    exact ⟨proper_notes proper t, proper_notesOf proper ts⟩

end

end TastyLang
