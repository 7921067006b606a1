/-!
# Runs that give a result

The steps of the compiler are computations that may fail, most of them with a state. When such a
computation gives a result, so did its parts.
-/

namespace TastyLang

variable {σ ε α β : Type}

theorem except_bind_ok {x : Except ε α} {f : α → Except ε β} {b : β} (h : (x >>= f) = .ok b) :
    ∃ a, x = .ok a ∧ f a = .ok b := by
  cases x with
  | error e => cases h
  | ok a => exact ⟨a, rfl, h⟩

theorem except_bind_error {x : Except ε α} {f : α → Except ε β} {e : ε}
    (h : (x >>= f) = .error e) : x = .error e ∨ ∃ a, x = .ok a ∧ f a = .error e := by
  cases x with
  | error e' =>
    cases h
    exact .inl rfl
  | ok a => exact .inr ⟨a, rfl, h⟩

theorem ok_bind (a : α) (f : α → Except ε β) : (Except.ok a >>= f) = f a := rfl

theorem toOption_eq_some {x : Except ε α} {a : α} (h : x.toOption = some a) : x = .ok a := by
  cases x with
  | ok b => exact congrArg _ (Option.some.inj h)
  | error e => cases h

theorem mapError_ok {ε' : Type} {x : Except ε α} {f : ε → ε'} {a : α}
    (h : x.mapError f = .ok a) : x = .ok a := by
  cases x with
  | ok b =>
    cases h
    rfl
  | error e => cases h

theorem mapError_error {ε' : Type} {x : Except ε α} {f : ε → ε'} {e : ε'}
    (h : x.mapError f = .error e) : ∃ e', x = .error e' ∧ f e' = e := by
  cases x with
  | ok a => cases h
  | error e' =>
    cases h
    exact ⟨e', rfl, rfl⟩

theorem bind_ok {x : StateT σ (Except ε) α} {f : α → StateT σ (Except ε) β} {s s' : σ} {b : β}
    (h : (x >>= f) s = .ok (b, s')) : ∃ a s₁, x s = .ok (a, s₁) ∧ f a s₁ = .ok (b, s') := by
  obtain ⟨r, run, h⟩ := except_bind_ok h
  exact ⟨r.1, r.2, run, h⟩

theorem bind_error {x : StateT σ (Except ε) α} {f : α → StateT σ (Except ε) β} {s : σ} {e : ε}
    (h : (x >>= f) s = .error e) :
    x s = .error e ∨ ∃ a s₁, x s = .ok (a, s₁) ∧ f a s₁ = .error e := by
  rcases except_bind_error h with failed | ⟨r, run, failed⟩
  · exact .inl failed
  · exact .inr ⟨r.1, r.2, run, failed⟩

theorem pure_ok {a b : α} {s s' : σ} (h : (pure a : StateT σ (Except ε) α) s = .ok (b, s')) :
    a = b ∧ s = s' := by
  cases h
  exact ⟨rfl, rfl⟩

theorem modify_ok {f : σ → σ} {s s' : σ} {u : Unit}
    (h : (modify f : StateT σ (Except ε) Unit) s = .ok (u, s')) : s' = f s := by
  cases h
  rfl

theorem map_ok {f : α → β} {x : StateT σ (Except ε) α} {s s' : σ} {b : β}
    (h : (f <$> x) s = .ok (b, s')) : ∃ a, x s = .ok (a, s') ∧ b = f a := by
  rw [map_eq_pure_bind] at h
  obtain ⟨a, s₁, run, h⟩ := bind_ok h
  obtain ⟨rfl, rfl⟩ := pure_ok h
  exact ⟨a, run, rfl⟩

theorem discard_ok {x : StateT σ (Except ε) α} {s s' : σ} {u : Unit}
    (h : discard x s = .ok (u, s')) : ∃ a, x s = .ok (a, s') := by
  obtain ⟨a, run, -⟩ := map_ok h
  exact ⟨a, run⟩

theorem lift_ok {x : Except ε α} {s s' : σ} {a : α}
    (h : (liftM x : StateT σ (Except ε) α) s = .ok (a, s')) : x = .ok a ∧ s = s' := by
  cases x with
  | error e => cases h
  | ok b =>
    cases h
    exact ⟨rfl, rfl⟩

/-! ### One after the other -/

section

variable {f g : α → Except ε β} {xs : List α}

theorem mapM_ok_iff : (∃ ys, xs.mapM f = .ok ys) ↔ ∀ x ∈ xs, ∃ y, f x = .ok y := by
  induction xs with
  | nil => exact ⟨fun _ _ member => absurd member List.not_mem_nil, fun _ => ⟨[], rfl⟩⟩
  | cons x xs ih =>
    rw [List.forall_mem_cons, ← ih, List.mapM_cons]
    constructor
    · rintro ⟨ys, run⟩
      obtain ⟨y, first, run⟩ := except_bind_ok run
      obtain ⟨ys, rest, -⟩ := except_bind_ok run
      exact ⟨⟨y, first⟩, ys, rest⟩
    · rintro ⟨⟨y, first⟩, ys, rest⟩
      exact ⟨y :: ys, by rw [first, ok_bind, rest]; rfl⟩

theorem mapM_error {e : ε} (h : xs.mapM f = .error e) : ∃ x ∈ xs, f x = .error e := by
  induction xs with
  | nil => cases h
  | cons x xs ih =>
    rw [List.mapM_cons] at h
    rcases except_bind_error h with first | ⟨y, -, h⟩
    · exact ⟨x, List.mem_cons_self, first⟩
    · rcases except_bind_error h with rest | ⟨ys, -, h⟩
      · obtain ⟨x, member, failed⟩ := ih rest
        exact ⟨x, List.mem_cons_of_mem _ member, failed⟩
      · cases h

theorem mapM_congr (same : ∀ x ∈ xs, f x = g x) : xs.mapM f = xs.mapM g := by
  induction xs with
  | nil => rfl
  | cons x xs ih =>
    rw [List.forall_mem_cons] at same
    rw [List.mapM_cons, List.mapM_cons, same.1, ih same.2]

end

end TastyLang
