import TastyLang.Proofs.Outcome
import TastyLang.Proofs.Reading.Layout
import TastyLang.Reading.Cursor

/-!
# What readers do to the cursor

Each step of a reader is opened once. `Cursor.Took c c'` says that exactly the token at the cursor
was read; `Reads r lies` says that whatever `r` reads from `p` to `q` stands in `lies p · q`, where
`q` is the place of the token to be read next.
-/

namespace TastyLang

namespace Cursor

/-- The tokens still to be read stand one after the other. -/
def Ordered (c : Cursor) : Prop := Token.Ordered c.stopPos c.rest

def pos (c : Cursor) : Pos := c.current.pos

/-- The token at the cursor was read. -/
structure Took (c c' : Cursor) : Prop where
  ordered : c'.Ordered
  sound : c.current.Sound
  before : c.current.Before c'.pos
  lastEnd : c'.lastEnd = c.current.stop

theorem pos_eq_startOf (c : Cursor) : c.pos = Token.startOf c.stopPos c.rest := by
  unfold pos current Token.startOf
  cases c.rest <;> rfl

end Cursor

namespace Reader

variable {α β : Type}

theorem exhausted_ok {c : Cursor} {r : α × Cursor} : (exhausted : Reader α) c ≠ .ok r := by
  intro h
  cases h

theorem failAt_ok {pos : Pos} {cause : ParseError.Cause} {c : Cursor} {r : α × Cursor} :
    (failAt pos cause : Reader α) c ≠ .ok r := by
  intro h
  cases h

variable {c c' : Cursor}

theorem current_ok {t : Token} (h : current c = .ok (t, c')) :
    t = c.current ∧ c = c' := by
  cases h
  exact ⟨rfl, rfl⟩

theorem nextKind_ok {k : Token.Kind} (h : nextKind c = .ok (k, c')) : c = c' := by
  cases h
  rfl

theorem pos_ok {p : Pos} (h : pos c = .ok (p, c')) : p = c.pos ∧ c = c' := by
  cases h
  exact ⟨rfl, rfl⟩

theorem check_ok {k : Token.Kind} {b : Bool} (h : check k c = .ok (b, c')) :
    b = (c.current.kind == k) ∧ c = c' := by
  cases h
  exact ⟨rfl, rfl⟩

theorem finish_ok {f : Span → α} {p : Pos} {a : α}
    (h : (spanFrom p >>= fun s => pure (f s)) c = .ok (a, c')) :
    f ⟨p, c.lastEnd⟩ = a ∧ c = c' := by
  cases h
  exact ⟨rfl, rfl⟩

theorem unexpected_ok {x : Expectation} {c : Cursor} {r : α × Cursor} :
    (unexpected x : Reader α) c ≠ .ok r := by
  intro h
  obtain ⟨_, _, _, h⟩ := bind_ok h
  exact failAt_ok h

theorem unclosed_ok {t : Token} {c : Cursor} {r : α × Cursor} :
    (unclosed t : Reader α) c ≠ .ok r := by
  intro h
  obtain ⟨_, _, _, h⟩ := bind_ok h
  exact failAt_ok h

theorem advance_eq {u : Unit} (h : advance c = .ok (u, c')) :
    c' = { c with rest := c.rest.tail, lastEnd := c.current.stop } := by
  obtain ⟨_, _, read, h⟩ := bind_ok h
  cases read
  obtain ⟨d, _, checked, h⟩ := bind_ok h
  cases h
  unfold Cursor.checked at checked
  split at checked <;> cases checked
  rfl

theorem advance_took {u : Unit} (ordered : c.Ordered) (more : c.rest ≠ [])
    (h : advance c = .ok (u, c')) : c.Took c' := by
  have same := advance_eq h
  obtain ⟨rest, stop, lastEnd, arities⟩ := c
  cases rest with
  | nil => exact absurd rfl more
  | cons t ts =>
    subst same
    obtain ⟨sound, before, later⟩ := ordered
    exact ⟨later, sound, by rw [Cursor.pos_eq_startOf]; exact before, rfl⟩

theorem advance_ok {u : Unit} (ordered : c.Ordered) (token : c.current.kind ≠ .eof)
    (h : advance c = .ok (u, c')) : c.Took c' := by
  refine advance_took ordered (fun none => token ?_) h
  rw [Cursor.current, none]

theorem accept_ok {k : Token.Kind} {b : Bool} (ordered : c.Ordered) (token : k ≠ .eof)
    (h : accept k c = .ok (b, c')) :
    (b = true ∧ c.current.kind = k ∧ c.Took c') ∨ (b = false ∧ c.current.kind ≠ k ∧ c = c') := by
  obtain ⟨found, _, read, h⟩ := bind_ok h
  obtain ⟨rfl, rfl⟩ := check_ok read
  split at h
  · next same =>
    have same := eq_of_beq same
    obtain ⟨_, _, read, h⟩ := bind_ok h
    obtain ⟨rfl, rfl⟩ := pure_ok h
    exact .inl ⟨rfl, same, advance_ok ordered (same ▸ token) read⟩
  · next other =>
    obtain ⟨rfl, rfl⟩ := pure_ok h
    exact .inr ⟨rfl, fun same => other (by simp [same]), rfl⟩

theorem run_ok {α : Type} {src : String} {reader : Nat → Reader α} {a : α}
    (h : run src reader = .ok a) : ∃ n c c', c.Ordered ∧ reader n c = .ok (a, c') := by
  unfold run at h
  simp only at h
  cases checked : Cursor.checked
      { rest := (Token.stream src).tokens, stop := (Token.stream src).stop } with
  | error e =>
    rw [checked] at h
    cases h
  | ok start =>
    have same : start = { rest := (Token.stream src).tokens, stop := (Token.stream src).stop } := by
      unfold Cursor.checked at checked
      split at checked <;> cases checked
      rfl
    rw [checked] at h
    change (reader (start.weight + 2) start >>= fun r => Except.ok r.1) = _ at h
    cases result : reader (start.weight + 2) start with
    | error e =>
      rw [result] at h
      cases h
    | ok r =>
      rw [result] at h
      cases h
      refine ⟨_, start, r.2, ?_, result⟩
      subst same
      exact Token.stream_ordered src

end Reader

end TastyLang
