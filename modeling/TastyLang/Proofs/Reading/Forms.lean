import TastyLang.Proofs.Outcome
import TastyLang.Reading.Cursor

/-!
# What readers make of given tokens

What a reader makes of tokens depends on their forms only, not on where they stand. `Gives r fs good
k` says that `r`, run in front of tokens of the forms `fs`, gives something `good` and leaves those
of the forms `k`. Each step of a reader has a rule that says what remains to be shown behind it.
-/

namespace TastyLang

/-- A token without its place. -/
structure Token.Form where
  kind : Token.Kind
  literal : String
  deriving DecidableEq

namespace Token

def form (t : Token) : Form := ⟨t.kind, t.literal⟩

def Form.op (o : Operator) : Form := ⟨.op o, o.symbol⟩

def Form.keyword (k : Keyword) : Form := ⟨.keyword k, k.word⟩

def Form.first (fs : List Form) : Form := fs.headD ⟨.eof, ""⟩

@[simp]
theorem Form.first_cons (f : Form) (fs : List Form) : Form.first (f :: fs) = f := rfl

end Token

open Token (Form)

/-- The cursor stands in front of tokens of the forms `fs`, behind which the text ends well. -/
structure Cursor.Holds (c : Cursor) (fs : List Form) : Prop where
  rest : c.rest.map Token.form = fs
  stop : ∃ p, c.stop = .ok p

theorem Cursor.Holds.current {c : Cursor} {fs : List Form} (h : c.Holds fs) :
    c.current.form = Form.first fs := by
  obtain ⟨rfl, -⟩ := h
  unfold Cursor.current
  cases c.rest <;> rfl

namespace Reader

variable {α β : Type} {fs k k' : List Form} {good : β → Prop}

/-- In front of tokens of the forms `fs`, `r` gives something `good` and leaves those of the forms
`k`. -/
def Gives (r : Reader α) (fs : List Form) (good : α → Prop) (k : List Form) : Prop :=
  ∀ c, c.Holds fs → ∃ a c', r c = .ok (a, c') ∧ c'.Holds k ∧ good a

theorem Gives.pure {b : β} (h : good b) : Gives (pure b) fs good fs :=
  fun c holds => ⟨b, c, rfl, holds, h⟩

theorem Gives.bind {r : Reader α} {f : α → Reader β} {q : α → Prop} (first : Gives r fs q k)
    (next : ∀ a, q a → Gives (f a) k good k') : Gives (r >>= f) fs good k' := by
  intro c holds
  obtain ⟨a, c₁, run, holds₁, ok⟩ := first c holds
  obtain ⟨b, c₂, run', holds₂, ok'⟩ := next a ok c₁ holds₁
  refine ⟨b, c₂, ?_, holds₂, ok'⟩
  show (r c >>= fun p => f p.1 p.2) = _
  rw [run]
  exact run'

theorem Gives.map {r : Reader α} {f : α → β} (h : Gives r fs (fun a => good (f a)) k) :
    Gives (f <$> r) fs good k := by
  rw [map_eq_pure_bind]
  exact h.bind fun _ ok => .pure ok

theorem Gives.discard {r : Reader α} {f : Unit → Reader β} (first : Gives r fs (fun _ => True) k)
    (next : Gives (f ()) k good k') : Gives (discard r >>= f) fs good k' :=
  .bind (q := fun _ => True) (.map first) fun _ _ => next

/-! ### Steps -/

theorem gives_current {f : Token → Reader β}
    (next : ∀ p, Gives (f ⟨(Form.first fs).kind, (Form.first fs).literal, p⟩) fs good k) :
    Gives (current >>= f) fs good k := by
  intro c holds
  have step := next c.current.pos c holds
  rw [← holds.current] at step
  exact step

theorem gives_nextKind {f : Token.Kind → Reader β}
    (next : Gives (f (Form.first fs.tail).kind) fs good k) : Gives (nextKind >>= f) fs good k := by
  intro c holds
  have here : c.nextKind = (Form.first fs.tail).kind := by
    rw [← holds.rest]
    unfold Cursor.nextKind
    rcases c.rest with _ | ⟨t, _ | ⟨u, ts⟩⟩ <;> rfl
  have step := next c holds
  rw [← here] at step
  exact step

theorem gives_pos {f : Pos → Reader β} (next : ∀ p, Gives (f p) fs good k) :
    Gives (pos >>= f) fs good k :=
  fun c holds => next c.current.pos c holds

theorem gives_check {x : Token.Kind} {f : Bool → Reader β}
    (next : Gives (f ((Form.first fs).kind == x)) fs good k) :
    Gives (check x >>= f) fs good k := by
  intro c holds
  have step := next c holds
  rw [← holds.current] at step
  exact step

theorem gives_spanFrom {p : Pos} {f : Span → Reader β} (next : ∀ s, Gives (f s) fs good k) :
    Gives (spanFrom p >>= f) fs good k :=
  fun c holds => next ⟨p, c.lastEnd⟩ c holds

theorem advance_gives : Gives advance fs (fun _ => True) fs.tail := by
  rintro ⟨tokens, stop, lastEnd, arities⟩ ⟨rfl, p, ends⟩
  obtain rfl : stop = .ok p := ends
  let here : Cursor := ⟨tokens, .ok p, lastEnd, arities⟩
  refine ⟨(), ⟨tokens.tail, .ok p, here.current.stop, arities⟩, ?_, ⟨List.map_tail, p, rfl⟩,
    trivial⟩
  rcases tokens with _ | ⟨t, _ | ⟨u, ts⟩⟩ <;> rfl

theorem gives_advance {f : Unit → Reader β} (next : Gives (f ()) fs.tail good k) :
    Gives (advance >>= f) fs good k :=
  advance_gives.bind fun _ _ => next

theorem gives_accept {x : Token.Kind} {f : Bool → Reader β} (here : (Form.first fs).kind = x)
    (next : Gives (f true) fs.tail good k) : Gives (accept x >>= f) fs good k := by
  refine .bind (q := fun b => b = true) (gives_check ?_) fun b found => found ▸ next
  rw [if_pos (by simp [here])]
  exact gives_advance (.pure rfl)

theorem gives_skip {x : Token.Kind} {f : Bool → Reader β} (other : (Form.first fs).kind ≠ x)
    (next : Gives (f false) fs good k) : Gives (accept x >>= f) fs good k := by
  refine .bind (q := fun b => b = false) (gives_check ?_) fun b found => found ▸ next
  rw [if_neg (by simp [other])]
  exact .pure rfl

theorem expect_gives {x : Token.Kind} (here : (Form.first fs).kind = x) :
    Gives (expect x) fs (fun _ => True) fs.tail := by
  refine gives_current fun p => ?_
  rw [if_pos (by simp [here])]
  exact gives_advance (.pure trivial)

theorem close_gives {o : Operator} {opener : Token} (here : (Form.first fs).kind = .op o) :
    Gives (close o opener) fs (fun _ => True) fs.tail := by
  refine gives_check ?_
  rw [if_neg (by simp [here])]
  exact .map (expect_gives here)

theorem gives_close {o : Operator} {opener : Token} {f : Unit → Reader β}
    (here : (Form.first fs).kind = .op o) (next : Gives (f ()) fs.tail good k) :
    Gives (close o opener >>= f) fs good k :=
  (close_gives here).bind fun _ _ => next

theorem name_gives (here : (Form.first fs).kind = .ident) :
    Gives name fs (fun s => s = (Form.first fs).literal) fs.tail := by
  refine gives_current fun p => ?_
  rw [if_pos (by simp [here])]
  exact gives_advance (.pure rfl)

/-! ### Loops -/

theorem gives_iterate {step : β → Reader (Option β)} {n : Nat} {x : β}
    {more : β → Prop} (once : Gives (step x) fs (fun r => ∃ y, r = some y ∧ more y) k)
    (next : ∀ y, more y → Gives (iterate step n y) k good k') :
    Gives (iterate step (n + 1) x) fs good k' := by
  refine once.bind fun r found => ?_
  obtain ⟨y, rfl, ok⟩ := found
  exact next y ok

theorem gives_iterate_stop {step : β → Reader (Option β)} {n : Nat} {x : β}
    (once : Gives (step x) fs (fun r => r = none) fs) (h : good x) :
    Gives (iterate step (n + 1) x) fs good fs :=
  once.bind fun _ found => found ▸ .pure h

/-! ### Texts -/

theorem length_le_weight (c : Cursor) : c.rest.length ≤ c.weight := by
  have grows : ∀ (ts : List Token) (n : Nat),
      n + ts.length ≤ ts.foldl (fun n t => n + t.literal.length + 1) n := by
    intro ts
    induction ts with
    | nil => exact fun n => Nat.le_refl n
    | cons t ts ih =>
      intro n
      have := ih (n + t.literal.length + 1)
      rw [List.foldl_cons, List.length_cons]
      omega
  simpa [Cursor.weight] using grows c.rest 0

theorem run_eq {src : String} (reader : Nat → Reader β) (stop : ∃ p, (Token.stream src).stop = .ok p) :
    ∃ n c, (Token.stream src).tokens.length + 1 < n ∧
      c.Holds ((Token.stream src).tokens.map Token.form) ∧
      run src reader = Prod.fst <$> reader n c := by
  let start : Cursor := { rest := (Token.stream src).tokens, stop := (Token.stream src).stop }
  have steps : start.rest.length + 1 < start.weight + 2 :=
    Nat.succ_lt_succ (Nat.lt_succ_of_le (length_le_weight start))
  refine ⟨start.weight + 2, start, steps, ⟨rfl, stop⟩, ?_⟩
  obtain ⟨p, stop⟩ := stop
  have checked : start.checked = .ok start := by
    unfold Cursor.checked
    split
    · next failed => cases stop.symm.trans failed
    · rfl
  simp only [run]
  rw [show Cursor.checked _ = _ from checked, ok_bind, map_eq_pure_bind]
  rfl

theorem run_gives {src : String} {reader : Nat → Reader β}
    (tokens : (Token.stream src).tokens.map Token.form = fs)
    (stop : ∃ p, (Token.stream src).stop = .ok p)
    (gives : ∀ n, fs.length + 1 < n → Gives (reader n) fs good k) :
    ∃ b, run src reader = .ok b ∧ good b := by
  obtain ⟨n, c, steps, holds, same⟩ := run_eq reader stop
  rw [tokens] at holds
  rw [← List.length_map Token.form, tokens] at steps
  obtain ⟨b, c', done, -, ok⟩ := gives n steps c holds
  exact ⟨b, by rw [same, done]; rfl, ok⟩

end Reader

end TastyLang
