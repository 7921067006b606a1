import TastyLang.Proofs.Reading.Forms
import TastyLang.Proofs.Token.Joined
import TastyLang.Reading.Types

/-!
# Reading closing brackets

Two closing angle brackets in a row are one token of the text, and a reader of template arguments
takes them one by one. `Restores r as good` says what `r` makes of tokens that split into the forms
`as`; it has the rules of `Gives`, one for each step of a reader.
-/

namespace TastyLang

open Token (Form)

namespace Reader

variable {α β : Type} {f : Form} {as bs : List Form} {good : β → Prop}
  {behind behind' : List Form → Prop}

/-! ### Closing brackets one by one -/

theorem split_eq_nil {fs : List Form} (h : fs.flatMap Form.split = []) : fs = [] := by
  cases fs with
  | nil => rfl
  | cons f fs =>
    rw [List.flatMap_cons, Form.split] at h
    split at h <;> cases h

variable {fs k : List Form}

theorem split_eq_cons (plain : f ≠ .greater)
    (h : fs.flatMap Form.split = f :: k) : ∃ fs', fs = f :: fs' ∧ fs'.flatMap Form.split = k := by
  cases fs with
  | nil => cases h
  | cons g fs =>
    rw [List.flatMap_cons, Form.split] at h
    split at h
    · injection h with same
      exact absurd same.symm plain
    · injection h with same rest
      subst same
      exact ⟨fs, rfl, rest⟩

theorem split_eq_greater (h : fs.flatMap Form.split = .greater :: k) :
    (∃ fs', fs = .greater :: fs' ∧ fs'.flatMap Form.split = k) ∨
      ∃ fs', fs = .op .shiftRight :: fs' ∧ .greater :: fs'.flatMap Form.split = k := by
  cases fs with
  | nil => cases h
  | cons g fs =>
    rw [List.flatMap_cons, Form.split] at h
    split at h
    · next double =>
      injection h with _ rest
      exact .inr ⟨fs, by rw [double], rest⟩
    · injection h with same rest
      exact .inl ⟨fs, by rw [same], rest⟩

theorem split_first (h : fs.flatMap Form.split = k) :
    Form.first fs = Form.first k ∨ Form.first fs = .op .shiftRight := by
  subst h
  cases fs with
  | nil => exact .inl rfl
  | cons g fs =>
    rw [List.flatMap_cons, Form.split]
    split
    · next double => exact .inr double
    · exact .inl rfl

/-- How many of some forms are no closing brackets. -/
def effort (fs : List Form) : Nat := fs.countP (· ≠ .greater)

@[simp]
theorem effort_append (fs gs : List Form) : effort (fs ++ gs) = effort fs + effort gs :=
  List.countP_append

theorem effort_cons (plain : f ≠ .greater) (fs : List Form) : effort (f :: fs) = effort fs + 1 :=
  List.countP_cons_of_pos (by simpa using plain)

theorem effort_stars (n : Nat) : effort (List.replicate n (.op .star)) = n :=
  (List.countP_replicate ..).trans (if_pos (by decide))

theorem effort_le {fs : List Form} (h : fs.flatMap Form.split = as) : effort as ≤ fs.length := by
  subst h
  induction fs with
  | nil => exact Nat.le_refl 0
  | cons f fs ih =>
    have one : effort f.split ≤ 1 := by
      unfold Form.split
      split
      · exact Nat.zero_le 1
      · exact List.countP_le_length
    rw [List.flatMap_cons, effort_append, List.length_cons]
    omega

/-! ### Readers in front of brackets -/

/-- The cursor stands in front of tokens that split into `fs`, behind which the text ends well. -/
def Splits (c : Cursor) (fs : List Form) : Prop :=
  ∃ gs, c.Holds gs ∧ gs.flatMap Form.split = fs

/-- In front of tokens that split into `as`, `r` gives something `good` and leaves what is `behind`
them. -/
def Restores (behind : List Form → Prop) (r : Reader α) (as : List Form) (good : α → Prop) : Prop :=
  ∀ c k, Splits c (as ++ k) → behind k → ∃ a c', r c = .ok (a, c') ∧ Splits c' k ∧ good a

theorem Restores.bind {r : Reader α} {g : α → Reader β} {q : α → Prop}
    (first : Restores behind' r as q) (follows : ∀ k, behind k → behind' (bs ++ k))
    (next : ∀ a, q a → Restores behind (g a) bs good) :
    Restores behind (r >>= g) (as ++ bs) good := by
  intro c k splits fits
  rw [List.append_assoc] at splits
  obtain ⟨a, c₁, run, splits₁, ok⟩ := first c _ splits (follows k fits)
  obtain ⟨b, c₂, run', splits₂, ok'⟩ := next a ok c₁ k splits₁ fits
  refine ⟨b, c₂, ?_, splits₂, ok'⟩
  show (r c >>= fun p => g p.1 p.2) = _
  rw [run]
  exact run'

theorem Restores.pure {b : β} (value : good b) : Restores behind (Pure.pure b) [] good :=
  fun c _ splits _ => ⟨b, c, rfl, splits, value⟩

theorem restores_pos {g : Pos → Reader β} (next : ∀ p, Restores behind (g p) as good) :
    Restores behind (pos >>= g) as good :=
  fun c => next c.current.pos c

theorem restores_spanFrom {p : Pos} {g : Span → Reader β}
    (next : ∀ s, Restores behind (g s) as good) : Restores behind (spanFrom p >>= g) as good :=
  fun c => next ⟨p, c.lastEnd⟩ c

theorem restores_current {g : Token → Reader β} (plain : f ≠ .greater)
    (next : ∀ p, Restores behind (g ⟨f.kind, f.literal, p⟩) (f :: as) good) :
    Restores behind (current >>= g) (f :: as) good := by
  intro c k splits fits
  have step := next c.current.pos c k splits fits
  obtain ⟨gs, holds, whole⟩ := splits
  obtain ⟨fs, rfl, -⟩ := split_eq_cons plain whole
  have here : c.current.form = f := holds.current
  rw [← here] at step
  exact step

variable {x : Token.Kind}

theorem restores_apart {g : Token → Reader β} (other : x ≠ .op .shiftRight)
    (stops : ∀ k, behind k → (Form.first (as ++ k)).kind ≠ x)
    (next : ∀ t : Token, t.kind ≠ x → Restores behind (g t) as good) :
    Restores behind (current >>= g) as good := by
  intro c k splits fits
  obtain ⟨gs, holds, whole⟩ := splits
  refine next c.current ?_ c k ⟨gs, holds, whole⟩ fits
  show c.current.form.kind ≠ x
  rw [holds.current]
  rcases split_first whole with same | same
  · rw [same]
    exact stops k fits
  · rw [same]
    exact other.symm

theorem restores_check {g : Bool → Reader β} (plain : f ≠ .greater)
    (next : Restores behind (g (f.kind == x)) (f :: as) good) :
    Restores behind (check x >>= g) (f :: as) good := by
  intro c k splits fits
  have step := next c k splits fits
  obtain ⟨gs, holds, whole⟩ := splits
  obtain ⟨fs, rfl, -⟩ := split_eq_cons plain whole
  have here : c.current.form = f := holds.current
  rw [← here] at step
  exact step

theorem restores_step {r : Reader α} {q : α → Prop} (plain : f ≠ .greater)
    (step : ∀ fs, Gives r (f :: fs) q fs) : Restores (fun _ => True) r [f] q := by
  rintro c k ⟨gs, holds, whole⟩ -
  obtain ⟨fs, rfl, rest⟩ := split_eq_cons plain whole
  obtain ⟨a, c₁, run, holds₁, ok⟩ := step fs c holds
  exact ⟨a, c₁, run, ⟨fs, holds₁, rest⟩, ok⟩

theorem restores_advance {g : Unit → Reader β} (plain : f ≠ .greater)
    (next : Restores behind (g ()) as good) : Restores behind (advance >>= g) (f :: as) good :=
  (restores_step plain fun _ => advance_gives).bind (fun _ _ => trivial) fun _ _ => next

theorem restores_checkNot {g : Bool → Reader β} (other : x ≠ .op .shiftRight)
    (stops : ∀ k, behind k → (Form.first (as ++ k)).kind ≠ x)
    (next : Restores behind (g false) as good) : Restores behind (check x >>= g) as good := by
  unfold check
  rw [bind_assoc]
  refine restores_apart other stops fun t kind => ?_
  rw [pure_bind, beq_eq_false_iff_ne.mpr kind]
  exact next

theorem restores_accept {g : Bool → Reader β} (plain : f ≠ .greater) (same : f.kind = x)
    (next : Restores behind (g true) as good) :
    Restores behind (accept x >>= g) (f :: as) good := by
  unfold accept
  rw [bind_assoc]
  refine restores_check plain ?_
  rw [if_pos (beq_iff_eq.mpr same), bind_assoc]
  exact restores_advance plain next

theorem restores_skip {g : Bool → Reader β} (other : x ≠ .op .shiftRight)
    (stops : ∀ k, behind k → (Form.first (as ++ k)).kind ≠ x)
    (next : Restores behind (g false) as good) : Restores behind (accept x >>= g) as good := by
  unfold accept
  rw [bind_assoc]
  exact restores_checkNot other stops next

theorem restores_nextKind {h : Token.Kind → Reader β} {g : Form} (plain : f ≠ .greater)
    (plain' : g ≠ .greater) (next : Restores behind (h g.kind) (f :: g :: as) good) :
    Restores behind (nextKind >>= h) (f :: g :: as) good := by
  rintro c k ⟨gs, holds, whole⟩ fits
  obtain ⟨fs, rfl, rest⟩ := split_eq_cons plain whole
  obtain ⟨fs, rfl, -⟩ := split_eq_cons plain' rest
  have gives : Gives nextKind (f :: g :: fs) (· = g.kind) (f :: g :: fs) := by
    rw [← bind_pure nextKind]
    exact gives_nextKind (.pure rfl)
  obtain ⟨_, c₁, run, holds₁, rfl⟩ := gives c holds
  obtain ⟨b, c₂, run', splits, ok⟩ := next c₁ k ⟨_, holds₁, whole⟩ fits
  refine ⟨b, c₂, ?_, splits, ok⟩
  show (nextKind c >>= fun p => h p.1 p.2) = _
  rw [run]
  exact run'

theorem restores_expect {g : Token → Reader β} (plain : f ≠ .greater) (same : f.kind = x)
    (next : ∀ t, Restores behind (g t) as good) :
    Restores behind (expect x >>= g) (f :: as) good :=
  (restores_step plain fun _ => expect_gives same).bind (fun _ _ => trivial) fun t _ => next t

theorem restores_close {opener : Token} {g : Unit → Reader β}
    (next : Restores behind (g ()) as good) :
    Restores behind (close .closeParen opener >>= g) (.op .closeParen :: as) good :=
  (restores_step (by decide) fun _ => close_gives rfl).bind (fun _ _ => trivial) fun _ _ => next

theorem restores_end {g : Bool → Reader β} (next : Restores (· = []) (g true) [] good) :
    Restores (· = []) (check .eof >>= g) [] good := by
  rintro c _ ⟨gs, holds, whole⟩ rfl
  have here : c.current.form = _ := (split_eq_nil whole ▸ holds).current
  have step := next c [] ⟨gs, holds, whole⟩ rfl
  rw [show true = (c.current.form.kind == .eof) by rw [here]; rfl] at step
  exact step

theorem restores_semicolon {g : Unit → Reader β} (next : Restores behind (g ()) as good) :
    Restores behind (discard (expectOp .semicolon) >>= g) (.op .semicolon :: as) good := by
  have step : Restores (fun _ => True) (discard (expectOp .semicolon)) [.op .semicolon]
      fun _ => True :=
    restores_step (by decide) fun _ => .map (expect_gives rfl)
  exact step.bind (fun _ _ => trivial) fun _ _ => next

theorem restores_after {o : Operator} {item : Reader α} {q : α → Prop}
    {g : Option α → Reader β} (plain : o ≠ .greater) (first : Restores behind' item as q)
    (follows : ∀ k, behind k → behind' (bs ++ k))
    (next : ∀ a, q a → Restores behind (g (some a)) bs good) :
    Restores behind (after? (acceptOp o) item >>= g) (.op o :: (as ++ bs)) good := by
  unfold after?
  rw [bind_assoc]
  refine restores_accept (fun same => plain (Token.Kind.op.inj (congrArg Form.kind same))) rfl ?_
  rw [if_pos rfl, map_eq_pure_bind, bind_assoc]
  refine first.bind follows fun a ok => ?_
  rw [pure_bind]
  exact next a ok

theorem restores_without {o : Operator} {item : Reader α} {g : Option α → Reader β}
    (other : o ≠ .shiftRight) (stops : ∀ k, behind k → (Form.first (as ++ k)).kind ≠ .op o)
    (next : Restores behind (g none) as good) :
    Restores behind (after? (acceptOp o) item >>= g) as good := by
  unfold after?
  rw [bind_assoc]
  refine restores_skip (fun same => other (Token.Kind.op.inj same)) stops ?_
  rw [if_neg Bool.false_ne_true, pure_bind]
  exact next

theorem restores_name {w : String} {g : String → Reader β}
    (next : Restores behind (g w) as good) :
    Restores behind (name >>= g) (⟨.ident, w⟩ :: as) good := by
  have word : Restores (fun _ => True) name [⟨.ident, w⟩] (· = w) :=
    restores_step nofun fun _ => name_gives rfl
  exact word.bind (fun _ _ => trivial) fun _ same => same ▸ next

theorem closeTemplate_restores :
    Restores (fun _ => True) closeTemplate [.greater] fun _ => True := by
  have single (fs : List Form) : Gives closeTemplate (.greater :: fs) (fun _ => True) fs :=
    gives_current fun _ => advance_gives
  have double (fs : List Form) :
      Gives closeTemplate (.op .shiftRight :: fs) (fun _ => True) (.greater :: fs) :=
    gives_current fun p c holds => by
      refine ⟨(), _, rfl, ⟨?_, holds.stop⟩, trivial⟩
      have tail := congrArg List.tail holds.rest
      rw [← List.map_tail] at tail
      exact congrArg (Form.greater :: ·) tail
  rintro c k ⟨gs, holds, whole⟩ -
  rcases split_eq_greater whole with ⟨fs, rfl, rest⟩ | ⟨fs, rfl, rest⟩
  · obtain ⟨_, c₁, run, holds₁, -⟩ := single fs c holds
    exact ⟨(), c₁, run, ⟨fs, holds₁, rest⟩, trivial⟩
  · obtain ⟨_, c₁, run, holds₁, -⟩ := double fs c holds
    exact ⟨(), c₁, run, ⟨_, holds₁, rest⟩, trivial⟩

theorem run_restores {src : String} {reader : Nat → Reader β}
    (tokens : ((Token.stream src).tokens.map Token.form).flatMap Form.split = as)
    (stop : ∃ p, (Token.stream src).stop = .ok p)
    (restores : ∀ n, effort as + 1 < n → Restores (· = []) (reader n) as good) :
    ∃ b, run src reader = .ok b ∧ good b := by
  refine run_gives (k := []) rfl stop fun n steps c holds => ?_
  have enough := effort_le tokens
  have here : Splits c (as ++ []) := ⟨_, holds, by rw [tokens, List.append_nil]⟩
  obtain ⟨b, c', run, ⟨gs, holds', rest⟩, ok⟩ := restores n (by omega) c [] here rfl
  exact ⟨b, c', run, split_eq_nil rest ▸ holds', ok⟩

end Reader

end TastyLang
