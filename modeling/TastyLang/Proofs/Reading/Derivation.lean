import TastyLang.Proofs.Reading.Cursor
import TastyLang.Proofs.Reading.Phrases
import TastyLang.Proofs.Token.Halves

/-!
# Reading follows the grammar

`Cursor.Since c₀ w c` says that the tokens read from `c₀` to `c` are those of the pieces `w`, and that
all phrases in them have the spans that they should. Each step of a reader adds its token to the
pieces; where a production is complete, its pieces become one (`finish_since`). What a whole reader
adds is said by `Writes` and `Spells`.
-/

namespace TastyLang

namespace Reader

/-! ### What readers do to the cursor -/

variable {α β : Type} {pre : Cursor → Prop} {r : Reader α} {post : α → Cursor → Prop}

/-- What a reader does to a condition on the cursor. -/
def Lays (pre : Cursor → Prop) (r : Reader α) (post : α → Cursor → Prop) : Prop :=
  ∀ ⦃c c' : Cursor⦄ ⦃a : α⦄, c.Ordered → pre c → r c = .ok (a, c') → c'.Ordered ∧ post a c'

namespace Lays

theorem bind {f : α → Reader β} {last : β → Cursor → Prop} (first : Lays pre r post)
    (rest : ∀ a, Lays (post a) (f a) last) : Lays pre (r >>= f) last := by
  intro c c' b ordered holds h
  obtain ⟨a, c₁, read, h⟩ := bind_ok h
  obtain ⟨ordered₁, holds₁⟩ := first ordered holds read
  exact rest a ordered₁ holds₁ h

theorem pure {a : α} (imp : ∀ c, pre c → post a c) : Lays pre (pure a) post := by
  intro c c' b ordered holds h
  obtain ⟨rfl, rfl⟩ := pure_ok h
  exact ⟨ordered, imp _ holds⟩

theorem map {f : α → β} {last : β → Cursor → Prop} (h : Lays pre r post)
    (imp : ∀ a c, post a c → last (f a) c) : Lays pre (f <$> r) last := by
  rw [map_eq_pure_bind]
  exact h.bind fun a => pure (imp a)

theorem weaken {pre' : Cursor → Prop} (h : Lays pre r post) (imp : ∀ c, pre' c → pre c) :
    Lays pre' r post := fun _ _ _ ordered holds => h ordered (imp _ holds)

theorem drop {also : Cursor → Prop} (h : Lays pre r post) :
    Lays (fun c => pre c ∧ also c) r post := h.weaken fun _ => And.left

theorem fails (h : ∀ c x, r c ≠ .ok x) : Lays pre r post :=
  fun _ _ _ _ _ read => absurd read (h _ _)

theorem fails_first {f : α → Reader β} {last : β → Cursor → Prop} (h : ∀ c x, r c ≠ .ok x) :
    Lays pre (r >>= f) last :=
  Lays.bind (fails h : Lays pre r fun _ _ => False) fun _ _ _ _ _ absurd => absurd.elim

theorem current {f : Token → Reader β} {last : β → Cursor → Prop}
    (rest : ∀ t, Lays (fun c => pre c ∧ c.current = t) (f t) last) :
    Lays pre (current >>= f) last := by
  intro c c' b ordered holds h
  obtain ⟨t, c₁, read, h⟩ := bind_ok h
  obtain ⟨rfl, rfl⟩ := current_ok read
  exact rest _ ordered ⟨holds, rfl⟩ h

theorem pos {f : Pos → Reader β} {last : β → Cursor → Prop}
    (rest : ∀ p, Lays (fun c => pre c ∧ c.pos = p) (f p) last) : Lays pre (pos >>= f) last := by
  intro c c' b ordered holds h
  obtain ⟨t, c₁, read, h⟩ := bind_ok h
  obtain ⟨rfl, rfl⟩ := pos_ok read
  exact rest _ ordered ⟨holds, rfl⟩ h

theorem check (k : Token.Kind) : Lays pre (check k) fun _ => pre := by
  intro c c' b ordered holds h
  obtain ⟨-, rfl⟩ := check_ok h
  exact ⟨ordered, holds⟩

end Lays

end Reader

/-! ### Tokens between cursors -/

/-- The tokens `ts` lie between two cursors. -/
structure Cursor.Feeds (c : Cursor) (ts : List Token) (c' : Cursor) : Prop where
  halved : Token.Halved c.rest (ts ++ c'.rest)
  stop : c'.stop = c.stop
  last : c'.lastEnd = (ts.getLast?.map Token.stop).getD c.lastEnd

variable {ts : List Token} {t : Token} {c c' : Cursor}

namespace Cursor

theorem Feeds.refl (c : Cursor) : c.Feeds [] c := ⟨.refl _, rfl, rfl⟩

theorem Feeds.trans {c c' c'' : Cursor} {ts us : List Token} (h : c.Feeds ts c')
    (h' : c'.Feeds us c'') : c.Feeds (ts ++ us) c'' := by
  refine ⟨?_, h'.stop.trans h.stop, ?_⟩
  · rw [List.append_assoc]
    exact h.halved.trans h'.halved.append
  · rw [h'.last, h.last, List.getLast?_append]
    cases us.getLast? <;> rfl

theorem Feeds.ordered (h : c.Feeds ts c') (ordered : c.Ordered) :
    c'.Ordered := by
  have same : c'.stopPos = c.stopPos := by rw [stopPos, stopPos, h.stop]
  rw [Ordered, same]
  exact (h.halved.ordered ordered).1.suffix (List.suffix_append _ _)

theorem Feeds.pos (h : c.Feeds (t :: ts) c') :
    c.pos = t.pos := by
  obtain ⟨rest, stop, lastEnd, arities⟩ := c
  obtain ⟨halved, -, -⟩ := h
  cases halved with
  | whole _ => rfl
  | halves two _ =>
    obtain ⟨-, rfl, -⟩ | ⟨-, rfl, -⟩ := Token.halves?_cases two <;> rfl

theorem Feeds.covers (h : c.Feeds (t :: ts) c') :
    Span.Covers ⟨c.pos, c'.lastEnd⟩ (t :: ts) := by
  refine ⟨?_, ?_⟩
  · rw [h.pos]
    rfl
  · rw [h.last, List.getLast?_eq_some_getLast (List.cons_ne_nil _ _)]
    rfl

end Cursor

variable {p : Phrase}

theorem Phrase.Marked.head (h : p.Marked ts) :
    ∃ t us, ts = t :: us ∧ t.pos = p.span.start := by
  have start := h.start
  unfold Phrase.covered at start
  cases ts with
  | nil => split at start <;> cases start
  | cons t us =>
    refine ⟨t, us, rfl, ?_⟩
    split at start
    · cases us with
      | nil => cases start
      | cons u us => exact Option.some.inj start
    · exact Option.some.inj start

/-- What only later passes add to a tree is missing; `else` leads to a block or to another branch. -/
def Phrase.Fresh : Phrase → Prop
  | node (.var d) => d.info.generated.Bare
  | node (.func f) => f.info.generated.Bare
  | node (.enum d) => d.info.generated.Bare
  | node (.inject info) => info.generated.Bare
  | node (.decl d) => d.info.generated.Bare
  | node (.block b) => b.owned = []
  | node (.stmt (.branch _ _ _ _ no)) => ∀ s, no = some s → s.isAlternative = true
  | node (.stmt (.ret _ _ _ _ exit)) | node (.stmt (.brk _ exit)) | node (.stmt (.cont _ exit)) =>
    exit = none
  | _ => True

/-- A phrase as reading leaves it, with its tokens. -/
structure Phrase.AsRead (p : Phrase) (ts : List Token) : Prop where
  marked : p.Marked ts
  fresh : p.Fresh

variable {k : Token.Kind} {x : String}

namespace Piece

/-- The tokens of pieces all of whose phrases are as reading leaves them. -/
abbrev Read : List Piece → List Token → Prop := Filled Phrase.AsRead

variable {fits : Phrase → List Token → Prop}

theorem Filled.append {v w : List Piece} {ts us : List Token} (h : Filled fits v ts)
    (h' : Filled fits w us) : Filled fits (v ++ w) (ts ++ us) := by
  induction v generalizing ts with
  | nil =>
    cases h
    exact h'
  | cons p v ih =>
    cases h with
    | sign rest => exact .sign (ih rest)
    | word rest => exact .word (ih rest)
    | part built rest =>
      rw [List.append_assoc]
      exact .part built (ih rest)

theorem Filled.split {v w : List Piece} (h : Filled fits (v ++ w) ts) :
    ∃ us vs, ts = us ++ vs ∧ Filled fits v us ∧ Filled fits w vs := by
  induction v generalizing ts with
  | nil => exact ⟨[], ts, rfl, .nil, h⟩
  | cons p v ih =>
    cases h with
    | sign rest =>
      obtain ⟨us, vs, rfl, first, last⟩ := ih rest
      exact ⟨_, vs, rfl, .sign first, last⟩
    | word rest =>
      obtain ⟨us, vs, rfl, first, last⟩ := ih rest
      exact ⟨_, vs, rfl, .word first, last⟩
    | part built rest =>
      obtain ⟨us, vs, rfl, first, last⟩ := ih rest
      exact ⟨_, vs, (List.append_assoc ..).symm, .part built first, last⟩

theorem Filled.sign_inv {w : List Piece} (h : Filled fits (Piece.sign k :: w) ts) :
    ∃ t us, ts = t :: us ∧ t.kind = k ∧ Filled fits w us := by
  generalize same : Piece.sign k :: w = v at h
  cases h <;> cases same
  exact ⟨_, _, rfl, rfl, ‹_›⟩

theorem Filled.word_inv {w : List Piece} (h : Filled fits (Piece.word k x :: w) ts) :
    ∃ t us, ts = t :: us ∧ t.kind = k ∧ t.literal = x ∧ Filled fits w us := by
  generalize same : Piece.word k x :: w = v at h
  cases h <;> cases same
  exact ⟨_, _, rfl, rfl, rfl, ‹_›⟩

theorem filled_sign (kind : t.kind = k) : Filled fits [sign k] [t] :=
  kind ▸ .sign .nil

theorem filled_word (kind : t.kind = k) : Filled fits [word k t.literal] [t] :=
  kind ▸ .word .nil

theorem filled_part (h : p.Built fits ts) : Filled fits [part p] ts := by
  rw [← List.append_nil ts]
  exact .part h .nil

theorem Filled.built (h : Filled fits [Piece.part p] ts) : p.Built fits ts := by
  cases h with
  | part built rest =>
    cases rest
    rwa [List.append_nil]

end Piece

mutual

theorem Phrase.Built.rebuild {fits good : Phrase → List Token → Prop}
    (step : ∀ {p w ts}, p.Made w → Piece.Filled good w ts → fits p ts → good p ts) {p : Phrase}
    {ts : List Token} (h : p.Built fits ts) : p.Built good ts :=
  match h with
  | .mk made filled fit =>
    have filled := Piece.Filled.rebuild step filled
    .mk made filled (step made filled fit)

theorem Piece.Filled.rebuild {fits good : Phrase → List Token → Prop}
    (step : ∀ {p w ts}, p.Made w → Piece.Filled good w ts → fits p ts → good p ts) {w : List Piece}
    {ts : List Token} (h : Piece.Filled fits w ts) : Piece.Filled good w ts :=
  match h with
  | .nil => .nil
  | .sign rest => .sign (Piece.Filled.rebuild step rest)
  | .word rest => .word (Piece.Filled.rebuild step rest)
  | .part built rest => .part (Phrase.Built.rebuild step built) (Piece.Filled.rebuild step rest)

end

theorem Phrase.Built.spans (h : p.Built AsRead ts) : p.Built Marked ts :=
  h.rebuild fun _ _ as => as.marked

/-- From `c₀` on, the pieces `w` were read. -/
def Cursor.Since (c₀ : Cursor) (w : List Piece) (c : Cursor) : Prop :=
  ∃ ts, c₀.Feeds ts c ∧ Piece.Read w ts

namespace Cursor

theorem Since.refl (c : Cursor) : c.Since [] c := ⟨[], .refl c, .nil⟩

theorem Since.append {c₀ c c' : Cursor} {v w : List Piece} (h : c₀.Since v c) (h' : c.Since w c') :
    c₀.Since (v ++ w) c' := by
  obtain ⟨ts, feeds, filled⟩ := h
  obtain ⟨us, feeds', filled'⟩ := h'
  exact ⟨ts ++ us, feeds.trans feeds', filled.append filled'⟩

theorem since_advance {v : List Piece} (more : c.rest ≠ []) (filled : Piece.Read v [c.current])
    (read : Reader.advance c = .ok ((), c')) :
    c.Since v c' := by
  have same := Reader.advance_eq read
  obtain ⟨rest, stop, lastEnd, arities⟩ := c
  cases rest with
  | nil => exact absurd rfl more
  | cons t ts =>
    subst same
    exact ⟨[t], ⟨.refl _, rfl, rfl⟩, filled⟩

theorem rest_ne_nil {c : Cursor} (token : c.current.kind ≠ .eof ∨ c.current.literal ≠ "") :
    c.rest ≠ [] := by
  intro none
  rw [current, none] at token
  exact token.elim (absurd rfl) (absurd rfl)

end Cursor

namespace Reader

open Cursor Piece

variable {α β : Type} {c₀ : Cursor} {v w : List Piece}

/-! ### Rules -/

namespace Lays

variable {pre : Cursor → Prop} {r : Reader α} {post : α → Cursor → Prop}

theorem some_of {ι : Type} {good : ι → Prop} {pre : ι → Cursor → Prop}
    (h : ∀ i, good i → Lays (pre i) r post) : Lays (fun c => ∃ i, good i ∧ pre i c) r post := by
  rintro c c' a ordered ⟨i, fine, holds⟩ read
  exact h i fine ordered holds read

theorem for_some {ι : Type} {pre : ι → Cursor → Prop} (h : ∀ i, Lays (pre i) r post) :
    Lays (fun c => ∃ i, pre i c) r post := by
  rintro c c' a ordered ⟨i, holds⟩ read
  exact h i ordered holds read

theorem at_kind (kind : t.kind = k) (h : Lays (fun c => pre c ∧ c.current.kind = k) r post) :
    Lays (fun c => pre c ∧ c.current = t) r post :=
  h.weaken fun _ holds => ⟨holds.1, holds.2 ▸ kind⟩

theorem true_of {q : Prop} (h : Lays pre r post) : Lays (fun c => q ∧ pre c) r post :=
  h.weaken fun _ => And.right

theorem known {q : Prop} (h : q → Lays pre r post) : Lays (fun c => q ∧ pre c) r post :=
  fun _ _ _ ordered holds => h holds.1 ordered holds.2

theorem never (h : ∀ c, ¬ pre c) : Lays pre r post :=
  fun c _ _ _ holds _ => absurd holds (h c)

theorem at_current {f : Token → Reader β} {last : β → Cursor → Prop}
    (rest : Lays (· = c₀) (f c₀.current) last) : Lays (· = c₀) (Reader.current >>= f) last := by
  rintro c c' b ordered rfl h
  obtain ⟨t, c₁, read, h⟩ := bind_ok h
  obtain ⟨rfl, rfl⟩ := current_ok read
  exact rest ordered rfl h

theorem at_pos {f : Pos → Reader β} {last : β → Cursor → Prop}
    (rest : Lays (· = c₀) (f c₀.pos) last) : Lays (· = c₀) (Reader.pos >>= f) last := by
  rintro c c' b ordered rfl h
  obtain ⟨t, c₁, read, h⟩ := bind_ok h
  obtain ⟨rfl, rfl⟩ := pos_ok read
  exact rest ordered rfl h

theorem at_symbol
    (rest : (∀ o, c₀.current.kind = .op o → c₀.current.literal = o.symbol) → Lays (· = c₀) r post) :
    Lays (· = c₀) r post := by
  rintro c c' a ordered rfl read
  refine rest (fun o kind => ?_) ordered rfl read
  obtain ⟨tokens, stop, lastEnd, arities⟩ := c
  cases tokens with
  | nil => cases kind
  | cons t ts => exact ordered.1.symbol o kind

theorem checks {f : Bool → Reader β} {last : β → Cursor → Prop}
    (found : Lays (fun c => pre c ∧ c.current.kind = k) (f true) last)
    (other : Lays pre (f false) last) : Lays pre (Reader.check k >>= f) last := by
  intro c c' b ordered holds h
  obtain ⟨b, c₁, read, h⟩ := bind_ok h
  obtain ⟨rfl, rfl⟩ := check_ok read
  by_cases same : c.current.kind = k
  · rw [beq_iff_eq.mpr same] at h
    exact found ordered ⟨holds, same⟩ h
  · rw [beq_eq_false_iff_ne.mpr same] at h
    exact other ordered holds h

theorem at_here (h : Lays (fun c => c₀.Since [] c ∧ c.current = c₀.current) r post) :
    Lays (· = c₀) r post :=
  h.weaken fun _ same => by rw [same]; exact ⟨.refl _, rfl⟩

theorem begins_at (kind : c₀.current.kind = k)
    (h : Lays (fun c => c₀.Since [] c ∧ c.current.kind = k) r post) : Lays (· = c₀) r post :=
  h.weaken fun _ same => by rw [same]; exact ⟨.refl _, kind⟩

theorem respell (v : List Piece) (same : w = v) (h : Lays (c₀.Since v) r post) :
    Lays (c₀.Since w) r post :=
  same ▸ h

theorem begins (h : Lays (c₀.Since []) r post) : Lays (· = c₀) r post :=
  h.weaken fun _ same => same ▸ .refl _

theorem after_strengthen {post' : α → Cursor → Prop} (h : Lays pre r post)
    (imp : ∀ a c, post a c → post' a c) : Lays pre r post' := by
  intro c c' a ordered holds read
  obtain ⟨ordered', done⟩ := h ordered holds read
  exact ⟨ordered', imp a c' done⟩

theorem also {good : α → Prop} (h : Lays pre r post)
    (gives : ∀ {c c' a}, r c = .ok (a, c') → good a) : Lays pre r fun a c => good a ∧ post a c := by
  intro c c' a ordered holds read
  obtain ⟨ordered', done⟩ := h ordered holds read
  exact ⟨ordered', gives read, done⟩

theorem iterates (keep : α → Cursor → Prop) {step : α → Reader (Option α)}
    (once : ∀ x, Lays (keep x) (step x) fun r => keep (r.getD x)) (n : Nat) (x : α) :
    Lays (keep x) (iterate step n x) keep := by
  induction n generalizing x with
  | zero => exact .fails fun _ _ => exhausted_ok
  | succ n ih =>
    refine (once x).bind fun r => ?_
    cases r with
    | none => exact .pure fun c h => h
    | some y => exact ih y

end Lays

/-- A reader adds one piece. -/
def Writes (r : Reader α) (piece : α → Piece) : Prop :=
  ∀ c₀ w, Lays (Since c₀ w) r fun a => Since c₀ (w ++ [piece a])

/-- A reader adds pieces that are `good` for what it gives. -/
def Spells (r : Reader α) (good : α → List Piece → Prop) : Prop :=
  ∀ c₀ w, Lays (Since c₀ w) r fun a c => ∃ v, good a v ∧ Since c₀ (w ++ v) c

theorem Writes.of {r : Reader α} {piece : α → Piece}
    (h : ∀ c₀, Lays (· = c₀) r fun a => Since c₀ [piece a]) : Writes r piece := by
  intro c₀ w c c' a ordered since read
  obtain ⟨ordered', there⟩ := h c ordered rfl read
  exact ⟨ordered', since.append there⟩

theorem Spells.of {r : Reader α} {good : α → List Piece → Prop}
    (h : ∀ c₀, Lays (· = c₀) r fun a c => ∃ v, good a v ∧ Since c₀ v c) : Spells r good := by
  intro c₀ w c c' a ordered since read
  obtain ⟨ordered', v, fine, there⟩ := h c ordered rfl read
  exact ⟨ordered', v, fine, since.append there⟩

theorem Lays.nested {r : Reader α} {good : α → Prop} (piece : α → Piece)
    (h : ∀ c₁, Lays (· = c₁) r fun a c => good a ∧ Since c₁ [piece a] c) :
    Lays (Since c₀ w) r fun a c => good a ∧ Since c₀ (w ++ [piece a]) c := by
  intro c c' a ordered since read
  obtain ⟨ordered', fine, there⟩ := h c ordered rfl read
  exact ⟨ordered', fine, since.append there⟩

theorem Writes.spells {r : Reader α} {piece : α → Piece} (h : Writes r piece) :
    Spells r fun a v => v = [piece a] :=
  fun c₀ w => (h c₀ w).after_strengthen fun _ _ since => ⟨_, rfl, since⟩

theorem Spells.mono {r : Reader α} {good good' : α → List Piece → Prop} (h : Spells r good)
    (imp : ∀ a v, good a v → good' a v) : Spells r good' := by
  refine fun c₀ w => (h c₀ w).after_strengthen ?_
  rintro a c ⟨v, fine, since⟩
  exact ⟨v, imp a v fine, since⟩

/-! ### Steps -/

theorem advance_some (token : t.kind ≠ .eof ∨ t.literal ≠ "") (filled : Read v [t]) :
    Lays (fun c => c₀.Since w c ∧ c.current = t) advance fun _ => c₀.Since (w ++ v) := by
  rintro c c' u ordered ⟨since, rfl⟩ read
  have more := rest_ne_nil token
  exact ⟨(advance_took ordered more read).ordered, since.append (since_advance more filled read)⟩

theorem advance_since (token : t.kind ≠ .eof) (filled : Read v [t]) :
    Lays (fun c => c₀.Since w c ∧ c.current = t) advance fun _ => c₀.Since (w ++ v) :=
  advance_some (.inl token) filled

theorem advance_at (token : c₀.current.kind ≠ .eof) (filled : Read v [c₀.current]) :
    Lays (· = c₀) advance fun _ => c₀.Since v := by
  rintro c c' u ordered rfl read
  exact ⟨(advance_ok ordered token read).ordered,
    since_advance (rest_ne_nil (.inl token)) filled read⟩

theorem advance_kind (token : k ≠ .eof) :
    Lays (fun c => c₀.Since w c ∧ c.current.kind = k) advance fun _ =>
      c₀.Since (w ++ [sign k]) := by
  rintro c c' u ordered ⟨since, rfl⟩ read
  exact advance_since token (filled_sign rfl) ordered ⟨since, rfl⟩ read

theorem advance_next (token : t.kind ≠ .eof) (next : k ≠ .eof) (filled : Read v [t]) :
    Lays (fun c => (c₀.Since w c ∧ c.current = t) ∧ c.nextKind = k) advance fun _ c =>
      c₀.Since (w ++ v) c ∧ c.current.kind = k := by
  rintro c c' u ordered ⟨here, rfl⟩ read
  obtain ⟨ordered', since⟩ := advance_since token filled ordered here read
  refine ⟨ordered', since, ?_⟩
  have same := advance_eq read
  obtain ⟨tokens, stop, lastEnd, arities⟩ := c
  subst same
  match tokens with
  | [] | [_] => exact absurd rfl next
  | _ :: _ :: _ => rfl

theorem discard_since {pre : Cursor → Prop} {r : Reader α} {post : α → Cursor → Prop}
    (h : Lays pre r post) : Lays pre (discard r) fun _ c => ∃ a, post a c :=
  h.map fun a _ done => ⟨a, done⟩

theorem expect_word (token : k ≠ .eof) :
    Lays (c₀.Since w) (expect k) fun t => c₀.Since (w ++ [word k t.literal]) := by
  refine .current fun t => ?_
  split
  · next kind =>
    have kind := eq_of_beq kind
    refine (advance_since (kind ▸ token) (filled_word kind)).bind fun _ => ?_
    exact .pure fun c since => since
  · exact .fails fun _ _ => unexpected_ok

theorem expect_since (token : k ≠ .eof) :
    Lays (c₀.Since w) (expect k) fun _ => c₀.Since (w ++ [sign k]) := by
  refine .current fun t => ?_
  split
  · next kind =>
    have kind := eq_of_beq kind
    refine (advance_since (kind ▸ token) (filled_sign kind)).bind fun _ => ?_
    exact .pure fun c since => since
  · exact .fails fun _ _ => unexpected_ok

theorem nextKind_known {pre : Cursor → Prop} {f : Token.Kind → Reader β}
    {last : β → Cursor → Prop} (rest : ∀ k, Lays (fun c => pre c ∧ c.nextKind = k) (f k) last) :
    Lays pre (nextKind >>= f) last := by
  intro c c' b ordered holds h
  obtain ⟨k, _, read, h⟩ := bind_ok h
  cases read
  exact rest _ ordered ⟨holds, rfl⟩ h

theorem nextKind_since {pre : Cursor → Prop} : Lays pre nextKind fun _ => pre := by
  intro c c' k ordered holds h
  obtain rfl := nextKind_ok h
  exact ⟨ordered, holds⟩

variable {o : Operator}

theorem expectOp_at :
    Lays (· = c₀) (expectOp o) fun t c => t = c₀.current ∧ c₀.Since [op o] c := by
  refine .at_current ?_
  split
  · next kind =>
    have kind := eq_of_beq kind
    refine (advance_at (kind ▸ nofun) (filled_sign kind)).bind fun _ => ?_
    exact .pure fun c since => ⟨rfl, since⟩
  · exact .fails fun _ _ => unexpected_ok

theorem expectOp_since :
    Lays (c₀.Since w) (expectOp o) fun _ => c₀.Since (w ++ [op o]) :=
  expect_since nofun

theorem skip_since :
    Lays (c₀.Since w) (discard (expectOp o)) fun _ => c₀.Since (w ++ [op o]) :=
  expectOp_since.map fun _ _ since => since

/-- The piece `p`, if `found`. -/
def given (p : Piece) (found : Bool) : List Piece := if found then [p] else []

@[simp]
theorem given_false (p : Piece) : given p false = [] := rfl

theorem accept_since (token : k ≠ .eof) :
    Lays (c₀.Since w) (accept k) fun b => c₀.Since (w ++ given (sign k) b) := by
  refine .checks ?_ ?_
  · exact (advance_kind token).bind fun _ => .pure fun c since => since
  · refine .pure fun c since => ?_
    rwa [given_false, List.append_nil]

theorem accept_found (token : k ≠ .eof) :
    Lays (fun c => c₀.Since w c ∧ c.current.kind = k) (accept k) fun b c =>
      b = true ∧ c₀.Since (w ++ [sign k]) c := by
  rintro c c' b ordered ⟨since, here⟩ h
  have accepted := accept_since token ordered since h
  rcases accept_ok ordered token h with ⟨rfl, -, -⟩ | ⟨-, other, -⟩
  · exact ⟨accepted.1, rfl, accepted.2⟩
  · exact absurd here other

theorem acceptOp_since :
    Lays (c₀.Since w) (acceptOp o) fun b => c₀.Since (w ++ given (op o) b) :=
  accept_since nofun

theorem acceptWord_since :
    Lays (c₀.Since w) (acceptWord x) fun b => c₀.Since (w ++ given (Piece.name x) b) := by
  refine .current fun t => ?_
  split
  · next same =>
    simp only [Bool.and_eq_true, beq_iff_eq] at same
    obtain ⟨kind, rfl⟩ := same
    refine (advance_since (kind ▸ nofun) (filled_word kind)).bind fun _ => ?_
    exact .pure fun c since => since
  · refine .pure fun c since => ?_
    rw [given_false, List.append_nil]
    exact since.1

theorem expectWord_since :
    Lays (c₀.Since w) (expectWord x) fun _ => c₀.Since (w ++ [Piece.name x]) := by
  refine acceptWord_since.bind fun b => ?_
  cases b with
  | true => exact .pure fun c since => since
  | false => exact .fails fun _ _ => unexpected_ok

theorem name_writes : Writes name Piece.name := by
  refine .of fun c₀ => .at_current ?_
  split
  · next kind =>
    have kind := eq_of_beq kind
    refine (advance_at (kind ▸ nofun) (filled_word kind)).bind fun _ => ?_
    exact .pure fun c since => since
  · exact .fails fun _ _ => failAt_ok

theorem close_since :
    Lays (c₀.Since w) (close o t) fun _ => c₀.Since (w ++ [op o]) := by
  refine (Lays.check _).bind fun ended => ?_
  cases ended with
  | true => exact .fails_first fun _ _ => unclosed_ok
  | false => exact skip_since

/-! ### Complete productions -/

theorem Read.ne_nil (h : Read w ts) (some : w ≠ []) : ts ≠ [] := by
  cases h with
  | nil => exact absurd rfl some
  | sign _ => exact List.cons_ne_nil _ _
  | word _ => exact List.cons_ne_nil _ _
  | @part p _ us _ built _ =>
    rintro none
    obtain ⟨rfl, rfl⟩ := List.append_eq_nil_iff.mp none
    obtain ⟨-, -, as⟩ := built
    obtain ⟨_, _, head, -⟩ := as.marked.head
    cases head

/-- A production with its span, which takes in all of its tokens. -/
def Spanned (p : Span → Phrase) : Prop :=
  ∀ s, (p s).span = s ∧ (∀ ts, (p s).covered ts = ts) ∧ (p s).Fresh

theorem since_phrase {c : Cursor} {p : Span → Phrase} (since : c₀.Since w c) (some : w ≠ [])
    (made : ∀ s, (p s).Made w) (spanned : Spanned p) :
    c₀.Since [part (p ⟨c₀.pos, c.lastEnd⟩)] c := by
  obtain ⟨ts, feeds, filled⟩ := since
  obtain ⟨span, covered, fresh⟩ := spanned ⟨c₀.pos, c.lastEnd⟩
  refine ⟨ts, feeds, filled_part (.mk (made _) filled ⟨?_, fresh⟩)⟩
  obtain ⟨t, us, rfl⟩ := List.exists_cons_of_ne_nil (Read.ne_nil filled some)
  rw [Phrase.Marked, span, covered]
  exact feeds.covers

theorem finish_since {p : Span → Phrase} {f : Span → α} {start : Pos} {post : α → Cursor → Prop}
    (made : ∀ s, (p s).Made w) (done : ∀ s c, c₀.Since [part (p s)] c → post (f s) c)
    (from_ : ∀ c, c₀.Since w c → start = c₀.pos) (some : w ≠ []) (spanned : Spanned p) :
    Lays (c₀.Since w) (spanFrom start >>= fun s => pure (f s)) post := by
  intro c c' a ordered since h
  obtain ⟨rfl, rfl⟩ := finish_ok h
  refine ⟨ordered, done _ _ ?_⟩
  rw [from_ _ since]
  exact since_phrase since some made spanned

theorem finish_here {p : Span → Phrase} {f : Span → α} {post : α → Cursor → Prop}
    (made : ∀ s, (p s).Made w) (done : ∀ s c, c₀.Since [part (p s)] c → post (f s) c)
    (some : w ≠ []) (spanned : Spanned p) :
    Lays (c₀.Since w) (spanFrom c₀.pos >>= fun s => pure (f s)) post :=
  finish_since made done (fun _ _ => rfl) some spanned

/-! ### Loops -/

theorem after?_since {lead : Reader Bool} {item : Reader α} {p : Piece} {piece : α → Piece}
    (first : ∀ w, Lays (c₀.Since w) lead fun b => c₀.Since (w ++ given p b))
    (rest : Writes item piece) :
    Lays (c₀.Since w) (after? lead item) fun r => c₀.Since (w ++ led p (r.map piece)) := by
  refine (first w).bind fun found => ?_
  cases found with
  | true =>
    refine (rest _ _).map fun a c since => ?_
    rwa [List.append_assoc] at since
  | false => exact .pure fun c since => since

theorem commaList_spells {opener : Token} {closer : Operator} {item : Reader α}
    {piece : α → Piece} (each : Writes item piece) (n : Nat) :
    Spells (commaList opener closer item n) fun xs v =>
      ∃ u, Commas (xs.map piece) u ∧ v = u ++ [op closer] := by
  induction n with
  | zero => exact fun _ _ => .fails fun _ _ => exhausted_ok
  | succ n ih =>
    refine .of fun c₀ => .begins ((Lays.check _).bind fun closed => ?_)
    cases closed with
    | true => exact close_since.bind fun _ => .pure fun c since => ⟨_, ⟨_, .nil, rfl⟩, since⟩
    | false =>
      refine (Lays.check _).bind fun ended => ?_
      cases ended with
      | true => exact .fails_first fun _ _ => unclosed_ok
      | false =>
        refine (each _ _).bind fun x => acceptOp_since.bind fun comma => ?_
        cases comma with
        | true =>
          refine (ih _ _).bind fun xs => .some_of fun v ⟨u, commas, same⟩ => ?_
          refine .pure fun c since => ⟨_, ⟨_, .more commas, rfl⟩, ?_⟩
          rw [same] at since
          exact since
        | false => exact close_since.bind fun _ => .pure fun c since => ⟨_, ⟨_, .last, rfl⟩, since⟩

theorem bracedList_spells {opener : Token} {item : Reader α} {good : α → List Piece → Prop}
    (each : Spells item good) (n : Nat) :
    Spells (bracedList opener item n) fun xs v => ∃ u, Each good xs u ∧ v = u ++ [op .closeBrace] := by
  induction n with
  | zero => exact fun _ _ => .fails fun _ _ => exhausted_ok
  | succ n ih =>
    refine .of fun c₀ => .begins (.checks ?_ ?_)
    · exact (advance_kind (by nofun)).bind fun _ => .pure fun c since => ⟨_, ⟨_, .nil, rfl⟩, since⟩
    · refine (Lays.check _).bind fun ended => ?_
      cases ended with
      | true => exact .fails_first fun _ _ => unclosed_ok
      | false =>
        refine (each _ _).bind fun x => .some_of fun v fine => ?_
        refine (ih _ _).bind fun xs => .some_of fun w ⟨u, all, same⟩ => ?_
        refine .pure fun c since => ⟨_, ⟨_, .cons fine all, rfl⟩, ?_⟩
        rw [same, List.nil_append, ← List.append_assoc] at since
        exact since

theorem many_spells {item : Reader (Option α)} {good : α → List Piece → Prop}
    (each : Spells item fun r v => (r = none ∧ v = []) ∨ ∃ x, r = some x ∧ good x v) (n : Nat) :
    Spells (many item n) (Each good) := by
  induction n with
  | zero => exact fun _ _ => .fails fun _ _ => exhausted_ok
  | succ n ih =>
    refine .of fun c₀ => .begins ((each _ _).bind fun r => .some_of fun v found => ?_)
    rcases found with ⟨rfl, rfl⟩ | ⟨x, rfl, fine⟩
    · exact .pure fun c since => ⟨_, .nil, since⟩
    · refine (ih _ _).bind fun xs => .some_of fun w all => ?_
      exact .pure fun c since => ⟨_, .cons fine all, since⟩

theorem Each.eq_map {piece : α → Piece} {xs : List α} (h : Each (fun x v => v = [piece x]) xs w) :
    w = xs.map piece := by
  induction h with
  | nil => rfl
  | cons here _ ih => rw [here, ih, List.map_cons, List.singleton_append]

theorem Each.eq_flatMap {piece : α → List Piece} {xs : List α}
    (h : Each (fun x v => v = piece x) xs w) : w = xs.flatMap piece := by
  induction h with
  | nil => rfl
  | cons here _ ih => rw [here, ih, List.flatMap_cons]

end Reader

end TastyLang
