import TastyLang.Proofs.Token.Extents

/-!
# Closing brackets cut in two

A list of template arguments may close with the first half of a token, `>>` or `>=`; what is read
are then the two halves as tokens of their own. A text is still covered by its tokens when some of
them are halved (`Cut.halved`). A token ends where its place and its literal say, but the line of
that end is the right one only for tokens on one line and for captured blocks
(`stop_follows_iff`).
-/

namespace TastyLang

variable {p : Pos} {before cs : List Char}

theorem Pos.Follows.behind (h : p.Follows before) (flat : '\n' ∉ cs) :
    (p.shift (Text.size cs)).Follows (before ++ cs) := by
  obtain ⟨offset, line, column, firstLine⟩ := h
  have none : cs.count '\n' = 0 := List.count_eq_zero.mpr flat
  refine ⟨?_, ?_, fun a b same last => ?_, fun even => ?_⟩
  · rw [Text.size_append]
    simp only [shift]
    omega
  · rw [List.count_append, none]
    exact line
  · -- the last line break stands in front of `cs`
    rcases List.append_eq_append_iff.mp same with ⟨c, rfl, rest⟩ | ⟨c, rfl, rest⟩
    · have member : '\n' ∈ cs := by simp [rest]
      exact absurd member flat
    · cases c with
      | nil =>
        rw [List.nil_append] at rest
        have member : '\n' ∈ cs := by simp [← rest]
        exact absurd member flat
      | cons d c =>
        obtain ⟨rfl, rfl⟩ := List.cons.inj rest
        have there := column a c rfl fun member => last (List.mem_append_left _ member)
        simp only [shift]
        omega
  · have there := firstLine fun member => even (List.mem_append_left _ member)
    simp only [shift]
    omega

namespace Token

/-! ### Halves -/

/-- The halves of a token that starts with a closing bracket and goes on. -/
def halves? (t : Token) : Option (Token × Token) :=
  match t.kind with
  | .op .shiftRight => some (⟨.op .greater, ">", t.pos⟩, ⟨.op .greater, ">", t.pos.shift 1⟩)
  | .op .greaterEqual => some (⟨.op .greater, ">", t.pos⟩, ⟨.op .assign, "=", t.pos.shift 1⟩)
  | _ => none

theorem halves?_cases {t a b : Token} (h : t.halves? = some (a, b)) :
    (t.kind = .op .shiftRight ∧ a = ⟨.op .greater, ">", t.pos⟩ ∧
        b = ⟨.op .greater, ">", t.pos.shift 1⟩) ∨
      (t.kind = .op .greaterEqual ∧ a = ⟨.op .greater, ">", t.pos⟩ ∧
        b = ⟨.op .assign, "=", t.pos.shift 1⟩) := by
  unfold halves? at h
  split at h
  · next kind =>
    cases h
    exact .inl ⟨kind, rfl, rfl⟩
  · next kind =>
    cases h
    exact .inr ⟨kind, rfl, rfl⟩
  · cases h

theorem halves?_halves {t a b : Token} (h : t.halves? = some (a, b)) :
    a.halves? = none ∧ b.halves? = none := by
  rcases halves?_cases h with ⟨-, rfl, rfl⟩ | ⟨-, rfl, rfl⟩ <;> exact ⟨rfl, rfl⟩

/-- The same tokens, some of them in two halves. -/
inductive Halved : List Token → List Token → Prop where
  | nil : Halved [] []
  | whole {t : Token} {ts us : List Token} : Halved ts us → Halved (t :: ts) (t :: us)
  | halves {t a b : Token} {ts us : List Token} : t.halves? = some (a, b) → Halved (b :: ts) us →
      Halved (t :: ts) (a :: us)

namespace Halved

theorem refl (ts : List Token) : Halved ts ts := by
  induction ts with
  | nil => exact .nil
  | cons t ts ih => exact .whole ih

variable {ts us vs : List Token}

theorem trans (h : Halved ts us) (h' : Halved us vs) : Halved ts vs := by
  induction h generalizing vs with
  | nil => exact h'
  | whole _ ih =>
    cases h' with
    | whole rest => exact .whole (ih rest)
    | halves two rest =>
      cases rest with
      | whole rest => exact .halves two (.whole (ih rest))
      | halves again _ => exact nomatch (halves?_halves two).2.symm.trans again
  | halves two _ ih =>
    cases h' with
    | whole rest => exact .halves two (ih rest)
    | halves again _ => exact nomatch (halves?_halves two).1.symm.trans again

theorem append (h : Halved us vs) : Halved (ts ++ us) (ts ++ vs) := by
  induction ts with
  | nil => exact h
  | cons t ts ih => exact .whole ih

theorem append_right (h : Halved ts us) : Halved (ts ++ vs) (us ++ vs) := by
  induction h with
  | nil => exact refl vs
  | whole _ ih => exact .whole ih
  | halves two _ ih => exact .halves two ih

theorem each {good : Token → Prop} {ts us : List Token} (h : Halved ts us)
    (whole : ∀ t ∈ ts, good t) (ops : ∀ o literal pos, good ⟨.op o, literal, pos⟩) :
    ∀ t ∈ us, good t := by
  induction h with
  | nil => exact whole
  | whole _ ih =>
    rw [List.forall_mem_cons] at whole ⊢
    exact ⟨whole.1, ih whole.2⟩
  | halves two _ ih =>
    rw [List.forall_mem_cons] at whole ⊢
    obtain ⟨-, rfl, rfl⟩ | ⟨-, rfl, rfl⟩ := halves?_cases two
    all_goals exact ⟨ops _ _ _, ih (List.forall_mem_cons.mpr ⟨ops _ _ _, whole.2⟩)⟩

theorem ordered {stop : Pos} {ts us : List Token} (h : Halved ts us) (ordered : Ordered stop ts) :
    Ordered stop us ∧ startOf stop us = startOf stop ts := by
  induction h with
  | nil => exact ⟨ordered, rfl⟩
  | whole _ ih =>
    obtain ⟨sound, before, later⟩ := ordered
    obtain ⟨later, same⟩ := ih later
    exact ⟨⟨sound, same ▸ before, later⟩, rfl⟩
  | @halves t a b ts us two _ ih =>
    obtain ⟨sound, before, later⟩ := ordered
    obtain ⟨start, length, line⟩ := before
    suffices parts : a.Sound ∧ a.Before b.pos ∧ Ordered stop (b :: ts) ∧ a.pos = t.pos by
      obtain ⟨sound, before, rest, same⟩ := parts
      obtain ⟨later, start⟩ := ih rest
      exact ⟨⟨sound, start ▸ before, later⟩, same⟩
    obtain ⟨kind, rfl, rfl⟩ | ⟨kind, rfl, rfl⟩ := halves?_cases two
    all_goals
      rw [sound.symbol _ kind] at length line
      have wide : Operator.shiftRight.symbol.length = 2 ∧ Operator.greaterEqual.symbol.length = 2 ∧
        ">".length = 1 ∧ "=".length = 1 := by decide
      have flat : Text.breaks ">" = 0 ∧ Text.breaks "=" = 0 := by decide
      refine ⟨⟨fun _ => flat.1, ?_⟩, ⟨?_, ?_, ?_⟩, ⟨⟨fun _ => ?_, ?_⟩, ⟨?_, ?_, ?_⟩, later⟩, rfl⟩
      all_goals grind [Pos.shift, Operator.symbol]

end Halved

/-! ### Places -/

variable {t : Token}

theorem extent_eq (plain : t.kind ≠ .raw) : t.extent = t.literal.toList := by
  unfold extent
  split
  · next raw => exact absurd raw plain
  · rfl

theorem halves?_extent {t a b : Token} (h : t.halves? = some (a, b))
    (symbol : ∀ o, t.kind = .op o → t.literal = o.symbol) :
    a.extent = ['>'] ∧ b.extent ≠ [] ∧ t.extent = a.extent ++ b.extent ∧ a.pos = t.pos ∧
      b.pos = t.pos.shift 1 ∧ a.kind ≠ .eof ∧ b.kind ≠ .eof := by
  rcases halves?_cases h with ⟨kind, rfl, rfl⟩ | ⟨kind, rfl, rfl⟩
  all_goals
    have text := extent_eq (t := t) (by rw [kind]; rintro ⟨⟩)
    rw [symbol _ kind] at text
    rw [text]
    simp [extent, Operator.symbol]

theorem Cut.halved {before cs : List Char} {ts us : List Token} (cut : Cut before cs ts)
    (h : Halved ts us) (symbol : ∀ t ∈ ts, ∀ o, t.kind = .op o → t.literal = o.symbol) :
    Cut before cs us := by
  induction h generalizing before cs with
  | nil => exact cut
  | whole _ ih =>
    rw [List.forall_mem_cons] at symbol
    cases cut with
    | stop gap place =>
      cases ‹Halved [] _›
      exact .stop gap place
    | token gap kind some place tail => exact .token gap kind some place (ih tail symbol.2)
  | @halves t a b ts us two rest ih =>
    rw [List.forall_mem_cons] at symbol
    cases cut with
    | stop gap place => cases two
    | @token _ gap rest _ _ isGap kind some place tail =>
      obtain ⟨text, more, whole, start, next, marks⟩ := halves?_extent two symbol.1
      have symbol' : ∀ u ∈ b :: ts, ∀ o, u.kind = .op o → u.literal = o.symbol := by
        refine List.forall_mem_cons.mpr ⟨fun o same => ?_, symbol.2⟩
        rcases halves?_cases two with ⟨-, -, rfl⟩ | ⟨-, -, rfl⟩ <;> cases same <;> rfl
      have place' : b.pos.Follows (before ++ gap ++ a.extent ++ []) := by
        have flat : '\n' ∉ ['>'] := by decide
        rw [next, text, List.append_nil]
        exact place.behind flat
      have tail' : Cut (before ++ gap ++ a.extent) ([] ++ b.extent ++ rest) (b :: ts) := by
        refine .token .nil marks.2 more place' ?_
        rw [whole, ← List.append_assoc] at tail
        rwa [List.append_nil]
      have first := Cut.token isGap marks.1 (text ▸ List.cons_ne_nil _ _) (start ▸ place)
        (ih tail' symbol')
      rw [whole, ← List.append_assoc, List.append_assoc]
      exact first

/-! ### Ends -/

theorem stop_eq (plain : t.kind ≠ .raw) :
    t.stop = t.pos.shift (Text.size t.literal.toList) := by
  unfold stop
  split
  · next raw => exact absurd raw plain
  · rw [Text.size, String.ofList_toList]

theorem stop_offset (t : Token) : t.stop.offset = t.pos.offset + Text.size t.extent := by
  by_cases raw : t.kind = .raw
  · have braces : Text.size t.extent = t.literal.utf8ByteSize + 2 := by
      simp only [extent, raw, Text.size_append, Text.size_cons, Text.size_nil]
      rw [Text.size, String.ofList_toList]
      show 1 + _ + (1 + 0) = _
      omega
    rw [braces]
    unfold stop
    rw [raw]
    dsimp only
    split <;> dsimp only <;> omega
  · rw [stop_eq raw, extent_eq raw]
    rfl

theorem extent_flat (flat : '\n' ∉ t.literal.toList) : '\n' ∉ t.extent := by
  unfold extent
  split
  · simpa using flat
  · exact flat

theorem stop_lines (raw : t.kind = .raw) (lines : '\n' ∈ t.literal.toList) :
    t.stop.line = t.pos.line + t.literal.toList.count '\n' ∧
      t.stop.column =
        Text.size (t.literal.toList.reverse.takeWhile (· ≠ '\n')) + 2 := by
  have some : t.literal.toList.count '\n' ≠ 0 := fun none => List.count_eq_zero.mp none lines
  unfold stop
  rw [raw]
  dsimp only
  split
  · next none => exact absurd none some
  · exact ⟨rfl, rfl⟩

theorem size_reverse (cs : List Char) : Text.size cs.reverse = Text.size cs := by
  induction cs with
  | nil => rfl
  | cons c cs ih =>
    rw [List.reverse_cons, Text.size_append, ih, Text.size_cons, Text.size_cons, Text.size_nil]
    omega

theorem exists_last_line {cs : List Char} (lines : '\n' ∈ cs) :
    ∃ c d, cs = c ++ '\n' :: d ∧ '\n' ∉ d := by
  obtain ⟨d, c, same, flat⟩ := List.eq_append_cons_of_mem (List.mem_reverse.mpr lines)
  refine ⟨c.reverse, d.reverse, ?_, fun member => flat (List.mem_reverse.mp member)⟩
  have whole := congrArg List.reverse same
  simpa using whole

theorem takeWhile_reverse {a b : List Char} (flat : '\n' ∉ b) :
    (a ++ '\n' :: b).reverse.takeWhile (· ≠ '\n') = b.reverse := by
  rw [List.reverse_append, List.reverse_cons, List.append_assoc, List.takeWhile_append_of_pos]
  · simp
  · intro c member
    have member := List.mem_reverse.mp member
    exact decide_eq_true fun same => flat (same ▸ member)

theorem stop_flat (flat : '\n' ∉ t.literal.toList) :
    t.stop = t.pos.shift (Text.size t.extent) := by
  by_cases raw : t.kind = .raw
  · have offset := t.stop_offset
    have none : t.literal.toList.count '\n' = 0 := List.count_eq_zero.mpr flat
    have size : t.stop = ⟨t.pos.line, t.pos.column + t.literal.utf8ByteSize + 2,
        t.pos.offset + t.literal.utf8ByteSize + 2⟩ := by
      unfold stop
      rw [raw]
      simp only [none]
    rw [size] at offset ⊢
    simp only [Pos.shift, Pos.mk.injEq, true_and] at offset ⊢
    omega
  · rw [stop_eq raw, extent_eq raw]

theorem stop_column {before a b : List Char} (raw : t.kind = .raw) (lines : '\n' ∈ t.literal.toList)
    (same : before ++ t.extent = a ++ '\n' :: b)
    (last : '\n' ∉ b) : t.stop.column = 1 + Text.size b := by
  obtain ⟨c, d, literal, flat⟩ := exists_last_line lines
  have text : before ++ t.extent = before ++ '\x7b' :: c ++ '\n' :: (d ++ ['\x7d']) := by
    rw [extent, raw]
    simp [literal]
  have tail : b = d ++ ['\x7d'] := by
    have whole := congrArg (fun cs => cs.reverse.takeWhile (· ≠ '\n')) (same.symm.trans text)
    rw [takeWhile_reverse last, takeWhile_reverse (by simp [flat])] at whole
    exact List.reverse_inj.mp whole
  have brace : Text.size ['\x7d'] = 1 := rfl
  rw [(stop_lines raw lines).2, literal, takeWhile_reverse flat, size_reverse, tail,
    Text.size_append, brace]
  omega

/-- The end of a token has the right line and column if the token is a captured block or stands on
one line, and only then. -/
theorem stop_follows_iff {before : List Char} (place : t.pos.Follows before) :
    t.stop.Follows (before ++ t.extent) ↔ t.kind = .raw ∨ '\n' ∉ t.literal.toList := by
  constructor
  · intro follows
    by_cases raw : t.kind = .raw
    · exact .inl raw
    · refine .inr fun lines => ?_
      -- the end is on the line of the start
      have here : t.stop.line = t.pos.line := by rw [stop_eq raw]; rfl
      have there := follows.line
      have start := place.line
      have some : 0 < t.literal.toList.count '\n' := List.count_pos_iff.mpr lines
      rw [List.count_append, extent_eq raw] at there
      omega
  · intro fits
    by_cases lines : '\n' ∈ t.literal.toList
    · have raw := fits.resolve_right (not_not_intro lines)
      have text : t.extent = '\x7b' :: t.literal.toList ++ ['\x7d'] := by rw [extent, raw]
      have offset : t.stop.offset = Text.size (before ++ t.extent) := by
        rw [stop_offset, place.offset, Text.size_append]
        rfl
      refine ⟨offset, ?_, fun a b same last => ?_, fun even => ?_⟩
      · have start := place.line
        have breaks : t.extent.count '\n' = t.literal.toList.count '\n' := by simp [text]
        rw [(stop_lines raw lines).1, List.count_append, breaks]
        omega
      · have newline : Text.size ['\n'] = 1 := rfl
        rw [offset, stop_column raw lines same last, same, Text.size_append,
          ← List.singleton_append, Text.size_append, newline]
        omega
      · have member : '\n' ∈ before ++ t.extent := by simp [text, lines]
        exact absurd member even
    · rw [stop_flat lines]
      exact place.behind (extent_flat lines)

end Token

end TastyLang
