import TastyLang.Proofs.Token.Spacing

/-!
# Tokens cut out of a text

A word or a number that was cut out of a text is the same token wherever what stands behind it
cannot belong to it (`lexeme_cut`), and an operator is one wherever no longer one starts there
(`lexeme_symbol`).
-/

namespace TastyLang

/-- Whether an operator goes on with `d` behind the symbol of `o`. -/
def Operator.goesOn (o : Operator) (d : Char) : Bool :=
  Operator.all.any fun longer => (o.symbol.toList ++ [d]).isPrefixOf longer.symbol.toList

namespace Token

/-- No word and no number goes on with the text. -/
def Stops (rest : List Char) : Prop :=
  ∀ c ∈ rest.head?, isWordChar c = false ∧ c ∉ ['.', '+', '-']

section

variable {rest : List Char} {k : Nat}

theorem run_cut {p : Char → Bool} (stops : ∀ c ∈ rest.head?, p c = false) {cs : List Char}
    (whole : run p cs ≤ k) : run p (cs.take k ++ rest) = run p cs := by
  induction cs generalizing k with
  | nil =>
    rw [List.take_nil, List.nil_append]
    cases rest with
    | nil => rfl
    | cons c rest => simp [run, stops c rfl]
  | cons c cs ih =>
    unfold run at whole ih ⊢
    by_cases here : p c = true
    · rw [List.takeWhile_cons_of_pos here, List.length_cons] at whole
      obtain ⟨k, rfl⟩ : ∃ k', k = k' + 1 := ⟨k - 1, by omega⟩
      rw [List.take_succ_cons, List.cons_append, List.takeWhile_cons_of_pos here,
        List.takeWhile_cons_of_pos here, List.length_cons, List.length_cons, ih (by omega)]
    · cases k with
      | zero =>
        cases rest with
        | nil => simp [here]
        | cons d rest => simp [here, stops d rfl]
      | succ k => simp [here]

theorem drop_cut {n : Nat} {cs : List Char} (inside : n ≤ k) (length : n ≤ cs.length) :
    (cs.take k ++ rest).drop n = (cs.drop n).take (k - n) ++ rest := by
  rw [List.drop_append_of_le_length (by rw [List.length_take]; omega), List.drop_take]

variable (stops : Stops rest)

include stops

theorem Stops.isDigit : ∀ c ∈ rest.head?, Text.isDigit c = false := by
  intro c head
  have word := (stops c head).1
  rw [isWordChar, Bool.or_eq_false_iff] at word
  exact word.2

theorem Stops.isHexDigit : ∀ c ∈ rest.head?, isHexDigit c = false := by
  intro c head
  have digit := stops.isDigit c head
  have word := (stops c head).1
  have small : 'f' ≤ 'z' := by decide
  have large : 'F' ≤ 'Z' := by decide
  simp only [isWordChar, isWordStart, Token.isHexDigit, Bool.or_eq_false_iff,
    Bool.and_eq_false_iff, decide_eq_false_iff_not] at word ⊢
  obtain ⟨⟨⟨lower, upper⟩, -⟩, -⟩ := word
  exact ⟨⟨digit, lower.imp id fun h h' => h (Char.le_trans h' small)⟩,
    upper.imp id fun h h' => h (Char.le_trans h' large)⟩

theorem Stops.ne {d : Char} (word : isWordChar d = true) : ∀ c ∈ rest.head?, c ≠ d := by
  rintro c head rfl
  rw [(stops c head).1] at word
  cases word

theorem Stops.fraction_eq_zero : fraction rest = 0 := by
  rcases rest with _ | ⟨c, rest⟩
  · rfl
  · have dot : c ≠ '.' := fun same => (stops c rfl).2 (by simp [same])
    simp [fraction, dot]

theorem fraction_cut {cs : List Char} (whole : fraction cs ≤ k) :
    fraction (cs.take k ++ rest) = fraction cs := by
  have digits := stops.isDigit
  rcases k with _ | k
  · rw [Nat.le_zero.mp whole]
    exact stops.fraction_eq_zero
  rcases cs with _ | ⟨c, cs⟩
  · exact stops.fraction_eq_zero
  by_cases dot : c = '.'
  · subst dot
    rcases cs with _ | ⟨d, ds⟩
    · rcases rest with _ | ⟨r, rest⟩
      · simp
      · simp [fraction, digits r rfl]
    · by_cases digit : Text.isDigit d = true
      · simp only [fraction, if_pos digit] at whole
        obtain ⟨k, rfl⟩ : ∃ k', k = k' + 1 := ⟨k - 1, by omega⟩
        simp only [fraction, List.take_succ_cons, List.cons_append, if_pos digit]
        rw [run_cut digits (by omega)]
      · have none : fraction ('.' :: d :: ds) = 0 := by simp [fraction, digit]
        rw [none]
        rcases k with _ | k
        · rcases rest with _ | ⟨r, rest⟩
          · rfl
          · simp [fraction, digits r rfl]
        · simp [fraction, digit]
  · simp [fraction, dot]

theorem Stops.exponent_eq_zero : exponent rest = 0 := by
  rcases rest with _ | ⟨c, rest⟩
  · rfl
  · have small := @Stops.ne _ stops 'e' rfl c rfl
    have large := @Stops.ne _ stops 'E' rfl c rfl
    simp [exponent, small, large]

omit stops in
theorem exponent_digit {e d : Char} {ds : List Char} (mark : e = 'e' ∨ e = 'E')
    (digit : Text.isDigit d = true) : exponent (e :: d :: ds) = 2 + run Text.isDigit ds := by
  cases ds <;> simp [exponent, mark, digit, run]

omit stops in
theorem exponent_sign {e s d : Char} {ds : List Char} (mark : e = 'e' ∨ e = 'E')
    (other : Text.isDigit s = false) (sign : s = '+' ∨ s = '-') (digit : Text.isDigit d = true) :
    exponent (e :: s :: d :: ds) = 3 + run Text.isDigit ds := by
  simp [exponent, mark, other, sign, digit]

omit stops in
theorem exponent_none {e s : Char} {ds : List Char} (other : Text.isDigit s = false)
    (none : s = '+' ∨ s = '-' → ∀ d ∈ ds.head?, Text.isDigit d = false) :
    exponent (e :: s :: ds) = 0 := by
  cases ds with
  | nil => simp [exponent, other]
  | cons d ds =>
    simp only [exponent, other, Bool.false_eq_true, if_false]
    by_cases sign : s = '+' ∨ s = '-'
    · simp [none sign d rfl]
    · simp [sign]

theorem Stops.exponent_mark (e : Char) : exponent (e :: rest) = 0 := by
  rcases rest with _ | ⟨r, rest⟩
  · simp [exponent]
  · refine exponent_none (stops.isDigit r rfl) fun sign => absurd ?_ (stops r rfl).2
    rcases sign with rfl | rfl <;> simp

theorem exponent_cut {cs : List Char} (whole : exponent cs ≤ k) :
    exponent (cs.take k ++ rest) = exponent cs := by
  have digits := stops.isDigit
  rcases k with _ | k
  · rw [Nat.le_zero.mp whole]
    exact stops.exponent_eq_zero
  rcases cs with _ | ⟨e, _ | ⟨s, ds⟩⟩
  · exact stops.exponent_eq_zero
  · rw [List.take_succ_cons, List.take_nil]
    exact (stops.exponent_mark e).trans (by simp [exponent])
  by_cases mark : e = 'e' ∨ e = 'E'
  · by_cases digit : Text.isDigit s = true
    · rw [exponent_digit mark digit] at whole ⊢
      obtain ⟨k, rfl⟩ : ∃ k', k = k' + 1 := ⟨k - 1, by omega⟩
      rw [List.take_succ_cons, List.take_succ_cons, List.cons_append, List.cons_append,
        exponent_digit mark digit, run_cut digits (by omega)]
    · have other : Text.isDigit s = false := by simpa using digit
      by_cases sign : (s = '+' ∨ s = '-') ∧ ∃ d ds', ds = d :: ds' ∧ Text.isDigit d = true
      · obtain ⟨sign, d, ds, rfl, digit⟩ := sign
        rw [exponent_sign mark other sign digit] at whole ⊢
        obtain ⟨k, rfl⟩ : ∃ k', k = k' + 2 := ⟨k - 2, by omega⟩
        rw [List.take_succ_cons, List.take_succ_cons, List.take_succ_cons, List.cons_append,
          List.cons_append, List.cons_append, exponent_sign mark other sign digit,
          run_cut digits (by omega)]
      · -- what stands here is no exponent, and it is none in front of `rest` either
        have none (signed : s = '+' ∨ s = '-') : ∀ d ∈ ds.head?, Text.isDigit d = false := by
          intro d head
          cases ds with
          | nil => cases head
          | cons d' ds =>
            cases head
            cases digit : Text.isDigit d with
            | false => rfl
            | true => exact absurd ⟨signed, d, ds, rfl, digit⟩ sign
        rw [exponent_none other none, List.take_succ_cons, List.cons_append]
        rcases k with _ | k
        · exact stops.exponent_mark e
        · rw [List.take_succ_cons, List.cons_append]
          refine exponent_none other fun signed d head => ?_
          cases ds with
          | nil => exact digits d (by simpa using head)
          | cons d' ds =>
            cases k with
            | zero => exact digits d (by simpa using head)
            | succ k => exact none signed d (by simpa using head)
  · simp [exponent, mark]

theorem not_marked_cut {cs : List Char} (plain : ¬ Marked cs) : ¬ Marked (cs.take k ++ rest) := by
  rintro ⟨m, ds, same, mark⟩
  have zero := @Stops.ne _ stops '0' rfl
  have other : m ∉ rest.head? := fun head => by
    have word := (stops m head).1
    simp only [List.mem_cons, List.not_mem_nil, or_false] at mark
    rcases mark with rfl | rfl | rfl | rfl <;> cases word
  rcases k with _ | _ | k
  · rw [List.take_zero, List.nil_append] at same
    exact zero '0' (by rw [same]; rfl) rfl
  · rcases cs with _ | ⟨c, cs⟩
    · rw [List.take_nil, List.nil_append] at same
      exact zero '0' (by rw [same]; rfl) rfl
    · rw [List.take_succ_cons, List.take_zero, List.cons_append, List.nil_append] at same
      exact other (by rw [(List.cons.inj same).2]; rfl)
  · rcases cs with _ | ⟨c, _ | ⟨d, cs⟩⟩
    · rw [List.take_nil, List.nil_append] at same
      exact zero '0' (by rw [same]; rfl) rfl
    · rw [List.take_succ_cons, List.take_nil, List.cons_append, List.nil_append] at same
      exact other (by rw [(List.cons.inj same).2]; rfl)
    · cases same
      exact plain ⟨m, cs, rfl, mark⟩

theorem numeral_cut {afterDot : Bool} {cs : List Char} (whole : numeral afterDot cs ≤ k) :
    numeral afterDot (cs.take k ++ rest) = numeral afterDot cs := by
  have digits := stops.isDigit
  by_cases marked : Marked cs
  · obtain ⟨m, ds, rfl, mark⟩ := marked
    have hex := stops.isHexDigit
    have binary : ∀ c ∈ rest.head?, (c == '0' || c == '1') = false := fun c head => by
      have zero := @Stops.ne _ stops '0' rfl c head
      have one := @Stops.ne _ stops '1' rfl c head
      simp [zero, one]
    simp only [List.mem_cons, List.not_mem_nil, or_false] at mark
    obtain ⟨k, rfl⟩ : ∃ k', k = k' + 2 := ⟨k - 2, by
      rcases mark with rfl | rfl | rfl | rfl <;> simp only [numeral] at whole <;> omega⟩
    rcases mark with rfl | rfl | rfl | rfl <;>
      simp only [numeral, List.take_succ_cons, List.cons_append] at whole ⊢
    · rw [run_cut hex (by omega)]
    · rw [run_cut hex (by omega)]
    · rw [run_cut binary (by omega)]
    · rw [run_cut binary (by omega)]
  · rw [numeral_decimal marked] at whole ⊢
    rw [numeral_decimal (not_marked_cut stops marked)]
    dsimp only at whole ⊢
    have first : run Text.isDigit (cs.take k ++ rest) = run Text.isDigit cs :=
      run_cut digits (by omega)
    have length := run_le Text.isDigit cs
    have second := @drop_cut rest k _ cs (by omega) length
    cases afterDot with
    | true =>
      simp only [if_true, Nat.add_zero] at whole ⊢
      rw [first, second, exponent_cut stops (by omega)]
    | false =>
      simp only [Bool.false_eq_true, if_false] at whole ⊢
      have frac : fraction ((cs.take k ++ rest).drop (run Text.isDigit cs)) =
          fraction (cs.drop (run Text.isDigit cs)) := by
        rw [second]
        exact fraction_cut stops (by omega)
      have length' := fraction_le (cs.drop (run Text.isDigit cs))
      rw [List.length_drop] at length'
      rw [first, frac, drop_cut (by omega) (by omega), exponent_cut stops (by omega)]

theorem unsignedNumber_cut {afterDot : Bool} {cs : List Char}
    (whole : unsignedNumber afterDot cs ≤ k) :
    unsignedNumber afterDot (cs.take k ++ rest) = unsignedNumber afterDot cs := by
  unfold unsignedNumber at whole ⊢
  dsimp only at whole ⊢
  have suffix : ∀ c ∈ rest.head?, isNumberSuffix c = false := fun c head => by
    simp [isNumberSuffix, @Stops.ne _ stops 'u' rfl c head, @Stops.ne _ stops 'U' rfl c head,
      @Stops.ne _ stops 'l' rfl c head, @Stops.ne _ stops 'L' rfl c head,
      @Stops.ne _ stops 'f' rfl c head, @Stops.ne _ stops 'F' rfl c head]
  rw [numeral_cut stops (by omega), drop_cut (by omega) (numeral_le afterDot cs),
    run_cut suffix (by omega)]

omit stops in
theorem not_dot_of_lt {cs : List Char} (plain : ¬ Marked cs)
    (more : run Text.isDigit cs < unsignedNumber true cs) :
    ∀ c ∈ (cs.drop (run Text.isDigit cs)).head?, c ≠ '.' := by
  rintro c head rfl
  obtain ⟨ds, tail⟩ : ∃ ds, cs.drop (run Text.isDigit cs) = '.' :: ds := by
    cases h : cs.drop (run Text.isDigit cs) with
    | nil => simp [h] at head
    | cons d ds =>
      rw [h] at head
      cases head
      exact ⟨ds, rfl⟩
  have value : numeral true cs = run Text.isDigit cs := by
    rw [numeral_decimal plain]
    simp [tail, exponent]
  rw [unsignedNumber, value, tail] at more
  simp [run, isNumberSuffix] at more

omit stops in
theorem numeral_marked {cs : List Char} (marked : Marked cs) (b b' : Bool) :
    numeral b cs = numeral b' cs := by
  obtain ⟨m, ds, rfl, mark⟩ := marked
  simp only [List.mem_cons, List.not_mem_nil, or_false] at mark
  rcases mark with rfl | rfl | rfl | rfl <;> rfl

omit stops in
theorem unsignedNumber_congr {b b' : Bool} {cs : List Char}
    (same : numeral b cs = numeral b' cs) : unsignedNumber b cs = unsignedNumber b' cs := by
  rw [unsignedNumber, same]
  rfl

theorem unsignedNumber_free {afterDot : Bool} {cs : List Char} {n : Nat}
    (size : unsignedNumber afterDot cs = n) : unsignedNumber false (cs.take n ++ rest) = n := by
  by_cases marked : Marked cs
  · have same : unsignedNumber false cs = n :=
      (unsignedNumber_congr (numeral_marked marked false afterDot)).trans size
    exact (unsignedNumber_cut stops (Nat.le_of_eq same)).trans same
  have cut : unsignedNumber afterDot (cs.take n ++ rest) = n :=
    (unsignedNumber_cut stops (Nat.le_of_eq size)).trans size
  refine (unsignedNumber_congr ?_).trans cut
  cases afterDot with
  | false => rfl
  | true =>
    have whole : run Text.isDigit cs ≤ n := by
      rw [← size, unsignedNumber, numeral_decimal marked]
      dsimp only
      omega
    have first : run Text.isDigit (cs.take n ++ rest) = run Text.isDigit cs :=
      run_cut stops.isDigit whole
    have none : fraction ((cs.take n ++ rest).drop (run Text.isDigit cs)) = 0 := by
      rw [drop_cut whole (run_le Text.isDigit cs)]
      rcases Nat.eq_or_lt_of_le whole with equal | more
      · rw [equal, Nat.sub_self, List.take_zero, List.nil_append]
        exact stops.fraction_eq_zero
      · have head := not_dot_of_lt marked (size ▸ more)
        obtain ⟨k, succ⟩ : ∃ k, n - run Text.isDigit cs = k + 1 :=
          ⟨n - run Text.isDigit cs - 1, by omega⟩
        rw [succ]
        cases tail : cs.drop (run Text.isDigit cs) with
        | nil =>
          rw [List.take_nil, List.nil_append]
          exact stops.fraction_eq_zero
        | cons d ds =>
          rw [tail] at head
          simp [fraction, head d rfl]
    have plain : ¬ Marked (cs.take n ++ rest) := not_marked_cut stops marked
    rw [numeral_decimal plain, numeral_decimal plain]
    dsimp only
    rw [first, if_neg Bool.false_ne_true, if_pos rfl, none]

theorem numberLexeme_cut {prev prev' : Kind} {sign : Nat} {cs : List Char} {l : Lexeme}
    (h : numberLexeme prev sign cs = .ok l) (dot : prev' ≠ .op .dot) (signed : sign ≤ cs.length)
    (some : 0 < sign + unsignedNumber (prev == .op .dot) (cs.drop sign)) :
    numberLexeme prev' sign (cs.take (l.more + 1) ++ rest) = .ok l := by
  unfold numberLexeme at h ⊢
  dsimp only at h ⊢
  split at h
  · cases h
    generalize size : unsignedNumber (prev == .op .dot) (cs.drop sign) = n at some ⊢
    have fits := unsignedNumber_le (prev == .op .dot) (cs.drop sign)
    rw [size, List.length_drop] at fits
    have free := unsignedNumber_free stops size
    have all : sign + n - 1 + 1 = sign + n := by omega
    have number : unsignedNumber (prev' == .op .dot) ((cs.take (sign + n) ++ rest).drop sign) = n := by
      rw [beq_eq_false_iff_ne.mpr dot, drop_cut (by omega) signed, Nat.add_sub_cancel_left]
      exact free
    have behind : run isWordChar ((cs.take (sign + n) ++ rest).drop (sign + n)) = 0 := by
      rw [drop_cut (Nat.le_refl _) (by omega), Nat.sub_self, List.take_zero, List.nil_append]
      cases rest with
      | nil => rfl
      | cons r rest => simp [run, (stops r rfl).1]
    rw [all, number, behind, if_pos rfl]
  · cases h

end

/-! ### Words and numbers -/

theorem lexeme_word {prev : Kind} {c : Char} {cs rest : List Char} (start : isWordStart c = true)
    (word : ∀ d ∈ cs, isWordChar d = true) (ends : ∀ d ∈ rest.head?, isWordChar d = false) :
    lexeme prev c (cs ++ rest) = .ok ⟨Kind.ofWord (String.ofList (c :: cs)), cs.length, 0⟩ := by
  have other {d : Char} (plain : isWordStart d = false) : c ≠ d := by
    rintro rfl
    rw [start] at plain
    cases plain
  have more : run isWordChar (cs ++ rest) = cs.length := by
    have cut := run_cut ends (Nat.le_of_eq (run_all word))
    rw [List.take_length] at cut
    rw [cut, run_all word]
  unfold lexeme
  rw [if_neg (by simp [@other '\x7b' rfl]), if_neg (by simp [@other '-' rfl]),
    if_neg (other rfl), if_neg (other rfl), if_pos start]
  dsimp only
  rw [more, List.take_left]

/-- Behind a token of this kind a minus sign belongs to the number behind it, and that has a fraction
if it goes on with a dot. -/
def Kind.Opens (k : Kind) : Prop := k.endsOperand = false ∧ k ≠ .op .dot

/-- Numbers start with a sign or with a digit. -/
theorem number_cases {prev : Kind} {c : Char} {cs : List Char} {l : Lexeme}
    (h : lexeme prev c cs = .ok l) (kind : l.kind = .number) :
    (c = '-' ∧ cs.head?.any Text.isDigit = true ∧ numberLexeme prev 1 (c :: cs) = .ok l) ∨
      (Text.isDigit c = true ∧ numberLexeme prev 0 (c :: cs) = .ok l) := by
  unfold lexeme at h
  split at h
  · split at h <;> cases h
    cases kind
  · split at h
    · next minus =>
      simp only [Bool.and_eq_true, decide_eq_true_eq] at minus
      exact .inl ⟨minus.1.1, minus.1.2, h⟩
    · split at h
      · split at h <;> cases h
        cases kind
      · split at h
        · split at h <;> cases h
          cases kind
        · split at h
          · cases h
            exact absurd kind (ofWord_ne _ rfl (by simp))
          · split at h
            · next digit => exact .inr ⟨digit, h⟩
            · split at h <;> cases h
              cases kind

theorem lexeme_minus {prev : Kind} {cs : List Char} (digit : cs.head?.any Text.isDigit = true)
    (opens : prev.endsOperand = false) :
    lexeme prev '-' cs = numberLexeme prev 1 ('-' :: cs) := by
  unfold lexeme
  rw [if_neg (by simp), if_pos (by simp [digit, opens])]

theorem not_isWordStart_of_isDigit {c : Char} (digit : Text.isDigit c = true) :
    isWordStart c = false := by
  cases start : isWordStart c with
  | false => rfl
  | true =>
    simp only [Text.isDigit, isWordStart, Bool.and_eq_true, Bool.or_eq_true, decide_eq_true_eq,
      beq_iff_eq] at digit start
    have small : ¬ 'a' ≤ '9' := by decide
    have large : ¬ 'A' ≤ '9' := by decide
    rcases start with (⟨low, -⟩ | ⟨low, -⟩) | rfl
    · exact absurd (Char.le_trans low digit.2) small
    · exact absurd (Char.le_trans low digit.2) large
    · exact absurd digit (by decide)

theorem lexeme_digit {prev : Kind} {c : Char} {cs : List Char} (digit : Text.isDigit c = true) :
    lexeme prev c cs = numberLexeme prev 0 (c :: cs) := by
  have other {d : Char} (plain : Text.isDigit d = false) : c ≠ d := by
    rintro rfl
    rw [digit] at plain
    cases plain
  have word := not_isWordStart_of_isDigit digit
  unfold lexeme
  rw [if_neg (by simp [@other '\x7b' rfl]), if_neg (by simp [@other '-' rfl]),
    if_neg (other rfl), if_neg (other rfl), if_neg (by simp [word]), if_pos digit]

theorem numberLexeme_length {prev : Kind} {sign : Nat} {c : Char} {cs : List Char} {l : Lexeme}
    (signed : sign ≤ 1) (h : numberLexeme prev sign (c :: cs) = .ok l) : l.more ≤ cs.length := by
  unfold numberLexeme at h
  dsimp only at h
  split at h
  · cases h
    have fits := unsignedNumber_le (prev == .op .dot) ((c :: cs).drop sign)
    rw [List.length_drop, List.length_cons] at fits
    dsimp only
    omega
  · cases h

theorem unsignedNumber_pos {b : Bool} {c : Char} {cs : List Char} (digit : Text.isDigit c = true) :
    0 < unsignedNumber b (c :: cs) := by
  have whole : 0 < run Text.isDigit (c :: cs) := by
    rw [run, List.takeWhile_cons_of_pos digit, List.length_cons]
    omega
  by_cases marked : Marked (c :: cs)
  · obtain ⟨m, ds, same, mark⟩ := marked
    rw [same, unsignedNumber]
    simp only [List.mem_cons, List.not_mem_nil, or_false] at mark
    rcases mark with rfl | rfl | rfl | rfl <;> simp only [numeral] <;> omega
  · rw [unsignedNumber, numeral_decimal marked]
    dsimp only
    omega

/-- A number is the same token wherever one can start, in front of anything but more of it. -/
theorem lexeme_number {prev prev' : Kind} {c : Char} {cs rest : List Char} {l : Lexeme}
    (h : lexeme prev c cs = .ok l) (kind : l.kind = .number) (opens : prev'.Opens)
    (stops : Stops rest) : lexeme prev' c (cs.take l.more ++ rest) = .ok l := by
  rcases number_cases h kind with ⟨rfl, digit, number⟩ | ⟨digit, number⟩
  · obtain ⟨d, ds, rfl⟩ : ∃ d ds, cs = d :: ds := by
      cases cs with
      | nil => cases digit
      | cons d ds => exact ⟨d, ds, rfl⟩
    have digit : Text.isDigit d = true := digit
    have more := @unsignedNumber_pos (prev == .op .dot) d ds digit
    have cut := numberLexeme_cut stops number opens.2 (by simp) (by omega)
    rw [List.take_succ_cons, List.cons_append] at cut
    have some : 0 < l.more := by
      unfold numberLexeme at number
      dsimp only at number
      split at number <;> cases number
      rw [List.drop_succ_cons, List.drop_zero]
      dsimp only
      omega
    rw [lexeme_minus ?_ opens.1]
    · exact cut
    · obtain ⟨k, succ⟩ : ∃ k, l.more = k + 1 := ⟨l.more - 1, by omega⟩
      rw [succ]
      exact digit
  · have more := @unsignedNumber_pos (prev == .op .dot) c cs digit
    have cut := numberLexeme_cut stops number opens.2 (Nat.zero_le _) (by simpa using more)
    rw [List.take_succ_cons, List.cons_append] at cut
    rw [lexeme_digit digit]
    exact cut

/-! ### Operators -/

theorem symbol_injective {o o' : Operator} (same : o.symbol = o'.symbol) : o = o' := by
  have known (o : Operator) : Operator.all.find? (fun x => x.symbol == o.symbol) = some o := by
    cases o <;> rfl
  exact Option.some.inj ((known o).symm.trans (same ▸ known o'))

theorem operatorAt?_symbol {o : Operator} {rest : List Char}
    (longest : ∀ d ∈ rest.head?, o.goesOn d = false) :
    operatorAt? (o.symbol.toList ++ rest) = some o := by
  have here : o.symbol.toList <+: o.symbol.toList ++ rest := List.prefix_append _ _
  have shorter (o' : Operator) (there : o'.symbol.toList <+: o.symbol.toList ++ rest) :
      o'.symbol.length ≤ o.symbol.length := by
    refine Nat.le_of_not_lt fun longer => ?_
    rw [← String.length_toList, ← String.length_toList] at longer
    obtain ⟨tail, same⟩ := List.prefix_of_prefix_length_le here there (Nat.le_of_lt longer)
    cases tail with
    | nil =>
      rw [← same, List.append_nil] at longer
      exact absurd longer (Nat.lt_irrefl _)
    | cons d tail =>
      rw [← same, List.prefix_append_right_inj] at there
      have head : d ∈ rest.head? := by
        obtain ⟨more, rfl⟩ := there
        rfl
      have goes : o.goesOn d = true := by
        refine List.any_eq_true.mpr ⟨o', Operator.mem_all o', List.isPrefixOf_iff_prefix.mpr ?_⟩
        exact ⟨tail, by rw [← same, List.append_assoc]; rfl⟩
      rw [longest d head] at goes
      cases goes
  -- the operators of a length that start here
  have ofLength (n : Nat) (enough : o.symbol.length ≤ n) :
      Operator.all.find? (fun x => x.symbol.length == n &&
        startsWithOperator (o.symbol.toList ++ rest) x) =
        if n = o.symbol.length then some o else none := by
    cases found : Operator.all.find? (fun x => x.symbol.length == n &&
        startsWithOperator (o.symbol.toList ++ rest) x) with
    | none =>
      split
      · next same =>
        have holds := List.find?_eq_none.mp found o (Operator.mem_all o)
        exact absurd (by simp [same, startsWithOperator, here]) holds
      · rfl
    | some x =>
      have holds := List.find?_some found
      simp only [startsWithOperator, Bool.and_eq_true, beq_iff_eq,
        List.isPrefixOf_iff_prefix] at holds
      obtain ⟨length, there⟩ := holds
      have short := shorter x there
      rw [if_pos (by omega)]
      refine congrArg some (symbol_injective (String.toList_inj.mp ?_))
      refine (List.prefix_of_prefix_length_le there here ?_).eq_of_length ?_
      · rw [String.length_toList, String.length_toList]
        exact short
      · rw [String.length_toList, String.length_toList]
        omega
  have known : o.symbol.length = 1 ∨ o.symbol.length = 2 ∨ o.symbol.length = 3 := by
    cases o <;> decide
  unfold operatorAt?
  dsimp only
  rcases known with length | length | length
  · rw [ofLength 3 (by omega), ofLength 2 (by omega), ofLength 1 (by omega), length]
    rfl
  · rw [ofLength 3 (by omega), ofLength 2 (by omega), length]
    rfl
  · rw [ofLength 3 (by omega), length]
    rfl

/-- An operator is the same token in front of anything that makes no longer one of it. -/
theorem lexeme_symbol {prev : Kind} {o : Operator} {c : Char} {cs rest : List Char}
    (text : o.symbol.toList = c :: cs) (brace : c ≠ '\x7b')
    (unsigned : c = '-' → ∀ d ∈ (cs ++ rest).head?, Text.isDigit d = false)
    (longest : ∀ d ∈ rest.head?, o.goesOn d = false) :
    lexeme prev c (cs ++ rest) = .ok ⟨.op o, cs.length, 0⟩ := by
  have special : ∀ o : Operator, ∀ c ∈ o.symbol.toList.head?,
      c ≠ '"' ∧ c ≠ '\x27' ∧ isWordStart c = false ∧ Text.isDigit c = false := by
    intro o
    cases o <;> (rintro c ⟨⟩; decide)
  obtain ⟨string, character, word, digit⟩ := special o c (by rw [text]; rfl)
  have minus : ¬ (decide (c = '-') && (cs ++ rest).head?.any Text.isDigit &&
      !prev.endsOperand) = true := by
    intro minus
    simp only [Bool.and_eq_true, decide_eq_true_eq, Option.any_eq_true] at minus
    obtain ⟨⟨same, d, head, isDigit⟩, -⟩ := minus
    rw [unsigned same d head] at isDigit
    cases isDigit
  have found : operatorAt? (c :: (cs ++ rest)) = some o := by
    rw [← List.cons_append, ← text]
    exact operatorAt?_symbol longest
  have length : o.symbol.length - 1 = cs.length := by
    rw [← String.length_toList, text, List.length_cons]
    omega
  unfold lexeme
  rw [if_neg (by simp [brace]), if_neg minus, if_neg string, if_neg character,
    if_neg (by simp [word]), if_neg (by simp [digit]), found]
  exact congrArg (fun n => Except.ok (Lexeme.mk (.op o) n 0)) length

/-! ### Tokens of a text -/

/-- A name that is a token of its own. -/
def IsName (w : String) : Prop :=
  Kind.ofWord w = .ident ∧ ∃ c cs, w.toList = c :: cs ∧ isWordStart c = true ∧
    ∀ d ∈ cs, isWordChar d = true

/-- A number that is a token of its own. -/
def IsNumber (w : String) : Prop :=
  ∃ c cs, w.toList = c :: cs ∧ (c = '-' ∨ Text.isDigit c = true) ∧
    ∀ (prev : Kind) (rest : List Char), prev.Opens → Stops rest →
      lexeme prev c (cs ++ rest) = .ok ⟨.number, cs.length, 0⟩

/-- The names and numbers among the tokens of a text could stand elsewhere. -/
structure Plain (t : Token) : Prop where
  name : t.kind = .ident → IsName t.literal
  number : t.kind = .number → IsNumber t.literal

theorem name_cases {prev : Kind} {c : Char} {cs : List Char} {l : Lexeme}
    (h : lexeme prev c cs = .ok l) (kind : l.kind = .ident) :
    isWordStart c = true ∧ l.more = run isWordChar cs ∧
      l.kind = Kind.ofWord (String.ofList (c :: cs.take l.more)) := by
  unfold lexeme at h
  split at h
  · split at h <;> cases h
    cases kind
  · split at h
    · have number := numberLexeme_kind h
      rw [kind] at number
      cases number
    · split at h
      · split at h <;> cases h
        cases kind
      · split at h
        · split at h <;> cases h
          cases kind
        · split at h
          · next start =>
            cases h
            exact ⟨start, rfl, rfl⟩
          · split at h
            · have number := numberLexeme_kind h
              rw [kind] at number
              cases number
            · split at h <;> cases h
              cases kind

theorem scanFrom_plain (prev : Kind) (pos : Pos) (cs : List Char) :
    ∀ t ∈ (scanFrom prev pos cs).tokens, t.Plain := by
  fun_induction scanFrom prev pos cs with
  | case1 prev pos cs e failed => exact List.forall_mem_nil _
  | case2 prev pos cs start found => exact List.forall_mem_nil _
  | case3 prev pos cs start c rest found cause bad => exact List.forall_mem_nil _
  | case4 prev pos cs start c rest found l good =>
    rename_i text literal ih
    have whole (plain : l.kind ≠ .raw) : literal = c :: rest.take l.more := by
      simp only [literal, (lexeme_fits good).fence plain, List.drop_zero, Nat.mul_zero,
        Nat.sub_zero, List.take_length, text]
    refine List.forall_mem_cons.mpr ⟨⟨fun (kind : l.kind = _) => ?_, fun (kind : l.kind = _) => ?_⟩, ih⟩
    · obtain ⟨start, more, word⟩ := name_cases good kind
      have all := whole (by rw [kind]; rintro ⟨⟩)
      refine ⟨?_, c, rest.take l.more, ?_, start, fun d member => ?_⟩
      · show Kind.ofWord (String.ofList literal) = _
        rw [all, ← word]
        exact kind
      · show (String.ofList literal).toList = _
        rw [all, String.toList_ofList]
      · rw [more, run, ← List.prefix_iff_eq_take.mp (List.takeWhile_prefix _)] at member
        exact List.all_eq_true.mp List.all_takeWhile _ member
    · have all := whole (by rw [kind]; rintro ⟨⟩)
      refine ⟨c, rest.take l.more, ?_, ?_, fun prev' rest' opens stops => ?_⟩
      · show (String.ofList literal).toList = _
        rw [all, String.toList_ofList]
      · exact (number_cases good kind).imp (·.1) (·.1)
      · have fits : l.more ≤ rest.length := by
          rcases number_cases good kind with ⟨-, -, number⟩ | ⟨-, number⟩
          · exact numberLexeme_length (Nat.le_refl 1) number
          · exact numberLexeme_length (Nat.zero_le 1) number
        rw [lexeme_number good kind opens stops, List.length_take, Nat.min_eq_left fits, ← kind,
          ← (lexeme_fits good).fence (by rw [kind]; rintro ⟨⟩)]

end Token

end TastyLang
