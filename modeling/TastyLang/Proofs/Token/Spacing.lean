import TastyLang.Proofs.Reading.Forms
import TastyLang.Proofs.Text.Characters
import TastyLang.Proofs.Token.Extents

/-!
# Tokens with spaces in between

A space behind a token changes nothing about it. So tokens that are written with single spaces in
between are found again (`scanFrom_spaced`). The kind of the token before only matters for minus
signs, for braces and for numbers behind a dot.
-/

namespace TastyLang.Token

/-- The text is empty or starts with a space. -/
def Apart (rest : List Char) : Prop := ∀ c ∈ rest.head?, c = ' '

theorem apart_cases {rest : List Char} (h : Apart rest) : rest = [] ∨ ∃ cs, rest = ' ' :: cs := by
  cases rest with
  | nil => exact .inl rfl
  | cons c cs => exact .inr ⟨cs, by rw [h c rfl]⟩

variable {rest : List Char} (apart : Apart rest)

/-! ### Bounds -/

omit apart in
theorem run_le (p : Char → Bool) (cs : List Char) : run p cs ≤ cs.length :=
  (List.takeWhile_prefix p).length_le

/-! ### Runs and numbers -/

include apart

theorem run_apart {p : Char → Bool} (h : p ' ' = false) (cs : List Char) :
    run p (cs ++ rest) = run p cs := by
  induction cs with
  | nil => rcases apart_cases apart with rfl | ⟨cs, rfl⟩ <;> simp [run, h]
  | cons c cs ih =>
    unfold run at ih ⊢
    by_cases here : p c = true <;> simp [here, ih]

theorem fraction_apart (cs : List Char) : fraction (cs ++ rest) = fraction cs := by
  rcases cs with _ | ⟨c, _ | ⟨d, cs⟩⟩
  · rcases apart_cases apart with rfl | ⟨cs, rfl⟩ <;> rfl
  · rcases apart_cases apart with rfl | ⟨cs, rfl⟩
    · rfl
    · by_cases dot : c = '.'
      · subst dot
        rfl
      · simp [fraction, dot]
  · by_cases dot : c = '.'
    · subst dot
      simp only [List.cons_append, fraction, run_apart apart (p := Text.isDigit) rfl]
    · simp [fraction, dot]

theorem exponent_apart (cs : List Char) : exponent (cs ++ rest) = exponent cs := by
  have space : Text.isDigit ' ' = false := rfl
  have digits := run_apart apart space
  rcases cs with _ | ⟨e, _ | ⟨s, _ | ⟨d, cs⟩⟩⟩
  · rcases apart_cases apart with rfl | ⟨cs, rfl⟩ <;> rfl
  · rcases apart_cases apart with rfl | ⟨_ | ⟨c, cs⟩, rfl⟩
    · rfl
    · simp [exponent, Text.isDigit]
    · simp [exponent, Text.isDigit]
  · rcases apart_cases apart with rfl | ⟨cs, rfl⟩
    · rfl
    · simp [exponent, run, space]
  · have digits' := digits (d :: cs)
    rw [List.cons_append] at digits'
    simp only [List.cons_append, exponent, digits, digits']

omit apart in
theorem fraction_le (cs : List Char) : fraction cs ≤ cs.length := by
  unfold fraction
  split
  · next d cs =>
    have := run_le Text.isDigit cs
    split <;> simp only [List.length_cons] <;> omega
  · omega

omit apart in
theorem exponent_le (cs : List Char) : exponent cs ≤ cs.length := by
  unfold exponent
  split
  · split
    · split
      · next s d cs =>
        have first := run_le Text.isDigit cs
        have both := run_le Text.isDigit (d :: cs)
        simp only [List.length_cons] at both ⊢
        split
        · omega
        · split <;> omega
      · simp only [List.length_cons]
        split <;> omega
      · simp
    · simp
  · simp

omit apart in
theorem numeral_le (afterDot : Bool) (cs : List Char) : numeral afterDot cs ≤ cs.length := by
  unfold numeral
  split
  case h_5 =>
    have whole := run_le Text.isDigit cs
    have frac := fraction_le (cs.drop (run Text.isDigit cs))
    have exp := exponent_le (cs.drop (run Text.isDigit cs +
      if afterDot then 0 else fraction (cs.drop (run Text.isDigit cs))))
    simp only [List.length_drop] at frac exp
    dsimp only
    cases afterDot <;> simp only [Bool.false_eq_true, if_false, if_true] at exp ⊢ <;> omega
  all_goals
    next cs =>
    simp only [List.length_cons]
    grind [run_le]

omit apart in
/-- A number with a mark for its base. -/
def Marked (cs : List Char) : Prop :=
  ∃ m digits, cs = '0' :: m :: digits ∧ m ∈ ['x', 'X', 'b', 'B']

variable {cs : List Char}

omit apart in
theorem numeral_decimal {afterDot : Bool} (plain : ¬ Marked cs) :
    numeral afterDot cs =
      let whole := run Text.isDigit cs
      let frac := if afterDot then 0 else fraction (cs.drop whole)
      whole + frac + exponent (cs.drop (whole + frac)) := by
  unfold numeral
  split
  case h_5 => rfl
  all_goals exact absurd ⟨_, _, rfl, by decide⟩ plain

theorem not_marked_apart (plain : ¬ Marked cs) : ¬ Marked (cs ++ rest) := by
  rintro ⟨m, digits, same, mark⟩
  rcases cs with _ | ⟨c, _ | ⟨d, cs⟩⟩
  · rcases apart_cases apart with rfl | ⟨cs, rfl⟩ <;> cases same
  · rcases apart_cases apart with rfl | ⟨cs, rfl⟩
    · cases same
    · cases same
      exact absurd mark (by decide)
  · cases same
    exact plain ⟨_, _, rfl, mark⟩

theorem numeral_apart (afterDot : Bool) (cs : List Char) :
    numeral afterDot (cs ++ rest) = numeral afterDot cs := by
  have digits := run_apart apart (p := Text.isDigit) rfl
  by_cases marked : Marked cs
  · obtain ⟨m, cs, rfl, mark⟩ := marked
    have hex := run_apart apart (p := isHexDigit) rfl cs
    have binary := run_apart apart (p := fun c => c == '0' || c == '1') rfl cs
    simp only [List.mem_cons, List.not_mem_nil, or_false] at mark
    rcases mark with rfl | rfl | rfl | rfl <;>
      simp only [List.cons_append, numeral, hex, binary]
  · have whole := run_le Text.isDigit cs
    have frac := fraction_le (cs.drop (run Text.isDigit cs))
    rw [List.length_drop] at frac
    rw [numeral_decimal marked, numeral_decimal (not_marked_apart apart marked)]
    dsimp only
    rw [digits, List.drop_append_of_le_length whole, fraction_apart apart,
      List.drop_append_of_le_length (by cases afterDot <;> simp <;> omega), exponent_apart apart]

theorem unsignedNumber_apart (afterDot : Bool) (cs : List Char) :
    unsignedNumber afterDot (cs ++ rest) = unsignedNumber afterDot cs := by
  have value := numeral_le afterDot cs
  simp only [unsignedNumber]
  rw [numeral_apart apart, List.drop_append_of_le_length value,
    run_apart apart (p := isNumberSuffix) rfl]

omit apart in
theorem unsignedNumber_le (afterDot : Bool) (cs : List Char) :
    unsignedNumber afterDot cs ≤ cs.length := by
  have value := numeral_le afterDot cs
  have tail := run_le isNumberSuffix (cs.drop (numeral afterDot cs))
  rw [List.length_drop] at tail
  rw [unsignedNumber]
  omega

variable {prev : Kind} {l : Lexeme}

theorem numberLexeme_apart
    (h : numberLexeme prev 0 cs = .ok l) : numberLexeme prev 0 (cs ++ rest) = .ok l := by
  have size := unsignedNumber_le (prev == .op .dot) cs
  unfold numberLexeme at h ⊢
  simp only [Nat.zero_add, List.drop_zero] at h ⊢
  rw [unsignedNumber_apart apart, List.drop_append_of_le_length size,
    run_apart apart (p := isWordChar) rfl]
  split at h
  · next tail => rw [if_pos tail, h]
  · cases h

/-! ### Quoted text and operators -/

omit apart in
theorem quoted_cons {quote c : Char} (cs : List Char) (plain : c ≠ '\\') :
    quoted quote (c :: cs) =
      if c = quote then some 1
      else if c = '\n' then none
      else (quoted quote cs).map (· + 1) := by
  simp [quoted, plain]

variable {c : Char}

omit apart in
theorem not_escape (last : c = '\\' → cs = [] → False)
    (inside : ∀ d ds, c = '\\' → cs = d :: ds → False) : c ≠ '\\' := by
  intro same
  cases cs with
  | nil => exact last same rfl
  | cons d ds => exact inside d ds same rfl

omit apart in
theorem quoted_append {quote : Char} {n : Nat} (h : quoted quote cs = some n) :
    quoted quote (cs ++ rest) = some n := by
  fun_induction quoted quote cs generalizing n with
  | case1 => cases h
  | case2 => cases h
  | case3 c cs ih =>
    obtain ⟨m, found, rfl⟩ := Option.map_eq_some_iff.mp h
    rw [List.cons_append, List.cons_append, quoted, ih found]
    rfl
  | case4 cs last inside =>
    rw [List.cons_append, quoted_cons _ (not_escape last inside), if_pos rfl]
    exact h
  | case5 => cases h
  | case6 c cs last inside other line ih =>
    obtain ⟨m, found, rfl⟩ := Option.map_eq_some_iff.mp h
    rw [List.cons_append, quoted_cons _ (not_escape last inside), if_neg other, if_neg line, ih found]
    rfl

theorem isPrefixOf_apart {p : List Char} (h : ' ' ∉ p) (cs : List Char) :
    p.isPrefixOf (cs ++ rest) = p.isPrefixOf cs := by
  induction p generalizing cs with
  | nil => simp
  | cons a p ih =>
    obtain ⟨first, others⟩ := List.ne_and_not_mem_of_not_mem_cons h
    cases cs with
    | nil =>
      rcases apart_cases apart with rfl | ⟨cs, rfl⟩
      · rfl
      · simp [List.isPrefixOf, first.symm]
    | cons c cs => simp only [List.cons_append, List.isPrefixOf, ih others]

theorem operatorAt?_apart (cs : List Char) : operatorAt? (cs ++ rest) = operatorAt? cs := by
  have same (o : Operator) : startsWithOperator (cs ++ rest) o = startsWithOperator cs o :=
    isPrefixOf_apart apart (by cases o <;> decide) cs
  simp only [operatorAt?, same]

/-! ### Lexemes -/

omit apart in
theorem run_all {p : Char → Bool} (h : ∀ c ∈ cs, p c = true) :
    run p cs = cs.length := by
  have whole := @List.takeWhile_append_of_pos _ p cs [] h
  rw [List.append_nil, List.takeWhile_nil, List.append_nil] at whole
  rw [run, whole]

omit apart in
theorem numeral_digits (digits : ∀ c ∈ cs, Text.isDigit c = true)
    (afterDot : Bool) : numeral afterDot cs = cs.length := by
  have plain : ¬ Marked cs := by
    rintro ⟨m, ds, rfl, mark⟩
    have digit := digits m (by simp)
    simp only [List.mem_cons, List.not_mem_nil, or_false] at mark
    rcases mark with rfl | rfl | rfl | rfl <;> cases digit
  rw [numeral_decimal plain]
  dsimp only
  rw [run_all digits, List.drop_length]
  cases afterDot <;> simp [fraction, exponent]

omit apart in
theorem numberLexeme_prev (h : numberLexeme .eof 0 cs = .ok l)
    (digits : prev = .op .dot → ∀ c ∈ cs, Text.isDigit c = true) :
    numberLexeme prev 0 cs = .ok l := by
  have same : unsignedNumber (prev == .op .dot) cs = unsignedNumber (Kind.eof == .op .dot) cs := by
    by_cases dot : prev = .op .dot
    · simp only [unsignedNumber, numeral_digits (digits dot)]
    · rw [beq_eq_false_iff_ne.mpr dot]
      rfl
  simpa only [numberLexeme, Nat.zero_add, List.drop_zero, same] using h

omit apart in
theorem numberLexeme_kind {sign : Nat}
    (h : numberLexeme prev sign cs = .ok l) : l.kind = .number := by
  unfold numberLexeme at h
  dsimp only at h
  split at h <;> cases h
  rfl

/-- What stands at the start of a text stands there behind other tokens and in front of a space
too, unless it is a brace or has a sign. -/
theorem lexeme_apart (h : lexeme .eof c cs = .ok l) (brace : c ≠ '\x7b')
    (unsigned : l.kind = .number → c ≠ '-')
    (digits : prev = .op .dot → l.kind = .number → ∀ d ∈ c :: cs, Text.isDigit d = true) :
    lexeme prev c (cs ++ rest) = .ok l := by
  unfold lexeme at h ⊢
  rw [if_neg (by simp [brace])] at h ⊢
  split at h
  · next minus =>
    simp only [Bool.and_eq_true, decide_eq_true_eq] at minus
    exact absurd minus.1.1 (unsigned (numberLexeme_kind h))
  · next plain =>
    have plain' : ¬ (decide (c = '-') && (cs ++ rest).head?.any Text.isDigit &&
        !prev.endsOperand) = true := by
      intro minus
      simp only [Bool.and_eq_true, decide_eq_true_eq] at minus plain
      cases cs with
      | nil =>
        rcases apart_cases apart with rfl | ⟨cs, rfl⟩
        · cases minus.1.2
        · cases minus.1.2
      | cons d ds => exact plain ⟨minus.1, rfl⟩
    rw [if_neg plain']
    split at h
    · next string =>
      rw [if_pos string]
      split at h
      · next n found =>
        rw [quoted_append found]
        exact h
      · cases h
    · next notString =>
      rw [if_neg notString]
      split at h
      · next character =>
        rw [if_pos character]
        split at h
        · next n found =>
          rw [quoted_append found]
          exact h
        · cases h
      · next notCharacter =>
        rw [if_neg notCharacter]
        split at h
        · next word =>
          rw [if_pos word]
          have more := run_apart apart (p := isWordChar) rfl cs
          dsimp only
          rw [more, List.take_append_of_le_length (run_le isWordChar cs)]
          exact h
        · next notWord =>
          rw [if_neg notWord]
          split at h
          · next digit =>
            rw [if_pos digit, ← List.cons_append]
            have number := numberLexeme_prev h fun dot => digits dot (numberLexeme_kind h)
            exact numberLexeme_apart apart number
          · next notDigit =>
            rw [if_neg notDigit, ← List.cons_append, operatorAt?_apart apart]
            exact h

/-! ### Spaced tokens -/

/-- Whether the text of the form is one token of its kind when it stands alone. Braces and numbers
with a sign are left out: what these are depends on the token before. -/
def Form.isToken (f : Form) : Bool :=
  match f.literal.toList with
  | [] => false
  | c :: cs =>
    match lexeme .eof c cs with
    | .ok l => l.kind == f.kind && l.more == cs.length && l.fence == 0 &&
        c != '\x7b' && (f.kind != .number || c != '-')
    | .error _ => false

omit apart in
theorem Form.isToken_text {f : Form} (h : f.isToken = true) :
    ∃ c cs, f.literal.toList = c :: cs ∧ lexeme .eof c cs = .ok ⟨f.kind, cs.length, 0⟩ ∧
      c ≠ '\x7b' ∧ (f.kind = .number → c ≠ '-') := by
  unfold isToken at h
  split at h
  · cases h
  · next c cs text =>
    split at h
    · next l here =>
      simp only [Bool.and_eq_true, beq_iff_eq, bne_iff_ne, Bool.or_eq_true, ne_eq] at h
      obtain ⟨⟨⟨⟨kind, more⟩, fence⟩, brace⟩, sign⟩ := h
      refine ⟨c, cs, text, ?_, brace, fun number => ?_⟩
      · rw [here, ← kind, ← more, ← fence]
      · exact sign.resolve_left (not_not_intro number)
    · cases h

/-- The form is the same token behind one of the kind `prev`. -/
def Form.Stands (prev : Kind) (f : Form) : Prop :=
  f.isToken = true ∧ (prev = .op .dot → f.kind = .number → ∀ d ∈ f.literal.toList, Text.isDigit d = true)

/-- Forms that are the same tokens one behind the other. -/
def Form.StandAll : Kind → List Form → Prop
  | _, [] => True
  | prev, f :: fs => f.Stands prev ∧ StandAll f.kind fs

/-- The forms written down with single spaces in between. -/
def Form.spaced (fs : List Form) : String := Text.join " " (fs.map Form.literal)

omit apart in
theorem symbol_head (o : Operator) : o.symbol.toList.head?.all (!isGapChar ·) = true := by
  cases o <;> decide

omit apart in
theorem lexeme_of_other (other : c ∈ [' ', '\t', '\r', '\n', '/']) :
    lexeme .eof c cs = match operatorAt? (c :: cs) with
      | some o => .ok ⟨.op o, o.symbol.length - 1, 0⟩
      | none => .error (.invalidCharacter c) := by
  simp only [List.mem_cons, List.not_mem_nil, or_false] at other
  rcases other with rfl | rfl | rfl | rfl | rfl <;> rfl

omit apart in
theorem lexeme_operator (h : lexeme .eof c cs = .ok l) (other : c ∈ [' ', '\t', '\r', '\n', '/']) :
    ∃ o, l = ⟨.op o, o.symbol.length - 1, 0⟩ ∧
      c :: cs.take (o.symbol.length - 1) = o.symbol.toList := by
  rw [lexeme_of_other other] at h
  split at h
  · next o found =>
    cases h
    exact ⟨o, rfl, operatorAt?_text found⟩
  · cases h

theorem gap_of_lexeme {k : Kind} {pos : Pos} (h : lexeme .eof c cs = .ok ⟨k, cs.length, 0⟩) :
    gap .blank pos (c :: (cs ++ rest)) = .ok (pos, c :: (cs ++ rest)) := by
  have comment {d : Char} {ds : List Char} (slash : c = '/') (same : cs ++ rest = d :: ds) :
      d ≠ '/' ∧ d ≠ '*' := by
    obtain ⟨o, made, text⟩ := lexeme_operator h (by simp [slash])
    injection made with _ length
    rw [List.take_of_length_le (by omega)] at text
    cases cs with
    | nil =>
      rcases apart_cases apart with rfl | ⟨cs, rfl⟩
      · cases same
      · cases same
        decide
    | cons e cs =>
      cases same
      have second : (o.symbol.toList.drop 1).head? = some d := by rw [← text]; rfl
      have known : (o.symbol.toList.drop 1).head?.all (fun c => c != '/' && c != '*') = true := by
        cases o <;> decide
      rw [second] at known
      simpa using known
  have blank : isGapChar c = false := by
    cases gap : isGapChar c with
    | false => rfl
    | true =>
      obtain ⟨o, -, text⟩ := lexeme_operator h (by
        have := mem_of_isGapChar gap
        simp only [List.mem_cons] at this ⊢
        grind)
      have known := symbol_head o
      rw [← text] at known
      simp [gap] at known
  rw [gap, if_neg (by simp [blank])]
  · exact fun ds slash same => (comment slash same).1 rfl
  · exact fun ds slash same => (comment slash same).2 rfl

omit apart in
theorem gap_space (pos : Pos) (cs : List Char) :
    gap .blank pos (' ' :: cs) = gap .blank (pos.after ' ') cs := by
  simp [gap, isGapChar]

omit apart in
/-- The tokens behind a gap. -/
def afterGap (prev : Kind) : Except ScanError (Pos × List Char) → Stream
  | .error e => ⟨[], .error e⟩
  | .ok (start, []) => ⟨[], .ok start⟩
  | .ok (start, c :: rest) =>
    match lexeme prev c rest with
    | .error cause => ⟨[], .error ⟨cause, start⟩⟩
    | .ok l =>
      let text := c :: rest.take l.more
      let literal := (text.drop l.fence).take (text.length - 2 * l.fence)
      Stream.cons ⟨l.kind, String.ofList literal, start⟩
        (scanFrom l.kind (start.afterAll text) (rest.drop l.more))

omit apart in
theorem scanFrom_eq (prev : Kind) (pos : Pos) (cs : List Char) :
    scanFrom prev pos cs = afterGap prev (gap .blank pos cs) := by
  rw [scanFrom]
  split
  · next failed => rw [failed]; rfl
  · next ends => rw [ends]; rfl
  · next found => rw [found]; rfl

theorem scanFrom_token {f : Form} (stands : f.Stands prev) (pos : Pos) :
    ∃ t : Token, t.form = f ∧ scanFrom prev pos (f.literal.toList ++ rest) =
      (scanFrom f.kind (pos.afterAll f.literal.toList) rest).cons t := by
  obtain ⟨token, digits⟩ := stands
  obtain ⟨c, cs, text, alone, brace, unsigned⟩ := f.isToken_text token
  rw [text] at digits ⊢
  have here := lexeme_apart apart alone brace unsigned digits
  have front : gap .blank pos (c :: (cs ++ rest)) = .ok (pos, c :: (cs ++ rest)) :=
    gap_of_lexeme apart alone
  refine ⟨⟨f.kind, f.literal, pos⟩, rfl, ?_⟩
  rw [List.cons_append, scanFrom_eq, front, afterGap, here]
  simp only [List.take_left, List.drop_left, List.drop_zero, Nat.mul_zero, Nat.sub_zero,
    List.take_length, ← text, String.ofList_toList]

omit apart in
theorem scanFrom_space (prev : Kind) (pos : Pos) (cs : List Char) :
    scanFrom prev pos (' ' :: cs) = scanFrom prev (pos.after ' ') cs := by
  rw [scanFrom_eq, scanFrom_eq, gap_space]

omit apart in
/-- Tokens with spaces in between are found again. -/
theorem scanFrom_spaced (fs : List Form) (prev : Kind) (pos : Pos) (stand : Form.StandAll prev fs) :
    (scanFrom prev pos (Form.spaced fs).toList).tokens.map form = fs ∧
      ∃ p, (scanFrom prev pos (Form.spaced fs).toList).stop = .ok p := by
  have empty (prev : Kind) (pos : Pos) : scanFrom prev pos [] = ⟨[], .ok pos⟩ := by
    rw [scanFrom]
    rfl
  induction fs generalizing prev pos with
  | nil =>
    rw [show (Form.spaced []).toList = [] from rfl, empty]
    exact ⟨rfl, pos, rfl⟩
  | cons f fs ih =>
    obtain ⟨first, others⟩ := stand
    cases fs with
    | nil =>
      obtain ⟨t, made, found⟩ := @scanFrom_token [] (by simp [Apart]) _ f first pos
      rw [List.append_nil, empty] at found
      rw [show Form.spaced [f] = f.literal from rfl, found]
      exact ⟨by simp [Stream.cons, made], _, rfl⟩
    | cons g fs =>
      have text : (Form.spaced (f :: g :: fs)).toList =
          f.literal.toList ++ ' ' :: (Form.spaced (g :: fs)).toList := by
        show (f.literal ++ " " ++ Form.spaced (g :: fs)).toList = _
        simp only [String.toList_append, List.append_assoc]
        rfl
      have apart : Apart (' ' :: (Form.spaced (g :: fs)).toList) := by simp [Apart]
      obtain ⟨t, made, found⟩ := scanFrom_token apart first pos
      obtain ⟨tokens, p, stop⟩ := ih f.kind ((pos.afterAll f.literal.toList).after ' ') others
      rw [text, found, scanFrom_space]
      exact ⟨by simp only [Stream.cons, List.map_cons, made, tokens], p, stop⟩

end TastyLang.Token
