import Mathlib.Data.List.Chain
import TastyLang.Proofs.Evaluation
import TastyLang.Proofs.Token.Cuts

/-!
# The grammar of numbers

A number is a value with suffixes, and perhaps a sign in front (`IsNumeral`). The value is a row of
digits behind the mark of a base, or decimal digits with a fraction and an exponent. Nothing but such
numbers is cut out of a text, with one exception (`scan_numbers`): a digit is asked for in a fraction
and in an exponent, but not behind the mark of a base.
-/

namespace TastyLang.Token

/-! ### The grammar -/

/-- At least one character, and all of them as `p` says. -/
def IsRow (p : Char → Bool) (cs : List Char) : Prop := cs ≠ [] ∧ ∀ c ∈ cs, p c = true

/-- The mark of a base behind a zero, with the digits of that base. -/
inductive IsBase : Char → (Char → Bool) → Prop where
  | hexadecimal {m : Char} : m ∈ ['x', 'X'] → IsBase m isHexDigit
  | binary {m : Char} : m ∈ ['b', 'B'] → IsBase m fun c => c == '0' || c == '1'

def IsFraction (cs : List Char) : Prop := ∃ digits, cs = '.' :: digits ∧ IsRow Text.isDigit digits

def IsExponent (cs : List Char) : Prop :=
  ∃ e sign digits, cs = e :: (sign ++ digits) ∧ e ∈ ['e', 'E'] ∧ sign ∈ [[], ['+'], ['-']] ∧
    IsRow Text.isDigit digits

inductive IsValue : List Char → Prop where
  | based {m : Char} {p : Char → Bool} {digits : List Char} :
      IsBase m p → IsRow p digits → IsValue ('0' :: m :: digits)
  | decimal {whole frac exp : List Char} : IsRow Text.isDigit whole → (frac = [] ∨ IsFraction frac) →
      (exp = [] ∨ IsExponent exp) → IsValue (whole ++ frac ++ exp)

/-- A number as the language has it: a minus sign or none, a value and suffixes. -/
def IsNumeral (cs : List Char) : Prop :=
  ∃ sign value suffix, cs = sign ++ value ++ suffix ∧ sign ∈ [[], ['-']] ∧ IsValue value ∧
    ∀ c ∈ suffix, isNumberSuffix c = true

/-- The mark of a base without a digit behind it, but perhaps with suffixes. -/
def LacksDigits (cs : List Char) : Prop :=
  ∃ sign m p suffix, cs = sign ++ '0' :: m :: suffix ∧ sign ∈ [[], ['-']] ∧ IsBase m p ∧
    (∀ c ∈ suffix.head?, p c = false) ∧ ∀ c ∈ suffix, isNumberSuffix c = true

/-! ### No number is both -/

theorem IsBase.unique {m : Char} {p q : Char → Bool} (first : IsBase m p) (second : IsBase m q) :
    p = q := by
  cases first with
  | hexadecimal mark =>
    cases second with
    | hexadecimal => rfl
    | binary other => simp only [List.mem_cons, List.not_mem_nil, or_false] at mark other; grind
  | binary mark =>
    cases second with
    | hexadecimal other => simp only [List.mem_cons, List.not_mem_nil, or_false] at mark other; grind
    | binary => rfl

theorem IsBase.stops {m : Char} {p : Char → Bool} (base : IsBase m p) :
    Text.isDigit m = false ∧ isNumberSuffix m = false ∧ m ∉ ['.', 'e', 'E'] := by
  cases base with
  | hexadecimal mark | binary mark =>
    simp only [List.mem_cons, List.not_mem_nil, or_false] at mark
    rcases mark with rfl | rfl <;> decide

theorem IsValue.digit {value : List Char} (h : IsValue value) :
    ∃ c cs, value = c :: cs ∧ Text.isDigit c = true := by
  cases h with
  | based => exact ⟨_, _, rfl, rfl⟩
  | decimal whole =>
    obtain ⟨some, digits⟩ := whole
    obtain ⟨c, cs, rfl⟩ := List.exists_cons_of_ne_nil some
    exact ⟨c, _, rfl, digits c List.mem_cons_self⟩

theorem not_base_of_decimal {whole frac exp suffix rest : List Char} {m : Char} {p : Char → Bool}
    (digits : ∀ d ∈ whole, Text.isDigit d = true) (fraction : frac = [] ∨ IsFraction frac)
    (exponent : exp = [] ∨ IsExponent exp) (suffixes : ∀ d ∈ suffix, isNumberSuffix d = true)
    (same : whole ++ (frac ++ (exp ++ suffix)) = m :: rest) : ¬ IsBase m p := by
  intro base
  obtain ⟨digit, letter, mark⟩ := base.stops
  cases whole with
  | cons d ds =>
    cases same
    rw [digits m List.mem_cons_self] at digit
    cases digit
  | nil =>
    rcases fraction with rfl | ⟨ds, rfl, -⟩
    · rcases exponent with rfl | ⟨e, sign, ds, rfl, start, -⟩
      · rw [List.nil_append, List.nil_append, List.nil_append] at same
        subst same
        rw [suffixes m List.mem_cons_self] at letter
        cases letter
      · cases same
        exact mark (List.mem_cons_of_mem _ start)
    · cases same
      exact mark List.mem_cons_self

theorem IsNumeral.not_lacksDigits {cs : List Char} (numeral : IsNumeral cs) : ¬ LacksDigits cs := by
  rintro ⟨sign', m, p, suffix', same, signed', base, bare, -⟩
  obtain ⟨sign, value, suffix, rfl, signed, isValue, suffixes⟩ := numeral
  obtain ⟨c, cs, first, digit⟩ := isValue.digit
  have rest : value ++ suffix = '0' :: m :: suffix' := by
    simp only [List.mem_cons, List.not_mem_nil, or_false] at signed signed'
    rcases signed with rfl | rfl <;> rcases signed' with rfl | rfl
    · exact same
    · rw [first] at same
      obtain ⟨rfl, -⟩ := List.cons.inj same
      exact absurd digit (by decide)
    · cases same
    · exact (List.cons.inj same).2
  cases isValue with
  | based base' digits =>
    obtain ⟨some, all⟩ := digits
    obtain ⟨d, ds, rfl⟩ := List.exists_cons_of_ne_nil some
    cases rest
    have none := bare d rfl
    rw [base.unique base', all d List.mem_cons_self] at none
    cases none
  | decimal digits fraction exponent =>
    obtain ⟨some, all⟩ := digits
    obtain ⟨d, ds, rfl⟩ := List.exists_cons_of_ne_nil some
    simp only [List.cons_append, List.append_assoc, List.cons.injEq] at rest
    exact not_base_of_decimal (fun d member => all d (List.mem_cons_of_mem _ member)) fraction exponent
      suffixes rest.2 base

/-! ### What is cut out -/

section

variable {cs : List Char} {p : Char → Bool}

theorem take_run : cs.take (run p cs) = cs.takeWhile p :=
  (List.prefix_iff_eq_take.mp (List.takeWhile_prefix p)).symm

theorem take_run_holds : ∀ c ∈ cs.take (run p cs), p c = true := by
  rw [take_run]
  exact fun c member => List.all_eq_true.mp List.all_takeWhile c member

theorem isRow_take {c : Char} (here : p c = true) : IsRow p ((c :: cs).take (1 + run p cs)) := by
  rw [Nat.add_comm, List.take_succ_cons]
  exact ⟨List.cons_ne_nil _ _, List.forall_mem_cons.mpr ⟨here, take_run_holds⟩⟩

theorem fraction_text : cs.take (fraction cs) = [] ∨ IsFraction (cs.take (fraction cs)) := by
  unfold fraction
  split
  · next d ds =>
    split
    · next digit =>
      have split : ('.' :: d :: ds).take (2 + run Text.isDigit ds) =
          '.' :: (d :: ds).take (1 + run Text.isDigit ds) := by
        rw [show 2 + run Text.isDigit ds = 1 + run Text.isDigit ds + 1 by omega, List.take_succ_cons]
      exact .inr ⟨_, split, isRow_take digit⟩
    · exact .inl rfl
  · exact .inl rfl

/-- The cases are those of the sign: a digit behind the mark, a sign and a digit, or none. -/
theorem exponent_text : cs.take (exponent cs) = [] ∨ IsExponent (cs.take (exponent cs)) := by
  rcases cs with _ | ⟨e, _ | ⟨s, ds⟩⟩
  · exact .inl List.take_nil
  · left
    simp [exponent]
  by_cases mark : e = 'e' ∨ e = 'E'
  · have marked : e ∈ ['e', 'E'] := by simpa using mark
    by_cases digit : Text.isDigit s = true
    · rw [exponent_digit mark digit]
      refine .inr ⟨e, [], (s :: ds).take (1 + run Text.isDigit ds), ?_, marked, by simp,
        isRow_take digit⟩
      rw [show 2 + run Text.isDigit ds = 1 + run Text.isDigit ds + 1 by omega, List.take_succ_cons]
      rfl
    · have other : Text.isDigit s = false := by simpa using digit
      by_cases sign : (s = '+' ∨ s = '-') ∧ ∃ d ds', ds = d :: ds' ∧ Text.isDigit d = true
      · obtain ⟨sign, d, ds, rfl, digit⟩ := sign
        rw [exponent_sign mark other sign digit]
        refine .inr ⟨e, [s], (d :: ds).take (1 + run Text.isDigit ds), ?_, marked, ?_,
          isRow_take digit⟩
        · rw [show 3 + run Text.isDigit ds = 1 + run Text.isDigit ds + 1 + 1 by omega,
            List.take_succ_cons, List.take_succ_cons]
          rfl
        · rcases sign with rfl | rfl <;> simp
      · left
        rw [exponent_none other, List.take_zero]
        intro signed d head
        cases ds with
        | nil => cases head
        | cons d' ds =>
          cases head
          exact Bool.eq_false_iff.mpr fun digit => sign ⟨signed, d, ds, rfl, digit⟩
  · left
    simp [exponent, mark]

theorem Marked.base (h : Marked cs) : ∃ m p ds, cs = '0' :: m :: ds ∧ IsBase m p := by
  obtain ⟨m, ds, rfl, mark⟩ := h
  simp only [List.mem_cons, List.not_mem_nil, or_false] at mark
  rcases mark with rfl | rfl | rfl | rfl
  · exact ⟨_, _, ds, rfl, .hexadecimal (by decide)⟩
  · exact ⟨_, _, ds, rfl, .hexadecimal (by decide)⟩
  · exact ⟨_, _, ds, rfl, .binary (by decide)⟩
  · exact ⟨_, _, ds, rfl, .binary (by decide)⟩

theorem IsBase.numeral {m : Char} (base : IsBase m p) (afterDot : Bool) (ds : List Char) :
    numeral afterDot ('0' :: m :: ds) = 2 + run p ds := by
  cases base with
  | hexadecimal mark | binary mark =>
    simp only [List.mem_cons, List.not_mem_nil, or_false] at mark
    rcases mark with rfl | rfl <;> rfl

theorem numeral_text (afterDot : Bool) (digit : ∀ c ∈ cs.head?, Text.isDigit c = true)
    (some : cs ≠ []) :
    IsValue (cs.take (numeral afterDot cs)) ∨
      ∃ m p ds, cs = '0' :: m :: ds ∧ IsBase m p ∧ numeral afterDot cs = 2 ∧
        ∀ c ∈ ds.head?, p c = false := by
  by_cases marked : Marked cs
  · obtain ⟨m, p, ds, rfl, base⟩ := marked.base
    rw [base.numeral, Nat.add_comm, List.take_succ_cons, List.take_succ_cons]
    by_cases none : ds.take (run p ds) = []
    · right
      refine ⟨m, p, ds, rfl, base, ?_, fun c head => ?_⟩
      · have length := run_le p ds
        have empty := congrArg List.length none
        rw [List.length_take, List.length_nil] at empty
        omega
      · cases ds with
        | nil => cases head
        | cons d ds =>
          cases head
          refine Bool.eq_false_iff.mpr fun here => ?_
          rw [take_run, List.takeWhile_cons_of_pos here] at none
          cases none
    · exact .inl (.based base ⟨none, take_run_holds⟩)
  · left
    rw [numeral_decimal marked]
    dsimp only
    rw [List.take_add, List.take_add]
    refine .decimal ⟨?_, take_run_holds⟩ ?_ exponent_text
    · obtain ⟨c, ds, rfl⟩ := List.exists_cons_of_ne_nil some
      rw [take_run, List.takeWhile_cons_of_pos (digit c rfl)]
      exact List.cons_ne_nil _ _
    · cases afterDot with
      | true => exact .inl rfl
      | false => exact fraction_text

theorem unsigned_text {afterDot : Bool} {c : Char} (digit : Text.isDigit c = true)
    (whole : unsignedNumber afterDot (c :: cs) = (c :: cs).length) :
    (∃ value suffix, c :: cs = value ++ suffix ∧ IsValue value ∧
      ∀ d ∈ suffix, isNumberSuffix d = true) ∨
    ∃ m p suffix, c :: cs = '0' :: m :: suffix ∧ IsBase m p ∧ (∀ d ∈ suffix.head?, p d = false) ∧
      ∀ d ∈ suffix, isNumberSuffix d = true := by
  have suffixes : ∀ d ∈ (c :: cs).drop (numeral afterDot (c :: cs)), isNumberSuffix d = true := by
    have length : run isNumberSuffix ((c :: cs).drop (numeral afterDot (c :: cs))) =
        ((c :: cs).drop (numeral afterDot (c :: cs))).length := by
      rw [List.length_drop, ← whole, unsignedNumber]
      omega
    have all := @take_run_holds ((c :: cs).drop (numeral afterDot (c :: cs))) isNumberSuffix
    rwa [length, List.take_length] at all
  have head : ∀ d ∈ (c :: cs).head?, Text.isDigit d = true := fun d same => by
    cases same
    exact digit
  rcases numeral_text afterDot head (List.cons_ne_nil _ _) with value | ⟨m, p, ds, same, base, two, bare⟩
  · exact .inl ⟨_, _, (List.take_append_drop _ _).symm, value, suffixes⟩
  · refine .inr ⟨m, p, ds, same, base, bare, ?_⟩
    rw [two, same] at suffixes
    exact suffixes

end

theorem IsNumber.text {w : String} (h : IsNumber w) : IsNumeral w.toList ∨ LacksDigits w.toList := by
  obtain ⟨c, cs, text, -, token⟩ := h
  have found : lexeme .eof c cs = .ok ⟨.number, cs.length, 0⟩ := by
    have alone := token .eof [] ⟨rfl, nofun⟩ nofun
    rwa [List.append_nil] at alone
  rw [text]
  have size {sign : Nat} (number : numberLexeme .eof sign (c :: cs) = .ok ⟨.number, cs.length, 0⟩) :
      sign + unsignedNumber false ((c :: cs).drop sign) - 1 = cs.length := by
    unfold numberLexeme at number
    dsimp only at number
    split at number
    · exact congrArg Lexeme.more (Except.ok.inj number)
    · cases number
  rcases number_cases found rfl with ⟨rfl, digit, number⟩ | ⟨digit, number⟩
  · obtain ⟨d, ds, rfl⟩ : ∃ d ds, cs = d :: ds := by
      cases cs with
      | nil => cases digit
      | cons d ds => exact ⟨d, ds, rfl⟩
    have whole : unsignedNumber false (d :: ds) = (d :: ds).length := by
      have size := size number
      rw [List.drop_one, List.tail_cons] at size
      omega
    rcases unsigned_text digit whole with ⟨value, suffix, same, isValue, suffixes⟩ |
      ⟨m, p, suffix, same, base, bare, suffixes⟩
    · exact .inl ⟨['-'], value, suffix, by rw [same]; rfl, by simp, isValue, suffixes⟩
    · exact .inr ⟨['-'], m, p, suffix, by rw [same]; rfl, by simp, base, bare, suffixes⟩
  · have whole : unsignedNumber false (c :: cs) = (c :: cs).length := by
      have size := size number
      have some := @unsignedNumber_pos false c cs digit
      rw [List.drop_zero] at size
      rw [List.length_cons]
      omega
    rcases unsigned_text digit whole with ⟨value, suffix, same, isValue, suffixes⟩ |
      ⟨m, p, suffix, same, base, bare, suffixes⟩
    · exact .inl ⟨[], value, suffix, same, by simp, isValue, suffixes⟩
    · exact .inr ⟨[], m, p, suffix, same, by simp, base, bare, suffixes⟩

/-! ### Signs -/

theorem lexeme_sign {prev : Kind} {cs : List Char} {l : Lexeme} (h : lexeme prev '-' cs = .ok l)
    (kind : l.kind = .number) : prev.endsOperand = false := by
  refine Bool.eq_false_iff.mpr fun ends => ?_
  unfold lexeme at h
  rw [if_neg (by simp), if_neg (by simp [ends]), if_neg (by decide), if_neg (by decide),
    if_neg (by decide), if_neg (by decide)] at h
  split at h <;> cases h
  cases kind

/-- Behind a token of kind `k` the token `t` is no number with a sign, unless an operand may start
there. -/
def SignOpens (k : Kind) (t : Token) : Prop :=
  k.endsOperand = true → t.kind = .number → t.literal.toList.head? ≠ some '-'

theorem scanFrom_signs (prev : Kind) (pos : Pos) (cs : List Char) :
    (∀ t ∈ (scanFrom prev pos cs).tokens.head?, SignOpens prev t) ∧
      (scanFrom prev pos cs).tokens.IsChain fun t u => SignOpens t.kind u := by
  fun_induction scanFrom prev pos cs with
  | case1 prev pos cs e failed => exact ⟨by rintro _ ⟨⟩, .nil⟩
  | case2 prev pos cs start found => exact ⟨by rintro _ ⟨⟩, .nil⟩
  | case3 prev pos cs start c rest found cause bad => exact ⟨by rintro _ ⟨⟩, .nil⟩
  | case4 prev pos cs start c rest found l good =>
    rename_i text literal ih
    refine ⟨?_, List.isChain_cons.mpr ih⟩
    rintro t ⟨⟩ ends (kind : l.kind = .number) sign
    have whole : literal = c :: rest.take l.more := by
      simp only [literal, (lexeme_fits good).fence (by rw [kind]; rintro ⟨⟩), List.drop_zero,
        Nat.mul_zero, Nat.sub_zero, List.take_length, text]
    dsimp only at sign
    rw [whole, String.toList_ofList] at sign
    cases sign
    rw [lexeme_sign good kind] at ends
    cases ends

/-! ### The numbers of a text -/

/-- Every number of a text is as the grammar says, unless it is the mark of a base that lacks its
digits; and a minus sign directly behind an operand belongs to no number. -/
theorem scan_numbers {src : String} {ts : List Token} (h : scan src = .ok ts) :
    (∀ t ∈ ts, t.kind = .number → (IsNumeral t.literal.toList ↔ ¬ LacksDigits t.literal.toList)) ∧
    ts.IsChain fun t u => t.kind.endsOperand = true → u.kind = .number →
      u.literal.toList.head? ≠ some '-' := by
  obtain ⟨stop, -, rfl⟩ := scan_ok h
  constructor
  · intro t member kind
    rcases List.mem_append.mp member with member | last
    · have number := (scanFrom_plain .eof .first src.toList t member).number kind
      exact ⟨IsNumeral.not_lacksDigits, number.text.resolve_right⟩
    · obtain rfl := List.mem_singleton.mp last
      cases kind
  · refine List.isChain_append.mpr ⟨(scanFrom_signs .eof .first src.toList).2, .singleton _, ?_⟩
    rintro t - u ⟨⟩ -
    nofun

/-- Signs behind operands and elsewhere, an index of an index, a range and all parts of numbers. -/
theorem scan_numbers_parts :
    let src := "a -0x1Ful = -2.5e-3f + t.0.1 in 0..0b10"
    ∃ ts, scan src = .ok ts ∧ ts.length = 16 ∧
      (∀ t ∈ ts, t.kind = .number → (IsNumeral t.literal.toList ↔ ¬ LacksDigits t.literal.toList)) ∧
      ts.IsChain fun t u => t.kind.endsOperand = true → u.kind = .number →
        u.literal.toList.head? ≠ some '-' := by
  intro src
  have computed : (scan src).toOption.any (·.length == 16) = true := by
    rw [scan, stream_ofList]
    decide +kernel
  obtain ⟨ts, found, length⟩ := (Option.any_eq_true _ _).mp computed
  have done := toOption_eq_some found
  exact ⟨ts, done, beq_iff_eq.mp length, scan_numbers done⟩

/-- The mark of a base is a number without any digit behind it. -/
theorem mark_alone_is_number :
    ∃ ts, scan "0x" = .ok ts ∧ ∃ t ∈ ts, t.kind = .number ∧ ¬ IsNumeral t.literal.toList := by
  have computed : (scan "0x").toOption =
      some [⟨.number, "0x", .first⟩, ⟨.eof, "", Pos.first.afterAll ['0', 'x']⟩] := by decide +kernel
  refine ⟨_, toOption_eq_some computed, _, List.mem_cons_self, rfl, fun numeral => ?_⟩
  exact numeral.not_lacksDigits
    ⟨[], 'x', isHexDigit, [], rfl, by simp, .hexadecimal (by decide), nofun, nofun⟩

end TastyLang.Token
