import TastyLang.Proofs.Text.Characters
import TastyLang.Token.Scan

/-!
# The order of tokens

The tokens of a text stand one after the other: each starts after the characters of the one before
it, and on no earlier line than the one that its line breaks lead to (`stream_ordered`). Only quoted
and captured text has line breaks.
-/

namespace TastyLang

/-! ### Places -/

namespace Pos

/-- The first place is not after the second, on no later line. -/
def Reaches (p q : Pos) : Prop := p.offset ≤ q.offset ∧ p.line ≤ q.line

theorem Reaches.refl (p : Pos) : p.Reaches p := ⟨Int.le_refl _, Int.le_refl _⟩

theorem Reaches.trans {p q r : Pos} (h : p.Reaches q) (h' : q.Reaches r) : p.Reaches r :=
  ⟨Int.le_trans h.1 h'.1, Int.le_trans h.2 h'.2⟩

theorem after_reaches (p : Pos) (c : Char) : p.Reaches (p.after c) := by
  unfold after
  split
  · exact ⟨show p.offset ≤ p.offset + 1 by omega, show p.line ≤ p.line + 1 by omega⟩
  · exact ⟨show p.offset ≤ p.offset + c.utf8Size by omega, Int.le_refl _⟩

theorem afterAll_line (p : Pos) (cs : List Char) :
    (p.afterAll cs).line = p.line + cs.count '\n' := by
  induction cs generalizing p with
  | nil => simp
  | cons c cs ih =>
    rw [afterAll_cons, ih, List.count_cons, after]
    by_cases same : c = '\n'
    · simp [same]
      omega
    · simp [same]

theorem afterAll_offset (p : Pos) (cs : List Char) :
    p.offset + cs.length ≤ (p.afterAll cs).offset := by
  induction cs generalizing p with
  | nil => simp
  | cons c cs ih =>
    have rest := ih (p.after c)
    have size := c.utf8Size_pos
    have first : p.offset + 1 ≤ (p.after c).offset := by
      unfold after
      split
      · exact Int.le_refl _
      · simp only
        omega
    rw [afterAll_cons, List.length_cons]
    omega

theorem afterAll_reaches (p : Pos) (cs : List Char) : p.Reaches (p.afterAll cs) := by
  have line := p.afterAll_line cs
  have offset := p.afterAll_offset cs
  constructor <;> omega

end Pos

theorem Operator.breaks_symbol (o : Operator) : Text.breaks o.symbol = 0 := by
  cases o <;> decide

namespace Token

/-! ### Gaps -/

theorem gap_reaches (mode : GapMode) (pos : Pos) (cs : List Char) {p : Pos}
    (start : ∀ q, mode = .block q → p.Reaches q) (behind : p.Reaches pos) :
    match gap mode pos cs with
    | .ok (pos', _) => p.Reaches pos'
    | .error e => p.Reaches e.pos := by
  fun_induction gap mode pos cs with
  | case1 pos => exact behind
  | case2 pos cs ih => exact ih (by simp) (behind.trans (pos.afterAll_reaches _))
  | case3 pos cs ih =>
    exact ih (by rintro q ⟨⟩; exact behind) (behind.trans (pos.afterAll_reaches _))
  | case4 pos c cs _ _ _ ih => exact ih (by simp) (behind.trans (pos.after_reaches c))
  | case5 pos c cs => exact behind
  | case6 pos => exact behind
  | case7 pos cs ih => exact ih (by simp) (behind.trans (pos.after_reaches _))
  | case8 pos c cs _ ih => exact ih (by simp) (behind.trans (pos.after_reaches c))
  | case9 q pos => exact start q rfl
  | case10 q pos cs ih => exact ih (by simp) (behind.trans (pos.afterAll_reaches _))
  | case11 q pos c cs _ ih => exact ih start (behind.trans (pos.after_reaches c))

/-! ### Lexemes without line breaks -/

/-- No line ends in the first `n` characters. -/
def Even (n : Nat) (cs : List Char) : Prop := '\n' ∉ cs.take n

variable {cs : List Char}

theorem Even.add {m n : Nat} (h : Even m cs) (h' : Even n (cs.drop m)) :
    Even (m + n) cs := by
  rw [Even, List.take_add, List.mem_append]
  exact fun member => member.elim h h'

theorem even_zero (cs : List Char) : Even 0 cs := by simp [Even]

variable {c : Char}

theorem Even.cons {n : Nat} (first : c ≠ '\n') (h : Even n cs) :
    Even (n + 1) (c :: cs) := by
  simpa [Even, first.symm] using h

theorem run_even {p : Char → Bool} (h : p '\n' = false) (cs : List Char) : Even (run p cs) cs := by
  intro member
  rw [run, ← List.prefix_iff_eq_take.mp (List.takeWhile_prefix p)] at member
  have holds := List.all_eq_true.mp List.all_takeWhile _ member
  exact absurd holds (by simp [h])

theorem ne_newline_of_isDigit (h : Text.isDigit c = true) : c ≠ '\n' := by
  rintro rfl
  exact absurd h (by decide)

theorem fraction_even (cs : List Char) : Even (fraction cs) cs := by
  unfold fraction
  split
  · next d rest =>
    split
    · next digit =>
      rw [Nat.add_comm]
      exact .cons (by decide) (.cons (ne_newline_of_isDigit digit) (run_even (by decide) rest))
    · exact even_zero _
  · exact even_zero _

theorem exponent_even (cs : List Char) : Even (exponent cs) cs := by
  unfold exponent
  split
  · next e rest =>
    split
    · next mark =>
      have first : e ≠ '\n' := by rintro rfl; exact absurd mark (by decide)
      split
      · next s d rest' =>
        split
        · next digit =>
          rw [Nat.add_comm]
          exact .cons first (.cons (ne_newline_of_isDigit digit) (run_even (by decide) _))
        · split
          · next sign =>
            simp only [Bool.and_eq_true] at sign
            have second : s ≠ '\n' := by rintro rfl; exact absurd sign.1 (by decide)
            rw [Nat.add_comm]
            exact .cons first (.cons second (.cons (ne_newline_of_isDigit sign.2)
              (run_even (by decide) rest')))
          · exact even_zero _
      · next d =>
        split
        · next digit => exact .cons first (.cons (ne_newline_of_isDigit digit) (even_zero _))
        · exact even_zero _
      · exact even_zero _
    · exact even_zero _
  · exact even_zero _

theorem numeral_even (afterDot : Bool) (cs : List Char) : Even (numeral afterDot cs) cs := by
  unfold numeral
  split
  · rw [Nat.add_comm]
    exact .cons (by decide) (.cons (by decide) (run_even (by decide) _))
  · rw [Nat.add_comm]
    exact .cons (by decide) (.cons (by decide) (run_even (by decide) _))
  · rw [Nat.add_comm]
    exact .cons (by decide) (.cons (by decide) (run_even (by decide) _))
  · rw [Nat.add_comm]
    exact .cons (by decide) (.cons (by decide) (run_even (by decide) _))
  · refine .add (.add (run_even (by decide) cs) ?_) (exponent_even _)
    split
    · exact even_zero _
    · exact fraction_even _

theorem unsignedNumber_even (afterDot : Bool) (cs : List Char) :
    Even (unsignedNumber afterDot cs) cs :=
  .add (numeral_even afterDot cs) (run_even (by decide) _)

variable {l : Lexeme}

theorem numberLexeme_even {prev : Kind} {sign : Nat} (lead : Even sign (c :: cs))
    (h : numberLexeme prev sign (c :: cs) = .ok l) :
    l.kind = .number ∧ l.fence = 0 ∧ Even l.more cs := by
  simp only [numberLexeme] at h
  split at h
  · cases h
    refine ⟨rfl, rfl, fun member => ?_⟩
    refine lead.add (unsignedNumber_even (prev == .op .dot) ((c :: cs).drop sign)) ?_
    cases size : sign + unsignedNumber (prev == .op .dot) ((c :: cs).drop sign) with
    | zero => simp [size] at member
    | succ n =>
      simp only [size, Nat.add_one_sub_one] at member
      exact List.mem_cons_of_mem c member
  · cases h

theorem operatorAt?_starts {o : Operator} (h : operatorAt? cs = some o) :
    o.symbol.toList <+: cs := by
  have found {n : Nat} (h : Operator.all.find? (fun o =>
      o.symbol.length == n && startsWithOperator cs o) = some o) : o.symbol.toList <+: cs := by
    have holds := List.find?_some h
    simp only [Bool.and_eq_true] at holds
    exact List.isPrefixOf_iff_prefix.mp holds.2
  simp only [operatorAt?, Option.or_eq_some_iff] at h
  rcases h with h | ⟨_, h | ⟨_, h⟩⟩
  · exact found h
  · exact found h
  · exact found h

theorem operatorAt?_text {o : Operator} (h : operatorAt? (c :: cs) = some o) :
    c :: cs.take (o.symbol.length - 1) = o.symbol.toList := by
  have some : o.symbol.length = o.symbol.length - 1 + 1 := by cases o <;> decide
  have starts := List.prefix_iff_eq_take.mp (operatorAt?_starts h)
  rw [String.length_toList, some, List.take_succ_cons] at starts
  exact starts.symm

theorem ofWord_cases (s : String) :
    (Kind.ofWord s).isReserved = true ∨ Kind.ofWord s = .ident := by
  unfold Kind.ofWord
  split
  · next k found =>
    have member := List.mem_of_find?_eq_some found
    simp only [Kind.reserved, List.mem_append, List.mem_map] at member
    rcases member with (⟨_, _, rfl⟩ | ⟨_, _, rfl⟩) | ⟨_, _, rfl⟩ <;> exact .inl rfl
  · split
    · exact .inl rfl
    · exact .inr rfl

theorem ofWord_ne {k : Kind} (s : String) (plain : k.isReserved = false) (other : k ≠ .ident) :
    Kind.ofWord s ≠ k := by
  rintro rfl
  rcases ofWord_cases s with word | word
  · rw [plain] at word
    cases word
  · exact other word

theorem ofWord_ne_op (s : String) (o : Operator) : Kind.ofWord s ≠ .op o :=
  ofWord_ne s rfl nofun

/-- Whether a kind of token may have line breaks in it. -/
def Kind.isText : Kind → Bool
  | .string | .character | .raw => true
  | _ => false

def Lexeme.text (l : Lexeme) (c : Char) (cs : List Char) : List Char := c :: cs.take l.more

/-- What a lexeme tells about its text. -/
structure Lexeme.Fits (l : Lexeme) (c : Char) (cs : List Char) : Prop where
  fence : l.kind ≠ .raw → l.fence = 0
  even : l.kind.isText = false → '\n' ∉ l.text c cs
  symbol : ∀ o, l.kind = .op o → l.text c cs = o.symbol.toList

theorem numberLexeme_fits {prev : Kind} {sign : Nat} (first : c ≠ '\n') (lead : Even sign (c :: cs))
    (h : numberLexeme prev sign (c :: cs) = .ok l) : l.Fits c cs := by
  obtain ⟨kind, fence, even⟩ := numberLexeme_even lead h
  refine ⟨fun _ => fence, fun _ => ?_, fun o same => ?_⟩
  · rw [Lexeme.text, List.mem_cons]
    exact fun member => member.elim first.symm even
  · rw [kind] at same
    cases same

theorem lexeme_fits {prev : Kind} (h : lexeme prev c cs = .ok l) : l.Fits c cs := by
  unfold lexeme at h
  split at h
  · split at h
    · cases h
      exact ⟨by simp, by simp [Kind.isText], by simp⟩
    · cases h
  · split at h
    · next minus =>
      simp only [Bool.and_eq_true, decide_eq_true_eq] at minus
      have first : c ≠ '\n' := by rw [minus.1.1]; decide
      exact numberLexeme_fits first (.cons first (even_zero cs)) h
    · split at h
      · split at h
        · cases h
          exact ⟨by simp, by simp [Kind.isText], by simp⟩
        · cases h
      · split at h
        · split at h
          · cases h
            exact ⟨by simp, by simp [Kind.isText], by simp⟩
          · cases h
        · split at h
          · next word =>
            cases h
            have first : c ≠ '\n' := by rintro rfl; exact absurd word (by decide)
            refine ⟨fun _ => rfl, fun _ => ?_, fun o same => absurd same (ofWord_ne_op _ o)⟩
            rw [Lexeme.text, List.mem_cons]
            exact fun member => member.elim first.symm (run_even (by decide) cs)
          · split at h
            · next digit =>
              exact numberLexeme_fits (ne_newline_of_isDigit digit) (even_zero _) h
            · split at h
              · next o found =>
                cases h
                have text := operatorAt?_text found
                refine ⟨fun _ => rfl, fun _ => ?_, fun o' same => ?_⟩
                · rw [Lexeme.text, text]
                  cases o <;> decide
                · cases same
                  exact text
              · cases h

/-! ### Tokens -/

/-- What a token tells about its text. -/
structure Sound (t : Token) : Prop where
  even : t.kind.isText = false → Text.breaks t.literal = 0
  symbol : ∀ o, t.kind = .op o → t.literal = o.symbol

/-- A token stands in front of a place. -/
structure Before (t : Token) (p : Pos) : Prop where
  start : t.pos.offset < p.offset
  stop : t.pos.offset + t.literal.length ≤ p.offset
  line : t.pos.line + Text.breaks t.literal ≤ p.line

/-- Where the first of some tokens starts, and the end of the text if there are none. -/
def startOf (stop : Pos) : List Token → Pos
  | [] => stop
  | t :: _ => t.pos

/-- Tokens that stand one after the other in front of a place. -/
def Ordered (stop : Pos) : List Token → Prop
  | [] => True
  | t :: ts => t.Sound ∧ t.Before (startOf stop ts) ∧ Ordered stop ts

/-- Where a text ends, also in an error. -/
def Stream.stopPos (s : Stream) : Pos :=
  match s.stop with
  | .ok p => p
  | .error e => e.pos

theorem Lexeme.Fits.token (fits : l.Fits c cs) (start : Pos) {q : Pos}
    (behind : (start.afterAll (l.text c cs)).Reaches q) :
    let literal := ((l.text c cs).drop l.fence).take ((l.text c cs).length - 2 * l.fence)
    Sound ⟨l.kind, String.ofList literal, start⟩ ∧
      Before ⟨l.kind, String.ofList literal, start⟩ q := by
  intro literal
  have part : literal.Sublist (l.text c cs) :=
    (List.take_sublist _ _).trans (List.drop_sublist _ _)
  have line := start.afterAll_line (l.text c cs)
  have offset := start.afterAll_offset (l.text c cs)
  have some : 0 < (l.text c cs).length := by simp [Lexeme.text]
  have breaks := part.count_le '\n'
  have length := part.length_le
  refine ⟨⟨fun plain => ?_, fun o same => ?_⟩, ⟨?_, ?_, ?_⟩⟩
  · rw [Text.breaks_ofList, List.count_eq_zero]
    exact fun member => fits.even plain (part.subset member)
  · have fence := fits.fence (by simp only at same; simp [same])
    simp only [literal, fence, List.drop_zero, Nat.mul_zero, Nat.sub_zero, List.take_length,
      fits.symbol o same, String.ofList_toList]
  · have := behind.1
    simp only
    omega
  · have := behind.1
    simp only [String.length_ofList]
    omega
  · have := behind.2
    simp only [Text.breaks_ofList]
    omega

theorem scanFrom_ordered (prev : Kind) (pos : Pos) (cs : List Char) :
    Ordered (scanFrom prev pos cs).stopPos (scanFrom prev pos cs).tokens ∧
      pos.Reaches (startOf (scanFrom prev pos cs).stopPos (scanFrom prev pos cs).tokens) := by
  fun_induction scanFrom prev pos cs with
  | case1 prev pos cs e h =>
    have lead := gap_reaches .blank pos cs (by simp) (Pos.Reaches.refl pos)
    rw [h] at lead
    exact ⟨trivial, lead⟩
  | case2 prev pos cs start h =>
    have lead := gap_reaches .blank pos cs (by simp) (Pos.Reaches.refl pos)
    rw [h] at lead
    exact ⟨trivial, lead⟩
  | case3 prev pos cs start c rest h cause bad =>
    have lead := gap_reaches .blank pos cs (by simp) (Pos.Reaches.refl pos)
    rw [h] at lead
    exact ⟨trivial, lead⟩
  | case4 prev pos cs start c rest h l good text literal ih =>
    have lead := gap_reaches .blank pos cs (by simp) (Pos.Reaches.refl pos)
    rw [h] at lead
    obtain ⟨sound, before⟩ := (lexeme_fits good).token start ih.2
    exact ⟨⟨sound, before, ih.1⟩, lead⟩

theorem Ordered.start_le {stop : Pos} {ts us : List Token} (h : Ordered stop ts)
    (part : us <:+ ts) : (startOf stop ts).offset ≤ (startOf stop us).offset := by
  induction ts with
  | nil => exact List.suffix_nil.mp part ▸ Int.le_refl _
  | cons t ts ih =>
    rcases List.suffix_cons_iff.mp part with rfl | part
    · exact Int.le_refl _
    · exact Int.le_trans (Int.le_of_lt h.2.1.start) (ih h.2.2 part)

theorem Ordered.suffix {stop : Pos} {ts us : List Token} (h : Ordered stop ts)
    (part : us <:+ ts) : Ordered stop us := by
  induction ts with
  | nil => exact List.suffix_nil.mp part ▸ h
  | cons t ts ih =>
    rcases List.suffix_cons_iff.mp part with rfl | part
    · exact h
    · exact ih h.2.2 part

theorem stream_ordered (src : String) : Ordered (stream src).stopPos (stream src).tokens :=
  (scanFrom_ordered .eof .first src.toList).1

end Token

end TastyLang
