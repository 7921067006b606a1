import TastyLang.Proofs.Cpp.Scanning
import TastyLang.Proofs.Reading.Nesting

/-!
# Names and literals as tokens of C++

The names, numerals and quoted texts that the language is written with are tokens of C++ too, except
that the sign of a numeral is an operator there. `Expr.read_elementary` carries this to expressions:
one that is made of names, literals, parentheses and operators has such tokens for leaves.
-/

namespace TastyLang

namespace Cpp

open Token (isWordStart isWordChar run)

/-! ### Numerals -/

section

variable {cs : List Char} {a b : Nat}

theorem numeralTail_add {last : Char} (first : a ≤ numeralTail last cs)
    (second : ∀ last, b ≤ numeralTail last (cs.drop a)) : a + b ≤ numeralTail last cs := by
  induction a generalizing last cs with
  | zero => simpa using second last
  | succ a ih =>
    cases cs with
    | nil => cases first
    | cons c cs =>
      rw [numeralTail] at first ⊢
      split at first
      · next goes =>
        rw [if_pos goes]
        have := ih (Nat.le_of_succ_le_succ first) second
        omega
      · cases first

theorem numeralTail_take {last : Char} (inside : a ≤ numeralTail last cs) :
    numeralTail last (cs.take a) = a := by
  induction a generalizing last cs with
  | zero => rfl
  | succ a ih =>
    cases cs with
    | nil => cases inside
    | cons c cs =>
      rw [numeralTail] at inside
      split at inside
      · next goes => rw [List.take_succ_cons, numeralTail, if_pos goes, ih (by omega)]
      · cases inside

end

theorem goesOn_word {last c : Char} (word : isWordChar c = true) : numeralGoesOn last c = true := by
  rw [numeralGoesOn, word, Bool.true_or, Bool.true_or]

section

variable (last : Char) (cs : List Char)

theorem run_le_numeralTail {p : Char → Bool} (words : ∀ c, p c = true → isWordChar c = true) :
    run p cs ≤ numeralTail last cs := by
  induction cs generalizing last with
  | nil => exact Nat.le_refl 0
  | cons c cs ih =>
    unfold run at ih ⊢
    by_cases here : p c = true
    · rw [List.takeWhile_cons_of_pos here, numeralTail, if_pos (goesOn_word (words c here)),
        List.length_cons]
      exact Nat.succ_le_succ (ih c)
    · rw [List.takeWhile_cons_of_neg here]
      exact Nat.zero_le _

theorem digits_le_numeralTail : run Text.isDigit cs ≤ numeralTail last cs :=
  run_le_numeralTail last cs fun _ => isWordChar_of_isDigit

theorem fraction_le_numeralTail : Token.fraction cs ≤ numeralTail last cs := by
  unfold Token.fraction
  split
  · next d ds =>
    split
    · next digit =>
      have rest := digits_le_numeralTail d ds
      have first : numeralGoesOn last '.' = true := by simp [numeralGoesOn]
      rw [numeralTail, if_pos first, numeralTail, if_pos (goesOn_word (isWordChar_of_isDigit digit))]
      omega
    · exact Nat.zero_le _
  · exact Nat.zero_le _

theorem exponent_le_numeralTail : Token.exponent cs ≤ numeralTail last cs := by
  unfold Token.exponent
  split
  · next e rest =>
    split
    · next mark =>
      have mark : e = 'e' ∨ e = 'E' := by simpa using mark
      have word : numeralGoesOn last e = true :=
        goesOn_word (by rcases mark with rfl | rfl <;> decide)
      rw [numeralTail, if_pos word]
      split
      · next s d ds =>
        split
        · next digit =>
          have rest := digits_le_numeralTail s (d :: ds)
          rw [numeralTail, if_pos (goesOn_word (isWordChar_of_isDigit digit))]
          omega
        · split
          · next signed =>
            simp only [Bool.and_eq_true, Bool.or_eq_true, decide_eq_true_eq] at signed
            have rest := digits_le_numeralTail d ds
            have sign : numeralGoesOn e s = true := by
              rcases mark with rfl | rfl <;> rcases signed.1 with rfl | rfl <;> decide
            rw [numeralTail, if_pos sign, numeralTail,
              if_pos (goesOn_word (isWordChar_of_isDigit signed.2))]
            omega
          · exact Nat.zero_le _
      · next d =>
        split
        · next digit =>
          rw [numeralTail, if_pos (goesOn_word (isWordChar_of_isDigit digit))]
          omega
        · exact Nat.zero_le _
      · exact Nat.zero_le _
    · exact Nat.zero_le _
  · exact Nat.zero_le _

theorem isWordChar_of_isHexDigit {c : Char} (hex : Token.isHexDigit c = true) :
    isWordChar c = true := by
  have small : 'f' ≤ 'z' := by decide
  have large : 'F' ≤ 'Z' := by decide
  simp only [Token.isHexDigit, isWordChar, isWordStart, Bool.or_eq_true, Bool.and_eq_true,
    decide_eq_true_eq] at hex ⊢
  rcases hex with (digit | ⟨low, high⟩) | ⟨low, high⟩
  · exact .inr digit
  · exact .inl (.inl (.inl ⟨low, Char.le_trans high small⟩))
  · exact .inl (.inl (.inr ⟨low, Char.le_trans high large⟩))

theorem marked_le_numeralTail {m : Char} {p : Char → Bool} (mark : isWordChar m = true)
    (words : ∀ c, p c = true → isWordChar c = true) :
    2 + run p cs ≤ numeralTail last ('0' :: m :: cs) := by
  have rest := run_le_numeralTail m cs words
  rw [numeralTail, if_pos (goesOn_word (by decide)), numeralTail, if_pos (goesOn_word mark)]
  omega

theorem numeral_le_numeralTail (afterDot : Bool) :
    Token.numeral afterDot cs ≤ numeralTail last cs := by
  have binary (c : Char) (bit : (c == '0' || c == '1') = true) : isWordChar c = true := by
    simp only [Bool.or_eq_true, beq_iff_eq] at bit
    rcases bit with rfl | rfl <;> decide
  unfold Token.numeral
  split
  · exact marked_le_numeralTail last _ (by decide) fun _ => isWordChar_of_isHexDigit
  · exact marked_le_numeralTail last _ (by decide) fun _ => isWordChar_of_isHexDigit
  · exact marked_le_numeralTail last _ (by decide) binary
  · exact marked_le_numeralTail last _ (by decide) binary
  · refine numeralTail_add (numeralTail_add (digits_le_numeralTail last cs) fun last => ?_)
      fun last => exponent_le_numeralTail last _
    split
    · exact Nat.zero_le _
    · exact fraction_le_numeralTail last _

theorem unsignedNumber_le_numeralTail (afterDot : Bool) :
    Token.unsignedNumber afterDot cs ≤ numeralTail last cs := by
  refine numeralTail_add (numeral_le_numeralTail last cs afterDot) fun last => ?_
  refine run_le_numeralTail last _ fun c suffix => ?_
  simp only [Token.isNumberSuffix, Bool.or_eq_true, beq_iff_eq] at suffix
  rcases suffix with ((((rfl | rfl) | rfl) | rfl) | rfl) | rfl <;> decide

end

theorem number_isNumeral {afterDot : Bool} {c : Char} {cs : List Char} (digit : Text.isDigit c = true) :
    IsNumeral ((c :: cs).take (Token.unsignedNumber afterDot (c :: cs))) := by
  have some := @Token.unsignedNumber_pos afterDot c cs digit
  have inside := unsignedNumber_le_numeralTail c (c :: cs) afterDot
  rw [numeralTail, if_pos (goesOn_word (isWordChar_of_isDigit digit))] at inside
  generalize Token.unsignedNumber afterDot (c :: cs) = n at some inside
  obtain ⟨n, rfl⟩ : ∃ k, n = k + 1 := ⟨n - 1, by omega⟩
  have whole := numeralTail_take (Nat.le_of_succ_le_succ inside)
  refine ⟨c, cs.take n, rfl, digit, ?_⟩
  rw [whole, List.length_take, Nat.min_eq_left]
  exact Nat.le_trans (Nat.le_of_succ_le_succ inside) (numeralTail_le c cs)

/-! ### Tokens of a text -/

/-- What a token of a kind is in C++. Only names and literals are of interest. -/
def Fits (kind : Token.Kind) (w : List Char) : Prop :=
  match kind with
  | .ident | .keyword _ => IsWord w
  | .number => ∃ sign v, w = sign ++ v ∧ (sign = [] ∨ sign = ['-']) ∧ IsNumeral v
  | .string | .character => IsQuoted w
  | _ => True

theorem quoted_take {quote : Char} {cs : List Char} {n : Nat}
    (h : Token.quoted quote cs = some n) : Token.quoted quote (cs.take n) = some n := by
  fun_induction Token.quoted quote cs generalizing n with
  | case1 => cases h
  | case2 => cases h
  | case3 c cs ih =>
    obtain ⟨m, found, rfl⟩ := Option.map_eq_some_iff.mp h
    rw [List.take_succ_cons, List.take_succ_cons, Token.quoted, ih found]
    rfl
  | case4 cs last inside =>
    cases h
    simp [Token.quoted_cons _ (Token.not_escape last inside)]
  | case5 => cases h
  | case6 c cs last inside other line ih =>
    obtain ⟨m, found, rfl⟩ := Option.map_eq_some_iff.mp h
    rw [List.take_succ_cons, Token.quoted_cons _ (Token.not_escape last inside), if_neg other,
      if_neg line, ih found]
    rfl

theorem word_fits {w : List Char} (s : String) (word : IsWord w) : Fits (Token.Kind.ofWord s) w := by
  have cases := Token.ofWord_cases s
  generalize Token.Kind.ofWord s = kind at cases
  cases kind with
  | ident | keyword => exact word
  | number | string | character => rcases cases with h | h <;> cases h
  | _ => trivial

theorem numberLexeme_fits {prev : Token.Kind} {sign : Nat} {c : Char} {cs : List Char}
    {l : Token.Lexeme} (h : Token.numberLexeme prev sign (c :: cs) = .ok l)
    (start : (sign = 0 ∧ Text.isDigit c = true) ∨
      (sign = 1 ∧ c = '-' ∧ cs.head?.any Text.isDigit = true)) :
    Fits l.kind (c :: cs.take l.more) := by
  unfold Token.numberLexeme at h
  dsimp only at h
  split at h
  · cases h
    rcases start with ⟨rfl, digit⟩ | ⟨rfl, rfl, digit⟩
    · have numeral := @number_isNumeral (prev == .op .dot) c cs digit
      have some := @Token.unsignedNumber_pos (prev == .op .dot) c cs digit
      refine ⟨[], _, rfl, .inl rfl, ?_⟩
      rw [List.drop_zero]
      generalize Token.unsignedNumber (prev == .op .dot) (c :: cs) = n at numeral some
      obtain ⟨n, rfl⟩ : ∃ k, n = k + 1 := ⟨n - 1, by omega⟩
      simpa using numeral
    · obtain ⟨d, ds, rfl⟩ : ∃ d ds, cs = d :: ds := by
        cases cs with
        | nil => cases digit
        | cons d ds => exact ⟨d, ds, rfl⟩
      refine ⟨['-'], _, rfl, .inr rfl, ?_⟩
      simpa using @number_isNumeral (prev == .op .dot) d ds digit
  · cases h

theorem lexeme_fits {prev : Token.Kind} {c : Char} {cs : List Char} {l : Token.Lexeme}
    (h : Token.lexeme prev c cs = .ok l) : Fits l.kind (c :: cs.take l.more) := by
  have closed {n : Nat} (quote : c = '"' ∨ c = '\x27') (found : Token.quoted c cs = some n) :
      IsQuoted (c :: cs.take n) := by
    refine ⟨c, cs.take n, rfl, quote, ?_⟩
    rw [List.length_take, Nat.min_eq_left (quoted_le found)]
    exact quoted_take found
  unfold Token.lexeme at h
  split at h
  · split at h <;> cases h
    trivial
  · split at h
    · next minus =>
      simp only [Bool.and_eq_true, decide_eq_true_eq] at minus
      exact numberLexeme_fits h (.inr ⟨rfl, minus.1⟩)
    · split at h
      · next quote =>
        split at h
        · next found =>
          cases h
          exact closed (.inl quote) found
        · cases h
      · split at h
        · next quote =>
          split at h
          · next found =>
            cases h
            exact closed (.inr quote) found
          · cases h
        · split at h
          · next start =>
            cases h
            apply word_fits
            refine ⟨c, _, rfl, start, fun d member => ?_⟩
            rw [run, ← List.prefix_iff_eq_take.mp (List.takeWhile_prefix _)] at member
            exact List.all_eq_true.mp List.all_takeWhile _ member
          · split at h
            · next digit => exact numberLexeme_fits h (.inl ⟨rfl, digit⟩)
            · split at h <;> cases h
              trivial

theorem scanFrom_fits (prev : Token.Kind) (pos : Pos) (cs : List Char) :
    ∀ t ∈ (Token.scanFrom prev pos cs).tokens, Fits t.kind t.literal.toList := by
  fun_induction Token.scanFrom prev pos cs with
  | case1 => exact List.forall_mem_nil _
  | case2 => exact List.forall_mem_nil _
  | case3 => exact List.forall_mem_nil _
  | case4 prev pos cs start c rest found l good =>
    rename_i text literal ih
    refine List.forall_mem_cons.mpr ⟨?_, ih⟩
    show Fits l.kind (String.ofList literal).toList
    rw [String.toList_ofList]
    by_cases raw : l.kind = .raw
    · rw [raw]
      trivial
    · have whole : literal = c :: rest.take l.more := by
        simp only [literal, (Token.lexeme_fits good).fence raw, List.drop_zero, Nat.mul_zero,
          Nat.sub_zero, List.take_length, text]
      rw [whole]
      exact lexeme_fits good

end Cpp

/-! ### Leaves -/

namespace Expr

/-- Whether an expression is made of names, literals, parentheses and operators only. -/
def isElementary : Expr → Bool
  | ident _ _ | literal _ _ _ => true
  | paren _ x | unary _ _ x _ => isElementary x
  | binary _ _ l r => isElementary l && isElementary r
  | _ => false

/-- An expression of names, literals, parentheses and operators, as the language has them. -/
inductive Elementary : Expr → Prop where
  | ident {s : Span} {name : String} : Cpp.IsWord name.toList → Elementary (.ident s name)
  | literal {s : Span} {kind : LiteralKind} {value : String} {k : Token.Kind} : k ∈ kind.kinds →
      Cpp.Fits k value.toList → Elementary (.literal s kind value)
  | paren {s : Span} {x : Expr} : Elementary x → Elementary (.paren s x)
  | binary {s : Span} {o : Operator} {l r : Expr} : o ≠ .range → Elementary l → Elementary r →
      Elementary (.binary s o l r)
  | leading {s : Span} {o : Operator} {x : Expr} : Reader.isLeading o = true → Elementary x →
      Elementary (.unary s o x false)
  | trailing {s : Span} {o : Operator} {x : Expr} : o = .increment ∨ o = .decrement →
      Elementary x → Elementary (.unary s o x true)

variable {fits : Phrase → List Token → Prop} {ts : List Token}

theorem made_of_built {e : Expr} (h : (Phrase.expr e).Built fits ts) :
    ∃ w, e.Made w ∧ Piece.Filled fits w ts := by
  obtain ⟨made, filled, -⟩ := h
  cases made with
  | node made =>
    cases made with
    | expr made => exact ⟨_, made, filled⟩

theorem part_built {e x : Expr} {good : Token → Prop} (built : (Phrase.expr e).Built fits ts)
    (all : ∀ t ∈ ts, good t) (part : .expr x ∈ e.parts) :
    ∃ us, (Phrase.expr x).Built fits us ∧ ∀ t ∈ us, good t := by
  obtain ⟨us, inside, inner⟩ := built.rows.mem part
  exact ⟨us, inner, fun t member => all t (inside.subset member)⟩

theorem Elementary.of_built {e : Expr} (built : (Phrase.expr e).Built fits ts)
    (leaves : ∀ t ∈ ts, Cpp.Fits t.kind t.literal.toList) (plain : e.isElementary = true) :
    e.Elementary := by
  obtain ⟨w, made, filled⟩ := made_of_built built
  fun_induction isElementary e generalizing ts w with
  | case1 =>
    cases made
    obtain ⟨t, us, rfl, kind, rfl, -⟩ := filled.word_inv
    have leaf := leaves t List.mem_cons_self
    rw [kind] at leaf
    exact .ident leaf
  | case2 =>
    cases made with
    | literal member =>
      obtain ⟨t, us, rfl, rfl, rfl, -⟩ := filled.word_inv
      exact .literal member (leaves t List.mem_cons_self)
  | case3 s x ih =>
    obtain ⟨us, inner, leaves⟩ := part_built (x := x) built leaves List.mem_cons_self
    obtain ⟨v, made, filled⟩ := made_of_built inner
    exact .paren (ih inner leaves plain v made filled)
  | case4 s o x trailing ih =>
    obtain ⟨us, inner, leaves⟩ := part_built (x := x) built leaves List.mem_cons_self
    obtain ⟨v, made', filled'⟩ := made_of_built inner
    have operand := ih inner leaves plain v made' filled'
    cases made with
    | leading lead => exact .leading lead operand
    | trailing step => exact .trailing step operand
  | case5 s o l r left right =>
    obtain ⟨plain, plain'⟩ := Bool.and_eq_true_iff.mp plain
    obtain ⟨us, first, leaves₁⟩ := part_built (x := l) built leaves List.mem_cons_self
    obtain ⟨vs, second, leaves₂⟩ :=
      part_built (x := r) built leaves (List.mem_cons_of_mem _ List.mem_cons_self)
    obtain ⟨v, made₁, filled₁⟩ := made_of_built first
    obtain ⟨v', made₂, filled₂⟩ := made_of_built second
    cases made with
    | binary noRange =>
      exact .binary noRange (left first leaves₁ plain v made₁ filled₁)
        (right second leaves₂ plain' v' made₂ filled₂)
  | case6 => cases plain

theorem read_elementary {table : Table} {src : String} {e : Expr}
    (read : Expr.read table src = .ok e) (plain : e.isElementary = true) : e.Elementary := by
  obtain ⟨ts, stop, halved, -, built⟩ := Expr.read_built read
  refine .of_built built ?_ plain
  exact halved.each (Cpp.scanFrom_fits _ _ _) fun _ _ _ => trivial

end Expr

end TastyLang
