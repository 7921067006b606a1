import TastyLang.Proofs.Cpp.Grammar
import TastyLang.Proofs.Token.Cuts

/-!
# The scanner of C++

C++ cuts a text into the longest tokens it can: blanks stand between tokens, and at every other
place `Cpp.tokenTail` says how far the token there goes. A lexeme at the front of a text is found
again if it stands there (`Cpp.Stands`), that is, if the token does not go on into what follows.
Prefixes of literals and the marks of raw ones are left out.
-/

namespace TastyLang.Cpp

open Token (isWordStart isWordChar isGapChar quoted)

/-! ### Cutting a text -/

def exponents : List Char := ['e', 'E', 'p', 'P']

/-- Whether a numeral goes on with `c` behind `last`. -/
def numeralGoesOn (last c : Char) : Bool :=
  isWordChar c || c == '.' || ((c == '+' || c == '-') && exponents.contains last)

/-- How far a numeral goes on behind its character `last`. -/
def numeralTail (last : Char) : List Char → Nat
  | [] => 0
  | c :: cs => if numeralGoesOn last c then numeralTail c cs + 1 else 0

/-- The length of the longest mark at the front of a text, at least one. -/
def markLength (cs : List Char) : Nat :=
  ((longMarks.filter fun m => m.toList.isPrefixOf cs).map (·.toList.length)).foldl max 1

/-- How many characters the token that starts with `c` has behind it. -/
def tokenTail (c : Char) (cs : List Char) : Nat :=
  if isWordStart c then Token.run isWordChar cs
  else if Text.isDigit c || (c == '.' && cs.head?.any Text.isDigit) then numeralTail c cs
  else if c == '"' || c == '\x27' then (quoted c cs).getD cs.length
  else markLength (c :: cs) - 1

/-- The tokens of a text. -/
def tokens : List Char → List (List Char)
  | [] => []
  | c :: cs =>
    if isGapChar c then tokens cs
    else (c :: cs.take (tokenTail c cs)) :: tokens (cs.drop (tokenTail c cs))
termination_by cs => cs.length

def scan (text : String) : List String := (tokens text.toList).map String.ofList

/-! ### Lengths -/

theorem numeralTail_le (last : Char) (cs : List Char) : numeralTail last cs ≤ cs.length := by
  induction cs generalizing last with
  | nil => exact Nat.le_refl 0
  | cons c cs ih =>
    have rest := ih c
    rw [numeralTail, List.length_cons]
    split <;> omega

theorem foldl_max_le {ns : List Nat} {n bound : Nat} (first : n ≤ bound)
    (each : ∀ m ∈ ns, m ≤ bound) : ns.foldl max n ≤ bound := by
  induction ns generalizing n with
  | nil => exact first
  | cons m ns ih =>
    rw [List.forall_mem_cons] at each
    apply ih _ each.2
    exact Nat.max_le.mpr ⟨first, each.1⟩

theorem le_foldl_max {ns : List Nat} {n m : Nat} (h : m ≤ n ∨ m ∈ ns) : m ≤ ns.foldl max n := by
  induction ns generalizing n with
  | nil => exact h.resolve_right List.not_mem_nil
  | cons k ns ih =>
    apply ih
    rcases h with h | h
    · left
      omega
    · rcases List.mem_cons.mp h with rfl | h
      · left
        omega
      · exact .inr h

theorem markLength_le_iff {cs : List Char} {n : Nat} (some : 0 < n) :
    markLength cs ≤ n ↔ ∀ m ∈ longMarks, m.toList <+: cs → m.toList.length ≤ n := by
  unfold markLength
  constructor
  · intro short m member start
    refine Nat.le_trans (le_foldl_max (.inr ?_)) short
    apply List.mem_map_of_mem
    exact List.mem_filter.mpr ⟨member, List.isPrefixOf_iff_prefix.mpr start⟩
  · intro short
    refine foldl_max_le some fun k member => ?_
    obtain ⟨m, found, rfl⟩ := List.mem_map.mp member
    obtain ⟨member, start⟩ := List.mem_filter.mp found
    exact short m member (List.isPrefixOf_iff_prefix.mp start)

theorem le_markLength {cs : List Char} {m : String} (member : m ∈ longMarks)
    (start : m.toList <+: cs) : m.toList.length ≤ markLength cs := by
  apply le_foldl_max
  right
  apply List.mem_map_of_mem
  exact List.mem_filter.mpr ⟨member, List.isPrefixOf_iff_prefix.mpr start⟩

theorem quoted_le {quote : Char} {cs : List Char} {n : Nat} (h : quoted quote cs = some n) :
    n ≤ cs.length := by
  fun_induction quoted quote cs generalizing n with
  | case1 => cases h
  | case2 => cases h
  | case3 _ cs ih =>
    obtain ⟨m, found, rfl⟩ := Option.map_eq_some_iff.mp h
    have := ih found
    simp only [List.length_cons]
    omega
  | case4 =>
    cases h
    simp
  | case5 => cases h
  | case6 _ cs _ _ _ _ ih =>
    obtain ⟨m, found, rfl⟩ := Option.map_eq_some_iff.mp h
    have := ih found
    rw [List.length_cons]
    omega

theorem tokenTail_le (c : Char) (cs : List Char) : tokenTail c cs ≤ cs.length := by
  unfold tokenTail
  split
  · exact Token.run_le _ _
  · split
    · exact numeralTail_le _ _
    · split
      · cases closed : quoted c cs with
        | none => exact Nat.le_refl _
        | some n => exact quoted_le closed
      · have short : markLength (c :: cs) ≤ cs.length + 1 :=
          (markLength_le_iff (Nat.succ_pos _)).mpr fun m _ start => start.length_le
        omega

/-! ### Lexemes in front of a text -/

/-- A lexeme does not go on into the text behind it. -/
def Stands (w rest : List Char) : Prop :=
  ∃ c cs, w = c :: cs ∧ isGapChar c = false ∧ tokenTail c (cs ++ rest) = cs.length

theorem tokens_gap {c : Char} (cs : List Char) (gap : isGapChar c = true) :
    tokens (c :: cs) = tokens cs := by
  rw [tokens, if_pos gap]

theorem tokens_cons {c : Char} (cs : List Char) (visible : isGapChar c = false) :
    tokens (c :: cs) =
      (c :: cs.take (tokenTail c cs)) :: tokens (cs.drop (tokenTail c cs)) := by
  rw [tokens, if_neg (by rw [visible]; exact Bool.false_ne_true)]

/-- A text that is no blank at its front. -/
def Visible (w : List Char) : Prop := ∃ c cs, w = c :: cs ∧ isGapChar c = false

theorem tokens_append {w rest : List Char} {ys : List (List Char)} (visible : Visible w) :
    tokens (w ++ rest) = w :: ys ↔ Stands w rest ∧ tokens rest = ys := by
  obtain ⟨c, cs, rfl, visible⟩ := visible
  rw [List.cons_append, tokens_cons _ visible]
  constructor
  · intro same
    obtain ⟨first, others⟩ := List.cons.inj same
    have lengths := congrArg List.length (List.cons.inj first).2
    rw [List.length_take, Nat.min_eq_left (tokenTail_le _ _)] at lengths
    rw [lengths, List.drop_left] at others
    exact ⟨⟨c, cs, rfl, visible, lengths⟩, others⟩
  · rintro ⟨⟨_, _, ⟨⟩, -, length⟩, rfl⟩
    rw [length, List.take_left, List.drop_left]

theorem Stands.tokens_iff {w rest : List Char} {ys : List (List Char)} (stands : Stands w rest) :
    tokens (w ++ rest) = w :: ys ↔ tokens rest = ys := by
  obtain ⟨c, cs, text, visible, -⟩ := id stands
  rw [tokens_append ⟨c, cs, text, visible⟩]
  exact and_iff_right stands

/-! ### Words, numerals and quoted text -/

def IsWord (w : List Char) : Prop :=
  ∃ c cs, w = c :: cs ∧ isWordStart c = true ∧ ∀ d ∈ cs, isWordChar d = true

def IsNumeral (w : List Char) : Prop :=
  ∃ c cs, w = c :: cs ∧ Text.isDigit c = true ∧ numeralTail c cs = cs.length

def IsQuoted (w : List Char) : Prop :=
  ∃ c cs, w = c :: cs ∧ (c = '"' ∨ c = '\x27') ∧ quoted c cs = some cs.length

/-- What can stand right behind an operand: nothing, a blank, a parenthesis or a sign. -/
def Calm (rest : List Char) : Prop := ∀ c ∈ rest.head?, c ∈ [' ', ')', '+', '-']

/-- A numeral ends in front of a text. -/
def NumeralEnds (w rest : List Char) : Prop :=
  ∀ c ∈ rest.head?, c ∈ ['+', '-'] → ∀ l ∈ w.getLast?, l ∉ exponents

section

variable {w rest : List Char}

theorem Calm.not_word (calm : Calm rest) : ∀ c ∈ rest.head?, isWordChar c = false := by
  have all : ([' ', ')', '+', '-'].all fun c => !isWordChar c) = true := by decide
  exact fun c head => by simpa using List.all_eq_true.mp all c (calm c head)

theorem not_gap_of_word {c : Char} (word : isWordChar c = true) : isGapChar c = false := by
  apply eq_false_of_ne_true
  intro gap
  have all : ([' ', '\t', '\n', '\r'].all fun c => !isWordChar c) = true := by decide
  have member : c ∈ [' ', '\t', '\n', '\r'] := by simpa [isGapChar, or_assoc] using gap
  have other := List.all_eq_true.mp all c member
  rw [word] at other
  cases other

theorem isWordChar_of_isDigit {c : Char} (digit : Text.isDigit c = true) : isWordChar c = true := by
  rw [isWordChar, digit, Bool.or_true]

theorem isWordChar_of_isWordStart {c : Char} (start : isWordStart c = true) :
    isWordChar c = true := by
  rw [isWordChar, start, Bool.true_or]

theorem IsWord.stands (word : IsWord w) (calm : Calm rest) : Stands w rest := by
  obtain ⟨c, cs, rfl, start, all⟩ := word
  refine ⟨c, cs, rfl, not_gap_of_word (isWordChar_of_isWordStart start), ?_⟩
  have whole := Token.run_all all
  have cut := Token.run_cut calm.not_word (Nat.le_of_eq whole)
  rw [List.take_length] at cut
  rw [tokenTail, if_pos start, cut, whole]

theorem IsQuoted.stands (quotes : IsQuoted w) : Stands w rest := by
  obtain ⟨c, cs, rfl, quote, closed⟩ := quotes
  have here := @Token.quoted_append rest _ _ _ closed
  refine ⟨c, cs, rfl, ?_, ?_⟩
  · rcases quote with rfl | rfl <;> decide
  · rcases quote with rfl | rfl <;> simp [tokenTail, here, isWordStart, Text.isDigit]

theorem numeralTail_append {last : Char} {cs : List Char}
    (whole : numeralTail last cs = cs.length) (rest : List Char) :
    numeralTail last (cs ++ rest) =
      cs.length + numeralTail ((last :: cs).getLast (List.cons_ne_nil _ _)) rest := by
  induction cs generalizing last with
  | nil => simp
  | cons c cs ih =>
    rw [numeralTail] at whole
    split at whole
    · next goes =>
      rw [List.cons_append, numeralTail, if_pos goes, ih (Nat.succ.inj whole),
        List.getLast_cons_cons, List.length_cons]
      omega
    · cases whole

theorem IsNumeral.visible (numeral : IsNumeral w) : Visible w := by
  obtain ⟨c, cs, rfl, digit, -⟩ := numeral
  exact ⟨c, cs, rfl, not_gap_of_word (isWordChar_of_isDigit digit)⟩

theorem IsNumeral.stands_iff (numeral : IsNumeral w) (calm : Calm rest) :
    Stands w rest ↔ NumeralEnds w rest := by
  obtain ⟨c, cs, rfl, digit, whole⟩ := numeral
  have visible := not_gap_of_word (isWordChar_of_isDigit digit)
  have start : isWordStart c = false := Token.not_isWordStart_of_isDigit digit
  have tail : tokenTail c (cs ++ rest) =
      cs.length + numeralTail ((c :: cs).getLast (List.cons_ne_nil _ _)) rest := by
    rw [tokenTail, if_neg (by rw [start]; exact Bool.false_ne_true), if_pos (by simp [digit]),
      numeralTail_append whole]
  have stands : Stands (c :: cs) rest ↔
      numeralTail ((c :: cs).getLast (List.cons_ne_nil _ _)) rest = 0 := by
    constructor
    · rintro ⟨_, _, ⟨⟩, -, length⟩
      omega
    · intro none
      exact ⟨c, cs, rfl, visible, by omega⟩
  rw [stands, NumeralEnds, List.getLast?_eq_some_getLast (List.cons_ne_nil _ _)]
  generalize (c :: cs).getLast (List.cons_ne_nil _ _) = last
  cases rest with
  | nil => exact iff_of_true rfl (fun _ head => nomatch head)
  | cons d ds =>
    have member := calm d rfl
    simp only [List.mem_cons, List.not_mem_nil, or_false] at member
    rcases member with rfl | rfl | rfl | rfl <;>
      simp [numeralTail, numeralGoesOn, isWordChar, isWordStart, Text.isDigit]

/-! ### Marks -/

/-- A character that no mark has in it. -/
def Solid (c : Char) : Prop := ∀ m ∈ longMarks, c ∉ m.toList

theorem solid_of_word {c : Char} (word : isWordChar c = true) : Solid c := by
  have all : (longMarks.all fun m => m.toList.all fun d => !isWordChar d) = true := by decide
  intro m member inside
  have other := List.all_eq_true.mp (List.all_eq_true.mp all m member) c inside
  rw [word] at other
  cases other

variable {o : Operator}

theorem symbol_mark (other : o ≠ .range) :
    o.symbol.toList.length = 1 ∨ o.symbol ∈ longMarks := by
  cases o <;> first | exact absurd rfl other | exact .inl rfl | exact .inr (by decide)

theorem symbol_cons (o : Operator) : ∃ c cs, o.symbol.toList = c :: cs ∧ isGapChar c = false ∧
    isWordStart c = false ∧ Text.isDigit c = false ∧ c ≠ '"' ∧ c ≠ '\x27' ∧
      (c = '.' → o ≠ .range → cs = []) := by
  cases o <;> exact ⟨_, _, rfl, by decide⟩

theorem symbol_visible (o : Operator) : Visible o.symbol.toList := by
  obtain ⟨c, cs, text, visible, -⟩ := symbol_cons o
  exact ⟨c, cs, text, visible⟩

/-- An operator stands in front of a text unless a longer mark starts there. -/
theorem symbol_stands_iff (other : o ≠ .range)
    (dot : o = .dot → rest.head?.any Text.isDigit = false) :
    Stands o.symbol.toList rest ↔
      ∀ m ∈ longMarks, m.toList <+: o.symbol.toList ++ rest →
        m.toList.length ≤ o.symbol.toList.length := by
  obtain ⟨c, cs, text, visible, word, digit, quote, quote', alone⟩ := symbol_cons o
  have point : (c == '.' && (cs ++ rest).head?.any Text.isDigit) = false := by
    by_cases same : c = '.'
    · subst same
      obtain rfl := alone rfl other
      have dotted : o = .dot := Token.symbol_injective (String.toList_inj.mp text)
      rw [List.nil_append, dot dotted, Bool.and_false]
    · simp [same]
  have tail : tokenTail c (cs ++ rest) = markLength (o.symbol.toList ++ rest) - 1 := by
    rw [text, tokenTail]
    simp only [word, digit, point, Bool.or_false, beq_false_of_ne quote, beq_false_of_ne quote',
      Bool.false_eq_true, if_false]
    rfl
  have least : o.symbol.toList.length ≤ markLength (o.symbol.toList ++ rest) := by
    rcases symbol_mark other with one | member
    · rw [one]
      exact le_foldl_max (.inl (Nat.le_refl 1))
    · exact le_markLength member (List.prefix_append _ _)
  have some : 0 < o.symbol.toList.length := by simp [text]
  rw [← markLength_le_iff some]
  constructor
  · rintro ⟨c', cs', text', -, length⟩
    obtain ⟨rfl, rfl⟩ := List.cons.inj (text.symm.trans text')
    have size := congrArg List.length text
    rw [List.length_cons] at size
    omega
  · intro short
    have size := congrArg List.length text
    rw [List.length_cons] at size
    exact ⟨c, cs, text, visible, by omega⟩

theorem symbol_stands_of_solid (other : o ≠ .range)
    (solid : ∀ c ∈ rest.head?, Solid c ∧ (o = .dot → Text.isDigit c = false)) :
    Stands o.symbol.toList rest := by
  refine (symbol_stands_iff other ?_).mpr ?_
  · intro dot
    cases rest with
    | nil => rfl
    | cons c cs => exact (solid c rfl).2 dot
  · intro m member start
    apply Nat.le_of_not_lt
    intro longer
    cases rest with
    | nil =>
      have := start.length_le
      rw [List.append_nil] at this
      omega
    | cons c cs =>
      obtain ⟨tail, same⟩ := start
      apply (solid c rfl).1 m member
      have here : (m.toList ++ tail)[o.symbol.toList.length]? = some c := by
        rw [same, List.getElem?_append_right (Nat.le_refl _), Nat.sub_self]
        rfl
      rw [List.getElem?_append_left longer] at here
      exact List.mem_of_getElem? here

theorem symbol_stands_of_whole (other : o ≠ .range) (dot : o ≠ .dot)
    (whole : ∀ m ∈ longMarks, o.symbol.toList.isPrefixOf m.toList = true → m = o.symbol) :
    Stands o.symbol.toList rest := by
  refine (symbol_stands_iff other (absurd · dot)).mpr fun m member start => ?_
  apply Nat.le_of_not_lt
  intro longer
  have inside := List.prefix_of_prefix_length_le (List.prefix_append _ _) start (Nat.le_of_lt longer)
  have same := whole m member (List.isPrefixOf_iff_prefix.mpr inside)
  rw [same] at longer
  exact Nat.lt_irrefl _ longer

theorem symbol_stands_of_apart {o' : Operator} (other : o ≠ .range) (dot : o ≠ .dot)
    (apart : operatorApart o o' = true) : Stands o.symbol.toList (o'.symbol.toList ++ rest) := by
  refine (symbol_stands_iff other (absurd · dot)).mpr fun m member start => ?_
  apply Nat.le_of_not_lt
  intro longer
  have here := List.all_eq_true.mp apart m member
  simp only [Bool.not_eq_true', Bool.and_eq_false_imp, decide_eq_true_eq, Bool.or_eq_false_iff]
    at here
  obtain ⟨no, no'⟩ := here longer
  rw [← List.append_assoc] at start
  rcases List.prefix_or_prefix_of_prefix start (List.prefix_append _ rest) with inside | inside
  · rw [List.isPrefixOf_iff_prefix.mpr inside] at no
    cases no
  · rw [List.isPrefixOf_iff_prefix.mpr inside] at no'
    cases no'

/-- The operators in front of an operand. -/
def leadingOps : List Operator :=
  [.not, .minus, .plus, .tilde, .star, .amp, .increment, .decrement]

theorem leading_stands_iff {o' : Operator} (leading : o ∈ leadingOps) (leading' : o' ∈ leadingOps) :
    Stands o.symbol.toList (o'.symbol.toList ++ rest) ↔ operatorApart o o' = true := by
  have plain : ∀ o ∈ leadingOps, o ≠ .range ∧ o ≠ .dot := by decide
  obtain ⟨other, dot⟩ := plain o leading
  constructor
  · intro stands
    have short := (symbol_stands_iff other (absurd · dot)).mp stands
    -- where two of them meet, a mark that is started is also complete
    have fused : ∀ o ∈ leadingOps, ∀ o' ∈ leadingOps, operatorApart o o' = false →
        ∃ m ∈ longMarks, o.symbol.toList.length < m.toList.length ∧
          m.toList.isPrefixOf (o.symbol.toList ++ o'.symbol.toList) = true := by
      decide
    apply Decidable.byContradiction
    intro near
    obtain ⟨m, member, longer, start⟩ := fused o leading o' leading' (eq_false_of_ne_true near)
    have start : m.toList <+: o.symbol.toList ++ (o'.symbol.toList ++ rest) := by
      rw [← List.append_assoc]
      exact (List.isPrefixOf_iff_prefix.mp start).trans (List.prefix_append _ _)
    exact absurd (short m member start) (Nat.not_le_of_lt longer)
  · exact symbol_stands_of_apart other dot

end

end TastyLang.Cpp
