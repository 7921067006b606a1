import TastyLang.Proofs.Cpp.Literals
import TastyLang.Proofs.Emission.Grouping
import TastyLang.Proofs.Evaluation

/-!
# Signs that stand together

Operators are written in front of their operands without a blank. C++ takes two signs that stand
together for one where they make a longer mark, as in `- -x`, and it takes a sign into a numeral
that ends in the letter of an exponent, as in `0xe++`. `Emission.separates` tells the expressions
where neither happens, and `scan_iff_separates` says that they are the ones whose operators and
leaves C++ finds again.
-/

namespace TastyLang

open Token (Form)

namespace Emission

/-! ### Neighbours -/

/-- The sign that an expression starts with. -/
def opening? : Expr → Option Operator
  | .unary _ o _ false => some o
  | .unary _ _ x true => opening? x
  | .binary _ _ l _ => opening? l
  | e => if isSigned e then some .minus else none

/-- The numeral that an expression ends in. -/
def closing? : Expr → Option String
  | .unary _ _ x false => closing? x
  | .binary _ _ _ r => closing? r
  | e => numeral? e

/-- Whether no operator of an expression goes on into its operand, and no operand into an operator
behind it. -/
def separates : Expr → Bool
  | .paren _ x => separates x
  | .binary _ _ l r => separates l && separates r
  | .unary _ o x false => (opening? x).all (Cpp.operatorApart o) && separates x
  | .unary _ o x true => (closing? x).all (Cpp.numeralApart · o) && separates x
  | _ => true

/-- The operators and leaves of an expression in the order of the text, as C++ has them. -/
def lexemes (info : Info) (e : Expr) : List String := (tree info e).forms.map (·.literal)

/-! ### Fronts and ends -/

/-- What stands at the front of the text of an expression. -/
def Opens (e : Expr) (w : List Char) : Prop :=
  match opening? e with
  | some s => s ∈ Cpp.leadingOps ∧ s.symbol.toList <+: w
  | none => ∃ c cs, w = c :: cs ∧ Cpp.Solid c

theorem mem_leadingOps {o : Operator} (leading : Reader.isLeading o = true) :
    o ∈ Cpp.leadingOps := by
  cases o <;> first | decide | cases leading

theorem Opens.stands_iff {x : Expr} {w rest : List Char} {o : Operator} (opens : Opens x w)
    (leading : o ∈ Cpp.leadingOps) :
    Cpp.Stands o.symbol.toList (w ++ rest) ↔ (opening? x).all (Cpp.operatorApart o) = true := by
  unfold Opens at opens
  cases first : opening? x with
  | some s =>
    rw [first] at opens
    obtain ⟨leading', more, rfl⟩ := opens
    rw [List.append_assoc]
    exact Cpp.leading_stands_iff leading leading'
  | none =>
    rw [first] at opens
    obtain ⟨c, cs, rfl, solid⟩ := opens
    have plain : ∀ o ∈ Cpp.leadingOps, o ≠ .range ∧ o ≠ .dot := by decide
    obtain ⟨other, dot⟩ := plain o leading
    refine iff_of_true (Cpp.symbol_stands_of_solid other ?_) rfl
    rintro _ ⟨⟩
    exact ⟨solid, (absurd · dot)⟩

theorem Opens.more {e x : Expr} {w : List Char} (opens : Opens x w)
    (same : opening? e = opening? x) (v : List Char) : Opens e (w ++ v) := by
  unfold Opens at opens ⊢
  rw [same]
  cases first : opening? x with
  | some s =>
    rw [first] at opens
    exact ⟨opens.1, opens.2.trans (List.prefix_append _ _)⟩
  | none =>
    rw [first] at opens
    obtain ⟨c, cs, rfl, solid⟩ := opens
    exact ⟨c, cs ++ v, rfl, solid⟩

theorem numeralEnds_iff {value : String} {o : Operator} {rest : List Char}
    (step : o = .increment ∨ o = .decrement) :
    Cpp.NumeralEnds value.toList (o.symbol.toList ++ rest) ↔ Cpp.numeralApart value o = true := by
  unfold Cpp.NumeralEnds
  cases last : value.toList.getLast? with
  | none => rcases step with rfl | rfl <;> simp [Cpp.numeralApart, last, Operator.symbol]
  | some l =>
    rcases step with rfl | rfl <;>
      simp [Cpp.numeralApart, last, Operator.symbol, Cpp.exponents]

theorem numeralEnds_of_ne {w rest : List Char} (other : ∀ c ∈ rest.head?, c ∉ ['+', '-']) :
    Cpp.NumeralEnds w rest :=
  fun c head sign => absurd sign (other c head)

/-! ### Nodes -/

variable {info : Info}

/-- What C++ finds in the text of an expression. -/
structure Scans (info : Info) (e : Expr) (w : List Char) : Prop where
  opens : Opens e w
  found {rest : List Char} {ys : List (List Char)} : Cpp.Calm rest →
    (Cpp.tokens (w ++ rest) = (tree info e).forms.map (·.literal.toList) ++ ys ↔
      separates e = true ∧ (∀ v ∈ closing? e, Cpp.NumeralEnds v.toList rest) ∧
        Cpp.tokens rest = ys)

def Scanned (info : Info) (e : Expr) : Prop :=
  ∃ text, expr info e = .ok text ∧ Scans info e text.toList

/-! ### Leaves -/

theorem IsWord.front {w : List Char} (word : Cpp.IsWord w) : ∃ c cs, w = c :: cs ∧ Cpp.Solid c := by
  obtain ⟨c, cs, rfl, start, -⟩ := word
  exact ⟨c, cs, rfl, Cpp.solid_of_word (Cpp.isWordChar_of_isWordStart start)⟩

theorem IsQuoted.front {w : List Char} (quotes : Cpp.IsQuoted w) :
    ∃ c cs, w = c :: cs ∧ Cpp.Solid c := by
  have apart : (Cpp.longMarks.all fun m => ['"', '\x27'].all fun c => !m.toList.contains c) = true := by
    decide
  obtain ⟨c, cs, rfl, quote, -⟩ := quotes
  refine ⟨c, cs, rfl, fun m member inside => ?_⟩
  have other := List.all_eq_true.mp (List.all_eq_true.mp apart m member) c (by simpa using quote)
  rw [List.contains_iff_mem.mpr inside] at other
  cases other

theorem whole_scanned {e : Expr} {text : String} (written : expr info e = .ok text)
    (forms : (tree info e).forms.map (·.literal.toList) = [text.toList])
    (quiet : opening? e = none ∧ closing? e = none ∧ separates e = true)
    (stands : ∀ {rest}, Cpp.Calm rest → Cpp.Stands text.toList rest)
    (front : ∃ c cs, text.toList = c :: cs ∧ Cpp.Solid c) : Scanned info e := by
  obtain ⟨first, last, plain⟩ := quiet
  refine ⟨text, written, ?_, ?_⟩
  · unfold Opens
    rw [first]
    exact front
  · intro rest ys calm
    rw [forms, last, plain]
    refine (stands calm).tokens_iff.trans ?_
    exact ⟨fun same => ⟨rfl, nofun, same⟩, fun h => h.2.2⟩

theorem word_scanned {e : Expr} {text : String} (written : expr info e = .ok text)
    (forms : (tree info e).forms.map (·.literal.toList) = [text.toList])
    (quiet : opening? e = none ∧ closing? e = none ∧ separates e = true)
    (word : Cpp.IsWord text.toList) : Scanned info e :=
  whole_scanned written forms quiet word.stands (IsWord.front word)

section

variable {s : Span} {kind : LiteralKind} {value : String} (numeric : kind = .int ∨ kind = .float)

include numeric

theorem numeral?_literal : numeral? (.literal s kind value) = some value := by
  rcases numeric with rfl | rfl <;> rfl

theorem opening?_literal : opening? (.literal s kind value) =
    if (Text.dropHead? "-" value).isSome then some .minus else none := by
  simp only [opening?, isSigned, numeral?_literal numeric, Option.any_some, Text.startsWith]

theorem tree_literal : tree info (.literal s kind value) =
    match Text.dropHead? "-" value with
    | some v => .unary {} .minus (numeralTree v) false
    | none => numeralTree value := by
  rcases numeric with rfl | rfl <;> rw [tree] <;> rfl

theorem unsigned_scanned (numeral : Cpp.IsNumeral value.toList) :
    Scanned info (.literal s kind value) := by
  obtain ⟨c, cs, text, digit, -⟩ := id numeral
  have unsigned : Text.dropHead? "-" value = none := by
    rw [Text.dropHead?, text]
    have other : c ≠ '-' := by
      rintro rfl
      cases digit
    simp [Text.after?, other.symm]
  refine ⟨value, by rcases numeric with rfl | rfl <;> rfl, ?_, fun {rest ys} calm => ?_⟩
  · unfold Opens
    rw [opening?_literal numeric, unsigned]
    exact ⟨c, cs, text, Cpp.solid_of_word (Cpp.isWordChar_of_isDigit digit)⟩
  · have last : closing? (.literal s kind value) = some value := numeral?_literal numeric
    rw [tree_literal numeric, unsigned, last, numeralTree_forms]
    refine (Cpp.tokens_append numeral.visible).trans ?_
    rw [numeral.stands_iff calm]
    exact ⟨fun h => ⟨rfl, fun _ same => Option.some.inj same ▸ h.1, h.2⟩, fun h => ⟨h.2.1 _ rfl, h.2.2⟩⟩

theorem signed_scanned (numeral : Cpp.IsNumeral value.toList) :
    Scanned info (.literal s kind ("-" ++ value)) := by
  obtain ⟨c, cs, text, digit, -⟩ := id numeral
  have whole : ("-" ++ value).toList = '-' :: value.toList := String.toList_append
  have signed : Text.dropHead? "-" ("-" ++ value) = some value := by
    simp [Text.dropHead?, Text.after?, String.toList_append]
  refine ⟨"-" ++ value, by rcases numeric with rfl | rfl <;> rfl, ?_, fun {rest ys} calm => ?_⟩
  · unfold Opens
    rw [opening?_literal numeric, signed]
    exact ⟨by decide, _, String.toList_append.symm⟩
  · have last : closing? (.literal s kind ("-" ++ value)) = some ("-" ++ value) :=
      numeral?_literal numeric
    have minus : Cpp.Stands ['-'] (value.toList ++ rest) := by
      refine Cpp.symbol_stands_of_solid (o := .minus) (by decide) fun d head => ?_
      rw [text] at head
      cases head
      exact ⟨Cpp.solid_of_word (Cpp.isWordChar_of_isDigit digit), by rintro ⟨⟩⟩
    -- the sign is not at the end
    have ends : Cpp.NumeralEnds ("-" ++ value).toList rest ↔ Cpp.NumeralEnds value.toList rest := by
      unfold Cpp.NumeralEnds
      rw [whole, text, List.getLast?_cons_cons]
    rw [tree_literal numeric, signed, last, Expr.forms, numeralTree_forms, whole]
    refine minus.tokens_iff.trans ((Cpp.tokens_append numeral.visible).trans ?_)
    rw [numeral.stands_iff calm, ← ends]
    exact ⟨fun h => ⟨rfl, fun _ same => Option.some.inj same ▸ h.1, h.2⟩,
      fun h => ⟨h.2.1 _ rfl, h.2.2⟩⟩

end

theorem literal_scanned {s : Span} {kind : LiteralKind} {value : String} {k : Token.Kind}
    (member : k ∈ kind.kinds) (fits : Cpp.Fits k value.toList) :
    Scanned info (.literal s kind value) := by
  have number (numeric : kind = .int ∨ kind = .float) (fits : Cpp.Fits .number value.toList) :
      Scanned info (.literal s kind value) := by
    obtain ⟨sign, v, text, signed, numeral⟩ := fits
    rcases signed with rfl | rfl
    · exact unsigned_scanned numeric (text ▸ numeral)
    · have same : value = "-" ++ String.ofList v := by
        apply String.toList_inj.mp
        simp [text, String.toList_append]
      rw [same]
      exact signed_scanned numeric (by rwa [String.toList_ofList])
  cases kind with
  | int =>
    cases List.mem_singleton.mp member
    exact number (.inl rfl) fits
  | float =>
    cases List.mem_singleton.mp member
    exact number (.inr rfl) fits
  | string | char =>
    cases List.mem_singleton.mp member
    exact whole_scanned rfl rfl ⟨rfl, rfl, rfl⟩ (fun _ => fits.stands) (IsQuoted.front fits)
  | bool =>
    have word : Cpp.IsWord value.toList := by
      simp only [LiteralKind.kinds, List.mem_cons, List.not_mem_nil, or_false] at member
      rcases member with rfl | rfl <;> exact fits
    exact word_scanned rfl rfl ⟨rfl, rfl, rfl⟩ word
  | null =>
    have written : expr info (.literal s .null value) = .ok "nullptr" := rfl
    exact word_scanned written rfl ⟨rfl, rfl, rfl⟩ ⟨'n', _, rfl, by decide, List.all_eq_true.mp (by decide)⟩

theorem ident_scanned {s : Span} {name : String} (word : Cpp.IsWord name.toList) :
    Scanned info (.ident s name) :=
  word_scanned rfl rfl ⟨rfl, rfl, rfl⟩ word

/-! ### Operators -/

variable {s : Span} {o : Operator} {l r x : Expr}

theorem whole_stands {rest : List Char}
    (h : o ∈ [Operator.openParen, .closeParen, .increment, .decrement]) :
    Cpp.Stands o.symbol.toList rest := by
  have all : ∀ o ∈ [Operator.openParen, .closeParen, .increment, .decrement],
      o ≠ .range ∧ o ≠ .dot ∧ ∀ m ∈ Cpp.longMarks,
        o.symbol.toList.isPrefixOf m.toList = true → m = o.symbol := by
    decide
  obtain ⟨other, dot, whole⟩ := all o h
  exact Cpp.symbol_stands_of_whole other dot whole

theorem calm_of_head {c : Char} {cs : List Char} (h : c ∈ [' ', ')', '+', '-']) :
    Cpp.Calm (c :: cs) := by
  rintro _ ⟨⟩
  exact h

theorem paren_scanned (scanned : Scanned info x) : Scanned info (.paren s x) := by
  obtain ⟨text, written, scans⟩ := scanned
  have whole : ("(" ++ text ++ ")").toList = '(' :: (text.toList ++ [')']) := by
    simp [String.toList_append]
  refine ⟨"(" ++ text ++ ")", ?_, ?_, fun {rest ys} calm => ?_⟩
  · rw [expr, written]
    rfl
  · unfold Opens
    rw [whole]
    refine ⟨'(', _, rfl, ?_⟩
    unfold Cpp.Solid
    decide
  · have opens : Cpp.Stands ['('] (text.toList ++ ([')'] ++ rest)) :=
      whole_stands (o := .openParen) (by decide)
    have closes : Cpp.Stands [')'] rest := whole_stands (o := .closeParen) (by decide)
    have ends : ∀ v ∈ closing? x, Cpp.NumeralEnds v.toList ([')'] ++ rest) :=
      fun v _ => numeralEnds_of_ne (by rintro _ ⟨⟩; decide)
    have inner := @scans.found ([')'] ++ rest) ([')'] :: ys) (calm_of_head (by decide))
    rw [closes.tokens_iff] at inner
    have text_ : '(' :: (text.toList ++ [')']) ++ rest =
        ['('] ++ (text.toList ++ ([')'] ++ rest)) := by simp
    have forms : (tree info (.paren s x)).forms.map (·.literal.toList) ++ ys =
        ['('] :: ((tree info x).forms.map (·.literal.toList) ++ ([')'] :: ys)) := by
      simp [tree, Expr.forms, Form.op, Operator.symbol]
    rw [whole, text_, forms, opens.tokens_iff, inner]
    exact ⟨fun h => ⟨h.1, by rintro _ ⟨⟩, h.2.2⟩, fun h => ⟨h.1, ends, h.2.2⟩⟩

theorem leading_scanned (leading : Reader.isLeading o = true) (scanned : Scanned info x) :
    Scanned info (.unary s o x false) := by
  obtain ⟨text, written, scans⟩ := scanned
  have leading := mem_leadingOps leading
  refine ⟨o.symbol ++ text, ?_, ?_, fun {rest ys} calm => ?_⟩
  · rw [expr, written]
    rfl
  · exact ⟨leading, _, String.toList_append.symm⟩
  · have forms : (tree info (.unary s o x false)).forms.map (·.literal.toList) ++ ys =
        o.symbol.toList :: ((tree info x).forms.map (·.literal.toList) ++ ys) := by
      simp [tree, Expr.forms, Form.op]
    rw [String.toList_append, List.append_assoc, forms,
      Cpp.tokens_append (Cpp.symbol_visible o), scans.opens.stands_iff leading, scans.found calm,
      separates, Bool.and_eq_true, closing?, and_assoc]

theorem trailing_scanned (step : o = .increment ∨ o = .decrement) (scanned : Scanned info x) :
    Scanned info (.unary s o x true) := by
  obtain ⟨text, written, scans⟩ := scanned
  refine ⟨text ++ o.symbol, ?_, ?_, fun {rest ys} calm => ?_⟩
  · rw [expr, written]
    rfl
  · rw [String.toList_append]
    exact scans.opens.more (by rw [opening?]) _
  · have forms : (tree info (.unary s o x true)).forms.map (·.literal.toList) ++ ys =
        (tree info x).forms.map (·.literal.toList) ++ (o.symbol.toList :: ys) := by
      simp [tree, Expr.forms, Form.op]
    have stands : Cpp.Stands o.symbol.toList rest :=
      whole_stands (by rcases step with rfl | rfl <;> decide)
    have calm' : Cpp.Calm (o.symbol.toList ++ rest) := by
      rcases step with rfl | rfl <;> exact calm_of_head (by decide)
    rw [String.toList_append, List.append_assoc, forms, scans.found calm', stands.tokens_iff]
    simp only [separates, Bool.and_eq_true, Option.all_eq_true, numeralEnds_iff step]
    constructor
    · rintro ⟨inside, ends, others⟩
      exact ⟨⟨ends, inside⟩, by rintro _ ⟨⟩, others⟩
    · rintro ⟨⟨ends, inside⟩, -, others⟩
      exact ⟨inside, ends, others⟩

theorem binary_scanned (other : o ≠ .range) (left : Scanned info l) (right : Scanned info r) :
    Scanned info (.binary s o l r) := by
  obtain ⟨a, written, scans⟩ := left
  obtain ⟨b, written', scans'⟩ := right
  refine ⟨a ++ " " ++ o.symbol ++ " " ++ b, ?_, ?_, fun {rest ys} calm => ?_⟩
  · rw [expr, written, written']
    rfl
  · simp only [String.toList_append, List.append_assoc]
    exact scans.opens.more (by rw [opening?]) _
  · have text : (a ++ " " ++ o.symbol ++ " " ++ b).toList ++ rest =
        a.toList ++ (' ' :: (o.symbol.toList ++ (' ' :: (b.toList ++ rest)))) := by
      simp [String.toList_append]
    have forms : (tree info (.binary s o l r)).forms.map (·.literal.toList) ++ ys =
        (tree info l).forms.map (·.literal.toList) ++
          (o.symbol.toList :: ((tree info r).forms.map (·.literal.toList) ++ ys)) := by
      simp [tree, Expr.forms, Form.op]
    have stands : Cpp.Stands o.symbol.toList (' ' :: (b.toList ++ rest)) := by
      refine Cpp.symbol_stands_of_solid other ?_
      rintro _ ⟨⟩
      exact ⟨by unfold Cpp.Solid; decide, fun _ => rfl⟩
    have ends : ∀ v ∈ closing? l, Cpp.NumeralEnds v.toList
        (' ' :: (o.symbol.toList ++ (' ' :: (b.toList ++ rest)))) :=
      fun v _ => numeralEnds_of_ne (by rintro _ ⟨⟩; decide)
    rw [text, forms, scans.found (calm_of_head (by decide)), Cpp.tokens_gap _ rfl,
      stands.tokens_iff, Cpp.tokens_gap _ rfl, scans'.found calm, separates, Bool.and_eq_true,
      closing?]
    exact ⟨fun h => ⟨⟨h.1, h.2.2.1⟩, h.2.2.2⟩, fun h => ⟨h.1.1, ends, h.1.2, h.2⟩⟩

theorem scanned_of_elementary {e : Expr} (h : e.Elementary) : Scanned info e := by
  induction h with
  | ident word => exact ident_scanned word
  | literal member fits => exact literal_scanned member fits
  | paren _ ih => exact paren_scanned ih
  | binary other _ _ left right => exact binary_scanned other left right
  | leading lead _ ih => exact leading_scanned lead ih
  | trailing step _ ih => exact trailing_scanned step ih

/-- C++ finds the operators and leaves of an expression in its text exactly if no two neighbours go
on into each other. -/
theorem scan_iff_separates {table : Table} {src : String} {e : Expr}
    (read : Expr.read table src = .ok e) (plain : e.isElementary = true) (info : Info) :
    ∃ text, expr info e = .ok text ∧ (Cpp.scan text = lexemes info e ↔ separates e = true) := by
  obtain ⟨text, written, scans⟩ := @scanned_of_elementary info _ (Expr.read_elementary read plain)
  refine ⟨text, written, ?_⟩
  have found := @scans.found [] [] (by rintro _ ⟨⟩)
  have nothing : Cpp.tokens [] = [] := by rw [Cpp.tokens]
  rw [List.append_nil, List.append_nil, nothing] at found
  have same : Cpp.scan text = lexemes info e ↔
      Cpp.tokens text.toList = (tree info e).forms.map (·.literal.toList) := by
    have strings : (Cpp.scan text).map String.toList = Cpp.tokens text.toList := by
      simp [Cpp.scan]
    have lists : (lexemes info e).map String.toList =
        (tree info e).forms.map (·.literal.toList) := by
      simp [lexemes]
    rw [← strings, ← lists, List.map_inj_right fun _ _ => String.toList_inj.mp]
  rw [same, found]
  exact ⟨fun h => h.1, fun h => ⟨h, fun _ _ => numeralEnds_of_ne (by rintro _ ⟨⟩), rfl⟩⟩

theorem scan_iff_separates_of_parentheses :
    let src := "-(-x) + *p++ - -0xf"
    ∃ e text, Expr.read .default src = .ok e ∧ e.isElementary = true ∧ expr {} e = .ok text ∧
      Cpp.scan text = ["-", "(", "-", "x", ")", "+", "*", "p", "++", "-", "-", "0xf"] := by
  intro src
  have found : (Expr.read .default src).toOption.any (fun e => e.isElementary && separates e &&
      lexemes {} e == ["-", "(", "-", "x", ")", "+", "*", "p", "++", "-", "-", "0xf"]) = true := by
    rw [Expr.read, Reader.run_ofList]
    decide +kernel
  obtain ⟨e, steps, here⟩ := (Option.any_eq_true _ _).mp found
  simp only [Bool.and_eq_true, beq_iff_eq] at here
  obtain ⟨⟨plain, apart⟩, leaves⟩ := here
  obtain ⟨text, written, scans⟩ := scan_iff_separates (toOption_eq_some steps) plain {}
  exact ⟨e, text, toOption_eq_some steps, plain, written, (scans.mpr apart).trans leaves⟩

/-- Two signs become one. -/
theorem signs_fuse :
    ∃ e, Expr.read .default "- -x" = .ok e ∧ e.isElementary = true ∧ expr {} e = .ok "--x" ∧
      lexemes {} e = ["-", "-", "x"] ∧ Cpp.scan "--x" = ["--", "x"] := by
  have found : (Expr.read .default "- -x").toOption.any (fun e => e.isElementary &&
      (expr {} e).toOption == some "--x" && lexemes {} e == ["-", "-", "x"]) = true := by
    rw [Expr.read, Reader.run_ofList]
    decide +kernel
  obtain ⟨e, steps, here⟩ := (Option.any_eq_true _ _).mp found
  simp only [Bool.and_eq_true, beq_iff_eq] at here
  obtain ⟨⟨plain, written⟩, leaves⟩ := here
  exact ⟨e, toOption_eq_some steps, plain, toOption_eq_some written, leaves, by decide +kernel⟩

end Emission

end TastyLang
