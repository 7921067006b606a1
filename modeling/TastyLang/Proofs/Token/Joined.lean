import TastyLang.Proofs.Token.Cuts

/-!
# Tokens without spaces in between

How words, numbers and operators are found that stand right behind each other. Operators are cut as
long as they can be: `munch` says which tokens some marks make without a space in between, and
`Scans` that a text is cut into these, with given tokens behind them. What may follow a type is in
front of stars and closing brackets, however many stand there (`Tail`).
-/

namespace TastyLang

/-- The operator that two marks make without a space in between. -/
def Operator.join? : Operator → Operator → Option Operator
  | .greater, .greater => some .shiftRight
  | .greater, .assign => some .greaterEqual
  | .shiftRight, .assign => some .shiftRightAssign
  | .star, .assign => some .starAssign
  | _, _ => none

/-- The characters that make a longer operator of one that they stand behind. -/
def Operator.nextChars (o : Operator) : List Char :=
  all.filterMap fun longer =>
    (Text.after? o.symbol.toList longer.symbol.toList).bind List.head?

namespace Token

def Form.greater : Form := .op .greater

/-- Two closing angle brackets count one by one. -/
def Form.split (f : Form) : List Form :=
  if f = .op .shiftRight then [.greater, .greater] else [f]

/-! ### The longest tokens -/

/-- The token that two of them make without a space in between, if they make one. -/
def Form.join? (f g : Form) : Option Form :=
  match f.kind, g.kind with
  | .op o, .op o' => (o.join? o').map .op
  | _, _ => none

/-- What `f` and the forms behind it are cut into. -/
def munchFrom (f : Form) : List Form → List Form
  | [] => [f]
  | g :: gs =>
    match f.join? g with
    | some h => munchFrom h gs
    | none => f :: munchFrom g gs

/-- The tokens that forms are cut into which are written without spaces. -/
def munch : List Form → List Form
  | [] => []
  | f :: fs => munchFrom f fs

variable {rear : Stream} {ok : Kind → Prop} {c : Char} {cs rest : List Char} {f : Form}
  {fs gs : List Form} {kind : Kind} {o : Operator}

theorem munch_cons (apart : ∀ g ∈ fs.head?, f.join? g = none) :
    munch (f :: fs) = f :: munch fs := by
  cases fs with
  | nil => rfl
  | cons g gs =>
    show munchFrom f (g :: gs) = _
    rw [munchFrom, apart g rfl]
    rfl

theorem munch_join {g h : Form} (joined : f.join? g = some h) :
    munch (f :: g :: fs) = munch (h :: fs) := by
  show munchFrom f (g :: fs) = _
  rw [munchFrom, joined]
  rfl

theorem join?_plain (plain : f.kind ∉ [.op .greater, .op .shiftRight, .op .star]) (g : Form) :
    f.join? g = none := by
  unfold Form.join?
  split
  · next o₁ o₂ here _ =>
    rw [here] at plain
    cases o₁ <;> first | rfl | exact absurd (by decide) plain
  · rfl

theorem join?_other {g : Form} (other : g.kind ≠ .op .assign)
    (bracket : f.kind ≠ .op .greater ∨ g.kind ≠ .op .greater) : f.join? g = none := by
  unfold Form.join?
  split
  · next o₁ o₂ here there =>
    rw [here, there] at bracket
    rw [there] at other
    have none : o₁.join? o₂ = none := by
      unfold Operator.join?
      split
      · simp at bracket
      all_goals first | rfl | exact absurd rfl other
    rw [none, Option.map_none]
  · rfl

theorem split_munch : ∀ {fs : List Form},
    (∀ f ∈ fs, f = .greater ∨ f.kind ∉ [.op .greater, .op .assign, .op .shiftRight]) →
    (munch fs).flatMap Form.split = fs
  | [], _ => rfl
  | f :: fs, marks => by
    obtain ⟨here, others⟩ := List.forall_mem_cons.mp marks
    have unassigned {gs : List Form} (inside : gs ⊆ fs) : ∀ g ∈ gs.head?, g.kind ≠ .op .assign := by
      intro g head same
      rcases others g (inside (List.mem_of_mem_head? head)) with rfl | other
      · cases same
      · exact other (by simp [same])
    by_cases bracket : f.kind = .op .greater
    · obtain rfl : f = .greater := here.resolve_right (by simp [bracket])
      cases fs with
      | nil => rfl
      | cons g gs =>
        obtain ⟨next, rest⟩ := List.forall_mem_cons.mp others
        rcases next with rfl | next
        · -- two brackets are one token, which no bracket behind it changes
          have apart : ∀ h ∈ gs.head?, (Form.op .shiftRight).join? h = none := fun h head =>
            join?_other (unassigned (List.subset_cons_self _ _) h head) (.inl nofun)
          rw [munch_join rfl, munch_cons apart, List.flatMap_cons, split_munch rest]
          rfl
        · have apart : ∀ h ∈ (g :: gs).head?, Form.greater.join? h = none := by
            rintro h ⟨⟩
            exact join?_other (unassigned (List.Subset.refl _) g rfl)
              (.inr fun same => next (by simp [same]))
          rw [munch_cons apart, List.flatMap_cons, split_munch others]
          rfl
    · have single : f.split = [f] := by
        refine if_neg ?_
        rintro rfl
        exact absurd here (by decide)
      have apart : ∀ g ∈ fs.head?, f.join? g = none := fun g head =>
        join?_other (unassigned (List.Subset.refl _) g head) (.inl bracket)
      rw [munch_cons apart, List.flatMap_cons, split_munch others, single]
      rfl

/-! ### Cutting a text -/

def Stream.Ends (s : Stream) : Prop := ∃ p, s.stop = .ok p

/-- Behind a token of an `ok` kind the text `cs` is cut into the tokens that `fs` make, with those of
`rear` behind them. -/
def Scans (rear : Stream) (ok : Kind → Prop) (cs : List Char) (fs : List Form) : Prop :=
  ∀ prev pos, ok prev →
    (scanFrom prev pos cs).tokens.map form = munch fs ++ rear.tokens.map form ∧
      ((scanFrom prev pos cs).Ends ↔ rear.Ends)

def Kind.Any (_ : Kind) : Prop := True

theorem Scans.anywhere (h : Scans rear Kind.Any cs fs) : Scans rear ok cs fs :=
  fun prev pos _ => h prev pos trivial

theorem scans_token (blank : isGapChar c = false) (slash : c ≠ '/')
    (here : ∀ prev, ok prev → lexeme prev c (cs ++ rest) = .ok ⟨kind, cs.length, 0⟩)
    (whole : munch gs = ⟨kind, String.ofList (c :: cs)⟩ :: munch fs)
    (next : Scans rear (· = kind) rest fs) : Scans rear ok (c :: (cs ++ rest)) gs := by
  intro prev pos before
  have front : gap .blank pos (c :: (cs ++ rest)) = .ok (pos, c :: (cs ++ rest)) := by
    rw [gap, if_neg (by simp [blank])]
    · exact fun _ same _ => slash same
    · exact fun _ same _ => slash same
  rw [scanFrom_eq, front, afterGap, here prev before]
  simp only [List.take_left, List.drop_left, List.drop_zero, Nat.mul_zero, Nat.sub_zero,
    List.take_length, Stream.cons, List.map_cons]
  obtain ⟨tokens, stop⟩ := next kind (pos.afterAll (c :: cs)) rfl
  exact ⟨by rw [tokens, whole]; rfl, stop⟩

theorem scans_space (next : Scans rear ok cs fs) : Scans rear ok (' ' :: cs) fs := by
  intro prev pos before
  rw [scanFrom_space]
  exact next prev _ before

/-! ### Words and numbers -/

theorem not_gap_of_word (word : isWordChar c = true) : isGapChar c = false ∧ c ≠ '/' := by
  constructor
  · cases gap : isGapChar c with
    | false => rfl
    | true =>
      simp only [isGapChar, Bool.or_eq_true, beq_iff_eq] at gap
      rcases gap with ((rfl | rfl) | rfl) | rfl <;> cases word
  · rintro rfl
    cases word

theorem scans_word {w : String} (text : w.toList = c :: cs) (start : isWordStart c = true)
    (word : ∀ d ∈ cs, isWordChar d = true) (ends : ∀ d ∈ rest.head?, isWordChar d = false)
    (next : Scans rear (· = Kind.ofWord w) rest fs) :
    Scans rear ok (w.toList ++ rest) (⟨Kind.ofWord w, w⟩ :: fs) := by
  obtain ⟨blank, slash⟩ := not_gap_of_word (c := c) (by rw [isWordChar, start]; rfl)
  have same : String.ofList (c :: cs) = w := by rw [← text, String.ofList_toList]
  rw [text]
  refine scans_token blank slash (fun prev _ => lexeme_word start word ends) ?_ (same ▸ next)
  rw [same]
  exact munch_cons fun g _ => join?_plain (by simp [ofWord_ne_op]) g

theorem scans_name {w : String} (name : IsName w) (ends : ∀ d ∈ rest.head?, isWordChar d = false)
    (next : Scans rear Kind.Any rest fs) : Scans rear ok (w.toList ++ rest) (⟨.ident, w⟩ :: fs) := by
  obtain ⟨kind, c, cs, text, start, word⟩ := name
  have found := @scans_word rear ok c cs rest fs w text start word ends next.anywhere
  rwa [kind] at found

theorem scans_number {w : String} (number : IsNumber w) (stops : Stops rest)
    (next : Scans rear Kind.Any rest fs) :
    Scans rear Kind.Opens (w.toList ++ rest) (⟨.number, w⟩ :: fs) := by
  obtain ⟨c, cs, text, first, here⟩ := number
  have front : isGapChar c = false ∧ c ≠ '/' := by
    rcases first with rfl | digit
    · decide
    · exact not_gap_of_word (by rw [isWordChar, digit, Bool.or_true])
  rw [text]
  refine scans_token front.1 front.2 (fun prev opens => here prev rest opens stops) ?_ next.anywhere
  rw [← text, String.ofList_toList]
  have plain : Kind.number ∉ [.op .greater, .op .shiftRight, .op .star] := by decide
  exact munch_cons fun g _ => join?_plain plain g

/-! ### Operators -/

theorem scans_symbol (text : o.symbol.toList = c :: cs) (brace : c ≠ '\x7b')
    (slash : c ≠ '/') (unsigned : c = '-' → ∀ d ∈ (cs ++ rest).head?, Text.isDigit d = false)
    (longest : ∀ d ∈ rest.head?, o.goesOn d = false) (whole : munch gs = .op o :: munch fs)
    (next : Scans rear (· = .op o) rest fs) : Scans rear ok (c :: (cs ++ rest)) gs := by
  have blank : isGapChar c = false := by
    have head := symbol_head o
    rw [text] at head
    simpa using head
  refine scans_token blank slash (fun prev _ => lexeme_symbol text brace unsigned longest) ?_ next
  rw [← text, String.ofList_toList]
  exact whole

theorem scans_mark (text : o.symbol.toList = [c]) (plain : c ∉ ['\x7b', '/', '-'])
    (longest : ∀ d ∈ rest.head?, o.goesOn d = false)
    (apart : ∀ g ∈ fs.head?, (Form.op o).join? g = none) (next : Scans rear (· = .op o) rest fs) :
    Scans rear ok (c :: rest) (.op o :: fs) := by
  simp only [List.mem_cons, List.not_mem_nil, or_false, not_or] at plain
  exact @scans_symbol rear ok c [] rest fs _ o text plain.1 plain.2.1
    (fun minus => absurd minus plain.2.2) longest (munch_cons apart) next

theorem goesOn_eq_false {d : Char} (other : d ∉ Operator.nextChars o) : o.goesOn d = false := by
  refine List.any_eq_false.mpr fun longer member begins => other ?_
  obtain ⟨rest, same⟩ := List.isPrefixOf_iff_prefix.mp begins
  have after : Text.after? o.symbol.toList longer.symbol.toList = some (d :: rest) := by
    rw [Text.after?_eq_some, ← same, List.append_assoc, List.singleton_append]
  refine List.mem_filterMap.mpr ⟨longer, member, ?_⟩
  rw [after]
  rfl

theorem goesOn_paren (paren : o = .openParen ∨ o = .closeParen) (d : Char) :
    o.goesOn d = false := by
  have none : Operator.nextChars o = [] := by rcases paren with rfl | rfl <;> decide +kernel
  exact goesOn_eq_false (none ▸ List.not_mem_nil)

theorem goesOn_dot {d : Char} (other : d ≠ '.') : Operator.dot.goesOn d = false := by
  have only : Operator.nextChars .dot = ['.'] := by decide +kernel
  exact goesOn_eq_false (by simp [only, other])

theorem goesOn_less {d : Char} (other : d ≠ '=') (other' : d ≠ '<') :
    Operator.less.goesOn d = false := by
  have only : Operator.nextChars .less = ['<', '=', '<'] := by decide +kernel
  exact goesOn_eq_false (by simp [only, other, other'])

theorem scans_open (next : Scans rear Kind.Opens cs fs) :
    Scans rear ok ('(' :: cs) (.op .openParen :: fs) := by
  refine scans_mark rfl (by decide) (fun d _ => goesOn_paren (.inl rfl) d)
    (fun g _ => join?_plain (by decide) g) fun prev pos same => ?_
  subst same
  exact next _ pos ⟨rfl, nofun⟩

theorem scans_less (longest : ∀ d ∈ cs.head?, Operator.less.goesOn d = false)
    (next : Scans rear Kind.Opens cs fs) : Scans rear ok ('<' :: cs) (.op .less :: fs) := by
  refine scans_mark rfl (by decide) longest (fun g _ => join?_plain (by decide) g)
    fun prev pos same => ?_
  subst same
  exact next _ pos ⟨rfl, nofun⟩

theorem scans_dot (longest : ∀ d ∈ cs.head?, Operator.dot.goesOn d = false)
    (next : Scans rear Kind.Any cs fs) : Scans rear ok ('.' :: cs) (.op .dot :: fs) :=
  scans_mark rfl (by decide) longest (fun g _ => join?_plain (by decide) g) next.anywhere

theorem scans_colon (next : Scans rear Kind.Opens cs fs) :
    Scans rear ok (':' :: ' ' :: cs) (.op .colon :: fs) := by
  refine scans_mark rfl (by decide) ?_ (fun g _ => join?_plain (by decide) g)
    (scans_space fun prev pos same => ?_)
  · rintro d ⟨⟩
    decide
  · subst same
    exact next _ pos ⟨rfl, nofun⟩

theorem scans_arrow (next : Scans rear Kind.Opens cs fs) :
    Scans rear ok (' ' :: '-' :: '>' :: ' ' :: cs) (.op .arrow :: fs) := by
  refine scans_space ?_
  refine @scans_symbol rear ok '-' ['>'] (' ' :: cs) fs _ .arrow rfl (by decide) (by decide) ?_ ?_
    (munch_cons fun g _ => join?_plain (by decide) g) ?_
  · rintro - d ⟨⟩
    rfl
  · rintro d ⟨⟩
    decide
  · refine scans_space fun prev pos same => ?_
    subst same
    exact next _ pos ⟨rfl, nofun⟩

/-! ### What follows a type -/

/-- What may follow a type, in `fs`: stars and closing brackets in front of it are cut as long as
they can be. -/
structure Tail (rear : Stream) (cs : List Char) (fs : List Form) : Prop where
  scans : Scans rear Kind.Any cs fs
  closes : Scans rear Kind.Any ('>' :: cs) (.greater :: fs)
  doubled : Scans rear Kind.Any ('>' :: '>' :: cs) (.greater :: .greater :: fs)
  starred : Scans rear Kind.Any ('*' :: cs) (.op .star :: fs)
  stops : Stops cs

theorem goesOn_other {d : Char} (last : o ∈ [.greater, .shiftRight, .star]) (other : d ≠ '=')
    (bracket : d ≠ '>') : o.goesOn d = false := by
  have only : [.greater, .shiftRight, .star].map Operator.nextChars =
      [['>', '=', '>'], ['='], ['=']] := by
    decide +kernel
  simp only [List.map_cons, List.map_nil, List.cons.injEq, and_true] at only
  simp only [List.mem_cons, List.not_mem_nil, or_false] at last
  rcases last with rfl | rfl | rfl <;> exact goesOn_eq_false (by simp [only, other, bracket])

theorem Tail.of (scans : Scans rear Kind.Any cs fs) (stops : Stops cs)
    (chars : ∀ d ∈ cs.head?, d ≠ '=' ∧ d ≠ '>')
    (marks : ∀ g ∈ fs.head?, g.kind ≠ .op .assign ∧ g.kind ≠ .op .greater) : Tail rear cs fs := by
  have longest {o : Operator} (last : o ∈ [.greater, .shiftRight, .star]) :
      ∀ d ∈ cs.head?, o.goesOn d = false :=
    fun d head => goesOn_other last (chars d head).1 (chars d head).2
  have apart {o : Operator} : ∀ g ∈ fs.head?, (Form.op o).join? g = none :=
    fun g head => join?_other (marks g head).1 (.inr (marks g head).2)
  refine ⟨scans, ?_, ?_, ?_, stops⟩
  · exact scans_mark rfl (by decide) (longest (by simp)) apart scans.anywhere
  · exact @scans_symbol rear Kind.Any '>' ['>'] cs fs _ .shiftRight rfl (by decide) (by decide)
      (fun minus => absurd minus (by decide)) (longest (by simp))
      ((munch_join rfl).trans (munch_cons apart)) scans.anywhere
  · exact scans_mark rfl (by decide) (longest (by simp)) apart scans.anywhere

theorem Tail.mark (text : o.symbol.toList = [c]) (last : o ∈ [.semicolon, .comma, .closeParen])
    (longest : ∀ d ∈ rest.head?, o.goesOn d = false) (next : Scans rear (· = .op o) rest fs) :
    Tail rear (c :: rest) (.op o :: fs) := by
  have mark : c ∈ [';', ',', ')'] := by
    simp only [List.mem_cons, List.not_mem_nil, or_false] at last
    rcases last with rfl | rfl | rfl <;> cases text <;> decide
  have plain : (Form.op o).kind ∉ [.op .greater, .op .shiftRight, .op .star] ∧
      (Form.op o).kind ≠ .op .assign := by
    simp only [List.mem_cons, List.not_mem_nil, or_false] at last
    rcases last with rfl | rfl | rfl <;> decide
  refine .of (scans_mark text ?_ longest (fun g _ => join?_plain plain.1 g) next) ?_ ?_ ?_
  · simp only [List.mem_cons, List.not_mem_nil, or_false] at mark
    rcases mark with rfl | rfl | rfl <;> decide
  · rintro d ⟨⟩
    simp only [List.mem_cons, List.not_mem_nil, or_false] at mark
    rcases mark with rfl | rfl | rfl <;> decide
  · rintro d ⟨⟩
    simp only [List.mem_cons, List.not_mem_nil, or_false] at mark
    rcases mark with rfl | rfl | rfl <;> decide
  · rintro g ⟨⟩
    exact ⟨plain.2, fun same => plain.1 (by simp [same])⟩

theorem Tail.close (tail : Tail rear cs fs) : Tail rear ('>' :: cs) (.greater :: fs) := by
  refine ⟨tail.closes, tail.doubled, ?_, ?_, ?_⟩
  · refine @scans_symbol rear Kind.Any '>' ['>'] ('>' :: cs) (.greater :: fs) _ .shiftRight rfl
      (by decide) (by decide) (fun minus => absurd minus (by decide)) ?_
      ((munch_join rfl).trans (munch_cons ?_)) tail.closes.anywhere
    · rintro d ⟨⟩
      decide
    · rintro g ⟨⟩
      rfl
  · refine scans_mark rfl (by decide) ?_ ?_ tail.closes.anywhere
    · rintro d ⟨⟩
      decide
    · rintro g ⟨⟩
      rfl
  · rintro d ⟨⟩
    decide

theorem Tail.star (tail : Tail rear cs fs) : Tail rear ('*' :: cs) (.op .star :: fs) := by
  refine .of tail.starred ?_ ?_ ?_
  · rintro d ⟨⟩
    decide
  · rintro d ⟨⟩
    decide
  · rintro g ⟨⟩
    decide

theorem Tail.stars (tail : Tail rear cs fs) (n : Nat) :
    Tail rear ((Text.repeated "*" n).toList ++ cs) (List.replicate n (.op .star) ++ fs) := by
  induction n with
  | zero => exact tail
  | succ n ih =>
    rw [Text.repeated, String.toList_append, List.append_assoc]
    exact ih.star

theorem Tail.comma (next : Scans rear Kind.Opens cs fs) :
    Tail rear (',' :: ' ' :: cs) (.op .comma :: fs) := by
  refine .mark rfl (by decide) ?_ ?_
  · rintro d ⟨⟩
    decide
  · refine scans_space fun prev pos same => next prev pos ?_
    subst same
    exact ⟨rfl, nofun⟩

theorem Tail.paren (next : Scans rear Kind.Any cs fs) : Tail rear (')' :: cs) (.op .closeParen :: fs) :=
  .mark rfl (by decide) (fun d _ => goesOn_paren (.inr rfl) d) next.anywhere

theorem Tail.nil : Tail {} [] [] := by
  refine .of (fun prev pos _ => ?_) nofun nofun nofun
  rw [scanFrom]
  exact ⟨rfl, fun _ => ⟨_, rfl⟩, fun _ => ⟨_, rfl⟩⟩

theorem Tail.semicolon : Tail {} [';'] [.op .semicolon] :=
  .mark rfl (by decide) nofun Tail.nil.scans.anywhere

end TastyLang.Token
