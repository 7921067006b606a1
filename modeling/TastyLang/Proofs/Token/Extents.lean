import TastyLang.Proofs.Evaluation
import TastyLang.Proofs.Outcome
import TastyLang.Proofs.Token.Order

/-!
# What the tokens of a text cover

A text is its tokens with gaps in between: `Cut` takes it apart so, and says of every token that it
stands where its place says. From that follows all that the places of tokens promise
(`scan_covers`).
-/

namespace TastyLang

def Text.size (cs : List Char) : Nat := (String.ofList cs).utf8ByteSize

@[simp]
theorem Text.size_nil : Text.size [] = 0 := rfl

@[simp]
theorem Text.size_append (cs ds : List Char) :
    Text.size (cs ++ ds) = Text.size cs + Text.size ds := by
  unfold Text.size
  rw [String.ofList_append, String.utf8ByteSize_append]

theorem Text.size_cons (c : Char) (cs : List Char) :
    Text.size (c :: cs) = c.utf8Size + Text.size cs := by
  rw [← List.singleton_append, Text.size_append]
  congr 1
  exact String.utf8ByteSize_singleton

theorem Text.size_pos {cs : List Char} (h : cs ≠ []) : 0 < Text.size cs := by
  cases cs with
  | nil => exact absurd rfl h
  | cons c cs =>
    have := c.utf8Size_pos
    rw [Text.size_cons]
    omega

/-! ### Places -/

/-- The place right behind the text `before`. -/
structure Pos.Follows (p : Pos) (before : List Char) : Prop where
  offset : p.offset = Text.size before
  line : p.line = 1 + before.count '\n'
  column : ∀ a b, before = a ++ '\n' :: b → '\n' ∉ b → p.column = p.offset - Text.size a
  firstLine : '\n' ∉ before → p.column = p.offset - (-1)

theorem Pos.afterAll_size (p : Pos) (cs : List Char) :
    (p.afterAll cs).offset = p.offset + Text.size cs := by
  induction cs generalizing p with
  | nil => simp
  | cons c cs ih =>
    have first : (p.after c).offset = p.offset + c.utf8Size := by
      unfold Pos.after
      split
      · next newline =>
        rw [newline]
        rfl
      · rfl
    rw [Pos.afterAll_cons, ih, first, Text.size_cons]
    omega

theorem Pos.afterAll_column (p : Pos) {cs : List Char} (h : '\n' ∉ cs) :
    (p.afterAll cs).column = p.column + Text.size cs := by
  induction cs generalizing p with
  | nil => simp
  | cons c cs ih =>
    obtain ⟨first, rest⟩ := List.ne_and_not_mem_of_not_mem_cons h
    rw [Pos.afterAll_cons, ih _ rest, Pos.after, if_neg first.symm, Text.size_cons]
    dsimp only
    omega

theorem Pos.afterAll_follows (cs : List Char) : (Pos.first.afterAll cs).Follows cs := by
  have offset : (Pos.first.afterAll cs).offset = Text.size cs := by
    rw [Pos.afterAll_size]
    exact Int.zero_add _
  refine ⟨offset, Pos.first.afterAll_line cs, ?_, ?_⟩
  · rintro a b rfl flat
    have column : ((Pos.first.afterAll a).after '\n').column = 1 := rfl
    have newline : Text.size ['\n'] = 1 := rfl
    rw [offset, Pos.afterAll_append, Pos.afterAll_cons, Pos.afterAll_column _ flat, column,
      ← List.singleton_append, Text.size_append, Text.size_append, newline]
    omega
  · intro flat
    rw [offset, Pos.afterAll_column _ flat]
    show (1 : Int) + _ = _
    omega

namespace Token

/-! ### Gaps -/

/-- What may stand between tokens: blanks and complete comments. Only in the `last` gap of a text
may a comment to the end of the line go without that end. -/
inductive IsGap (last : Bool) : List Char → Prop where
  | nil : IsGap last []
  | blank {c cs} : c ∈ [' ', '\t', '\r', '\n'] → IsGap last cs → IsGap last (c :: cs)
  | line {text cs} : '\n' ∉ text → IsGap last cs →
      IsGap last ('/' :: '/' :: text ++ '\n' :: cs)
  | lastLine {text} : last = true → '\n' ∉ text → IsGap last ('/' :: '/' :: text)
  | block {text cs} : ¬ ['*', '/'] <:+: text → IsGap last cs →
      IsGap last ('/' :: '*' :: text ++ '*' :: '/' :: cs)

/-- What a gap may go on with, inside of a comment too. -/
def GapMode.Allows (last : Bool) (g : List Char) : GapMode → Prop
  | .blank => IsGap last g
  | .line => (∃ text cs, '\n' ∉ text ∧ IsGap last cs ∧ g = text ++ '\n' :: cs) ∨
      (last = true ∧ '\n' ∉ g)
  | .block _ => ∃ text cs, ¬ ['*', '/'] <:+: text ∧ IsGap last cs ∧ g = text ++ '*' :: '/' :: cs

theorem mem_of_isGapChar {c : Char} (h : isGapChar c = true) : c ∈ [' ', '\t', '\r', '\n'] := by
  simp only [isGapChar, Bool.or_eq_true, beq_iff_eq] at h
  rcases h with ((rfl | rfl) | rfl) | rfl <;> decide

theorem allows_line {last : Bool} {g : List Char} {c : Char} (other : c ≠ '\n')
    (h : GapMode.Allows last g .line) : GapMode.Allows last (c :: g) .line := by
  rcases h with ⟨text, cs, flat, gap, rfl⟩ | ⟨isLast, flat⟩
  · exact .inl ⟨c :: text, cs, List.not_mem_cons_of_ne_of_not_mem other.symm flat, gap, rfl⟩
  · exact .inr ⟨isLast, List.not_mem_cons_of_ne_of_not_mem other.symm flat⟩

theorem allows_block {last : Bool} {g rest : List Char} {c : Char} {start : Pos}
    (open_ : ∀ cs, c = '*' → g ++ rest ≠ '/' :: cs) (h : GapMode.Allows last g (.block start)) :
    GapMode.Allows last (c :: g) (.block start) := by
  obtain ⟨text, cs, unclosed, gap, rfl⟩ := h
  refine ⟨c :: text, cs, fun closed => ?_, gap, rfl⟩
  rcases List.infix_cons_iff.mp closed with ⟨tail, same⟩ | inside
  · obtain ⟨star, rfl⟩ := List.cons.inj same
    exact open_ _ star.symm rfl
  · exact unclosed inside

theorem gap_cut {mode : GapMode} {pos pos' : Pos} {cs rest : List Char}
    (h : gap mode pos cs = .ok (pos', rest)) :
    ∃ g, cs = g ++ rest ∧ pos' = pos.afterAll g ∧ mode.Allows rest.isEmpty g := by
  fun_induction gap mode pos cs with
  | case1 pos =>
    cases h
    exact ⟨[], rfl, rfl, .nil⟩
  | case2 pos cs ih =>
    obtain ⟨g, rfl, rfl, comment⟩ := ih h
    refine ⟨'/' :: '/' :: g, rfl, rfl, ?_⟩
    rcases comment with ⟨text, cs, flat, gap, rfl⟩ | ⟨isLast, flat⟩
    · exact .line flat gap
    · exact .lastLine isLast flat
  | case3 pos cs ih =>
    obtain ⟨g, rfl, rfl, text, cs, unclosed, gap, rfl⟩ := ih h
    exact ⟨_, rfl, rfl, .block unclosed gap⟩
  | case4 pos c cs _ _ blank ih =>
    obtain ⟨g, rfl, rfl, gap⟩ := ih h
    exact ⟨c :: g, rfl, rfl, .blank (mem_of_isGapChar blank) gap⟩
  | case5 pos c cs =>
    cases h
    exact ⟨[], rfl, rfl, .nil⟩
  | case6 pos =>
    cases h
    exact ⟨[], rfl, rfl, .inr ⟨rfl, List.not_mem_nil⟩⟩
  | case7 pos cs ih =>
    obtain ⟨g, rfl, rfl, gap⟩ := ih h
    exact ⟨'\n' :: g, rfl, rfl, .inl ⟨[], g, List.not_mem_nil, gap, rfl⟩⟩
  | case8 pos c cs other ih =>
    obtain ⟨g, rfl, rfl, comment⟩ := ih h
    exact ⟨c :: g, rfl, rfl, allows_line other comment⟩
  | case9 start pos => cases h
  | case10 start pos cs ih =>
    obtain ⟨g, rfl, rfl, gap⟩ := ih h
    exact ⟨'*' :: '/' :: g, rfl, rfl, [], g, by simp, gap, rfl⟩
  | case11 start pos c cs open_ ih =>
    obtain ⟨g, rfl, rfl, comment⟩ := ih h
    exact ⟨c :: g, rfl, rfl, allows_block open_ comment⟩

/-! ### Extents -/

/-- The text that a token takes: its literal, and the braces around it if it was captured. -/
def extent (t : Token) : List Char :=
  match t.kind with
  | .raw => '\x7b' :: t.literal.toList ++ ['\x7d']
  | _ => t.literal.toList

theorem captured_closes {depth n : Nat} {cs : List Char} (h : captured depth cs = some n) :
    ∃ inner rest, cs = inner ++ '\x7d' :: rest ∧ inner.length = n := by
  have longer {c : Char} {cs : List Char} {found : Option Nat}
      (ih : ∀ {n}, found = some n → ∃ inner rest, cs = inner ++ '\x7d' :: rest ∧ inner.length = n)
      {n : Nat} (h : found.map (· + 1) = some n) :
      ∃ inner rest, c :: cs = inner ++ '\x7d' :: rest ∧ inner.length = n := by
    obtain ⟨m, found, rfl⟩ := Option.map_eq_some_iff.mp h
    obtain ⟨inner, rest, rfl, rfl⟩ := ih found
    exact ⟨c :: inner, rest, rfl, rfl⟩
  fun_induction captured depth cs generalizing n with
  | case1 depth => cases h
  | case2 depth cs ih => exact longer (fun found => ih found) h
  | case3 cs _ =>
    cases h
    exact ⟨[], cs, rfl, rfl⟩
  | case4 cs _ =>
    cases h
    exact ⟨[], cs, rfl, rfl⟩
  | case5 cs d _ _ ih => exact longer (fun found => ih found) h
  | case6 depth c cs _ _ ih => exact longer (fun found => ih found) h

/-- Only a captured block has a fence, and no text is an end mark. -/
theorem lexeme_cases {prev : Kind} {c : Char} {cs : List Char} {l : Lexeme}
    (h : lexeme prev c cs = .ok l) :
    (c = '\x7b' ∧ ∃ n, captured 1 cs = some n ∧ l = ⟨.raw, n + 1, 1⟩) ∨
      (l.kind ≠ .raw ∧ l.kind ≠ .eof) := by
  have number {sign : Nat} (h : numberLexeme prev sign (c :: cs) = .ok l) :
      l.kind ≠ .raw ∧ l.kind ≠ .eof := by
    unfold numberLexeme at h
    dsimp only at h
    split at h
    · cases h
      exact ⟨nofun, nofun⟩
    · cases h
  unfold lexeme at h
  split at h
  · next inject =>
    simp only [Bool.and_eq_true, decide_eq_true_eq] at inject
    split at h
    · next n closed =>
      cases h
      exact .inl ⟨inject.2, n, closed, rfl⟩
    · cases h
  · right
    split at h
    · exact number h
    · split at h
      · split at h <;> cases h
        exact ⟨nofun, nofun⟩
      · split at h
        · split at h <;> cases h
          exact ⟨nofun, nofun⟩
        · split at h
          · cases h
            exact ⟨ofWord_ne _ rfl nofun, ofWord_ne _ rfl nofun⟩
          · split at h
            · exact number h
            · split at h <;> cases h
              exact ⟨nofun, nofun⟩

theorem lexeme_extent {prev : Kind} {c : Char} {cs : List Char} {l : Lexeme}
    (h : lexeme prev c cs = .ok l) (start : Pos) :
    let literal := ((l.text c cs).drop l.fence).take ((l.text c cs).length - 2 * l.fence)
    l.kind ≠ .eof ∧ extent ⟨l.kind, String.ofList literal, start⟩ = l.text c cs := by
  rcases lexeme_cases h with ⟨rfl, n, closed, rfl⟩ | ⟨plain, kind⟩
  · obtain ⟨inner, rest, rfl, rfl⟩ := captured_closes closed
    refine ⟨nofun, ?_⟩
    simp [extent, Lexeme.text, List.take_append, List.take_of_length_le]
  · refine ⟨kind, ?_⟩
    have fence := (lexeme_fits h).fence plain
    simp only [fence, extent, List.drop_zero, Nat.mul_zero, Nat.sub_zero, List.take_length,
      String.toList_ofList]

/-! ### Texts -/

/-- A text that stands behind `before`, taken apart into gaps and tokens. -/
inductive Cut : List Char → List Char → List Token → Prop where
  | stop {before gap : List Char} {pos : Pos} : IsGap true gap → pos.Follows (before ++ gap) →
      Cut before gap [⟨.eof, "", pos⟩]
  | token {before gap rest : List Char} {t : Token} {ts : List Token} : IsGap false gap →
      t.kind ≠ .eof → t.extent ≠ [] → t.pos.Follows (before ++ gap) →
      Cut (before ++ gap ++ t.extent) rest ts → Cut before (gap ++ t.extent ++ rest) (t :: ts)

theorem scanFrom_cut (prev : Kind) (pos : Pos) (cs : List Char) :
    ∀ {before stop}, pos = Pos.first.afterAll before → (scanFrom prev pos cs).stop = .ok stop →
      Cut before cs ((scanFrom prev pos cs).tokens ++ [⟨.eof, "", stop⟩]) := by
  fun_induction scanFrom prev pos cs with
  | case1 prev pos cs e failed => rintro before stop - ⟨⟩
  | case2 prev pos cs start found =>
    rintro before stop rfl ⟨⟩
    obtain ⟨g, rfl, rfl, gap⟩ := gap_cut found
    rw [← Pos.afterAll_append, List.append_nil]
    exact .stop gap (Pos.afterAll_follows _)
  | case3 prev pos cs start c rest found cause bad => rintro before stop - ⟨⟩
  | case4 prev pos cs start c rest found l good =>
    rename_i text literal ih
    rintro before stop rfl ends
    obtain ⟨g, rfl, rfl, gap⟩ := gap_cut found
    obtain ⟨kind, extent⟩ := lexeme_extent good ((Pos.first.afterAll before).afterAll g)
    have place : (Pos.first.afterAll before).afterAll g = Pos.first.afterAll (before ++ g) :=
      (Pos.afterAll_append _ _ _).symm
    have tail := @ih (before ++ g ++ text) stop
      (by rw [place, Pos.afterAll_append _ (before ++ g)]) ends
    have whole : g ++ c :: rest = g ++ text ++ rest.drop l.more := by
      rw [List.append_assoc, List.cons_append, List.take_append_drop]
    rw [whole, show text = _ from extent.symm]
    refine .token gap kind ?_ ?_ ?_
    · rw [extent]
      exact List.cons_ne_nil _ _
    · rw [place]
      exact Pos.afterAll_follows _
    · rw [extent]
      exact tail

/-! ### What a cut tells -/

section Cut

variable {before cs : List Char} {ts : List Token}

theorem Cut.ends (h : Cut before cs ts) : ∃ (front : List Token) (stop : Pos),
    ts = front ++ [⟨.eof, "", stop⟩] ∧ (∀ t ∈ front, t.kind ≠ .eof) ∧
      stop.offset = Text.size (before ++ cs) := by
  induction h with
  | stop gap place =>
    exact ⟨[], _, rfl, fun _ member => absurd member List.not_mem_nil, place.offset⟩
  | @token before gap rest t ts _ kind _ _ _ ih =>
    obtain ⟨front, stop, rfl, plain, last⟩ := ih
    refine ⟨t :: front, stop, rfl, List.forall_mem_cons.mpr ⟨kind, plain⟩, ?_⟩
    simpa only [List.append_assoc] using last

theorem Cut.placed (h : Cut before cs ts) : ∀ t ∈ ts, ∃ front back,
    before ++ cs = front ++ t.extent ++ back ∧ t.pos.Follows front := by
  induction h with
  | @stop before gap pos _ place =>
    refine List.forall_mem_singleton.mpr ⟨before ++ gap, [], ?_, place⟩
    simp only [extent, String.toList_empty, List.append_nil]
  | @token before gap rest t ts _ _ _ place _ ih =>
    refine List.forall_mem_cons.mpr ⟨⟨before ++ gap, rest, ?_, place⟩, fun u member => ?_⟩
    · simp only [List.append_assoc]
    · simpa only [List.append_assoc] using ih u member

theorem Cut.behind (h : Cut before cs ts) : ∀ t ∈ ts, Text.size before ≤ t.pos.offset := by
  induction h with
  | stop _ place =>
    refine List.forall_mem_singleton.mpr ?_
    rw [place.offset, Text.size_append]
    omega
  | token _ _ _ place _ ih =>
    refine List.forall_mem_cons.mpr ⟨?_, fun u member => ?_⟩
    · rw [place.offset, Text.size_append]
      omega
    · have later := ih u member
      simp only [Text.size_append] at later
      omega

theorem Cut.ordered (h : Cut before cs ts) : ts.Pairwise fun (t u : Token) =>
    t.pos.offset < u.pos.offset ∧ t.pos.offset + Text.size t.extent ≤ u.pos.offset := by
  induction h with
  | stop => exact List.pairwise_singleton _ _
  | token _ _ some place tail ih =>
    refine List.pairwise_cons.mpr ⟨fun u member => ?_, ih⟩
    have later := tail.behind u member
    have taken := Text.size_pos some
    rw [Text.size_append] at later
    rw [place.offset]
    omega

theorem Cut.leading (h : Cut before cs ts) : ∃ t rest gap back, ts = t :: rest ∧
    cs = gap ++ back ∧ IsGap (t.kind == .eof) gap ∧ t.pos.offset = Text.size (before ++ gap) := by
  cases h with
  | stop gap place => exact ⟨_, [], cs, [], rfl, (List.append_nil cs).symm, gap, place.offset⟩
  | @token _ gap rest t ts isGap kind _ place =>
    refine ⟨t, ts, gap, t.extent ++ rest, rfl, List.append_assoc .., ?_, place.offset⟩
    rw [beq_eq_false_iff_ne.mpr kind]
    exact isGap

theorem Cut.between (h : Cut before cs ts) : ∀ front (t u : Token) back,
    ts = front ++ t :: u :: back → ∃ head gap tail,
      before ++ cs = head ++ t.extent ++ gap ++ tail ∧ IsGap (u.kind == .eof) gap ∧
      t.pos.offset = Text.size head ∧ u.pos.offset = Text.size (head ++ t.extent ++ gap) := by
  induction h with
  | stop =>
    intro front t u back same
    have := congrArg List.length same
    simp only [List.length_append, List.length_cons, List.length_nil] at this
    omega
  | @token before gap rest t ts _ _ _ place tail ih =>
    rintro (_ | ⟨first, front⟩) t' u back same
    · obtain ⟨rfl, rfl⟩ := List.cons.inj same
      obtain ⟨u', _, gap', back', same, rfl, isGap, place'⟩ := tail.leading
      obtain ⟨rfl, rfl⟩ := List.cons.inj same
      refine ⟨before ++ gap, gap', back', ?_, isGap, place.offset, place'⟩
      simp only [List.append_assoc]
    · obtain ⟨rfl, rfl⟩ := List.cons.inj same
      simpa only [List.append_assoc] using ih front t' u back rfl

end Cut

/-- What the tokens of a text tell about it. -/
structure Covers (src : List Char) (ts : List Token) : Prop where
  ends : ∃ (front : List Token) (stop : Pos),
    ts = front ++ [⟨.eof, "", stop⟩] ∧ (∀ t ∈ front, t.kind ≠ .eof) ∧
    stop.offset = Text.size src
  ordered : ts.Pairwise fun (t u : Token) =>
    t.pos.offset < u.pos.offset ∧ t.pos.offset + Text.size t.extent ≤ u.pos.offset
  placed : ∀ t ∈ ts, ∃ before after, src = before ++ t.extent ++ after ∧ t.pos.Follows before
  leading : ∃ t rest gap after, ts = t :: rest ∧ src = gap ++ after ∧
    IsGap (t.kind == .eof) gap ∧ t.pos.offset = Text.size gap
  between : ∀ front (t u : Token) back, ts = front ++ t :: u :: back → ∃ before gap after,
    src = before ++ t.extent ++ gap ++ after ∧ IsGap (u.kind == .eof) gap ∧
      t.pos.offset = Text.size before ∧ u.pos.offset = Text.size (before ++ t.extent ++ gap)

theorem scan_ok {src : String} {ts : List Token} (h : scan src = .ok ts) :
    ∃ stop, (stream src).stop = .ok stop ∧ ts = (stream src).tokens ++ [⟨.eof, "", stop⟩] := by
  unfold scan at h
  cases stop : (stream src).stop with
  | error e => simp [stop, Except.map] at h
  | ok pos =>
    simp only [stop, Except.map] at h
    exact ⟨pos, rfl, (Except.ok.inj h).symm⟩

/-- The tokens of a text cover it: they stand in order where their places say, with nothing but
blanks and comments in between, and the end mark stands at its end. -/
theorem scan_covers {src : String} {ts : List Token} (h : scan src = .ok ts) :
    Covers src.toList ts := by
  obtain ⟨stop, ends, rfl⟩ : ∃ stop, (stream src).stop = .ok stop ∧
      (stream src).tokens ++ [⟨.eof, "", stop⟩] = ts := by
    unfold scan at h
    cases stop : (stream src).stop with
    | error e => simp [stop, Except.map] at h
    | ok pos =>
      simp only [stop, Except.map] at h
      exact ⟨pos, rfl, Except.ok.inj h⟩
  have cut := @scanFrom_cut .eof .first src.toList [] stop rfl ends
  exact ⟨cut.ends, cut.ordered, cut.placed, cut.leading, cut.between⟩

/-- Captured braces, an escaped line end and both kinds of comments. -/
theorem scan_covers_capture :
    let src := "f(-1) // one\n  inject \x7b a\x7b\n\x7d \x7d /* é */ \"x\\\ny\"; // end"
    ∃ ts, scan src = .ok ts ∧ ts.length = 9 ∧ Covers src.toList ts := by
  intro src
  have computed : (scan src).toOption.any (·.length == 9) = true := by
    rw [scan, stream_ofList]
    decide +kernel
  obtain ⟨ts, found, length⟩ := (Option.any_eq_true _ _).mp computed
  have done := toOption_eq_some found
  exact ⟨ts, done, beq_iff_eq.mp length, scan_covers done⟩

end Token

end TastyLang
