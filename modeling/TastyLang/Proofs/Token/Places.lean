import TastyLang.Compilation.Basic
import TastyLang.Proofs.Token.Extents

/-!
# Places in a text

The places that cutting a text into tokens gives out, also those of its error, stand behind some
characters of the text (`Pos.IsIn`), so that the line of a place is the line that a diagnostic shows
(`Diagnostic.withSource_line`).
-/

namespace TastyLang

/-- A place behind some characters of a text. -/
def Pos.IsIn (p : Pos) (src : List Char) : Prop :=
  ∃ before after, src = before ++ after ∧ p = Pos.first.afterAll before

theorem Pos.IsIn.follows {p : Pos} {src : List Char} (h : p.IsIn src) :
    ∃ before after, src = before ++ after ∧ p.Follows before := by
  obtain ⟨before, after, split, rfl⟩ := h
  exact ⟨before, after, split, Pos.afterAll_follows before⟩

/-! ### Lines -/

/-- The line of a text that goes on with `after` behind `before`. -/
def Text.lineAt (before after : List Char) : List Char :=
  (before.reverse.takeWhile (· ≠ '\n')).reverse ++ after.takeWhile (· ≠ '\n')

theorem Text.head?_cutChars (sep : Char) (cs : List Char) :
    (cutChars sep cs).head? = some (cs.takeWhile (· ≠ sep)) := by
  induction cs with
  | nil => rfl
  | cons c cs ih =>
    rw [cutChars]
    split
    · next same => simp [same]
    · next other =>
      split
      · next none => exact absurd none (cutChars_ne_nil sep cs)
      · next piece rest cut =>
        rw [cut] at ih
        rw [List.takeWhile_cons_of_pos (by simpa using other), List.head?_cons,
          Option.some.inj ih]

theorem Text.lineAt_of_mem {c : Char} {before : List Char} (h : c = '\n' ∨ '\n' ∈ before)
    (after : List Char) : lineAt (c :: before) after = lineAt before after := by
  unfold lineAt
  by_cases flat : '\n' ∈ before
  · rw [List.reverse_cons, List.takeWhile_append, if_neg]
    intro all
    have same := (List.takeWhile_prefix (· ≠ '\n')).eq_of_length all
    have holds := List.all_eq_true.mp List.all_takeWhile '\n'
      (same ▸ List.mem_reverse.mpr flat)
    exact absurd holds (by decide)
  · rw [h.resolve_right flat, List.reverse_cons, List.takeWhile_append]
    split
    · next all =>
      rw [(List.takeWhile_prefix (· ≠ '\n')).eq_of_length all]
      simp
    · rfl

theorem Text.lineAt_of_not_mem {c : Char} {before : List Char} (plain : c ≠ '\n')
    (flat : '\n' ∉ before) (after : List Char) :
    lineAt (c :: before) after = c :: lineAt before after := by
  have all : ∀ b ∈ before.reverse, decide (b ≠ '\n') = true := fun b member =>
    decide_eq_true fun newline => flat (newline ▸ List.mem_reverse.mp member)
  unfold lineAt
  rw [List.reverse_cons, List.takeWhile_append_of_pos all, List.takeWhile_cons_of_pos (by simpa),
    ← List.append_nil before.reverse, List.takeWhile_append_of_pos all]
  simp

theorem Text.cutChars_lineAt (before after : List Char) :
    (cutChars '\n' (before ++ after))[before.count '\n']? = some (lineAt before after) := by
  induction before with
  | nil => rw [List.count_nil, List.nil_append, ← List.head?_eq_getElem?, head?_cutChars]; rfl
  | cons c before ih =>
    rw [List.cons_append, cutChars, List.count_cons]
    split
    · next newline => simpa [newline, lineAt_of_mem (.inl rfl)] using ih
    · next plain =>
      rw [beq_eq_false_iff_ne.mpr plain]
      cases cut : cutChars '\n' (before ++ after) with
      | nil => exact absurd cut (cutChars_ne_nil _ _)
      | cons piece rest =>
        rw [cut] at ih
        cases lines : before.count '\n' with
        | zero =>
          rw [lines] at ih
          rw [lineAt_of_not_mem plain (List.count_eq_zero.mp lines)]
          exact congrArg (fun l => some (c :: l)) (Option.some.inj ih)
        | succ n =>
          rw [lines] at ih
          have more : '\n' ∈ before := List.count_pos_iff.mp (by omega)
          rw [lineAt_of_mem (.inr more)]
          exact ih

theorem Diagnostic.withSource_line {d : Diagnostic} {src : String} {before after : List Char}
    (split : src.toList = before ++ after) (place : d.pos = Pos.first.afterAll before) :
    (d.withSource src).line =
      String.ofList (Text.dropLastWhile (· = '\r') (Text.lineAt before after)) := by
  have line : d.pos.line = 1 + before.count '\n' := place ▸ Pos.first.afterAll_line before
  have known : d.pos.isSet = true := by
    rw [Pos.isSet, line, decide_eq_true_eq]
    omega
  have number : (d.pos.line - 1).toNat = before.count '\n' := by omega
  rw [withSource, if_pos known, number, split, Text.cutChars_lineAt]

namespace Token

/-! ### Scanning -/

theorem gap_error {mode : GapMode} {pos : Pos} {cs : List Char} {e : ScanError}
    (h : gap mode pos cs = .error e) :
    mode = .block e.pos ∨ ∃ g rest, cs = g ++ rest ∧ e.pos = pos.afterAll g := by
  -- what a step skips is in front of the place
  have skip {skipped cs : List Char} {pos : Pos} :
      (∃ g rest, cs = g ++ rest ∧ e.pos = (pos.afterAll skipped).afterAll g) →
        ∃ g rest, skipped ++ cs = g ++ rest ∧ e.pos = pos.afterAll g := by
    rintro ⟨g, rest, rfl, place⟩
    exact ⟨skipped ++ g, rest, (List.append_assoc ..).symm,
      place.trans (Pos.afterAll_append ..).symm⟩
  fun_induction gap mode pos cs with
  | case1 pos => cases h
  | case2 pos cs ih => exact .inr (skip ((ih h).resolve_left (by rintro ⟨⟩)))
  | case3 pos cs ih =>
    rcases ih h with start | inside
    · exact .inr ⟨[], _, rfl, (GapMode.block.inj start).symm⟩
    · exact .inr (skip inside)
  | case4 pos c cs _ _ _ ih =>
    exact .inr (@skip [c] cs pos ((ih h).resolve_left (by rintro ⟨⟩)))
  | case5 pos c cs => cases h
  | case6 pos => cases h
  | case7 pos cs ih => exact .inr (@skip ['\n'] cs pos ((ih h).resolve_left (by rintro ⟨⟩)))
  | case8 pos c cs _ ih => exact .inr (@skip [c] cs pos ((ih h).resolve_left (by rintro ⟨⟩)))
  | case9 start pos =>
    cases h
    exact .inl rfl
  | case10 start pos cs ih => exact .inr (skip ((ih h).resolve_left (by rintro ⟨⟩)))
  | case11 start pos c cs _ ih => exact (ih h).imp id (@skip [c] cs pos)

theorem not_isBlank_of_isWordChar {c : Char} (h : isWordChar c = true) : Text.isBlank c = false := by
  have range : 0x30 ≤ c.toNat ∧ c.toNat ≤ 0x7A := by
    simp only [isWordChar, isWordStart, Text.isDigit, Bool.or_eq_true, Bool.and_eq_true,
      decide_eq_true_eq, beq_iff_eq, Char.le_def, UInt32.le_iff_toNat_le] at h
    rcases h with ((h | h) | rfl) | h
    · exact ⟨Nat.le_trans (by decide) h.1, h.2⟩
    · exact ⟨Nat.le_trans (by decide) h.1, Nat.le_trans h.2 (by decide)⟩
    · decide
    · exact ⟨h.1, Nat.le_trans h.2 (by decide)⟩
  simp only [Text.isBlank, Bool.or_eq_false_iff, Bool.and_eq_false_iff, decide_eq_false_iff_not,
    beq_eq_false_iff_ne]
  omega

theorem lexeme_visible {prev : Kind} {c : Char} {cs : List Char} {l : Lexeme}
    (h : lexeme prev c cs = .ok l) : Text.isBlank c = false := by
  have symbols : ∀ o : Operator, o.symbol.toList.all (Text.isBlank · == false) = true := by
    intro o
    cases o <;> decide
  unfold lexeme at h
  split at h
  · next brace =>
    simp only [Bool.and_eq_true, decide_eq_true_eq] at brace
    exact brace.2 ▸ rfl
  · split at h
    · next minus =>
      simp only [Bool.and_eq_true, decide_eq_true_eq] at minus
      exact minus.1.1 ▸ rfl
    · split at h
      · next quote => exact quote ▸ rfl
      · split at h
        · next quote => exact quote ▸ rfl
        · split at h
          · next word => exact not_isBlank_of_isWordChar (by simp [isWordChar, word])
          · split at h
            · next digit => exact not_isBlank_of_isWordChar (by simp [isWordChar, digit])
            · split at h
              · next o found =>
                have first := List.all_eq_true.mp (symbols o) c
                  (operatorAt?_text found ▸ List.mem_cons_self)
                exact beq_iff_eq.mp first
              · cases h

/-- A token other than the end mark stands in a text, where no white space is, and so does what is
behind the first character of an operator. -/
structure Stands (src : List Char) (t : Token) : Prop where
  mark : t.kind ≠ .eof
  front : ∃ before c after, src = before ++ c :: after ∧ t.pos = Pos.first.afterAll before ∧
    Text.isBlank c = false
  second : ∀ o, t.kind = .op o → (t.pos.shift 1).IsIn src

theorem Stands.start {src : List Char} {t : Token} (h : t.Stands src) : t.pos.IsIn src := by
  obtain ⟨before, c, after, split, place, -⟩ := h.front
  exact ⟨before, c :: after, split, place⟩

theorem shift_after {p : Pos} {c : Char} (narrow : c.utf8Size = 1) (plain : c ≠ '\n') :
    p.after c = p.shift 1 := by
  rw [Pos.after, if_neg plain, narrow]
  rfl

theorem symbol_narrow (o : Operator) :
    ∀ c ∈ o.symbol.toList, c.utf8Size = 1 ∧ c ≠ '\n' := by
  have all : (o.symbol.toList.all fun c => c.utf8Size == 1 && c != '\n') = true := by
    cases o <;> decide
  intro c member
  simpa using List.all_eq_true.mp all c member

/-- All places that cutting a text gives out are places in it. -/
theorem scanFrom_stands (prev : Kind) (pos : Pos) (cs : List Char) :
    ∀ before, pos = Pos.first.afterAll before →
      (∀ t ∈ (scanFrom prev pos cs).tokens, t.Stands (before ++ cs)) ∧
        (scanFrom prev pos cs).stopPos.IsIn (before ++ cs) := by
  fun_induction scanFrom prev pos cs with
  | case1 prev pos cs e failed =>
    rintro before rfl
    obtain ⟨g, rest, rfl, place⟩ := (gap_error failed).resolve_left (by rintro ⟨⟩)
    exact ⟨List.forall_mem_nil _, before ++ g, rest, (List.append_assoc ..).symm,
      place.trans (Pos.afterAll_append ..).symm⟩
  | case2 prev pos cs start found =>
    rintro before rfl
    obtain ⟨g, rfl, rfl, -⟩ := gap_cut found
    exact ⟨List.forall_mem_nil _, before ++ g, [], (List.append_assoc ..).symm, (Pos.afterAll_append ..).symm⟩
  | case3 prev pos cs start c rest found cause bad =>
    rintro before rfl
    obtain ⟨g, rfl, rfl, -⟩ := gap_cut found
    exact ⟨List.forall_mem_nil _, before ++ g, c :: rest, (List.append_assoc ..).symm,
      (Pos.afterAll_append ..).symm⟩
  | case4 prev pos cs start c rest found l good =>
    rename_i text literal ih
    rintro before rfl
    obtain ⟨g, rfl, rfl, -⟩ := gap_cut found
    have place : (Pos.first.afterAll before).afterAll g = Pos.first.afterAll (before ++ g) :=
      (Pos.afterAll_append _ _ _).symm
    have whole : before ++ (g ++ c :: rest) = before ++ g ++ text ++ rest.drop l.more := by
      rw [List.append_assoc (before ++ g), List.cons_append, List.take_append_drop,
        List.append_assoc]
    obtain ⟨tokens, stop⟩ := ih (before ++ g ++ text)
      (by rw [place, Pos.afterAll_append _ (before ++ g)])
    rw [whole]
    refine ⟨List.forall_mem_cons.mpr
      ⟨⟨(lexeme_extent good .first).1, ?_, fun o same => ?_⟩, tokens⟩, stop⟩
    · exact ⟨before ++ g, c, rest.take l.more ++ rest.drop l.more, List.append_assoc .., place,
        lexeme_visible good⟩
    · -- the first character of the operator has one byte
      have symbol : text = o.symbol.toList := (lexeme_fits good).symbol o same
      obtain ⟨narrow, plain⟩ := symbol_narrow o c (symbol ▸ List.mem_cons_self)
      refine ⟨before ++ g ++ [c], rest.take l.more ++ rest.drop l.more, ?_, ?_⟩
      · simp only [text, List.append_assoc, List.cons_append, List.nil_append]
      · rw [Pos.afterAll_append, ← place]
        exact (shift_after narrow plain).symm

theorem stream_stands (src : String) :
    (∀ t ∈ (stream src).tokens, t.Stands src.toList) ∧ (stream src).stopPos.IsIn src.toList :=
  scanFrom_stands .eof .first src.toList [] rfl

theorem Ordered.before {stop : Pos} {ts : List Token} (h : Ordered stop ts) :
    ∀ t ∈ ts, t.Before stop ∧ t.Sound := by
  induction ts with
  | nil => exact List.forall_mem_nil _
  | cons t ts ih =>
    obtain ⟨sound, before, rest⟩ := h
    refine List.forall_mem_cons.mpr ⟨⟨?_, sound⟩, ih rest⟩
    cases ts with
    | nil => exact before
    | cons u us =>
      have later := ((ih rest) u List.mem_cons_self).1
      have start : t.pos.offset < u.pos.offset := before.start
      have stop : t.pos.offset + t.literal.length ≤ u.pos.offset := before.stop
      have line : t.pos.line + Text.breaks t.literal ≤ u.pos.line := before.line
      have := later.start
      have := later.line
      exact ⟨by omega, by omega, by omega⟩

end Token

end TastyLang
