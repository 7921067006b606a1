import TastyLang.Text.Quoted
import Mathlib.Tactic.SplitIfs

/-!
# Texts and the literals that spell them

What stands between double quotes spells bytes (`Spells`): escapes give some, every other character
gives its own. Literals can be put together, and cut at brackets, which no escape has in it. Bytes of
characters are read back as these characters (`decodeUtf8_flatMap`), and can be cut at the plain ones.
-/

namespace TastyLang.Text

/-! ### Bytes of characters -/

theorem toNat_lt (c : Char) : c.toNat < 0x110000 := by
  rcases c.valid with small | ⟨-, small⟩
  · exact Nat.lt_trans small (by decide)
  · exact small

theorem utf8Bytes_cases (c : Char) :
    c.toNat < 0x80 ∧ utf8Bytes c = [c.toNat] ∨
    (0x80 ≤ c.toNat ∧ c.toNat < 0x800) ∧
      utf8Bytes c = [0xC0 + c.toNat / 0x40, 0x80 + c.toNat % 0x40] ∨
    (0x800 ≤ c.toNat ∧ c.toNat < 0x10000) ∧
      utf8Bytes c = [0xE0 + c.toNat / 0x1000, 0x80 + c.toNat / 0x40 % 0x40, 0x80 + c.toNat % 0x40] ∨
    0x10000 ≤ c.toNat ∧
      utf8Bytes c = [0xF0 + c.toNat / 0x40000, 0x80 + c.toNat / 0x1000 % 0x40,
        0x80 + c.toNat / 0x40 % 0x40, 0x80 + c.toNat % 0x40] := by
  have small : c.val.toNat < 0x110000 := toNat_lt c
  unfold utf8Bytes String.utf8EncodeChar Char.toNat
  dsimp only
  generalize c.val.toNat = n at small
  split_ifs with one two three
  · refine .inl ⟨by omega, ?_⟩
    simp
    omega
  · refine .inr (.inl ⟨by omega, ?_⟩)
    simp
    omega
  · refine .inr (.inr (.inl ⟨by omega, ?_⟩))
    simp
    omega
  · refine .inr (.inr (.inr ⟨by omega, ?_⟩))
    simp
    omega

theorem decoded_toNat {low : Nat} {c : Char} (enough : low ≤ c.toNat) :
    decoded low c.toNat = some c := by
  have valid : ¬ (0xD800 ≤ c.toNat ∧ c.toNat < 0xE000) := by
    rcases c.valid with small | ⟨big, -⟩
    · exact fun inside => absurd inside.1 (Nat.not_le_of_lt small)
    · exact fun inside => absurd inside.2 (Nat.not_lt_of_le (Nat.succ_le_of_lt big))
  rw [decoded, if_pos, Char.ofNat_toNat]
  simp only [Bool.and_eq_true, decide_eq_true_eq, Bool.not_eq_true', Bool.and_eq_false_iff,
    decide_eq_false_iff_not]
  exact ⟨⟨enough, toNat_lt c⟩, Decidable.not_and_iff_or_not.mp valid⟩

theorem isTrailByte_mod (n : Nat) : isTrailByte (0x80 + n % 0x40) = true := by
  simp only [isTrailByte, Bool.and_eq_true, decide_eq_true_eq]
  omega

theorem utf8Bytes_read (c : Char) : ∃ a trail, utf8Bytes c = a :: trail ∧
    (∀ b ∈ trail, 0x80 ≤ b) ∧ (a < 0x80 → trail = [] ∧ Char.ofNat a = c) ∧
    ∀ rest, decodeOne a (trail ++ rest) = (c, trail.length) := by
  have trails : ∀ n, 0x80 ≤ 0x80 + n % 0x40 := fun n => Nat.le_add_right _ _
  rcases utf8Bytes_cases c with ⟨range, same⟩ | ⟨range, same⟩ | ⟨range, same⟩ | ⟨range, same⟩
  · refine ⟨_, _, same, by simp, fun _ => ⟨rfl, Char.ofNat_toNat c⟩, fun rest => ?_⟩
    simp [decodeOne, range, Char.ofNat_toNat]
  · refine ⟨_, _, same, by simp [trails], fun small => by omega, fun rest => ?_⟩
    have code : (0xC0 + c.toNat / 0x40 - 0xC0) * 0x40 + (0x80 + c.toNat % 0x40 - 0x80) = c.toNat := by
      omega
    dsimp only [decodeOne, List.cons_append]
    rw [if_neg (by omega), isTrailByte_mod, if_neg (by decide), if_pos (by simp; omega), code,
      decoded_toNat range.1]
    rfl
  · refine ⟨_, _, same, by simp [trails], fun small => by omega, fun rest => ?_⟩
    have code : (0xE0 + c.toNat / 0x1000 - 0xE0) * 0x1000 + ((0x80 + c.toNat / 0x40 % 0x40 - 0x80) * 0x40 +
        (0x80 + c.toNat % 0x40 - 0x80)) = c.toNat := by
      omega
    dsimp only [decodeOne, List.cons_append]
    rw [if_neg (by omega), isTrailByte_mod, if_neg (by decide), if_neg (by simp), isTrailByte_mod,
      if_neg (by decide), if_pos (by simp; omega), code, decoded_toNat range.1]
    rfl
  · have small := toNat_lt c
    refine ⟨_, _, same, by simp [trails], fun small => by omega, fun rest => ?_⟩
    have code : (0xF0 + c.toNat / 0x40000 - 0xF0) * 0x40000 +
        ((0x80 + c.toNat / 0x1000 % 0x40 - 0x80) * 0x40 + (0x80 + c.toNat / 0x40 % 0x40 - 0x80)) * 0x40 +
        (0x80 + c.toNat % 0x40 - 0x80) = c.toNat := by
      omega
    dsimp only [decodeOne, List.cons_append]
    rw [if_neg (by omega), isTrailByte_mod, if_neg (by decide), if_neg (by simp; omega), isTrailByte_mod,
      if_neg (by decide), if_neg (by simp), isTrailByte_mod, if_pos (by simp; omega), code,
      decoded_toNat range]
    rfl

variable {cs : List Char} {n : Nat}

theorem go_flatMap (i : Nat) (enough : (cs.flatMap utf8Bytes).length ≤ n) :
    (placed.go n i (cs.flatMap utf8Bytes)).map (·.2) = cs := by
  induction cs generalizing n i with
  | nil => cases n <;> rfl
  | cons c cs ih =>
    obtain ⟨a, trail, same, -, -, read⟩ := utf8Bytes_read c
    rw [List.flatMap_cons, same, List.cons_append] at enough ⊢
    cases n with
    | zero => cases enough
    | succ n =>
      simp only [List.length_cons, List.length_append] at enough
      rw [placed.go, read]
      dsimp only
      rw [List.drop_left, List.map_cons, ih _ (by omega)]

theorem decodeUtf8_flatMap (cs : List Char) : decodeUtf8 (cs.flatMap utf8Bytes) = cs :=
  go_flatMap 0 (Nat.le_refl _)

theorem cut_past {α : Type} {c : α} {as bs cs ds : List α} (free : c ∉ as)
    (same : as ++ bs = cs ++ c :: ds) : ∃ more, cs = as ++ more ∧ bs = more ++ c :: ds := by
  rcases List.append_eq_append_iff.mp same with ⟨more, rfl, rest⟩ | ⟨more, rfl, rest⟩
  · exact ⟨more, rfl, rest⟩
  · cases more with
    | nil => exact ⟨[], by simp, rest.symm⟩
    | cons d more =>
      obtain ⟨rfl, -⟩ := List.cons.inj rest
      exact absurd (by simp) free

theorem flatMap_cut (plain : n < 0x80) {as bs : List Nat}
    (same : cs.flatMap utf8Bytes = as ++ n :: bs) :
    ∃ front behind, cs = front ++ Char.ofNat n :: behind ∧ as = front.flatMap utf8Bytes ∧
      bs = behind.flatMap utf8Bytes := by
  induction cs generalizing as with
  | nil => simp at same
  | cons c cs ih =>
    obtain ⟨a, trail, spelt, high, low, -⟩ := utf8Bytes_read c
    rw [List.flatMap_cons, spelt, List.cons_append] at same
    cases as with
    | nil =>
      obtain ⟨rfl, rest⟩ := List.cons.inj same
      obtain ⟨rfl, rfl⟩ := low plain
      exact ⟨[], cs, rfl, rfl, rest.symm⟩
    | cons a' as =>
      obtain ⟨rfl, rest⟩ := List.cons.inj same
      obtain ⟨more, rfl, later⟩ := cut_past (fun member => Nat.not_le_of_lt plain (high n member)) rest
      obtain ⟨front, behind, rfl, rfl, rfl⟩ := ih later
      refine ⟨c :: front, behind, rfl, ?_, rfl⟩
      rw [List.flatMap_cons, spelt, List.cons_append]

/-! ### Escapes -/

theorem fixedDigits?_append {base w acc n : Nat} {cs r : List Char}
    (found : fixedDigits? base w acc cs = some (n, r)) (more : List Char) :
    fixedDigits? base w acc (cs ++ more) = some (n, r ++ more) := by
  induction w generalizing acc cs with
  | zero =>
    cases found
    rfl
  | succ w ih =>
    cases cs with
    | nil => cases found
    | cons c cs =>
      rw [fixedDigits?] at found
      rw [List.cons_append, fixedDigits?]
      split at found
      · exact ih found
      · cases found

theorem fixedDigits?_cut {base w acc n : Nat} {cs r : List Char}
    (found : fixedDigits? base w acc cs = some (n, r)) :
    ∃ ds, cs = ds ++ r ∧ fixedDigits? base w acc ds = some (n, []) := by
  induction w generalizing acc cs with
  | zero =>
    cases found
    exact ⟨[], rfl, rfl⟩
  | succ w ih =>
    cases cs with
    | nil => cases found
    | cons c cs =>
      rw [fixedDigits?] at found
      split at found
      · next digit =>
        obtain ⟨ds, rfl, alone⟩ := ih found
        refine ⟨c :: ds, rfl, ?_⟩
        rw [fixedDigits?, digit]
        exact alone
      · cases found

theorem fixedDigits?_digits {base w acc n : Nat} {ds : List Char}
    (found : fixedDigits? base w acc ds = some (n, [])) : ∀ c ∈ ds, (digitIn? base c).isSome := by
  induction w generalizing acc ds with
  | zero =>
    cases found
    simp
  | succ w ih =>
    cases ds with
    | nil => cases found
    | cons c ds =>
      rw [fixedDigits?] at found
      split at found
      · next digit => exact List.forall_mem_cons.mpr ⟨by rw [digit]; rfl, ih found⟩
      · cases found

/-- What may stand behind a backslash, with its bytes. -/
inductive Escape : List Char → List Nat → Prop where
  | byte {ds : List Char} {n : Nat} (digits : fixedDigits? 16 2 0 ds = some (n, [])) :
      Escape ('x' :: ds) [n]
  | short {ds : List Char} {n : Nat} {c : Char} (digits : fixedDigits? 16 4 0 ds = some (n, []))
      (code : decoded 0 n = some c) : Escape ('u' :: ds) (utf8Bytes c)
  | long {ds : List Char} {n : Nat} {c : Char} (digits : fixedDigits? 16 8 0 ds = some (n, []))
      (code : decoded 0 n = some c) : Escape ('U' :: ds) (utf8Bytes c)
  | letter {l c : Char} (letter : escapedChar? l = some c) : Escape [l] (utf8Bytes c)
  | octal {ds : List Char} {n : Nat} (digits : fixedDigits? 8 3 0 ds = some (n, [])) (byte : n < 256) :
      Escape ds [n]

variable {es : List Nat}

theorem escape?_some {cs r : List Char} (found : escape? cs = some (es, r)) :
    ∃ e, cs = e ++ r ∧ Escape e es := by
  unfold escape? escape?.codePoint at found
  split at found
  · cases found
  · obtain ⟨⟨n, r'⟩, digits, same⟩ := Option.map_eq_some_iff.mp found
    cases same
    obtain ⟨ds, rfl, alone⟩ := fixedDigits?_cut digits
    exact ⟨'x' :: ds, rfl, .byte alone⟩
  · obtain ⟨⟨n, r'⟩, digits, same⟩ := Option.bind_eq_some_iff.mp found
    obtain ⟨c, code, same⟩ := Option.map_eq_some_iff.mp same
    cases same
    obtain ⟨ds, rfl, alone⟩ := fixedDigits?_cut digits
    exact ⟨'u' :: ds, rfl, .short alone code⟩
  · obtain ⟨⟨n, r'⟩, digits, same⟩ := Option.bind_eq_some_iff.mp found
    obtain ⟨c, code, same⟩ := Option.map_eq_some_iff.mp same
    cases same
    obtain ⟨ds, rfl, alone⟩ := fixedDigits?_cut digits
    exact ⟨'U' :: ds, rfl, .long alone code⟩
  · next c cs _ _ _ =>
    split at found
    · next e letter =>
      cases found
      exact ⟨[c], rfl, .letter letter⟩
    · obtain ⟨⟨n, r'⟩, digits, same⟩ := Option.bind_eq_some_iff.mp found
      obtain ⟨ds, cut, alone⟩ := fixedDigits?_cut digits
      dsimp only at same
      split at same
      · next byte =>
        cases same
        exact ⟨ds, cut, .octal alone byte⟩
      · cases same

theorem escapedChar?_some {l c : Char} (found : escapedChar? l = some c) :
    l ∈ ['a', 'b', 'f', 'n', 'r', 't', 'v', '\\', '"'] := by
  unfold escapedChar? at found
  split at found
  case h_10 => cases found
  all_goals decide

variable {d : Char}

theorem escape_heads (digit : (digitIn? 8 d).isSome) :
    (d ≠ 'x' ∧ d ≠ 'u' ∧ d ≠ 'U') ∧ escapedChar? d = none := by
  refine ⟨⟨?_, ?_, ?_⟩, ?_⟩
  · rintro rfl; cases digit
  · rintro rfl; cases digit
  · rintro rfl; cases digit
  · cases letter : escapedChar? d with
    | none => rfl
    | some c =>
      have absent : ∀ l ∈ ['a', 'b', 'f', 'n', 'r', 't', 'v', '\\', '"'], (digitIn? 8 l).isNone :=
        List.all_eq_true.mp rfl
      rw [Option.isNone_iff_eq_none.mp (absent d (escapedChar?_some letter))] at digit
      cases digit

theorem Escape.read {e : List Char} (escape : Escape e es) (r : List Char) :
    escape? (e ++ r) = some (es, r) := by
  cases escape with
  | byte digits =>
    rw [List.cons_append, escape?, fixedDigits?_append digits]
    rfl
  | short digits code =>
    rw [List.cons_append, escape?, fixedDigits?_append digits, escape?.codePoint, Option.bind_some]
    dsimp only
    rw [code]
    rfl
  | long digits code =>
    rw [List.cons_append, escape?, fixedDigits?_append digits, escape?.codePoint, Option.bind_some]
    dsimp only
    rw [code]
    rfl
  | @letter l c letter =>
    have apart : l ≠ 'x' ∧ l ≠ 'u' ∧ l ≠ 'U' := by
      refine ⟨?_, ?_, ?_⟩ <;> rintro rfl <;> cases letter
    rw [List.cons_append, escape?, letter]
    · rfl
    · exact apart.1
    · exact apart.2.1
    · exact apart.2.2
  | @octal _ n digits byte =>
    cases e with
    | nil => cases digits
    | cons d ds =>
      obtain ⟨⟨x, u, U⟩, noLetter⟩ := escape_heads (fixedDigits?_digits digits d List.mem_cons_self)
      have all := fixedDigits?_append digits r
      rw [List.cons_append] at all
      rw [List.cons_append, escape?, noLetter, all]
      · simp [byte]
      · exact x
      · exact u
      · exact U

theorem Escape.avoids {e : List Char} (escape : Escape e es)
    (bracket : d = '[' ∨ d = ']') : d ∉ e := by
  have noDigit : digitIn? 16 d = none ∧ digitIn? 8 d = none ∧ escapedChar? d = none := by
    rcases bracket with rfl | rfl <;> decide
  have digits {base w : Nat} {ds : List Char} {n : Nat} (absent : digitIn? base d = none)
      (digits : fixedDigits? base w 0 ds = some (n, [])) : d ∉ ds := by
    intro member
    have digit := fixedDigits?_digits digits d member
    rw [absent] at digit
    cases digit
  have letters : d ≠ 'x' ∧ d ≠ 'u' ∧ d ≠ 'U' := by rcases bracket with rfl | rfl <;> decide
  cases escape with
  | byte found => simp [letters, digits noDigit.1 found]
  | short found => simp [letters, digits noDigit.1 found]
  | long found => simp [letters, digits noDigit.1 found]
  | letter letter =>
    intro member
    rw [List.mem_singleton.mp member, letter] at noDigit
    cases noDigit.2.2
  | octal found => exact digits noDigit.2.1 found

/-! ### Literals -/

/-- A text between double quotes with the bytes that it stands for. -/
inductive Spells : List Char → List Nat → Prop where
  | nil : Spells [] []
  | plain {c : Char} {cs : List Char} {bs : List Nat} (quote : c ≠ '"') (line : c ≠ '\n')
      (backslash : c ≠ '\\') (rest : Spells cs bs) : Spells (c :: cs) (utf8Bytes c ++ bs)
  | escape {e cs : List Char} {es bs : List Nat} (escape : Escape e es) (rest : Spells cs bs) :
      Spells ('\\' :: (e ++ cs)) (es ++ bs)

variable {bs : List Nat}

theorem Spells.literalBytes? (spells : Spells cs bs)
    (enough : cs.length ≤ n) : literalBytes? n cs = some bs := by
  induction spells generalizing n with
  | nil => cases n <;> rfl
  | plain quote line backslash rest ih =>
    cases n with
    | zero => cases enough
    | succ n =>
      rw [Text.literalBytes?, if_neg (by simp [quote, line]), if_neg backslash,
        ih (Nat.le_of_succ_le_succ enough)]
      rfl
  | escape escape rest ih =>
    cases n with
    | zero => cases enough
    | succ n =>
      simp only [List.length_cons, List.length_append] at enough
      rw [Text.literalBytes?, if_neg (by decide), if_pos rfl, escape.read, Option.bind_some]
      dsimp only
      rw [ih (by omega)]
      rfl

theorem spells_of_literalBytes? (found : literalBytes? n cs = some bs) : Spells cs bs := by
  induction n generalizing cs bs with
  | zero =>
    cases cs with
    | nil => cases found; exact .nil
    | cons c cs => cases found
  | succ n ih =>
    cases cs with
    | nil => cases found; exact .nil
    | cons c cs =>
      rw [literalBytes?] at found
      split at found
      · cases found
      · next other =>
        simp only [Bool.or_eq_true, decide_eq_true_eq, not_or] at other
        split at found
        · next backslash =>
          obtain ⟨⟨es, rest⟩, head, tail⟩ := Option.bind_eq_some_iff.mp found
          obtain ⟨bs', behind, rfl⟩ := Option.map_eq_some_iff.mp tail
          obtain ⟨e, rfl, escape⟩ := escape?_some head
          subst backslash
          exact .escape escape (ih behind)
        · next backslash =>
          obtain ⟨bs', behind, rfl⟩ := Option.map_eq_some_iff.mp found
          exact .plain other.1 other.2 backslash (ih behind)

theorem Spells.unique {bs bs' : List Nat} (first : Spells cs bs)
    (second : Spells cs bs') : bs = bs' :=
  Option.some.inj ((first.literalBytes? (Nat.le_refl _)).symm.trans (second.literalBytes? (Nat.le_refl _)))

theorem Spells.append {cs ds : List Char} {bs bs' : List Nat} (first : Spells cs bs)
    (second : Spells ds bs') : Spells (cs ++ ds) (bs ++ bs') := by
  induction first with
  | nil => exact second
  | plain quote line backslash rest ih =>
    rw [List.append_assoc]
    exact .plain quote line backslash ih
  | escape escape rest ih =>
    rw [List.append_assoc, List.cons_append, List.append_assoc]
    exact .escape escape ih

theorem Spells.bracket (bracket : d = '[' ∨ d = ']')
    (rest : Spells cs bs) : Spells (d :: cs) (utf8Bytes d ++ bs) := by
  rcases bracket with rfl | rfl
  · exact .plain (by decide) (by decide) (by decide) rest
  · exact .plain (by decide) (by decide) (by decide) rest

theorem Spells.cut (bracket : d = '[' ∨ d = ']') {cs front behind : List Char}
    (spells : Spells cs bs) (same : cs = front ++ d :: behind) :
    ∃ bs₁ bs₂, bs = bs₁ ++ d.toNat :: bs₂ ∧ Spells front bs₁ ∧ Spells behind bs₂ := by
  induction spells generalizing front with
  | nil => simp at same
  | @plain c cs bs quote line backslash rest ih =>
    cases front with
    | nil =>
      obtain ⟨rfl, rfl⟩ := List.cons.inj same
      have own : utf8Bytes c = [c.toNat] := by rcases bracket with rfl | rfl <;> decide
      exact ⟨[], bs, by rw [own]; rfl, .nil, rest⟩
    | cons c' front =>
      obtain ⟨rfl, rest⟩ := List.cons.inj same
      obtain ⟨bs₁, bs₂, rfl, first, second⟩ := ih rest
      exact ⟨utf8Bytes c ++ bs₁, bs₂, by simp, .plain quote line backslash first, second⟩
  | @escape e cs es bs escape rest ih =>
    cases front with
    | nil =>
      have first := (List.cons.inj same).1
      rcases bracket with rfl | rfl <;> cases first
    | cons c front =>
      obtain ⟨rfl, rest⟩ := List.cons.inj same
      obtain ⟨more, rfl, later⟩ := cut_past (escape.avoids bracket) rest
      obtain ⟨bs₁, bs₂, rfl, first, second⟩ := ih later
      exact ⟨es ++ bs₁, bs₂, by simp, .escape escape first, second⟩

theorem Spells.cut_text (bracket : d = '[' ∨ d = ']') {front behind cs : List Char}
    (spells : Spells (front ++ d :: behind) (cs.flatMap utf8Bytes)) :
    ∃ c₁ c₂, cs = c₁ ++ d :: c₂ ∧ Spells front (c₁.flatMap utf8Bytes) ∧
      Spells behind (c₂.flatMap utf8Bytes) := by
  obtain ⟨bs₁, bs₂, whole, first, second⟩ := spells.cut bracket rfl
  have plain : d.toNat < 0x80 := by rcases bracket with rfl | rfl <;> decide
  obtain ⟨c₁, c₂, rfl, rfl, rfl⟩ := flatMap_cut plain whole
  exact ⟨c₁, c₂, by rw [Char.ofNat_toNat], first, second⟩

theorem spells_plain (plain : ∀ c ∈ cs, c ≠ '"' ∧ c ≠ '\n' ∧ c ≠ '\\') :
    Spells cs (cs.flatMap utf8Bytes) := by
  induction cs with
  | nil => exact .nil
  | cons c cs ih =>
    obtain ⟨⟨quote, line, backslash⟩, rest⟩ := List.forall_mem_cons.mp plain
    exact .plain quote line backslash (ih rest)

theorem trimChars_between {c d : Char} (left : isBlank c = false) (right : isBlank d = false)
    (cs : List Char) : trimChars (c :: (cs ++ [d])) = c :: (cs ++ [d]) := by
  have head : (c :: (cs ++ [d])).dropWhile isBlank = c :: (cs ++ [d]) :=
    List.dropWhile_cons_of_neg (by simp [left])
  rw [trimChars, head, dropLastWhile, ← List.cons_append, List.reverse_append, List.reverse_singleton,
    List.singleton_append, List.dropWhile_cons_of_neg (by simp [right]), List.reverse_cons,
    List.reverse_reverse]

def literal (body : List Char) : String := String.ofList ('"' :: (body ++ ['"']))

theorem trim_literal (body : List Char) : trim (literal body) = literal body := by
  rw [trim, literal, String.toList_ofList, trimChars_between (by decide) (by decide)]

theorem unquoted_literal (body : List Char) : unquoted (literal body) =
    match literalBytes? body.length body with
    | some bs => String.ofList (decodeUtf8 bs)
    | none => String.ofList body := by
  have last : (body ++ ['"']).getLast? = some '"' := List.getLast?_concat
  unfold unquoted literal
  rw [String.toList_ofList, trimChars_between (by decide) (by decide)]
  dsimp only
  split
  · next rest same =>
    obtain ⟨-, rfl⟩ := List.cons.inj same
    have cut : (body ++ ['"']).dropLast = body := List.dropLast_concat
    exact (if_pos last).trans (cut.symm ▸ rfl)
  · next other => exact absurd rfl (other _)

theorem Spells.unquoted {body cs : List Char} (spells : Spells body (cs.flatMap utf8Bytes)) :
    unquoted (literal body) = String.ofList cs := by
  rw [unquoted_literal, spells.literalBytes? (Nat.le_refl _)]
  dsimp only
  rw [decodeUtf8_flatMap]

end TastyLang.Text
