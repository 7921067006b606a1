import Mathlib.Data.List.Induction
import TastyLang.Proofs.Evaluation
import TastyLang.Proofs.Reading.Cursor
import TastyLang.Proofs.Reading.Faults
import TastyLang.Proofs.Reading.Phrases
import TastyLang.Proofs.Reading.Precedence

/-!
# The arguments of attributes

The arguments of an attribute are pieces of the text. The tokens between its parentheses are cut at
the commas that stand in no brackets (`Token.Arguments`), and each argument is the text from the first
token behind one cut up to the next one. `attributes_apply` says so of all attributes of a file.
-/

namespace TastyLang

open Token (startOf)

/-! ### Pieces of a text -/

/-- The text from one byte to another, without white space at its ends. -/
def Text.Snippet (src : List Char) (low high : Int) (s : String) : Prop :=
  ∃ before mid after, src = before ++ mid ++ after ∧ (Text.size before : Int) = low ∧
    (Text.size (before ++ mid) : Int) = high ∧ s = String.ofList (trimChars mid)

theorem Text.prefix_of_size_le {src cs ds : List Char} (h : cs <+: src) (h' : ds <+: src)
    (le : size cs ≤ size ds) : cs <+: ds := by
  rcases List.prefix_or_prefix_of_prefix h h' with part | ⟨mid, rfl⟩
  · exact part
  · have none : mid = [] := by
      by_contra some
      have := size_pos some
      rw [size_append] at le
      omega
    simp [none]

theorem Text.trimChars_ne_nil {c : Char} {cs : List Char} (seen : isBlank c = false) :
    trimChars (c :: cs) ≠ [] := by
  intro none
  rw [trimChars, List.dropWhile_cons_of_neg (by simp [seen]), dropLastWhile,
    List.reverse_eq_nil_iff] at none
  have whole := List.takeWhile_append_dropWhile (p := isBlank) (l := (c :: cs).reverse)
  rw [none, List.append_nil] at whole
  have blank := List.all_eq_true.mp (whole ▸ List.all_takeWhile) c
    (List.mem_reverse.mpr List.mem_cons_self)
  rw [seen] at blank
  cases blank

theorem Text.Snippet.ne_empty {src before after : List Char} {c : Char} {low high : Int} {s : String}
    (h : Snippet src low high s) (front : src = before ++ c :: after)
    (place : low = size before) (seen : isBlank c = false) (less : low < high) : s ≠ "" := by
  obtain ⟨before', mid, after', split, start, stop, rfl⟩ := h
  have first : before' <+: src := ⟨mid ++ after', by rw [split, List.append_assoc]⟩
  have second : before <+: src := ⟨c :: after, front.symm⟩
  obtain rfl : before' = before :=
    (prefix_of_size_le first second (by omega)).eq_of_length_le
      (prefix_of_size_le second first (by omega)).length_le
  have same : mid ++ after' = c :: after := by
    rw [split, List.append_assoc] at front
    exact List.append_cancel_left front
  cases mid with
  | nil =>
    rw [List.append_nil] at stop
    omega
  | cons d mid =>
    obtain rfl : d = c := (List.cons.inj same).1
    exact fun none => trimChars_ne_nil seen (by simpa using congrArg String.toList none)

theorem Reader.slice_go_size (before after : List Char) :
    slice.go (Text.size before) (before ++ after) = after := by
  induction before with
  | nil => cases after <;> simp [slice.go]
  | cons c before ih =>
    have some := c.utf8Size_pos
    have rest : ((Text.size (c :: before) : Nat) : Int) - c.utf8Size = Text.size before := by
      rw [Text.size_cons]
      omega
    rw [List.cons_append, slice.go, rest, ih, if_neg]
    rw [Text.size_cons]
    omega

theorem Reader.slice_size (before mid after : List Char) :
    slice (before ++ mid ++ after) (Text.size before) (Text.size (before ++ mid)) = mid := by
  have low := slice_go_size before (mid ++ after)
  have high := slice_go_size (before ++ mid) after
  rw [← List.append_assoc] at low
  simp only [slice, low, high]
  simp

theorem Pos.IsIn.snippet {src : List Char} {p q : Pos} (start : p.IsIn src) (stop : q.IsIn src)
    (le : p.offset ≤ q.offset) :
    Text.Snippet src p.offset q.offset
      (String.ofList (Text.trimChars (Reader.slice src p.offset q.offset))) := by
  obtain ⟨before, rest, split, follows⟩ := start.follows
  obtain ⟨before', after, split', follows'⟩ := stop.follows
  have low := follows.offset
  have high := follows'.offset
  obtain ⟨mid, rfl⟩ : before <+: before' :=
    Text.prefix_of_size_le ⟨rest, split.symm⟩ ⟨after, split'.symm⟩ (by omega)
  refine ⟨before, mid, after, split', low.symm, high.symm, ?_⟩
  rw [split', low, high, Reader.slice_size]

variable {xs : List String} {closer : Token} {t : Token}

namespace Token

/-! ### Brackets -/

/-- How a token changes the number of open brackets. -/
def turn (t : Token) : Int :=
  match t.kind with
  | .op .openParen | .op .openBracket | .op .openBrace => 1
  | .op .closeParen | .op .closeBracket | .op .closeBrace => -1
  | _ => 0

/-- How many brackets some tokens open and do not close. -/
def depth : List Token → Int
  | [] => 0
  | t :: ts => t.turn + depth ts

theorem depth_append (ts us : List Token) : depth (ts ++ us) = depth ts + depth us := by
  induction ts with
  | nil => simp [depth]
  | cons t ts ih =>
    rw [List.cons_append, depth, depth, ih]
    omega

/-- No comma stands outside of brackets. -/
def Undivided (ts : List Token) : Prop :=
  ∀ before t after, ts = before ++ t :: after → t.kind = .op .comma → depth before ≠ 0

theorem undivided_nil : Undivided [] := by
  rintro (_ | _) t after same <;> cases same

variable {ts : List Token}

theorem Undivided.concat (h : Undivided ts)
    (inside : t.kind = .op .comma → depth ts ≠ 0) : Undivided (ts ++ [t]) := by
  intro before u after same kind
  rcases List.eq_nil_or_concat after with rfl | ⟨after, v, rfl⟩
  · obtain ⟨rfl, last⟩ := List.append_inj' same rfl
    cases last
    exact inside kind
  · rw [List.concat_eq_append, ← List.cons_append, ← List.append_assoc] at same
    exact h before u after (List.append_inj' same rfl).1 kind

/-- How many commas stand outside of brackets behind `d` open ones. -/
def divisions (d : Int) : List Token → Nat
  | [] => 0
  | t :: ts => (if t.kind = .op .comma ∧ d = 0 then 1 else 0) + divisions (d + t.turn) ts

/-- The parenthesis `closer` is the first one behind `inner` that closes none of the `d` brackets that
are open in front of them or opened there. -/
structure Closes (d : Int) (inner : List Token) (closer : Token) : Prop where
  kind : closer.kind = .op .closeParen
  last : d + depth inner ≤ 0
  first : ∀ before t after, inner = before ++ t :: after → t.kind = .op .closeParen →
    0 < d + depth before

/-- The arguments that stand in the tokens in front of `closer`: the text of each starts at its first
token, and goes to the comma outside of brackets behind it or to `closer`. -/
inductive Arguments (src : List Char) (closer : Token) : List Token → List String → Prop where
  | last {piece : List Token} {s : String} : Undivided piece →
      Text.Snippet src (startOf closer.pos piece).offset closer.pos.offset s →
      Arguments src closer piece [s]
  | more {piece inner : List Token} {comma : Token} {s : String} {xs : List String} :
      Undivided piece → depth piece = 0 → comma.kind = .op .comma →
      Text.Snippet src (startOf comma.pos piece).offset comma.pos.offset s →
      Arguments src closer inner xs → Arguments src closer (piece ++ comma :: inner) (s :: xs)

theorem divisions_append (d : Int) (ts us : List Token) :
    divisions d (ts ++ us) = divisions d ts + divisions (d + depth ts) us := by
  induction ts generalizing d with
  | nil => simp [divisions, depth]
  | cons t ts ih => rw [List.cons_append, divisions, divisions, ih, depth, Int.add_assoc, Nat.add_assoc]

theorem Undivided.divisions (h : Undivided ts) : divisions 0 ts = 0 := by
  induction ts using List.reverseRecOn with
  | nil => rfl
  | append_singleton ts t ih =>
    have front : Undivided ts := by
      rintro before u after rfl
      exact h before u (after ++ [t]) (by simp)
    rw [divisions_append, ih front, Token.divisions, Token.divisions, if_neg]
    rintro ⟨comma, none⟩
    exact h ts t [] rfl comma (by omega)

theorem Arguments.length {src : List Char} {inner : List Token}
    (h : Arguments src closer inner xs) : xs.length = divisions 0 inner + 1 := by
  induction h with
  | last whole _ => rw [whole.divisions, List.length_singleton]
  | more whole level comma _ _ ih =>
    have flat (t : Token) (kind : t.kind = .op .comma) : t.turn = 0 := by rw [turn, kind]
    rw [divisions_append, whole.divisions, divisions, level, flat _ comma, if_pos ⟨comma, rfl⟩,
      List.length_cons, ih, Int.add_zero, Int.add_zero]
    omega

theorem Closes.cons {d : Int} {inner : List Token} (h : Closes (d + t.turn) inner closer)
    (open_ : t.kind = .op .closeParen → 0 < d) :
    Closes d (t :: inner) closer := by
  refine ⟨h.kind, ?_, fun before u after same kind => ?_⟩
  · have last := h.last
    rw [depth]
    omega
  · cases before with
    | nil =>
      obtain ⟨rfl, -⟩ := List.cons.inj same
      have := open_ kind
      rw [depth]
      omega
    | cons v before =>
      obtain ⟨rfl, rest⟩ := List.cons.inj same
      have := h.first before u after rest kind
      rw [depth]
      omega

theorem startOf_isIn {src : String} (part : ts <:+ (stream src).tokens) :
    (startOf (stream src).stopPos ts).IsIn src.toList := by
  cases ts with
  | nil => exact (stream_stands src).2
  | cons t ts => exact ((stream_stands src).1 t (part.mem List.mem_cons_self)).start

end Token

/-! ### Reading arguments -/

/-- The token `t` was read. -/
structure Cursor.Next (c : Cursor) (t : Token) (c' : Cursor) : Prop where
  rest : c.rest = t :: c'.rest
  stop : c'.stop = c.stop
  lastEnd : c'.lastEnd = t.stop

theorem Cursor.pos_eq_start {src : String} {c : Cursor} (stop : c.stop = (Token.stream src).stop) :
    c.pos = startOf (Token.stream src).stopPos c.rest := by
  have same : c.stopPos = (Token.stream src).stopPos := by
    rw [Cursor.stopPos, stop]
    rfl
  rw [pos_eq_startOf, same]

namespace Reader

open Token

variable {src : String} {g : Setting} {c c' : Cursor}

theorem advance_token {u : Unit} (token : c.current.kind ≠ .eof) (h : advance c = .ok (u, c')) :
    c.Next c.current c' := by
  obtain rfl := advance_eq h
  exact ⟨Cursor.rest_of_kind token, rfl, rfl⟩

theorem expect_token {k : Token.Kind} (token : k ≠ .eof) (h : expect k c = .ok (t, c')) :
    c.Next t c' ∧ t.kind = k := by
  obtain ⟨t, _, read, h⟩ := bind_ok h
  obtain ⟨rfl, rfl⟩ := current_ok read
  split at h
  · next same =>
    have same := eq_of_beq same
    obtain ⟨_, _, read, h⟩ := bind_ok h
    obtain ⟨rfl, rfl⟩ := pure_ok h
    exact ⟨advance_token (same ▸ token) read, same⟩
  · exact absurd h unexpected_ok

theorem name_token {x : String} (h : name c = .ok (x, c')) :
    ∃ t : Token, c.Next t c' ∧ t.kind = .ident ∧ t.literal = x := by
  obtain ⟨t, _, read, h⟩ := bind_ok h
  obtain ⟨rfl, rfl⟩ := current_ok read
  split at h
  · next same =>
    have same := eq_of_beq same
    obtain ⟨_, _, read, h⟩ := bind_ok h
    obtain ⟨rfl, rfl⟩ := pure_ok h
    exact ⟨c.current, advance_token (same ▸ nofun) read, same, rfl⟩
  · exact absurd h failAt_ok

/-- The tokens `read` in front of the cursor belong to the argument that starts at the byte `low`. They
leave `d` brackets open. -/
structure Underway (src : String) (low d : Int) (read : List Token) (c : Cursor) : Prop where
  part : read ++ c.rest <:+ (stream src).tokens
  stop : c.stop = (stream src).stop
  level : depth read = d
  whole : Undivided read
  start : low = (startOf (stream src).stopPos (read ++ c.rest)).offset

theorem Underway.fresh (part : c.rest <:+ (stream src).tokens) (stop : c.stop = (stream src).stop) :
    Underway src c.pos.offset 0 [] c :=
  ⟨part, stop, rfl, undivided_nil, congrArg Pos.offset (Cursor.pos_eq_start stop)⟩

variable {read : List Token}

theorem Underway.concat {low d e : Int} (h : Underway src low d read c) (next : c.Next c.current c')
    (turn : e = d + c.current.turn) (inside : c.current.kind = .op .comma → d ≠ 0) :
    Underway src low e (read ++ [c.current]) c' := by
  have same : read ++ [c.current] ++ c'.rest = read ++ c.rest := by
    rw [next.rest, List.append_assoc]
    rfl
  refine ⟨same ▸ h.part, next.stop.trans h.stop, ?_, ?_, same ▸ h.start⟩
  · rw [depth_append, h.level, turn]
    simp only [depth, Int.add_zero]
  · exact h.whole.concat fun comma => h.level ▸ inside comma

theorem Underway.text {low d : Int} (h : Underway src low d read c)
    (token : c.current.kind ≠ .eof) : Text.Snippet src.toList
      (startOf c.current.pos read).offset c.current.pos.offset
      (String.ofList (Text.trimChars (slice src.toList low c.current.pos.offset))) := by
  have rest := Cursor.rest_of_kind token
  have first : startOf (stream src).stopPos (read ++ c.rest) = startOf c.current.pos read := by
    rw [rest]
    cases read <;> rfl
  have here : startOf (stream src).stopPos c.rest = c.current.pos := by rw [rest]; rfl
  have tail : c.rest <:+ read ++ c.rest := List.suffix_append _ _
  have le := ((stream_ordered src).suffix h.part).start_le tail
  rw [first, here] at le
  rw [h.start, first]
  exact (first ▸ startOf_isIn h.part).snippet (here ▸ startOf_isIn (tail.trans h.part)) le

/-- The arguments `xs` end at the closing parenthesis that `c'` is at. Of the first one, `read` stands
in front of `c` and leaves `d` brackets open. -/
def Cuts (src : String) (d : Int) (read : List Token) (xs : List String) (c c' : Cursor) : Prop :=
  ∃ inner closer back, c.rest = inner ++ closer :: back ∧ c'.rest = closer :: back ∧
    c'.stop = c.stop ∧ Closes d inner closer ∧ Arguments src.toList closer (read ++ inner) xs

theorem Cuts.cons {d e : Int} {c₁ : Cursor} (h : Cuts src e (read ++ [c.current]) xs c₁ c')
    (next : c.Next c.current c₁) (turn : e = d + c.current.turn)
    (opened : c.current.kind = .op .closeParen → 0 < d) :
    Cuts src d read xs c c' := by
  obtain ⟨inner, closer, back, rest, rest', stop, closes, args⟩ := h
  refine ⟨c.current :: inner, closer, back, ?_, rest', stop.trans next.stop,
    (turn ▸ closes).cons opened, ?_⟩
  · rw [next.rest, rest]
    rfl
  · rwa [List.append_assoc] at args

theorem Cuts.last {low d : Int} (before : Underway src low d read c)
    (kind : c.current.kind = .op .closeParen) (closed : d ≤ 0) : Cuts src d read
      [String.ofList (Text.trimChars (slice src.toList low c.current.pos.offset))] c c := by
  have token : c.current.kind ≠ .eof := kind ▸ nofun
  have rest := Cursor.rest_of_kind token
  refine ⟨[], c.current, c.rest.tail, rest, rest, rfl, ⟨kind, ?_, ?_⟩, ?_⟩
  · simpa [depth] using closed
  · rintro (_ | _) u after same <;> cases same
  · rw [List.append_nil]
    exact .last before.whole (before.text token)

theorem Cuts.more {low : Int} {c₁ : Cursor} (before : Underway src low 0 read c)
    (next : c.Next c.current c₁) (kind : c.current.kind = .op .comma)
    (h : Cuts src 0 [] xs c₁ c') : Cuts src 0 read
      (String.ofList (Text.trimChars (slice src.toList low c.current.pos.offset)) :: xs) c c' := by
  have flat : c.current.turn = 0 := by rw [turn, kind]
  obtain ⟨inner, closer, back, rest, rest', stop, closes, args⟩ := h
  refine ⟨c.current :: inner, closer, back, ?_, rest', stop.trans next.stop,
    .cons (by rwa [flat, Int.add_zero]) (kind ▸ nofun), ?_⟩
  · rw [next.rest, rest]
    rfl
  · exact .more before.whole before.level kind (before.text (kind ▸ nofun)) args

-- By induction on the fuel. A token is either a cut itself or joins the argument that is underway, and
-- the brackets that are open tell which.
theorem attributeArgs_cuts {opener : Token} {n : Nat} {low d : Int}
    (h : attributeArgs src.toList opener n low d c = .ok (xs, c'))
    (before : Underway src low d read c) : Cuts src d read xs c c' := by
  induction n generalizing low d c xs read with
  | zero => exact absurd h exhausted_ok
  | succ n ih =>
    obtain ⟨t, _, look, h⟩ := bind_ok h
    obtain ⟨rfl, rfl⟩ := current_ok look
    have reads {e : Int} (token : c.current.kind ≠ .eof) (turn : e = d + c.current.turn)
        (inside : c.current.kind = .op .comma → d ≠ 0)
        (opened : c.current.kind = .op .closeParen → 0 < d)
        (h : (advance >>= fun _ => attributeArgs src.toList opener n low e) c = .ok (xs, c')) :
        Cuts src d read xs c c' := by
      obtain ⟨_, c₁, step, h⟩ := bind_ok h
      have next := advance_token token step
      exact (ih h (before.concat next turn inside)).cons next turn opened
    dsimp only at h
    generalize kind : c.current.kind = k at h
    split at h
    · exact absurd h unclosed_ok
    · next kind => exact reads (kind ▸ nofun) (by rw [turn, kind]) (kind ▸ nofun) (kind ▸ nofun) h
    · next kind => exact reads (kind ▸ nofun) (by rw [turn, kind]) (kind ▸ nofun) (kind ▸ nofun) h
    · next kind => exact reads (kind ▸ nofun) (by rw [turn, kind]) (kind ▸ nofun) (kind ▸ nofun) h
    · next kind =>
      split at h
      · next closed =>
        obtain ⟨rfl, rfl⟩ := pure_ok h
        exact .last before kind closed
      · exact reads (kind ▸ nofun) (by rw [turn, kind]; rfl) (kind ▸ nofun) (fun _ => by omega) h
    · next kind =>
      exact reads (kind ▸ nofun) (by rw [turn, kind]; rfl) (kind ▸ nofun) (kind ▸ nofun) h
    · next kind =>
      exact reads (kind ▸ nofun) (by rw [turn, kind]; rfl) (kind ▸ nofun) (kind ▸ nofun) h
    · next kind =>
      by_cases cuts : d = 0
      · obtain ⟨_, c₁, step, h⟩ := bind_ok h
        rw [if_pos cuts] at h
        obtain ⟨p, _, place, h⟩ := bind_ok h
        obtain ⟨rfl, rfl⟩ := pos_ok place
        obtain ⟨ys, _, more, h⟩ := bind_ok h
        obtain ⟨rfl, rfl⟩ := pure_ok h
        subst cuts
        have next := advance_token (kind ▸ nofun) step
        have part : c₁.rest <:+ (stream src).tokens :=
          ((next.rest ▸ List.suffix_cons _ _).trans (List.suffix_append _ _)).trans before.part
        exact .more before next kind (ih more (.fresh part (next.stop.trans before.stop)))
      · have flat : c.current.turn = 0 := by rw [turn, kind]
        refine reads (kind ▸ nofun) (by rw [flat, Int.add_zero]) (fun _ => cuts) (kind ▸ nofun) ?_
        simpa only [if_neg cuts] using h
    · next eof _ _ _ closes _ _ comma =>
      have flat : c.current.turn = 0 := by
        rw [turn, kind]
        split <;> first | rfl | contradiction
      exact reads (kind ▸ eof) (by rw [flat, Int.add_zero]) (fun same => absurd (kind ▸ same) comma)
        (fun same => absurd (kind ▸ same) closes) h

end Reader

/-- The tokens with which the use of an attribute starts. -/
structure AttributeUse.Named (u : AttributeUse) (sign name : Token) : Prop where
  opening : sign.kind = .op .atSign
  start : u.span.start = sign.pos
  word : name.kind = .ident
  same : name.literal = u.name

/-- The use of an attribute stands in a text: its name alone, or with arguments in parentheses. There
are none if there is no token for them. -/
inductive AttributeUse.Applied (src : String) (u : AttributeUse) : Prop where
  | bare {front back : List Token} {sign name : Token} :
      (Token.stream src).tokens = front ++ sign :: name :: back → u.Named sign name →
      u.span.stop = name.stop → (∀ t ∈ back.head?, t.kind ≠ .op .openParen) → u.args = [] →
      Applied src u
  | applied {front inner back : List Token} {sign name opener closer : Token} :
      (Token.stream src).tokens = front ++ sign :: name :: opener :: (inner ++ closer :: back) →
      u.Named sign name → opener.kind = .op .openParen → Token.Closes 0 inner closer →
      u.span.stop = closer.stop → (inner = [] → u.args = []) →
      (inner ≠ [] → u.args.length = Token.divisions 0 inner + 1 ∧
        Token.Arguments src.toList closer inner u.args) → Applied src u

variable {u : AttributeUse}

namespace Reader

open Token

variable {src : String} {g : Setting} {c c' : Cursor}

theorem whole_of_sign (on : c.On src) (kind : c.current.kind = .op .atSign) :
    c.rest <:+ (stream src).tokens := by
  have along := on.along
  have rest := Cursor.rest_of_kind (c := c) (kind ▸ nofun)
  rw [rest] at along ⊢
  cases along with
  | whole tail => exact tail
  | second _ sign => rw [kind] at sign; rcases sign with same | same <;> cases same

theorem arguments_ne_empty {t closer : Token} {ts back : List Token}
    (part : t :: (ts ++ closer :: back) <:+ (stream src).tokens)
    (args : Arguments src.toList closer (t :: ts) xs) : xs ≠ [""] := by
  rintro rfl
  obtain ⟨before, d, after, front, place, seen⟩ :=
    ((stream_stands src).1 t (part.mem List.mem_cons_self)).front
  generalize same : t :: ts = inner at args
  cases args with
  | last _ text =>
    subst same
    obtain ⟨-, first, ordered⟩ := (stream_ordered src).suffix part
    have later := ordered.start_le (List.suffix_append ts (closer :: back))
    have less : t.pos.offset < closer.pos.offset := Int.lt_of_lt_of_le first.start later
    refine text.ne_empty front ?_ seen less rfl
    rw [startOf, place]
    exact (Pos.afterAll_follows before).offset
  | more _ _ _ _ rest => cases rest

theorem arguments_nil (args : Arguments src.toList closer [] xs) : xs = [""] := by
  generalize same : [] = inner at args
  cases args with
  | last _ text =>
    subst same
    obtain ⟨before, mid, after, -, start, stop, rfl⟩ := text
    rw [startOf] at start
    have none : mid = [] := by
      by_contra some
      have := Text.size_pos some
      rw [Text.size_append] at stop
      omega
    rw [none]
    rfl
  | more => simp at same

theorem attributeArgList_cuts (h : attributeArgList g c = .ok (xs, c'))
    (source : g.src = src.toList) (part : c.rest <:+ (stream src).tokens)
    (stop : c.stop = (stream src).stop) :
    (xs = [] ∧ c' = c ∧ c.current.kind ≠ .op .openParen) ∨
      ∃ opener inner closer back, c.rest = opener :: (inner ++ closer :: back) ∧
        opener.kind = .op .openParen ∧ Closes 0 inner closer ∧ c'.lastEnd = closer.stop ∧
        (inner = [] → xs = []) ∧
        (inner ≠ [] → xs.length = divisions 0 inner + 1 ∧
          Arguments src.toList closer inner xs) := by
  obtain ⟨t, _, look, h⟩ := bind_ok h
  obtain ⟨rfl, rfl⟩ := current_ok look
  split at h
  · next kind =>
    have kind := eq_of_beq kind
    obtain ⟨_, c₁, read, h⟩ := bind_ok h
    obtain ⟨p, _, place, h⟩ := bind_ok h
    obtain ⟨rfl, rfl⟩ := pos_ok place
    obtain ⟨ys, c₂, args, h⟩ := bind_ok h
    obtain ⟨_, c₃, last, h⟩ := bind_ok h
    obtain ⟨rfl, rfl⟩ := pure_ok h
    have next := advance_token (kind ▸ nofun) read
    have stop' := next.stop.trans stop
    have later : c₁.rest <:+ (stream src).tokens := (next.rest ▸ List.suffix_cons _ _).trans part
    rw [source] at args
    obtain ⟨inner, closer, back, rest, rest', -, closes, args⟩ :=
      attributeArgs_cuts args (.fresh later stop')
    have here : c₂.current = closer := by rw [Cursor.current, rest']
    refine .inr ⟨c.current, inner, closer, back, by rw [next.rest, rest], kind, closes, ?_,
      fun none => ?_, fun some => ?_⟩
    · rw [advance_eq last, ← here]
    · subst none
      rw [if_pos (arguments_nil args)]
    · obtain ⟨t, ts, rfl⟩ := List.exists_cons_of_ne_nil some
      rw [rest] at later
      rw [if_neg (arguments_ne_empty later args)]
      exact ⟨args.length, args⟩
  · next kind =>
    obtain ⟨rfl, rfl⟩ := pure_ok h
    exact .inl ⟨rfl, rfl, fun same => kind (beq_iff_eq.mpr same)⟩

theorem attributeUse_applied (h : attributeUse g c = .ok (u, c')) (source : g.src = src.toList)
    (on : c.On src) : u.Applied src := by
  obtain ⟨p, _, place, h⟩ := bind_ok h
  obtain ⟨rfl, rfl⟩ := pos_ok place
  obtain ⟨_, c₁, read, h⟩ := bind_ok h
  obtain ⟨sign, read⟩ := discard_ok read
  obtain ⟨next, opening⟩ := expect_token (k := .op .atSign) nofun read
  obtain ⟨q, _, place, h⟩ := bind_ok h
  obtain ⟨rfl, rfl⟩ := pos_ok place
  obtain ⟨x, c₂, read, h⟩ := bind_ok h
  obtain ⟨word, next', kind, rfl⟩ := name_token read
  obtain ⟨xs, c₃, read, h⟩ := bind_ok h
  obtain ⟨_, _, fits, h⟩ := bind_ok h
  obtain rfl := requireArity_ok fits
  obtain ⟨rfl, rfl⟩ := finish_ok h
  have here : c.current = sign := by rw [Cursor.current, next.rest]
  obtain ⟨front, tokens⟩ := whole_of_sign on (here ▸ opening)
  have named : AttributeUse.Named ⟨⟨c.pos, c₃.lastEnd⟩, word.literal, xs⟩ sign word :=
    ⟨opening, congrArg Token.pos here, kind, rfl⟩
  rw [next.rest, next'.rest] at tokens
  have part : c₂.rest <:+ (stream src).tokens := ⟨front ++ [sign, word], by simp [← tokens]⟩
  rcases attributeArgList_cuts read source part (next'.stop.trans (next.stop.trans on.stop)) with
    ⟨rfl, rfl, plain⟩ | ⟨opener, inner, closer, back, rest, opens, closes, last, none, some⟩
  · refine .bare tokens.symm named next'.lastEnd (fun t first => ?_) rfl
    obtain ⟨back, rest⟩ := List.head?_eq_some_iff.mp first
    rwa [Cursor.current, rest] at plain
  · rw [rest] at tokens
    exact .applied tokens.symm named opens closes last none some

end Reader

/-! ### Attributes in a tree -/

namespace Phrase

variable {fine : AttributeUse → Prop} {p : Phrase}

/-- All attributes in a phrase are fine. -/
def Uses (fine : AttributeUse → Prop) (p : Phrase) : Prop :=
  ∀ u, (use u).Within p → fine u

theorem uses_use (h : fine u) : (use u).Uses fine := by
  rintro v (_ | ⟨member, _⟩)
  · exact h
  · cases member

theorem uses_node {n : Node} (h : ∀ q ∈ n.parts, q.Uses fine) : (node n).Uses fine := by
  rintro u (_ | ⟨member, inside⟩)
  exact h _ member u inside

/-- No attributes are used in a phrase. -/
def Plain : Phrase → Prop
  | use _ | node (.file _) | node (.decl _) => False
  | _ => True

@[simp]
theorem plain_type (t : TypeExpr) : (type t).Plain := trivial

@[simp]
theorem plain_expr (e : Expr) : (expr e).Plain := trivial

@[simp]
theorem plain_block (b : Block) : (block b).Plain := trivial

@[simp]
theorem plain_var (d : VarDecl) : (node (.var d)).Plain := trivial

@[simp]
theorem plain_param (p : Param) : (param p).Plain := trivial

@[simp]
theorem plain_enumerator (m : EnumMember) : (enumerator m).Plain := trivial

@[simp]
theorem plain_stmt (s : Stmt) : (stmt s).Plain := by
  cases s <;> trivial

theorem Plain.parts (h : p.Plain) : ∀ q ∈ p.parts, q.Plain := by
  cases p with
  | use => exact h.elim
  | param | enumerator => simp [Phrase.parts]
  | node n =>
    cases n with
    | file | decl => exact h.elim
    | type t => cases t <;> simp [Phrase.parts, Node.parts, TypeExpr.parts, or_imp, forall_and]
    | expr e => cases e <;> simp [Phrase.parts, Node.parts, Expr.parts, or_imp, forall_and]
    | stmt s => cases s <;> simp [Phrase.parts, Node.parts, Stmt.parts, or_imp, forall_and]
    | _ => simp [Phrase.parts, Node.parts, VarDecl.parts, FuncDecl.parts, or_imp, forall_and]

theorem Plain.uses (h : p.Plain) : p.Uses fine := by
  intro u inside
  induction inside with
  | self => exact h.elim
  | part member _ ih => exact ih (h.parts _ member)

end Phrase

/-- The attributes in front of a declaration and inside of it are fine. -/
def Decl.Uses (fine : AttributeUse → Prop) (d : Decl) : Prop := ∀ p ∈ d.phrases, p.Uses fine

def Item.Uses (fine : AttributeUse → Prop) (i : Item) : Prop := ∀ p ∈ i.phrases, p.Uses fine

def FuncDecl.Uses (fine : AttributeUse → Prop) (f : FuncDecl) : Prop := ∀ p ∈ f.phrases, p.Uses fine

section

variable {fine : AttributeUse → Prop}

theorem DeclInfo.uses_of_attrs {info : DeclInfo} {n : Node} (attrs : ∀ u ∈ info.attrs, fine u)
    (inside : (Phrase.node n).Uses fine) : ∀ p ∈ info.phrases n, p.Uses fine := by
  rw [DeclInfo.phrases, List.forall_mem_append]
  exact ⟨List.forall_mem_map.mpr fun u member => Phrase.uses_use (attrs u member),
    List.forall_mem_singleton.mpr inside⟩

theorem Item.uses_of_attrs {i : Item} (attrs : ∀ u ∈ i.info.attrs, fine u) : i.Uses fine := by
  refine DeclInfo.uses_of_attrs attrs (Phrase.Plain.uses ?_)
  cases i <;> trivial

theorem Item.Uses.attrs {i : Item} (h : i.Uses fine) : ∀ u ∈ i.info.attrs, fine u :=
  fun u member => h (.use u) (List.mem_append_left _ (List.mem_map_of_mem member)) u .self

theorem FuncDecl.uses_of_attrs {f : FuncDecl} (attrs : ∀ u ∈ f.info.attrs, fine u) : f.Uses fine :=
  DeclInfo.uses_of_attrs attrs (Phrase.Plain.uses trivial)

theorem Decl.uses_of_attrs {d : Decl} (attrs : ∀ u ∈ d.info.attrs, fine u)
    (inside : ∀ p ∈ d.parts, p.Uses fine) : d.Uses fine := by
  cases d with
  | item i => exact Item.uses_of_attrs (i := i) attrs
  | _ => exact DeclInfo.uses_of_attrs attrs (Phrase.uses_node inside)

end

namespace Reader

variable {α β : Type} {src : String} {d m : Nat} {good : α → Prop} {good' : β → Prop}

/-- What `r` gives is good, where less than `m` is left to read of a text. -/
def Delivers (src : String) (m : Nat) (r : Reader α) (good : α → Prop) : Prop :=
  ∀ c : Cursor, c.On src → c.weight < m → ∀ a c', r c = .ok (a, c') → good a

theorem Makes.delivers {r : Reader α} (h : Makes r good) : Delivers src m r good :=
  fun _ _ _ _ _ run => h run

theorem Delivers.bind {r : Reader β} {f : β → Reader α} (first : Takes src d m r good')
    (rest : ∀ b, good' b → Delivers src (m - d) (f b) good) : Delivers src m (r >>= f) good := by
  intro c on room a c' run
  obtain ⟨b, c₁, read, run⟩ := bind_ok run
  obtain ⟨on₁, less, value⟩ := (first _ c on rfl room).gave b c₁ read
  exact rest b value c₁ on₁ (by omega) a c' run

theorem Delivers.mono {k : Nat} {r : Reader α} (h : Delivers src k r good) (enough : m ≤ k) :
    Delivers src m r good :=
  fun c on room => h c on (Nat.lt_of_lt_of_le room enough)

theorem Delivers.look {r : Reader β} {f : β → Reader α} (still : ∀ c b c', r c = .ok (b, c') → c = c')
    (rest : ∀ b, Delivers src m (f b) good) : Delivers src m (r >>= f) good := by
  intro c on room a c' run
  obtain ⟨b, c₁, read, run⟩ := bind_ok run
  obtain rfl := still c b c₁ read
  exact rest b c on room a c' run

theorem Delivers.current {f : Token → Reader α} (rest : ∀ t, Delivers src m (f t) good) :
    Delivers src m (Reader.current >>= f) good :=
  .look (fun _ _ _ read => (current_ok read).2) rest

theorem Delivers.pos {f : Pos → Reader α} (rest : ∀ p, Delivers src m (f p) good) :
    Delivers src m (Reader.pos >>= f) good :=
  .look (fun _ _ _ read => (pos_ok read).2) rest

theorem Delivers.check {k : Token.Kind} {f : Bool → Reader α} (yes : Delivers src m (f true) good)
    (no : Delivers src m (f false) good) : Delivers src m (Reader.check k >>= f) good :=
  .look (fun _ _ _ read => (check_ok read).2) fun b => by cases b <;> assumption

theorem Makes.never {r : Reader β} {f : β → Reader α} (h : Makes r fun _ => False) :
    Makes (r >>= f) good :=
  .bind h fun _ none => none.elim

theorem Delivers.last {r : Reader β} {f : β → Reader α} (first : Delivers src m r good')
    (rest : ∀ b, good' b → Makes (f b) good) : Delivers src m (r >>= f) good := by
  intro c on room a c' run
  obtain ⟨b, c₁, read, run⟩ := bind_ok run
  exact rest b (first c on room b c₁ read) run

theorem Takes.giving {r : Reader α} (takes : Takes src d m r fun _ => True)
    (delivers : Delivers src m r good) : Takes src d m r good := by
  intro t c on here room
  obtain ⟨gave, failed⟩ := takes t c on here room
  refine ⟨fun a c' run => ?_, failed⟩
  obtain ⟨on', less, -⟩ := gave a c' run
  exact ⟨on', less, delivers c on room a c' run⟩

theorem many_delivers {item : Reader (Option α)} (once : Takes src 0 m item fun r => ∀ x ∈ r, good x)
    (n : Nat) : Delivers src m (many item n) fun xs => ∀ x ∈ xs, good x := by
  induction n with
  | zero => exact Makes.delivers exhausted_makes
  | succ n ih =>
    refine .bind once fun r value => ?_
    cases r with
    | none => exact Makes.delivers (.pure (List.forall_mem_nil _))
    | some x =>
      exact .last ih fun xs rest => .pure (List.forall_mem_cons.mpr ⟨value x rfl, rest⟩)

theorem bracedList_delivers {opener : Token} {item : Reader α} (once : Takes src 0 m item good)
    (n : Nat) : Delivers src m (bracedList opener item n) fun xs => ∀ x ∈ xs, good x := by
  induction n with
  | zero => exact Makes.delivers exhausted_makes
  | succ n ih =>
    refine .check (Makes.delivers (.skip fun _ => .pure (List.forall_mem_nil _))) (.check ?_ ?_)
    · exact Makes.delivers (unclosed_makes.never)
    · refine .bind once fun x value => ?_
      exact .last ih fun xs rest => .pure (List.forall_mem_cons.mpr ⟨value, rest⟩)

section

variable {g : Setting} {info : Span → DeclInfo} {start : Pos} (source : g.src = src.toList)

include source

theorem attributeUse_takes (steps : m ≤ g.steps) :
    Takes src 1 m (attributeUse g) (·.Applied src) :=
  .giving (attributeUse_eats steps) fun _ on _ _ _ run => attributeUse_applied run source on

theorem attributeUses_takes (steps : m ≤ g.steps) :
    Takes src 0 m (attributeUses g) fun us => ∀ u ∈ us, u.Applied src := by
  refine .giving (attributeUses_stays steps) (many_delivers (fun t => ?_) g.steps)
  refine .check (fun _ => ?_) fun _ => .pure nofun
  refine ((attributeUse_takes source steps t).mono (Nat.zero_le 1) (Nat.le_refl m)
    fun _ => id).map ?_
  rintro u applied _ ⟨⟩
  exact applied

theorem directive_takes (steps : m ≤ g.steps) :
    Takes src 1 m (directive g) (·.Applied src) := by
  refine .giving (directive_eats steps) (.check ?_ (Makes.delivers unexpected_makes.never))
  have use := attributeUse_takes source steps
  exact .bind use fun u applied => Makes.delivers (.skip fun _ => .pure applied)

end

/-! The attributes in front of a declaration are read before the rest of it. -/

section

variable {g : Setting} {info : Span → DeclInfo} {start : Pos} {fine : AttributeUse → Prop}
  (own : ∀ span, ∀ u ∈ (info span).attrs, fine u)

include own

theorem includeDecl_uses {kind : IncludeKind} :
    Makes (includeDecl g info start kind) (Decl.Uses fine) := by
  refine .skip fun _ => .skip fun word => .skip fun path => .skip fun _ => .skip fun span => ?_
  exact .pure (Decl.uses_of_attrs (own span) (List.forall_mem_nil _))

theorem assumeDecl_uses : Makes (assumeDecl g info start) (Decl.Uses fine) := by
  refine .skip fun _ => .skip fun x => .skip fun _ => .skip fun t => ?_
  split
  · exact unexpected_makes
  · refine .skip fun _ => .skip fun _ => .skip fun span => ?_
    exact .pure (Decl.uses_of_attrs (own span) (List.forall_mem_nil _))

theorem func_uses : Makes (func g info start) (FuncDecl.Uses fine) := by
  refine .skip fun _ => .skip fun r => .skip fun opener => .skip fun params => .skip fun const => ?_
  refine .skip fun result => .skip fun body => .skip fun span => ?_
  exact .pure (FuncDecl.uses_of_attrs (own span))

theorem enumDecl_uses : Makes (enumDecl g info start) fun d => (Item.enum d).Uses fine := by
  refine .skip fun _ => .skip fun x => .skip fun opener => .skip fun members => .skip fun span => ?_
  exact .pure (Item.uses_of_attrs (own span))

end

theorem varDecl_uses {table : Table} {n : Nat} {start : Pos} {ms : Modifiers}
    {attrs : List AttributeUse} {fine : AttributeUse → Prop} (own : ∀ u ∈ attrs, fine u) :
    Makes (varDecl table n start ms attrs) fun d => (Item.var d).Uses fine := by
  refine .skip fun s => .skip fun x => .skip fun t => .skip fun v => .skip fun _ => .skip fun span => ?_
  exact .pure (Item.uses_of_attrs own)

theorem remember_stays {x : String × Nat} :
    Stays src m (modify fun c : Cursor => { c with arities := x :: c.arities } : Reader Unit) := by
  intro t
  rw [← bind_pure (modify _)]
  exact .remember (.pure trivial)

theorem asItem_takes {inner : Reader Decl} {fine : AttributeUse → Prop} (places : Places src m inner)
    (uses : Delivers src m inner (Decl.Uses fine)) :
    Takes src 0 m (inner >>= asItem) (Item.Uses fine) := by
  refine .giving places.member.stays (.last uses fun d uses => ?_)
  unfold asItem
  split
  · next f =>
    have attrs : ∀ u ∈ f.info.attrs, fine u := Item.Uses.attrs (i := .func f) uses
    rw [← asMethod_info] at attrs
    exact .pure (Item.uses_of_attrs (i := .func (asMethod f)) attrs)
  · exact .pure uses
  · exact failAt_makes

section

variable {g : Setting} (source : g.src = src.toList)

include source

theorem attributeDef_uses {info : Span → DeclInfo} {start : Pos}
    (own : ∀ span, ∀ u ∈ (info span).attrs, u.Applied src) (steps : m ≤ g.steps) :
    Delivers src m (attributeDef g info start) (Decl.Uses (·.Applied src)) := by
  refine .bind advance_stays fun _ _ => .bind name_eats fun x _ => ?_
  refine .bind (attributeParams_stays (by omega)) fun params _ => .bind remember_stays fun _ _ => ?_
  refine .bind expectOp_eats fun opener _ => ?_
  have each := directive_takes source
    (show m - 0 - 1 - 0 - 0 - 1 ≤ g.steps by omega)
  have once : Takes src 0 _ (directive g) (·.Applied src) :=
    fun t => (each t).mono (Nat.zero_le 1) (Nat.le_refl _) fun _ => id
  refine .last (bracedList_delivers once g.steps) fun us applied => .skip fun span => .pure ?_
  exact Decl.uses_of_attrs (own span) (List.forall_mem_map.mpr fun u member => Phrase.uses_use (applied u member))

theorem funcHere_takes (steps : m < g.steps) :
    Takes src 1 m (funcHere g) (FuncDecl.Uses (·.Applied src)) := by
  refine .giving (funcHere_eats steps) ?_
  refine .bind (attributeUses_takes source (Nat.le_of_lt steps)) fun attrs applied => ?_
  refine Makes.delivers (.skip fun start => .skip fun ms => .skip fun found => ?_)
  cases found with
  | false => exact unexpected_makes.never
  | true => exact func_uses fun _ => applied

theorem funcBlock_uses (steps : m < g.steps) :
    Delivers src m (funcBlock g) fun fs => ∀ f ∈ fs, f.Uses (·.Applied src) := by
  refine .bind expectOp_eats fun opener _ => bracedList_delivers (fun t => ?_) g.steps
  exact (funcHere_takes source (show m - 1 < g.steps by omega) t).mono (Nat.zero_le 1)
    (Nat.le_refl _) fun _ => id

theorem declWith_uses {inner : Reader Decl} (places : Places src (m - 1) inner)
    (uses : Delivers src (m - 1) inner (Decl.Uses (·.Applied src))) (steps : m < g.steps) :
    Delivers src m (declWith g inner) (Decl.Uses (·.Applied src)) := by
  refine .bind (attributeUses_takes source (Nat.le_of_lt steps)) fun attrs applied => .pos fun p => ?_
  refine .bind (modifiers_stays (by omega)) fun ms _ => .current fun t => ?_
  have own (span : Span) : ∀ u ∈ ({ span, attrs, modifiers := ms : DeclInfo }).attrs, u.Applied src :=
    applied
  have inside : Takes src 0 (m - 1) inner (Decl.Uses (·.Applied src)) := fun t =>
    (Takes.giving places.eats uses t).mono (Nat.zero_le 1) (Nat.le_refl _) fun _ => id
  have members := asItem_takes places uses
  have funcs := funcBlock_uses source (show m - 1 < g.steps by omega)
  have target : Eats src m (type g.steps) := (type_eats g.steps).mono (by omega)
  split
  · exact Makes.delivers (includeDecl_uses own)
  · exact Makes.delivers (includeDecl_uses own)
  · exact Makes.delivers (includeDecl_uses own)
  · exact Makes.delivers (includeDecl_uses own)
  · exact Makes.delivers (assumeDecl_uses own)
  · exact Makes.delivers (.skip fun text => .skip fun span => .pure (Item.uses_of_attrs applied))
  · refine .bind advance_stays fun _ _ => .bind name_eats fun x _ => ?_
    refine .bind expectOp_eats fun opener _ => ?_
    refine .last ((bracedList_delivers inside g.steps).mono (by omega)) fun ds each => .skip fun span => .pure ?_
    exact Decl.uses_of_attrs applied (List.forall_mem_flatMap.mpr each)
  · refine .bind advance_stays fun _ _ => .bind name_eats fun x _ => ?_
    refine .bind (bases_stays (by omega)) fun bs _ => .bind expectOp_eats fun opener _ => ?_
    refine .last ((bracedList_delivers members g.steps).mono (by omega)) fun items each => .skip fun span => .pure ?_
    refine Decl.uses_of_attrs applied (List.forall_mem_append.mpr ⟨?_, List.forall_mem_flatMap.mpr each⟩)
    exact List.forall_mem_map.mpr fun t _ => (Phrase.plain_type t).uses
  · refine .bind advance_stays fun _ _ => .bind name_eats fun x _ => .bind expectWord_eats fun _ _ => ?_
    refine .bind (target.mono (by omega)) fun target _ => ?_
    refine .last (funcs.mono (by omega)) fun fs each => .skip fun span => .pure ?_
    refine Decl.uses_of_attrs applied (List.forall_mem_cons.mpr ⟨(Phrase.plain_type target).uses, ?_⟩)
    exact List.forall_mem_flatMap.mpr each
  · refine .bind advance_stays fun _ _ => .bind (target.mono (by omega)) fun target _ => ?_
    refine .last (funcs.mono (by omega)) fun fs each => .skip fun span => .pure ?_
    refine Decl.uses_of_attrs applied (List.forall_mem_cons.mpr ⟨(Phrase.plain_type target).uses, ?_⟩)
    exact List.forall_mem_flatMap.mpr each
  · exact Makes.delivers (.map (enumDecl_uses own))
  · exact attributeDef_uses source own (by omega)
  · exact Makes.delivers (.map (func_uses own))
  · exact Makes.delivers (.map (varDecl_uses applied))
  · exact Makes.delivers unexpected_makes

theorem decl_uses (n : Nat) (fuel : m ≤ n) (steps : m < g.steps) :
    Delivers src m (decl g n) (Decl.Uses (·.Applied src)) := by
  induction n generalizing m with
  | zero => exact Makes.delivers exhausted_makes
  | succ n ih =>
    exact declWith_uses source (decl_eats n (by omega) (by omega)) (ih (by omega) (by omega)) steps

theorem decls_uses (n : Nat) (steps : m < g.steps) :
    Delivers src m (decls g n) fun ds => ∀ d ∈ ds, d.Uses (·.Applied src) := by
  induction n with
  | zero => exact Makes.delivers exhausted_makes
  | succ n ih =>
    refine .check (Makes.delivers (.pure (List.forall_mem_nil _))) ?_
    have places : Places src m (decl g g.steps) := decl_eats g.steps (Nat.le_of_lt steps) steps
    have uses := decl_uses source g.steps (Nat.le_of_lt steps) steps
    refine .bind (Takes.giving places.eats uses) fun d first => ?_
    exact .last (ih.mono (Nat.sub_le m 1)) fun ds rest =>
      .pure (List.forall_mem_cons.mpr ⟨first, rest⟩)

end

end Reader

theorem File.read_applies {table : Table} {name src : String} {file : File}
    (h : File.read table name src = .ok file)
    (inside : (Phrase.use u).Within (.node (.file file))) : u.Applied src := by
  obtain ⟨start, checked, run⟩ := except_bind_ok h
  obtain ⟨⟨_, _⟩, result, done⟩ := except_bind_ok run
  cases done
  obtain ⟨p, _, first, result⟩ := bind_ok result
  obtain ⟨-, rfl⟩ := Reader.pos_ok first
  obtain ⟨ds, _, read, result⟩ := bind_ok result
  obtain ⟨q, _, last, result⟩ := bind_ok result
  obtain ⟨rfl, -⟩ := pure_ok result
  have uses := Reader.decls_uses (g := ⟨table, src.toList, start.weight + 2⟩) rfl _
    (Nat.lt_succ_self _) start (.start checked) (Nat.lt_succ_self _) ds _ read
  exact Phrase.uses_node (n := .file ⟨_, name, ds⟩) (List.forall_mem_flatMap.mpr uses) u inside

/-- The arguments of attributes are the pieces of the text between the commas outside of brackets:
wherever the use of an attribute can be read in a text, and for all attributes of a file. A comma in a
literal, in a comment or in captured text is no token. -/
theorem attributes_apply (table : Table) (name src : String) :
    (∀ (g : Reader.Setting) (c c' : Cursor) (u : AttributeUse), g.src = src.toList → c.On src →
      Reader.attributeUse g c = .ok (u, c') → u.Applied src) ∧
    ∀ file, File.read table name src = .ok file →
      ∀ u, (Phrase.use u).Within (.node (.file file)) → u.Applied src :=
  ⟨fun _ _ _ _ source on read => Reader.attributeUse_applied read source on,
    fun _ read _ inside => File.read_applies read inside⟩

/-- Commas in brackets, in a literal and in comments, and one behind the last argument. -/
theorem attributes_apply_to_pieces :
    let src := "@pick(f(x, y) /* , */, 'a,', /* , */ b,) copy x: int;"
    let args := ["f(x, y) /* , */", "'a,'", "b", ""]
    (∃ g c c' u, Reader.Setting.src g = src.toList ∧ Cursor.On src c ∧
      Reader.attributeUse g c = .ok (u, c') ∧ u.args = args ∧ u.Applied src) ∧
    ∃ file u, File.read .default "a" src = .ok file ∧ (Phrase.use u).Within (.node (.file file)) ∧
      u.args = args ∧ u.Applied src := by
  intro src args
  have applies := attributes_apply .default "a" src
  constructor
  · let c : Cursor := { rest := (Token.stream src).tokens, stop := (Token.stream src).stop }
    let g : Reader.Setting := ⟨.default, src.toList, 100⟩
    have tokens : c = { rest := (Token.scanAt .eof .first src.toList).tokens
                        stop := (Token.scanAt .eof .first src.toList).stop } := by
      rw [Token.scanAt_eq]
      rfl
    have checked : c.checked.toOption.isSome = true := by
      rw [tokens, String.toList_ofList]
      decide +kernel
    have computed : (Reader.attributeUse g c).toOption.any (·.1.args == args) = true := by
      rw [tokens, String.toList_ofList]
      decide +kernel
    obtain ⟨d, start⟩ := Option.isSome_iff_exists.mp checked
    have start := toOption_eq_some start
    obtain ⟨rfl, -⟩ := Cursor.checked_ok start
    obtain ⟨⟨u, c'⟩, read, same⟩ := (Option.any_eq_true _ _).mp computed
    have read := toOption_eq_some read
    exact ⟨g, c, c', u, rfl, .start start, read, beq_iff_eq.mp same,
      applies.1 g c c' u rfl (.start start) read⟩
  · have computed : (File.read .default "a" src).toOption.any (fun file => file.decls.any fun d =>
        d.info.attrs.any fun u => u.args == args) = true := by
      rw [File.read_ofList]
      decide +kernel
    obtain ⟨file, found, used⟩ := (Option.any_eq_true _ _).mp computed
    obtain ⟨d, member, used⟩ := List.any_eq_true.mp used
    obtain ⟨u, attr, same⟩ := List.any_eq_true.mp used
    have read := toOption_eq_some found
    have inside : (Phrase.use u).Within (.node (.file file)) :=
      .part (List.mem_flatMap.mpr ⟨d, member, List.mem_append_left _ (List.mem_map_of_mem attr)⟩) .self
    exact ⟨file, u, read, inside, beq_iff_eq.mp same, applies.2 file read u inside⟩

end TastyLang
