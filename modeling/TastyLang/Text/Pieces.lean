/-!
# Cutting texts

Dropping a known head or tail, cutting at a separator, and joining again. All of them work on
the characters of a text. `join_cut` says that cutting loses nothing.
-/

namespace TastyLang.Text

/-- The characters of `cs` after the head `p`, or `none` when `cs` does not start with `p`. -/
def after? : List Char → List Char → Option (List Char)
  | [], cs => some cs
  | _ :: _, [] => none
  | p :: ps, c :: cs => if p = c then after? ps cs else none

/-- `s` without the head `p`. -/
def dropHead? (p s : String) : Option String :=
  (after? p.toList s.toList).map String.ofList

/-- `s` without the head `p`, or `s` itself when it starts otherwise. -/
def dropHead (p s : String) : String :=
  (dropHead? p s).getD s

/-- `s` without the tail `p`. -/
def dropTail? (p s : String) : Option String :=
  (after? p.toList.reverse s.toList.reverse).map fun cs => String.ofList cs.reverse

/-- `s` without the tail `p`, or `s` itself when it ends otherwise. -/
def dropTail (p s : String) : String :=
  (dropTail? p s).getD s

def startsWith (p s : String) : Bool := (dropHead? p s).isSome

def endsWith (p s : String) : Bool := (dropTail? p s).isSome

/-- The pieces of `cs` between the characters `sep`; never empty. -/
def cutChars (sep : Char) : List Char → List (List Char)
  | [] => [[]]
  | c :: cs =>
    if c = sep then [] :: cutChars sep cs
    else
      match cutChars sep cs with
      | [] => [[c]]
      | piece :: rest => (c :: piece) :: rest

/-- The pieces of `s` between the characters `sep`; never empty. -/
def cut (sep : Char) (s : String) : List String :=
  (cutChars sep s.toList).map String.ofList

/-- The pieces put together again with `sep` between them. -/
def join (sep : String) : List String → String
  | [] => ""
  | [s] => s
  | s :: rest => s ++ sep ++ join sep rest

def joinChars (sep : Char) : List (List Char) → List Char
  | [] => []
  | [s] => s
  | s :: rest => s ++ sep :: joinChars sep rest

/-- `s` with every character `c` written as `r`. -/
def replaceChar (c : Char) (r s : String) : String :=
  String.ofList (s.toList.flatMap fun x => if x = c then r.toList else [x])

/-- The head of `cs` in front of the last `sep`, if there is one. -/
def beforeLast? (sep : Char) : List Char → Option (List Char)
  | [] => none
  | c :: cs =>
    match beforeLast? sep cs with
    | some head => some (c :: head)
    | none => if c = sep then some [] else none

/-- Whether `part` occurs in `cs`. -/
def occursIn (part : List Char) : List Char → Bool
  | [] => part.isEmpty
  | c :: cs => (after? part (c :: cs)).isSome || occursIn part cs

/-- Whether the text `part` occurs in `s`. -/
def occurs (part s : String) : Bool := occursIn part.toList s.toList

/-- `n` copies of `s`. -/
def repeated (s : String) : Nat → String
  | 0 => ""
  | n + 1 => s ++ repeated s n

/-! ### Laws -/

theorem cutChars_ne_nil (sep : Char) (cs : List Char) : cutChars sep cs ≠ [] := by
  cases cs with
  | nil => simp [cutChars]
  | cons c cs =>
    rw [cutChars]
    split
    · simp
    · split <;> simp

theorem joinChars_cons {sep : Char} {s : List Char} {rest : List (List Char)} (h : rest ≠ []) :
    joinChars sep (s :: rest) = s ++ sep :: joinChars sep rest := by
  cases rest with
  | nil => exact absurd rfl h
  | cons t rest => rfl

theorem joinChars_cons_cons (sep c : Char) (s : List Char) (rest : List (List Char)) :
    joinChars sep ((c :: s) :: rest) = c :: joinChars sep (s :: rest) := by
  cases rest <;> rfl

theorem join_cut (sep : Char) (cs : List Char) : joinChars sep (cutChars sep cs) = cs := by
  induction cs with
  | nil => rfl
  | cons c cs ih =>
    rw [cutChars]
    split
    · next h => rw [joinChars_cons (cutChars_ne_nil sep cs), ih, h]; rfl
    · split
      · next h => exact absurd h (cutChars_ne_nil sep cs)
      · next piece rest h => rw [joinChars_cons_cons, ← h, ih]

theorem beforeLast?_eq_none {sep : Char} {cs : List Char} :
    beforeLast? sep cs = none ↔ sep ∉ cs := by
  induction cs with
  | nil => simp [beforeLast?]
  | cons c cs ih =>
    rw [beforeLast?, List.mem_cons, not_or, ← ih]
    split
    next head found => simp [found]
    next none => simp [none, eq_comm]

theorem beforeLast?_some {sep : Char} {cs head : List Char} (h : beforeLast? sep cs = some head) :
    ∃ tail, cs = head ++ sep :: tail ∧ sep ∉ tail := by
  induction cs generalizing head with
  | nil => cases h
  | cons c cs ih =>
    rw [beforeLast?] at h
    split at h
    next head' found =>
      cases h
      obtain ⟨tail, rfl, last⟩ := ih found
      exact ⟨tail, rfl, last⟩
    next none =>
      split at h
      next here =>
        cases h
        exact ⟨cs, by rw [here, List.nil_append], beforeLast?_eq_none.mp none⟩
      next => cases h

theorem after?_eq_some {p cs rest : List Char} : after? p cs = some rest ↔ cs = p ++ rest := by
  induction p generalizing cs with
  | nil => simp [after?, eq_comm]
  | cons a p ih =>
    cases cs with
    | nil => simp [after?]
    | cons c cs =>
      by_cases h : a = c
      · simp [after?, h, ih]
      · simp [after?, h, Ne.symm h]

end TastyLang.Text

/-! ### Blank characters

The characters that count as white space in a text, and trimming by them. The set is the Unicode
property `White_Space`, which is wider than `Char.isWhitespace`.
-/

namespace TastyLang.Text

/-- White space: the ASCII blanks, the no-break and next-line characters, and the wide spaces. -/
def isBlank (c : Char) : Bool :=
  let n := c.toNat
  (9 ≤ n && n ≤ 13) || n == 0x20 || n == 0x85 || n == 0xA0 || n == 0x1680
    || (0x2000 ≤ n && n ≤ 0x200A) || n == 0x2028 || n == 0x2029 || n == 0x202F || n == 0x205F
    || n == 0x3000

def dropLastWhile (p : Char → Bool) (cs : List Char) : List Char :=
  (cs.reverse.dropWhile p).reverse

def trimChars (cs : List Char) : List Char :=
  dropLastWhile isBlank (cs.dropWhile isBlank)

def trim (s : String) : String := String.ofList (trimChars s.toList)

end TastyLang.Text
