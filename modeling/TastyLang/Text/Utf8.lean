/-!
# Bytes and characters

`decodeUtf8` reads characters off bytes, and `placed` also tells where they start; a byte that
belongs to no character becomes the replacement character.
-/

namespace TastyLang.Text

def utf8Bytes (c : Char) : List Nat := (String.utf8EncodeChar c).map (·.toNat)

def replacement : Char := Char.ofNat 0xFFFD

def isTrailByte (b : Nat) : Bool := 0x80 ≤ b && b < 0xC0

/-- The character of a code point that fits the number of its bytes. -/
def decoded (low code : Nat) : Option Char :=
  if low ≤ code && code < 0x110000 && !(0xD800 ≤ code && code < 0xE000) then
    some (Char.ofNat code)
  else none

/-- The character that starts with the byte `a`, and how many of the following bytes belong to
it. -/
def decodeOne (a : Nat) (rest : List Nat) : Char × Nat :=
  let found : Option (Char × Nat) :=
    if a < 0x80 then some (Char.ofNat a, 0)
    else
      match rest with
      | b :: rest =>
        if !isTrailByte b then none
        else if 0xC0 ≤ a && a < 0xE0 then
          (decoded 0x80 ((a - 0xC0) * 0x40 + (b - 0x80))).map (·, 1)
        else
          match rest with
          | c :: rest =>
            let two := (b - 0x80) * 0x40 + (c - 0x80)
            if !isTrailByte c then none
            else if 0xE0 ≤ a && a < 0xF0 then
              (decoded 0x800 ((a - 0xE0) * 0x1000 + two)).map (·, 2)
            else
              match rest with
              | d :: _ =>
                if 0xF0 ≤ a && a < 0xF8 && isTrailByte d then
                  (decoded 0x10000 ((a - 0xF0) * 0x40000 + two * 0x40 + (d - 0x80))).map (·, 3)
                else none
              | [] => none
          | [] => none
      | [] => none
  found.getD (replacement, 0)

/-- The characters that bytes stand for, each with the place of its first byte. -/
def placed (bytes : List Nat) : List (Nat × Char) := go bytes.length 0 bytes
where
  go : Nat → Nat → List Nat → List (Nat × Char)
    | _, _, [] => []
    | 0, _, _ :: _ => []
    | n + 1, i, a :: rest =>
      let (c, more) := decodeOne a rest
      (i, c) :: go n (i + 1 + more) (rest.drop more)

def decodeUtf8 (bytes : List Nat) : List Char := (placed bytes).map (·.2)

/-- The number of bytes of the first character, or one where there is none. -/
def firstSize : List Nat → Nat
  | [] => 1
  | a :: rest => (decodeOne a rest).2 + 1

def bytesOf (s : String) : List Nat := s.toList.flatMap utf8Bytes

end TastyLang.Text
