/-!
# Numerals

Signed numerals with a value that fits into a signed machine word of 64 bits. `integer?` reads the
decimal ones of tuple indices, `numeral` also those with a mark for their base, as settings may
write them, and `decimal?` those with a point or an exponent.
-/

namespace TastyLang.Text

def isDigit (c : Char) : Bool := '0' ≤ c && c ≤ '9'

def digitValue (c : Char) : Nat := c.toNat - '0'.toNat

/-- The value of a run of digits read after `acc`; `none` at any other character. -/
def digits? (acc : Nat) : List Char → Option Nat
  | [] => some acc
  | c :: cs => if isDigit c then digits? (acc * 10 + digitValue c) cs else none

/-- The value of a non-empty run of digits. -/
def natural? : List Char → Option Nat
  | [] => none
  | cs => digits? 0 cs

/-- Whether `n` fits into a signed word of 64 bits. -/
def fitsWord (n : Int) : Bool := -0x8000000000000000 ≤ n && n < 0x8000000000000000

/-- The value of a signed numeral that fits into a word. -/
def integer? (s : String) : Option Int :=
  let value : Option Int :=
    match s.toList with
    | '-' :: cs => (natural? cs).map fun n => -(n : Int)
    | '+' :: cs => (natural? cs).map fun n => (n : Int)
    | cs => (natural? cs).map fun n => (n : Int)
  value.filter fitsWord

/-! ### Numerals in any base -/

inductive NumeralFault where
  | malformed
  | outOfRange
  deriving DecidableEq, Inhabited

/-- The value of a digit or a letter that stands for one. -/
def letterValue? (c : Char) : Option Nat :=
  if isDigit c then some (digitValue c)
  else if 'a' ≤ c && c ≤ 'z' then some (c.toNat - 'a'.toNat + 10)
  else if 'A' ≤ c && c ≤ 'Z' then some (c.toNat - 'A'.toNat + 10)
  else none

/-- The value of digits read after `acc`, without the underscores among them. A value that is too
large for a word is found before what follows it. -/
def radixValue (radix : Nat) : Nat → List Char → Except NumeralFault Nat
  | acc, [] => .ok acc
  | acc, '_' :: cs => radixValue radix acc cs
  | acc, c :: cs =>
    match letterValue? c with
    | none => .error .malformed
    | some d =>
      if radix ≤ d then .error .malformed
      else if 0x10000000000000000 ≤ acc * radix + d then .error .outOfRange
      else radixValue radix (acc * radix + d) cs

/-- Whether every underscore stands between two digits; `digit` says whether one stands in front. -/
def separated : Bool → List Char → Bool
  | digit, [] => digit
  | digit, '_' :: cs => digit && separated false cs
  | _, _ :: cs => separated true cs

/-- The base of a numeral, whether a mark for it stands in front, and the digits: two after `0b`,
eight after `0o` or `0`, sixteen after `0x`, and otherwise ten. -/
def radixOf : List Char → Nat × Bool × List Char
  | '0' :: c :: d :: cs =>
    match c.toLower with
    | 'b' => (2, true, d :: cs)
    | 'o' => (8, true, d :: cs)
    | 'x' => (16, true, d :: cs)
    | _ => (8, true, c :: d :: cs)
  | '0' :: cs => (8, true, cs)
  | cs => (10, false, cs)

/-- The value of a numeral without a sign. -/
def unsigned (cs : List Char) : Except NumeralFault Nat := do
  let (radix, marked, ds) := radixOf cs
  let n ← radixValue radix 0 ds
  if separated marked ds then return n else throw .malformed

/-- The value of a numeral in any base. -/
def numeral (s : String) : Except NumeralFault Int := do
  let n : Int ←
    match s.toList with
    | '-' :: cs => (unsigned cs).map fun n => -(n : Int)
    | '+' :: cs => (unsigned cs).map fun n => (n : Int)
    | cs => (unsigned cs).map fun n => (n : Int)
  if fitsWord n then return n else throw .outOfRange

/-! ### Decimals -/

/-- `digits` times ten to the power of `power`, as it is written. -/
structure Decimal where
  negative : Bool
  digits : Nat
  power : Int
  /-- neither a point nor an exponent is written -/
  integral : Bool
  deriving DecidableEq, Inhabited

/-- The value of an exponent behind its letter. -/
def exponent? : List Char → Option Int
  | '-' :: cs => (natural? cs).map fun n => -(n : Int)
  | '+' :: cs => (natural? cs).map fun n => (n : Int)
  | cs => (natural? cs).map fun n => (n : Int)

/-- The decimal that a text is: digits with or without a point and an exponent. -/
def decimal? (cs : List Char) : Option Decimal := do
  let (negative, cs) := match cs with
    | '-' :: cs => (true, cs)
    | '+' :: cs => (false, cs)
    | cs => (false, cs)
  let mantissa := cs.takeWhile fun c => c != 'e' && c != 'E'
  let power := cs.dropWhile fun c => c != 'e' && c != 'E'
  let fraction := (mantissa.dropWhile (· != '.')).drop 1
  let digits ← natural? (mantissa.takeWhile (· != '.') ++ fraction)
  let e ← if power.isEmpty then some 0 else exponent? (power.drop 1)
  return ⟨negative, digits, e - fraction.length, power.isEmpty && !mantissa.contains '.'⟩

end TastyLang.Text
