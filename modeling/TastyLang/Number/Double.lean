/-!
# Binary floating-point numbers

A finite number of 64 bits is a whole number of at most 53 bits times a power of two. Decimals
become the nearest such number (`Double.ofDecimal?`), of two that are as near the even one. In
texts a number has the fewest digits that read back as the same number (`Double.shortest`).
All of it is exact arithmetic on whole numbers.
-/

namespace TastyLang

/-- `mantissa` times two to the power of `exponent`. -/
structure Double where
  negative : Bool := false
  mantissa : Nat
  exponent : Int
  deriving DecidableEq, Inhabited

namespace Double

/-- The least exponent. -/
def leastExponent : Int := -1074

/-- The greatest exponent of a mantissa of 53 bits. -/
def greatestExponent : Int := 971

/-- What the mantissas are less than. -/
def mantissaBound : Nat := Nat.pow 2 53

/-- The fraction `num / den` times a power of `base`. -/
def scale (base : Nat) (power : Int) (num den : Nat) : Nat × Nat :=
  if 0 ≤ power then (num * Nat.pow base power.toNat, den)
  else (num, den * Nat.pow base (-power).toNat)

/-- The whole number nearest to a fraction; a half goes to the even neighbour. -/
def nearest (num den : Nat) : Nat :=
  let q := num / den
  let twice := 2 * (num % den)
  if twice < den then q else if den < twice then q + 1 else q + q % 2

/-- The number nearest to a positive fraction, unless it is too large. -/
def ofFraction? (negative : Bool) (num den : Nat) : Option Double :=
  let low := max ((num.log2 : Int) - den.log2 - 53) leastExponent
  let (n, d) := scale 2 (-low) num den
  let exponent := if mantissaBound ≤ n / d then low + 1 else low
  let (n, d) := scale 2 (-exponent) num den
  let m := nearest n d
  let (m, exponent) := if m = mantissaBound then (m / 2, exponent + 1) else (m, exponent)
  if greatestExponent < exponent then none else some ⟨negative, m, exponent⟩

/-- The number of digits of a number, none for zero. -/
def digitCount (n : Nat) : Nat := if n = 0 then 0 else (Nat.toDigits 10 n).length

/-- The number nearest to `digits` times ten to the power of `power`, unless it is too large. -/
def ofDecimal? (negative : Bool) (digits : Nat) (power : Int) : Option Double :=
  let size := digitCount digits + power
  if digits = 0 || size < -330 then some ⟨negative, 0, 0⟩
  else if 310 < size then none
  else
    let (num, den) := scale 10 power digits 1
    ofFraction? negative num den

def isZero (x : Double) : Bool := x.mantissa == 0

/-- The whole part. -/
def whole (x : Double) : Int :=
  let (num, den) := scale 2 x.exponent x.mantissa 1
  if x.negative then -(num / den : Nat) else (num / den : Nat)

/-! ### Shortest decimals -/

/-- Whether the `c`-th point of a grid reads back as a number: it lies no further away than halfway
to the neighbours, and halfway itself for an even mantissa only. -/
def readsBack (even : Bool) (low high unit c : Nat) : Bool :=
  if even then low ≤ c * unit && c * unit ≤ high else low < c * unit && c * unit < high

/-- The digits of the number on the grid of a power of ten, if a point there reads back. -/
def onGrid? (x : Double) (power : Int) : Option Nat :=
  let even := x.mantissa % 2 == 0
  let edge := x.mantissa * 2 == mantissaBound && leastExponent < x.exponent
  let (factor, unit) := scale 2 (x.exponent - 2) 1 1
  let (unit, factor) := scale 10 power unit factor
  let value := 4 * x.mantissa * factor
  let low := (4 * x.mantissa - (if edge then 1 else 2)) * factor
  let high := (4 * x.mantissa + 2) * factor
  let below := value / unit
  let hit := readsBack even low high unit
  match hit below && 0 < below, hit (below + 1) with
  | true, true => some (nearest value unit)
  | true, false => some below
  | false, true => some (below + 1)
  | false, false => none

/-- Looks for the coarsest grid with a point that reads back. -/
def coarsest (x : Double) : Nat → Int → Nat × Int
  | 0, power => (0, power)
  | n + 1, power =>
    match x.onGrid? power with
    | some digits => (digits, power)
    | none => coarsest x n (power - 1)

/-- The fewest digits, and the power of ten behind them, that read back as the number. The search
starts above the number's own magnitude, and seventeen digits always read back. -/
def shortest (x : Double) : Nat × Int :=
  if x.isZero then (0, 0)
  else
    let bits : Int := x.mantissa.log2 + x.exponent
    coarsest x 40 (bits * 30103 / 100000 + 2)

/-! ### Texts -/

def sign (x : Double) : String := if x.negative then "-" else ""

/-- The number without exponent. -/
def positional (x : Double) : String :=
  let (digits, power) := x.shortest
  let ds := Nat.toDigits 10 digits
  x.sign ++ String.ofList (
    if 0 ≤ power then ds ++ List.replicate power.toNat '0'
    else
      let places := (-power).toNat
      let ds := List.replicate (places + 1 - ds.length) '0' ++ ds
      ds.take (ds.length - places) ++ '.' :: ds.drop (ds.length - places))

/-- The number with one digit in front of the point and an exponent. -/
def scientific (x : Double) : String :=
  let (digits, power) := x.shortest
  let ds := Nat.toDigits 10 digits
  let exponent := power + ds.length - 1
  let fraction := match ds.drop 1 with
    | [] => []
    | ds => '.' :: ds
  x.sign ++ String.ofList (ds.take 1 ++ fraction) ++ "e" ++ (if exponent < 0 then "-" else "+")
    ++ toString exponent.natAbs

/-- The number in a data text: without exponent from a millionth up to less than 10²¹. -/
def text (x : Double) : String :=
  let (digits, power) := x.shortest
  let size := digitCount digits + power
  if x.isZero || (-6 < size && size < 22) then x.positional else x.scientific

end Double

end TastyLang
