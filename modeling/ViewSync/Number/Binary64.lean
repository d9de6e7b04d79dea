/-!
# Binary64 numbers

A finite floating-point number, kept as its 64 bits: a sign, an exponent of eleven bits and a
fraction of fifty-two. Every magnitude is a whole number of `2 ^ -1074`, the gap between the
smallest ones, so the arithmetic below is exact arithmetic on natural numbers, followed by one
rounding to nearest, ties to even.
-/

namespace ViewSync

/-- A binary64 number, by its bits. -/
structure Binary64 where
  /-- Sign, exponent and fraction, from the top. -/
  bits : UInt64
  deriving DecidableEq

namespace Binary64

/-- The bits without the sign. They grow with the magnitude. -/
def magnitudeBits (x : Binary64) : Nat := x.bits.toNat % Nat.pow 2 63

/-- Whether the sign bit is set, which it also is for `-0.0`. -/
def isNegative (x : Binary64) : Bool := Nat.pow 2 63 ≤ x.bits.toNat

/-- Zero of either sign. -/
def isZero (x : Binary64) : Bool := x.magnitudeBits = 0

/-- The number of a sign and magnitude bits. -/
def ofMagnitude (negative : Bool) (magnitude : Nat) : Binary64 :=
  ⟨UInt64.ofNat (if negative then Nat.pow 2 63 + magnitude else magnitude)⟩

/-- Equality of numbers: the two zeros are equal, every other number only equals itself. -/
def same (x y : Binary64) : Bool := x = y || (x.isZero && y.isZero)

/-- Step between neighbours is `2 ^ shift` times the smallest. -/
def shift (x : Binary64) : Nat := x.magnitudeBits / Nat.pow 2 52 - 1

/-- The magnitude in steps of `2 ^ shift`. -/
def mantissa (x : Binary64) : Nat :=
  if x.magnitudeBits < Nat.pow 2 52 then x.magnitudeBits
  else x.magnitudeBits % Nat.pow 2 52 + Nat.pow 2 52

/-- The magnitude in units of `2 ^ -1074`. -/
def units (x : Binary64) : Nat := x.mantissa * Nat.pow 2 x.shift

/-- How many units make one. -/
def unitsPerOne : Nat := Nat.pow 2 1074

/-- Quotient to the nearest whole number, a half to the even one. -/
def roundDiv (num den : Nat) : Nat :=
  let q := num / den
  let r := 2 * (num % den)
  if r < den then q else if den < r then q + 1 else q + q % 2

/-- Magnitude bits of the number nearest to `num / den`. -/
def roundedBits (num den : Nat) : Nat :=
  let n := num * unitsPerOne
  let s := Nat.log2 (n / den) - 52
  s * Nat.pow 2 52 + roundDiv n (den * Nat.pow 2 s)

/-- The number nearest to `num / den` with the given sign, unless it is too large for one. -/
def ofRatio? (negative : Bool) (num den : Nat) : Option Binary64 :=
  let b := roundedBits num den
  if b < 2047 * Nat.pow 2 52 then some (ofMagnitude negative b) else none

/-- The rounded product of the magnitudes, with the sign of the first. -/
def times? (x y : Binary64) : Option Binary64 :=
  ofRatio? x.isNegative (x.units * y.units) (unitsPerOne * unitsPerOne)

/-- The rounded quotient of the magnitudes, with the sign of the first. -/
def dividedBy? (x y : Binary64) : Option Binary64 :=
  ofRatio? x.isNegative x.units y.units

theorem same_refl (x : Binary64) : x.same x = true := by simp [same]

end Binary64

end ViewSync
