import ViewSync.Number.Binary64

/-!
# Decimal numerals

What a decimal numeral denotes. A numeral keeps a significand of at most 64 bits: from the first
digit that no longer fits, digits are dropped, and each dropped digit before the point raises the
exponent by one. The significand is then rounded to binary64 and scaled by a rounded power of ten,
once for exponents up to 308 in size. A numeral of many digits may so read as a neighbour of the
nearest number; one of at most fifteen digits and a small exponent reads exactly as rounded.
-/

namespace ViewSync.Numeral

/-- A significand fits when it is below `2 ^ 64`. -/
def fits (significand : Nat) : Bool := significand < Nat.pow 2 64

/-- A significand with a power of ten. -/
structure Scaled where
  /-- The digits, read as one number. -/
  significand : Nat
  /-- The power of ten that it is multiplied with. -/
  exponent : Int

/-- Digits before the point, and whether all of them fit. -/
def readWhole : Nat → List Nat → Scaled × Bool
  | s, [] => (⟨s, 0⟩, true)
  | s, d :: ds =>
    if fits (10 * s + d) then readWhole (10 * s + d) ds
    else (⟨s, (d :: ds).length⟩, false)

/-- Digits after the point, each lowering the exponent while they fit. -/
def readFraction (n : Scaled) : List Nat → Scaled
  | [] => n
  | d :: ds =>
    if fits (10 * n.significand + d) then
      readFraction ⟨10 * n.significand + d, n.exponent - 1⟩ ds
    else n

/-- The largest power of ten that is scaled by in one step. -/
def maxPower : Nat := 308

/-- A power of ten up to the largest, rounded. -/
def powerOfTen? (k : Nat) : Option Binary64 := Binary64.ofRatio? false (Nat.pow 10 k) 1

/-- Divide by `10 ^ maxPower` so many times, then by `10 ^ k`. -/
def divideByPowers (k : Nat) : Nat → Binary64 → Option Binary64
  | 0, x => (powerOfTen? k).bind x.dividedBy?
  | n + 1, x =>
    if x.isZero then some x
    else ((powerOfTen? maxPower).bind x.dividedBy?).bind (divideByPowers k n)

/-- The number that a significand with a power of ten reads as, if it is not too large. -/
def Scaled.value? (n : Scaled) (negative : Bool) : Option Binary64 := do
  let x ← Binary64.ofRatio? negative n.significand 1
  if x.isZero then some x
  else if n.exponent < 0 then
    divideByPowers (n.exponent.natAbs % maxPower) (n.exponent.natAbs / maxPower) x
  else if n.exponent ≤ maxPower then x.times? (← powerOfTen? n.exponent.natAbs)
  else none

end ViewSync.Numeral
