import ViewSync.Number.Shortest
import ViewSync.Number.Numeral

/-!
# Numbers

A number is an integer or a binary64 number. The two never equal each other, even where they have
the same value, and each has one text.
-/

namespace ViewSync

/-- An integer, or a finite floating-point number. -/
inductive Number where
  | int (z : Int)
  | float (x : Binary64)
  deriving DecidableEq

namespace Number

/-- Equality of numbers: an integer and a float differ, and the two float zeros are equal. -/
def same : Number → Number → Bool
  | .int a, .int b => a = b
  | .float x, .float y => x.same y
  | _, _ => false

/-- Floats of this magnitude and above are written with an exponent. -/
def positionalBelow : Int := 16

/-- Floats whose leading digit stands further right than this are written with an exponent. -/
def positionalFrom : Int := -5

/-- Digits with the leading one worth `10 ^ e`, with a point and at least one digit after it. -/
def positional (digits : List Char) (e : Int) : List Char :=
  if e < 0 then "0.".toList ++ List.replicate ((-e).toNat - 1) '0' ++ digits
  else
    let whole := e.toNat + 1
    if digits.length ≤ whole then
      digits ++ List.replicate (whole - digits.length) '0' ++ ".0".toList
    else digits.take whole ++ '.' :: digits.drop whole

/-- Digits with the leading one worth `10 ^ e`, with a signed exponent. -/
def scientific (digits : List Char) (e : Int) : List Char :=
  let mark := if e < 0 then "e-".toList else "e+".toList
  let point := if digits.length ≤ 1 then digits else digits.take 1 ++ '.' :: digits.drop 1
  point ++ mark ++ (toString e.natAbs).toList

/-- Digits of a decimal without the zeros at its end. -/
def significantDigits (d : Nat) : List Char :=
  ((Nat.toDigits 10 d).reverse.dropWhile (· = '0')).reverse

/-- The shortest text that reads back as `x`. -/
def floatText (x : Binary64) : List Char :=
  let magnitude :=
    if x.isZero then "0.0".toList
    else
      let d := x.shortest
      let e := d.exponent + ((Nat.toDigits 10 d.digits).length : Int) - 1
      let digits := significantDigits d.digits
      if positionalFrom ≤ e && e < positionalBelow then positional digits e
      else scientific digits e
  if x.isNegative then '-' :: magnitude else magnitude

/-- The text of a number. -/
def text : Number → String
  | .int z => toString z
  | .float x => String.ofList (floatText x)

/-- The least integer of 64 bits with a sign. -/
def minSigned : Int := -9223372036854775808

/-- The greatest integer of 64 bits with a sign. -/
def maxSigned : Int := 9223372036854775807

/-- The number of a numeral without point and exponent, or of one that keeps its exact value when
it has them. `-0` and integers that fit neither 64 bits nor 63 with a sign are floats. -/
def ofNumeral? (negative : Bool) (whole : List Nat) (fraction : Option (List Nat))
    (exponent : Option Int) : Option Number :=
  let (n, complete) := Numeral.readWhole 0 whole
  match fraction, exponent with
  | none, none =>
    if !complete then (n.value? negative).map .float
    else if !negative then some (.int n.significand)
    else if n.significand = 0 || (-(n.significand : Int) < minSigned) then
      (n.value? negative).map .float
    else some (.int (-(n.significand : Int)))
  | _, _ =>
    let n := Numeral.readFraction n (fraction.getD [])
    ((⟨n.significand, n.exponent + exponent.getD 0⟩ : Numeral.Scaled).value? negative).map .float

theorem same_refl (n : Number) : n.same n = true := by
  cases n <;> simp [same, Binary64.same_refl]

end Number

end ViewSync
