import ViewSync.Number.Binary64

/-!
# The shortest decimal of a number

A decimal reads back as a number when it lies in the interval of reals that round to it: half a
step to either side, only a quarter below a power of two, and the ends belong to it when the
mantissa is even. `shortest` looks for the coarsest decimal grid with a point in that interval. If
a grid has one, so has one of the value's two neighbours on it, so two candidates per grid are
enough; of two that fit the nearer is taken.
-/

namespace ViewSync.Binary64

/-- A decimal `digits * 10 ^ exponent`. -/
structure Decimal where
  /-- The digits, read as one number. -/
  digits : Nat
  /-- The power of ten that it is multiplied with. -/
  exponent : Int
  deriving DecidableEq

/-- The ends of the interval that rounds to `x`, in quarters of a step. -/
def interval (x : Binary64) : Nat × Nat :=
  let below := if x.mantissa = Nat.pow 2 52 && x.shift ≠ 0 then 1 else 2
  (4 * x.mantissa - below, 4 * x.mantissa + 2)

/-- Exponent of the leading decimal digit of a nonzero magnitude. -/
def leadingExponent (x : Binary64) : Int :=
  -- no magnitude is below 10 ^ -324, so it is at least one after the shift
  ((Nat.toDigits 10 (x.units * Nat.pow 10 324 / unitsPerOne)).length : Int) - 325

/-- The point of the grid of `10 ^ k` that reads back as `x`, the one nearer to it if two do. -/
def onGrid? (x : Binary64) (k : Int) : Option Decimal :=
  let grow := Nat.pow 10 (-k).toNat * Nat.pow 2 x.shift
  let grid := Nat.pow 10 k.toNat * (4 * unitsPerOne)
  let value := 4 * x.mantissa * grow
  let (low, high) := x.interval
  let fits (d : Nat) : Bool :=
    if x.mantissa % 2 = 0 then low * grow ≤ d * grid && d * grid ≤ high * grow
    else low * grow < d * grid && d * grid < high * grow
  let d := value / grid
  match fits d, fits (d + 1) with
  | true, true =>
    let below := value - d * grid
    let above := (d + 1) * grid - value
    some ⟨if below < above then d else if above < below then d + 1 else d + d % 2, k⟩
  | true, false => some ⟨d, k⟩
  | false, true => some ⟨d + 1, k⟩
  | false, false => none

/-- The shortest decimal that reads back as a nonzero `x`. Seventeen digits always do. -/
def shortest (x : Binary64) : Decimal :=
  ((List.range 17).findSome? fun (n : Nat) => x.onGrid? (x.leadingExponent - n)).getD
    ⟨0, x.leadingExponent⟩

end ViewSync.Binary64
