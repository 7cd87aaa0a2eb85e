import Lox.Decimal.Binary

/-!
# The fewest digits that identify a number

A decimal **identifies** a binary64 number when it lies among the reals that round to it. The reals
that do so form an interval that ends halfway to the two neighbours, and its ends belong to it when
the significand is even. `Binary.shortest` looks for the coarsest grid of powers of ten that has a
point in the interval, among the two points of the grid next to the number.
-/

namespace Lox.Decimal

/-- The decimal `digits · 10 ^ exponent`. -/
structure Scaled where
  /-- The digits, read as a natural number. -/
  digits : Nat
  /-- The power of ten that the last digit counts. -/
  exponent : Int
deriving DecidableEq, Repr

/-- Compares `a · 10 ^ i` with `n · 2 ^ j`, exactly. -/
def compareScaled (a : Nat) (i : Int) (n : Nat) (j : Int) : Ordering :=
  compare ((a * Nat.pow 10 i.toNat) <<< (-j).toNat) ((n * Nat.pow 10 (-i).toNat) <<< j.toNat)

namespace Binary

/-- Whether a decimal lies among the reals that round to the magnitude of a number. -/
def isIdentifiedBy (x : Binary) (d : Scaled) : Bool :=
  let low := if x.narrowBelow then 4 * x.m - 1 else 4 * x.m - 2
  let high := 4 * x.m + 2
  let fromLow := compareScaled d.digits d.exponent low (x.q - 2)
  let fromHigh := compareScaled d.digits d.exponent high (x.q - 2)
  if x.m % 2 = 0 then fromLow != .lt && fromHigh != .gt else fromLow == .gt && fromHigh == .lt

/-- The nearest multiple of `10 ^ exponent` that identifies a number; of two equally near ones the
greater. -/
def onGrid? (x : Binary) (exponent : Int) : Option Scaled :=
  let numerator := (x.m * Nat.pow 10 (-exponent).toNat) <<< x.q.toNat
  let denominator := Nat.pow 10 exponent.toNat <<< (-x.q).toNat
  let below : Scaled := ⟨numerator / denominator, exponent⟩
  let above : Scaled := ⟨numerator / denominator + 1, exponent⟩
  match x.isIdentifiedBy below, x.isIdentifiedBy above with
  | true, true => if 2 * (numerator % denominator) < denominator then some below else some above
  | true, false => some below
  | false, true => some above
  | false, false => none

/-- The exponent of a power of ten that is greater than the number. -/
def topExponent (x : Binary) : Int :=
  ((x.m.log2 : Int) + x.q + 1) * 30103 / 100000 + 1

/-- The decimal with the fewest digits that identifies a number other than zero. Seventeen digits
always suffice; the exact value stands behind the search. -/
def shortest (x : Binary) : Scaled :=
  match (List.range 20).findSome? fun (i : Nat) => x.onGrid? (x.topExponent - i) with
  | some d => d
  | none => if 0 ≤ x.q then ⟨x.m <<< x.q.toNat, 0⟩ else ⟨x.m * Nat.pow 5 (-x.q).toNat, x.q⟩

end Binary

end Lox.Decimal
