/-!
# Finite binary64 numbers, exactly

A finite number is a sign, a natural number `m` and a power of two: `± m · 2 ^ q`. On these parts
wholeness, the integer value and the remainder of a division are computed without rounding, and
`Binary.toFloat` packs the parts again.
-/

namespace Lox.Decimal

/-- A finite binary64 number, `m · 2 ^ q` with a sign. -/
structure Binary where
  /-- The number lies below zero, or is the negative zero. -/
  negative : Bool
  /-- The significand. -/
  m : Nat
  /-- The exponent of two. -/
  q : Int
  /-- The gap to the next number towards zero is half the gap to the next one away from it. -/
  narrowBelow : Bool

namespace Binary

/-- The parts of a finite number, from its bits. -/
def ofBits (bits : UInt64) : Binary :=
  let negative := bits >>> 63 == 1
  let exponent := ((bits >>> 52) &&& 0x7FF).toNat
  let fraction := (bits &&& 0xFFFFFFFFFFFFF).toNat
  if exponent = 0 then ⟨negative, fraction, -1074, false⟩
  else ⟨negative, 0x10000000000000 + fraction, (exponent : Int) - 1075,
      decide (fraction = 0 ∧ 1 < exponent)⟩

/-- The parts of a number, or `none` when it is infinite or no number. -/
def ofFloat? (x : Float) : Option Binary :=
  if x.isNaN || x.isInf then none else some (ofBits x.toBits)

/-- A number is **whole** when it has no fractional part. -/
def isWhole (x : Binary) : Bool :=
  decide (0 ≤ x.q) || x.m % (1 <<< (-x.q).toNat) == 0

/-- The magnitude of a number, rounded towards zero. -/
def magnitude (x : Binary) : Nat :=
  if 0 ≤ x.q then x.m <<< x.q.toNat else x.m >>> (-x.q).toNat

/-- The number with the given parts. The parts are those of a binary64 number: `m` has at most 53
bits, and shifting it left as far as 53 bits or the exponent `-1074` allow loses nothing. -/
def toFloat (x : Binary) : Float :=
  let sign : Nat := if x.negative then 1 <<< 63 else 0
  if x.m = 0 then Float.ofBits sign.toUInt64
  else
    let room := min (52 - x.m.log2) (x.q + 1074).toNat
    let m := x.m <<< room
    let q := x.q - room
    if m < 1 <<< 52 then Float.ofBits (sign + m).toUInt64
    else Float.ofBits (sign + ((q + 1075).toNat <<< 52) + (m - (1 <<< 52))).toUInt64

/-- The remainder of a division that rounds the quotient towards zero. It takes the sign of the
dividend, and it is exact: on the common exponent it is the remainder of two natural numbers. -/
def remainder (x y : Binary) : Binary :=
  let q := min x.q y.q
  let m := (x.m <<< (x.q - q).toNat) % (y.m <<< (y.q - q).toNat)
  ⟨x.negative, m, q, false⟩

end Binary

/-- The **remainder** of two numbers: exact where both are finite and the divisor is not zero. An
infinite divisor leaves the dividend as it is, and all else has no remainder. -/
def remainder (x y : Float) : Float :=
  match Binary.ofFloat? x, Binary.ofFloat? y with
  | some a, some b => if b.m = 0 then 0.0 / 0.0 else (a.remainder b).toFloat
  | some _, none => if y.isNaN then y else x
  | none, _ => 0.0 / 0.0

/-- The nearest number to the value of a run of decimal digits; ties go to the even neighbour. -/
def ofDigits (digits : List Char) : Float :=
  Float.ofScientific (digits.foldl (fun n c => 10 * n + (c.toNat - '0'.toNat)) 0) false 0

end Lox.Decimal
