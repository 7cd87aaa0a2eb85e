import Lox.Decimal.Shortest

/-!
# Writing numbers

`NumberStyle` records what a format decides about its numbers; `NumberStyle.write` is the one
function that writes a number in a style. Whole numbers up to a bound of the style are written with
all their digits, others with the fewest digits that identify them.
-/

namespace Lox.Decimal

namespace Scaled

/-- The decimal without the zeros at the end of its digits. -/
def strip (d : Scaled) : Scaled :=
  if h : d.digits ≠ 0 ∧ d.digits % 10 = 0 then strip ⟨d.digits / 10, d.exponent + 1⟩ else d
termination_by d.digits
decreasing_by omega

/-- A decimal in positional notation: `1200`, `1.25`, `0.003`. -/
def positional (d : Scaled) : String :=
  let digits := Nat.toDigits 10 d.digits
  let places := (-d.exponent).toNat
  if 0 ≤ d.exponent then String.ofList (digits ++ List.replicate d.exponent.toNat '0')
  else if places < digits.length then
    String.ofList
      (digits.take (digits.length - places) ++ '.' :: digits.drop (digits.length - places))
  else String.ofList ('0' :: '.' :: List.replicate (places - digits.length) '0' ++ digits)

/-- A decimal in scientific notation, the exponent with its sign: `1.5e+20`. -/
def scientific (d : Scaled) : String :=
  let digits := Nat.toDigits 10 d.digits
  let exponent := d.exponent + (digits.length - 1 : Nat)
  let mark := if exponent < 0 then "e-" else "e+"
  let tail := mark ++ toString exponent.natAbs
  match digits with
  | [] => tail
  | [c] => String.singleton c ++ tail
  | c :: rest => String.ofList (c :: '.' :: rest) ++ tail

end Scaled

/-- What a format decides about its numbers. -/
structure NumberStyle where
  /-- The text of what is no number. -/
  nan : String
  /-- The text of the positive infinity. -/
  infinity : String
  /-- The text of the negative infinity. -/
  negativeInfinity : String
  /-- Whole numbers below this magnitude are written with all their digits; all of them if absent. -/
  exactBelow : Option Nat
  /-- What follows the digits of such a whole number. -/
  wholeMark : String
  /-- The negative zero keeps its sign. -/
  signedZero : Bool
  /-- Whole numbers from `exactBelow` on are written in scientific notation. -/
  scientificBeyond : Bool

namespace NumberStyle

/-- The text of a finite number in a style. -/
def writeFinite (style : NumberStyle) (x : Binary) : String :=
  let sign := if x.negative && (x.m != 0 || style.signedZero) then "-" else ""
  let exact := match style.exactBelow with
    | none => true
    | some bound => decide (x.magnitude < bound)
  if x.isWhole && exact then sign ++ toString x.magnitude ++ style.wholeMark
  else
    let d := x.shortest.strip
    sign ++ if x.isWhole && style.scientificBeyond then d.scientific else d.positional

/-- The text of a number in a style. -/
def write (style : NumberStyle) (x : Float) : String :=
  match Binary.ofFloat? x with
  | some b => style.writeFinite b
  | none =>
    if x.isNaN then style.nan else if x < 0 then style.negativeInfinity else style.infinity

end NumberStyle

end Lox.Decimal
