import Lox.Decimal.Style
import Lox.Token.Basic

/-!
# Token listings

One token a line: its kind, its text, and the literal it carries.
-/

namespace Lox

/-- Numbers in a token listing: whole ones below 10^15 with all their digits and `.0`, others with
the fewest digits. -/
def Token.numberStyle : Decimal.NumberStyle where
  nan := "NaN"
  infinity := "inf"
  negativeInfinity := "-inf"
  exactBelow := some (Nat.pow 10 15)
  wholeMark := ".0"
  signedZero := false
  scientificBeyond := false

/-- The literal of a kind in a token listing; `null` where there is none. -/
def Kind.literalText : Kind → String
  | .string text => text
  | .number value => Token.numberStyle.write value
  | _ => "null"

/-- The line of a token in a token listing. -/
def Token.listing (t : Token) : String :=
  t.kind.label ++ " " ++ t.lexeme ++ " " ++ t.kind.literalText

end Lox
