import Lox.Decimal.Style
import Lox.Json.Basic
import Lox.Token.Basic

/-!
# Token dumps

A list of tokens as a JSON array with one object a token: the kind, the text and the line. Kinds that
carry a literal are objects with the kind's name as their only key.
-/

namespace Lox

/-- Numbers in a token dump: whole ones below 10^16 with all their digits and `.0`, greater ones in
scientific notation; what is not finite is `null`. -/
def Token.dumpNumberStyle : Decimal.NumberStyle where
  nan := "null"
  infinity := "null"
  negativeInfinity := "null"
  exactBelow := some (Nat.pow 10 16)
  wholeMark := ".0"
  signedZero := true
  scientificBeyond := true

/-- A kind in a token dump. -/
def Kind.toJson : Kind → Json
  | .string text => .object [((Kind.string text).label, .string text)]
  | .number value =>
    .object [((Kind.number value).label, .number (Token.dumpNumberStyle.write value))]
  | k => .string k.label

/-- A token in a token dump. -/
def Token.toJson (t : Token) : Json :=
  .object [("token_type", t.kind.toJson), ("lexeme", .string t.lexeme),
    ("line", .number (toString t.line))]

/-- The dump of a list of tokens. -/
def Token.dump (ts : List Token) : String :=
  (Json.array (ts.map Token.toJson)).pretty

end Lox
