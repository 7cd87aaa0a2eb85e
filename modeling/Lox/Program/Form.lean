import Lox.Decimal.Style
import Lox.Program.Basic

/-!
# Programs in parenthesised form

Every expression and every statement has a text in which each node is a pair of parentheses around
the node's head and its parts. Names are written with the text of their tokens, strings without
quotes.
-/

namespace Lox

/-- Numbers in parenthesised form: whole ones with all their digits and `.0`, others with the fewest
digits. -/
def Literal.numberStyle : Decimal.NumberStyle where
  nan := "NaN"
  infinity := "inf"
  negativeInfinity := "-inf"
  exactBelow := none
  wholeMark := ".0"
  signedZero := true
  scientificBeyond := false

/-- The text of a constant. -/
def Literal.form : Literal → String
  | number value => Literal.numberStyle.write value
  | text value => value
  | bool true => "true"
  | bool false => "false"
  | nil => "nil"

/-- Words in parentheses, with single spaces between them. -/
def parenthesised (words : List String) : String :=
  "(" ++ " ".intercalate words ++ ")"

mutual

/-- The text of an expression. -/
def Expr.form : Expr → String
  | .literal value => value.form
  | .name token => token.lexeme
  | .assign name value => parenthesised ["=", name.lexeme, value.form]
  | .get object name => parenthesised [".", object.form, name.lexeme]
  | .set object name value =>
    parenthesised ["=", parenthesised [".", object.form, name.lexeme], value.form]
  | .conditional condition whenTrue whenFalse =>
    parenthesised ["?", condition.form, whenTrue.form, whenFalse.form]
  | .logical left operator right => parenthesised [operator.lexeme, left.form, right.form]
  | .binary left operator right => parenthesised [operator.lexeme, left.form, right.form]
  | .unary operator right => parenthesised [operator.lexeme, right.form]
  | .call callee _ arguments => parenthesised ("call" :: callee.form :: Expr.forms arguments)
  | .lambda routine => parenthesised ("fun" :: routine.forms)

/-- The texts of expressions. -/
def Expr.forms : List Expr → List String
  | [] => []
  | e :: es => e.form :: Expr.forms es

/-- The text of a part that may be absent; an absent part is an underscore. -/
def Expr.optionalForm : Option Expr → String
  | some e => e.form
  | none => "_"

/-- The text of a statement. -/
def Stmt.form : Stmt → String
  | .block body => parenthesised ("block" :: Stmt.forms body)
  | .declare name (some value) => parenthesised ["var", name.lexeme, value.form]
  | .declare name none => parenthesised ["var", name.lexeme]
  | .function definition => definition.form
  | .classDef name methods classMethods =>
    parenthesised ("class" :: name.lexeme :: Definition.forms methods ++
      Definition.classForms classMethods)
  | .expression value => parenthesised [";", value.form]
  | .print value => parenthesised ["print", value.form]
  | .branch condition whenTrue (some whenFalse) =>
    parenthesised ["if", condition.form, whenTrue.form, whenFalse.form]
  | .branch condition whenTrue none => parenthesised ["if", condition.form, whenTrue.form]
  | .whileLoop condition body => parenthesised ["while", condition.form, body.form]
  | .forLoop initial condition step body =>
    parenthesised ["for", Stmt.optionalForm initial, Expr.optionalForm condition,
      Expr.optionalForm step, body.form]
  | .jump keyword (some value) => parenthesised [keyword.lexeme, value.form]
  | .jump keyword none => parenthesised [keyword.lexeme]
  | .empty => "(;)"

/-- The texts of statements. -/
def Stmt.forms : List Stmt → List String
  | [] => []
  | s :: ss => s.form :: Stmt.forms ss

/-- The text of a part that may be absent; an absent part is an underscore. -/
def Stmt.optionalForm : Option Stmt → String
  | some s => s.form
  | none => "_"

/-- The parameters in parentheses, and the text of the body. -/
def Routine.forms : Routine → List String
  | .mk parameters body => [parenthesised (parameters.map Token.lexeme), body.form]

/-- The text of a definition. -/
def Definition.form : Definition → String
  | .mk name routine => parenthesised ("fun" :: name.lexeme :: routine.forms)

/-- The texts of definitions. -/
def Definition.forms : List Definition → List String
  | [] => []
  | d :: ds => d.form :: Definition.forms ds

/-- The texts of definitions that belong to a class, each marked as such. -/
def Definition.classForms : List Definition → List String
  | [] => []
  | d :: ds => parenthesised ["class", d.form] :: Definition.classForms ds

end

end Lox
