import Lox.Token.Basic

/-!
# Programs

A program is a list of statements. Names, operators and the keywords of jumps are kept as the tokens
they were read from: decisions are made on a token's kind, its text is what a name is called by, and
its line is where an error at run time is reported.
-/

namespace Lox

/-- A constant written in a program. -/
inductive Literal where
  /-- A number. -/
  | number (value : Float)
  /-- A string. -/
  | text (value : String)
  /-- A truth value. -/
  | bool (value : Bool)
  /-- The absent value. -/
  | nil

mutual

/-- An expression. -/
inductive Expr where
  /-- A constant. -/
  | literal (value : Literal)
  /-- A variable, or `this`. -/
  | name (token : Token)
  /-- `name = value` -/
  | assign (name : Token) (value : Expr)
  /-- `object.name` -/
  | get (object : Expr) (name : Token)
  /-- `object.name = value` -/
  | set (object : Expr) (name : Token) (value : Expr)
  /-- `condition ? whenTrue : whenFalse` -/
  | conditional (condition whenTrue whenFalse : Expr)
  /-- `left and right`, `left or right`: the right operand may stay unevaluated. -/
  | logical (left : Expr) (operator : Token) (right : Expr)
  /-- Any other operator between two operands, the comma included. -/
  | binary (left : Expr) (operator : Token) (right : Expr)
  /-- An operator in front of its operand. -/
  | unary (operator : Token) (right : Expr)
  /-- `callee(arguments)`; the opening parenthesis says where the call stands. -/
  | call (callee : Expr) (paren : Token) (arguments : List Expr)
  /-- A function without a name. -/
  | lambda (routine : Routine)

/-- A statement. -/
inductive Stmt where
  /-- `{ body }` -/
  | block (body : List Stmt)
  /-- `var name = initial;` -/
  | declare (name : Token) (initial : Option Expr)
  /-- `fun name(parameters) { body }` -/
  | function (definition : Definition)
  /-- A class with the methods of its objects and those of its own, each name once a list. -/
  | classDef (name : Token) (methods classMethods : List Definition)
  /-- `value;` -/
  | expression (value : Expr)
  /-- `print value;` -/
  | print (value : Expr)
  /-- `if (condition) whenTrue else whenFalse` -/
  | branch (condition : Expr) (whenTrue : Stmt) (whenFalse : Option Stmt)
  /-- `while (condition) body` -/
  | whileLoop (condition : Expr) (body : Stmt)
  /-- `for (initial; condition; step) body` -/
  | forLoop (initial : Option Stmt) (condition step : Option Expr) (body : Stmt)
  /-- `break`, `continue` or `return`, told apart by the kind of the keyword. -/
  | jump (keyword : Token) (value : Option Expr)
  /-- `;` -/
  | empty

/-- The parameters and the body of a function. -/
inductive Routine where
  /-- A routine is given by its parameters and its body. -/
  | mk (parameters : List Token) (body : Stmt)

/-- A routine with a name: a function or a method. -/
inductive Definition where
  /-- A definition is given by its name and its routine. -/
  | mk (name : Token) (routine : Routine)

end

/-- The parameters of a routine. -/
def Routine.parameters : Routine → List Token
  | mk parameters _ => parameters

/-- The body of a routine. -/
def Routine.body : Routine → Stmt
  | mk _ body => body

/-- The number of arguments that a routine takes. -/
def Routine.arity (r : Routine) : Nat :=
  r.parameters.length

/-- The name of a definition. -/
def Definition.name : Definition → Token
  | mk name _ => name

/-- The routine of a definition. -/
def Definition.routine : Definition → Routine
  | mk _ routine => routine

/-- A definition added to a list that holds each name once. One of the same name is replaced where
it stands; a new name goes to the end. -/
def Definition.insert (d : Definition) : List Definition → List Definition
  | [] => [d]
  | e :: es => if e.name.lexeme == d.name.lexeme then d :: es else e :: d.insert es

/-- The members of a class body as they are written, in order, each with the mark that it belongs to
the class itself. -/
structure Member where
  /-- The member belongs to the class and not to its objects. -/
  ofClass : Bool
  /-- The definition of the member. -/
  definition : Definition

namespace Member

/-- The list of the members with a mark: each name once, in the order of its first definition, with
the last of its definitions. -/
def collect (ofClass : Bool) (members : List Member) : List Definition :=
  (members.filter fun m => m.ofClass == ofClass).foldl (fun ds m => m.definition.insert ds) []

end Member

end Lox
