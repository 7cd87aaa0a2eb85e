import Lox.Decimal.Style
import Lox.Program.Basic
import Lox.Store.Frames

/-!
# Values

Numbers, strings, truth values and `nil` are plain data. Functions, classes and objects have an
identity: two of them are equal only if they are the same one. Functions and classes never change,
so their values carry all that belongs to them and a serial number that tells them apart; objects
change, so their values are the number under which a `Store` keeps them.
-/

namespace Lox

/-- The functions that every program finds defined. -/
inductive Builtin where
  /-- The time in seconds. -/
  | clock
  /-- A number from zero up to one. -/
  | random
deriving DecidableEq, Repr

/-- The name under which a function is defined. -/
def Builtin.name : Builtin → String
  | clock => "clock"
  | random => "random"

/-- A function with the scope in which it was made. -/
structure Closure where
  /-- What tells functions apart. -/
  serial : Nat
  /-- The parameters and the body. -/
  routine : Routine
  /-- The scope in which the body is run. -/
  scope : FrameId
  /-- A call yields the object that the function belongs to. -/
  isInitializer : Bool

/-- The number of arguments that a function takes. -/
def Closure.arity (f : Closure) : Nat :=
  f.routine.arity

/-- A class. -/
structure Class where
  /-- What tells classes apart. -/
  serial : Nat
  /-- The name in its definition. -/
  name : String
  /-- The methods of its objects. -/
  methods : Table Closure
  /-- The methods of the class itself. -/
  classMethods : Table Closure

/-- The number of an object. -/
abbrev ObjectId := Nat

/-- A value of a running program. -/
inductive Value where
  /-- The absent value. -/
  | nil
  /-- A truth value. -/
  | bool (value : Bool)
  /-- A number. -/
  | number (value : Float)
  /-- A string. -/
  | text (value : String)
  /-- A function that every program finds defined. -/
  | builtin (b : Builtin)
  /-- A function of the program. -/
  | function (f : Closure)
  /-- A class. -/
  | klass (c : Class)
  /-- An object. -/
  | object (id : ObjectId)

namespace Value

/-- The value of a constant. -/
def ofLiteral : Literal → Value
  | .number value => number value
  | .text value => text value
  | .bool value => bool value
  | .nil => nil

/-- What counts as true in a condition: everything but `nil` and `false`. -/
def isTruthy : Value → Bool
  | nil => false
  | bool value => value
  | _ => true

/-- Equality of the language: plain data by value, all else by identity, and values of different
kinds are never equal. -/
def same : Value → Value → Bool
  | nil, nil => true
  | bool a, bool b => a == b
  | number a, number b => a == b
  | text a, text b => a == b
  | builtin a, builtin b => a == b
  | function f, function g => f.serial == g.serial
  | klass c, klass d => c.serial == d.serial
  | object a, object b => a == b
  | _, _ => false

/-- Numbers as `print` writes them: whole ones with all their digits, others with the fewest
digits. -/
def numberStyle : Decimal.NumberStyle where
  nan := "NaN"
  infinity := "Infinity"
  negativeInfinity := "-Infinity"
  exactBelow := none
  wholeMark := ""
  signedZero := true
  scientificBeyond := false

end Value

end Lox
