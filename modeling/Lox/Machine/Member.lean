import Lox.Machine.Basic

/-!
# Names, members and operators

The steps of a program that run no other part of it: looking up names, making functions, classes and
objects, reading members, and applying operators to values.
-/

namespace Lox

namespace Run

/-! ### Names -/

/-- The value of a name. -/
def lookUp (name : Token) : Run Value :=
  fun m =>
    match m.store.frames.get? m.scope name.lexeme with
    | some value => .done value m
    | none => .failed (.fault name.line (.undefinedVariable name.lexeme)) m

/-- Gives a name a value in the present scope. -/
def define (name : String) (value : Value) : Run Unit :=
  fun
  | ⟨store, scope, callers, returned, output, readings⟩ =>
    .done () ⟨store.define scope name value, scope, callers, returned, output, readings⟩

/-- Gives a name another value where it is defined. -/
def assign (name : String) (value : Value) : Run Unit :=
  fun
  | ⟨store, scope, callers, returned, output, readings⟩ =>
    .done () ⟨store.assign scope name value, scope, callers, returned, output, readings⟩

/-- Gives parameters the values of arguments, one after another. -/
def defineAll : List Token → List Value → Run Unit
  | p :: ps, v :: vs => do
    define p.lexeme v
    defineAll ps vs
  | _, _ => pure ()

/-! ### Functions, classes and objects -/

/-- A serial number that was not taken before. -/
def takeSerial : Run Nat := do
  let serial ← look fun m => m.store.serial
  change Store.takeSerial
  return serial

/-- A new function that is run in the present scope. -/
def makeClosure (routine : Routine) (isInitializer : Bool) : Run Closure := do
  let serial ← takeSerial
  let scope ← look Machine.scope
  return ⟨serial, routine, scope, isInitializer⟩

/-- The name of the method that is run for a new object. -/
def initializerName : String := "init"

/-- New functions for the definitions of a class, by name. -/
def makeMethods : List Definition → Run (Table Closure)
  | ds => go .empty ds
where
  /-- Adds the functions of the definitions to a table. -/
  go (methods : Table Closure) : List Definition → Run (Table Closure)
    | [] => pure methods
    | d :: ds => do
      let name := d.name.lexeme
      let method ← makeClosure d.routine (name == initializerName)
      go (methods.insert name method) ds

/-- A new class. -/
def makeClass (name : String) (methods classMethods : Table Closure) : Run Class := do
  let serial ← takeSerial
  return ⟨serial, name, methods, classMethods⟩

/-- A new object of a class. -/
def makeObject (c : Class) : Run ObjectId := do
  let id ← look fun m => m.store.nextObject
  change fun store => store.allocObject c
  return id

/-- The name that stands for the object in its methods. -/
def thisName : String := "this"

/-- A new function with the body of a method, in a new frame that defines `this` and lies in the
scope of the method. -/
def bindMethod (method : Closure) (this : Value) : Run Closure := do
  let frame ← look fun m => m.store.nextFrame
  change fun store => (store.allocFrame (some method.scope)).define frame thisName this
  let serial ← takeSerial
  return { method with serial := serial, scope := frame }

/-! ### Members -/

/-- A member of a value: a method of a class; or a field of an object, or one of its methods, bound
to it, or a method of its class. -/
def member (target : Value) (name : Token) : Run Value :=
  match target with
  | .klass c =>
    match c.classMethods.get? name.lexeme with
    | some method => pure (.function method)
    | none => fault name (.unknownClassMethod name.lexeme)
  | .object id => do
    match ← look fun m => m.store.objects[id]? with
    | none => fault name (.uninitializedField name.lexeme)
    | some o =>
      match o.fields.get? name.lexeme with
      | some value => return value
      | none =>
        match o.ofClass.methods.get? name.lexeme with
        | some method => return .function (← bindMethod method target)
        | none =>
          match o.ofClass.classMethods.get? name.lexeme with
          | some method => return .function method
          | none => fault name (.uninitializedField name.lexeme)
  | _ => fault name .notAnObject

/-! ### Operators -/

/-- The value of an operator on two numbers. -/
def arithmetic (operator : Symbol) (a b : Float) : Option Value :=
  match operator with
  | .plus => some (.number (a + b))
  | .minus => some (.number (a - b))
  | .star => some (.number (a * b))
  | .slash => some (.number (a / b))
  | .percent => some (.number (Decimal.remainder a b))
  | .greater => some (.bool (a > b))
  | .greaterEqual => some (.bool (a ≥ b))
  | .less => some (.bool (a < b))
  | .lessEqual => some (.bool (a ≤ b))
  | _ => none

/-- The value of an operator on two values, if it takes them. A string followed by `+` takes any
value, which is added as its text. -/
def applied? (store : Store) (operator : Symbol) (left right : Value) : Option Value :=
  match operator, left, right with
  | .comma, _, _ => some right
  | .equalEqual, _, _ => some (.bool (left.same right))
  | .bangEqual, _, _ => some (.bool (!left.same right))
  | _, .number a, .number b => arithmetic operator a b
  | .plus, .text a, _ => some (.text (a ++ store.display right))
  | _, _, _ => none

/-- Applies an operator to two values. -/
def binary (operator : Token) (left right : Value) : Run Value :=
  fun m =>
    let result := match operator.kind with
      | .symbol s => applied? m.store s left right
      | _ => none
    match result with
    | some value => .done value m
    | none => .failed (.fault operator.line (.invalidOperands operator.lexeme)) m

/-- Applies an operator to the value behind it: `!`, or the negation of a number. -/
def unary (operator : Token) (right : Value) : Run Value :=
  if operator.is .bang then pure (.bool (!right.isTruthy))
  else
    match right with
    | .number x => pure (.number (-x))
    | _ => fault operator (.invalidOperands operator.lexeme)

end Run

end Lox
