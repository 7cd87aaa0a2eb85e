import Lox.Channel
import Lox.Diagnostic
import Lox.Host
import Lox.Store.Basic

/-!
# Running programs

A `Machine` is the state of a running program: the store, the scope in which names are looked up,
the scopes of the callers whose calls are in progress, the value of the last `return`, and the
output. A step of a program is a `Run`: it is given a machine and comes to an `Outcome`.

Programs need not end, so a run is given a bound on its depth. `Outcome.unfinished` says that the
bound was too low; it is neither a value nor an error.

A new scope is entered through `Run.inFrame`, which keeps the present one in mind and comes back to
it. A call is entered through `Run.inCall`, which puts the present scope on the callers and
afterwards takes the innermost caller off again, whatever the callers have become in between. Both
come back however the part inside them ends.
-/

namespace Lox

/-- What is wrong when a program stops. -/
inductive RuntimeFault where
  /-- A name that is defined nowhere. -/
  | undefinedVariable (name : String)
  /-- A member is read or written on a value that has none. -/
  | notAnObject
  /-- Operands of kinds that the operator does not take. -/
  | invalidOperands (operator : String)
  /-- A class has no method of the name. -/
  | unknownClassMethod (name : String)
  /-- An object has neither a field nor a method of the name. -/
  | uninitializedField (name : String)
  /-- A function is called with another number of arguments than it takes. -/
  | functionArity (expected got : Nat)
  /-- A class is called with another number of arguments than its initializer takes. -/
  | constructorArity (expected got : Nat)
  /-- A value that is called is neither a function nor a class. -/
  | notCallable
  /-- Too many calls are in progress. -/
  | stackOverflow
deriving DecidableEq, Repr

/-- The text for a wrong number of arguments. -/
def arityMessage (callee : String) (expected got : Nat) : String :=
  "Incorrect argument count for " ++ callee ++ ": expected " ++ toString expected ++ " but got " ++
    toString got ++ "."

/-- A fault in words. -/
def RuntimeFault.message : RuntimeFault → String
  | undefinedVariable name => "Undefined variable '" ++ name ++ "'."
  | notAnObject => "Only access fields of objects."
  | invalidOperands operator => "Invalid types for operation '" ++ operator ++ "'."
  | unknownClassMethod name => "Unknown class method '" ++ name ++ "'."
  | uninitializedField name => "Uninitialized field '" ++ name ++ "'."
  | functionArity expected got => arityMessage "function" expected got
  | constructorArity expected got => arityMessage "constructor" expected got
  | notCallable => "Can only call functions and classes."
  | stackOverflow => "Stack overflow."

/-- Why a program stops before its end. -/
inductive RuntimeError where
  /-- A fault in the program, on a line. -/
  | fault (line : Nat) (cause : RuntimeFault)
  /-- The output channel accepts no more. -/
  | outputClosed
deriving DecidableEq, Repr

/-- An error as it is reported. -/
def RuntimeError.diagnostic : RuntimeError → Diagnostic
  | fault line cause => .ofStage .runtime line cause.message
  | outputClosed => .ofStage .output 0 "output closed"

/-- The state of a running program. -/
structure Machine where
  /-- The frames and the objects. -/
  store : Store
  /-- The scope in which names are looked up. -/
  scope : FrameId
  /-- The scopes of the callers whose calls are in progress, the innermost first. -/
  callers : List FrameId
  /-- The value of the last `return`. -/
  returned : Value
  /-- The output. -/
  output : Channel
  /-- The number of readings taken from the surroundings. -/
  readings : Nat

namespace Machine

/-- The machine before the first program: one frame, in which the built-in functions are defined. -/
def initial (output : Channel) : Machine where
  store := ((Store.empty.allocFrame none).define 0 Builtin.clock.name (.builtin .clock)).define 0
    Builtin.random.name (.builtin .random)
  scope := 0
  callers := []
  returned := .nil
  output := output
  readings := 0

/-- The number of calls in progress. -/
def depth (m : Machine) : Nat :=
  m.callers.length

/-- The machine in the scope of a function that is called, with the present scope as the innermost
caller's. -/
def enterCall (m : Machine) (scope : FrameId) : Machine :=
  { m with scope := scope, callers := m.scope :: m.callers }

/-- The machine back in the scope of the innermost caller, which is taken off the callers. If there
is none the machine stays where it is. -/
def leaveCall (m : Machine) : Machine :=
  { m with scope := m.callers.headD m.scope, callers := m.callers.tail }

end Machine

/-- The greatest number of calls in progress. -/
def maxDepth : Nat := 255

/-- What a run comes to. -/
inductive Outcome (α : Type) where
  /-- A value, and the machine behind it. -/
  | done (value : α) (m : Machine)
  /-- An error, and the machine as the error left it. -/
  | failed (error : RuntimeError) (m : Machine)
  /-- The bound on the depth was too low. -/
  | unfinished

/-- A step of a program. -/
def Run (α : Type) : Type :=
  Machine → Outcome α

namespace Run

variable {α β : Type}

/-- Nothing happens. -/
@[inline] protected def pure (value : α) : Run α :=
  fun m => .done value m

/-- One step and then another, unless the first one stops. -/
@[inline] protected def bind (r : Run α) (f : α → Run β) : Run β :=
  fun m =>
    match r m with
    | .done value m => f value m
    | .failed e m => .failed e m
    | .unfinished => .unfinished

instance : Monad Run where
  pure := Run.pure
  bind := Run.bind

/-- The bound on the depth is reached. -/
@[inline] def unfinished : Run α :=
  fun _ => .unfinished

/-- The program stops. -/
@[inline] def stop (e : RuntimeError) : Run α :=
  fun m => .failed e m

/-- The program stops for a fault on the line of a token. -/
@[inline] def fault (t : Token) (cause : RuntimeFault) : Run α :=
  stop (.fault t.line cause)

/-- What the machine shows. -/
@[inline] def look (f : Machine → α) : Run α :=
  fun m => .done (f m) m

/-- A change of the store. -/
@[inline] def change (f : Store → Store) : Run Unit :=
  fun
  | ⟨store, scope, callers, returned, output, readings⟩ =>
    .done () ⟨f store, scope, callers, returned, output, readings⟩

/-- Runs a part in a new frame inside the present scope, and comes back to the scope however the
part ends. -/
@[inline] def inFrame (r : Run α) : Run α :=
  fun
  | ⟨store, scope, callers, returned, output, readings⟩ =>
    let frame := store.nextFrame
    match r ⟨store.allocFrame (some scope), frame, callers, returned, output, readings⟩ with
    | .done value m => .done value { m with scope := scope }
    | .failed e m => .failed e { m with scope := scope }
    | .unfinished => .unfinished

/-- Runs the body of a call in the scope of the function called, with the present scope as the
innermost caller's. The call is left however the body ends. -/
@[inline] def inCall (closure : FrameId) (r : Run α) : Run α :=
  fun m =>
    match r (m.enterCall closure) with
    | .done value m => .done value m.leaveCall
    | .failed e m => .failed e m.leaveCall
    | .unfinished => .unfinished

/-- Writes a line to the output. What does not fit stops the program. -/
@[inline] def printLine (text : String) : Run Unit :=
  fun
  | ⟨store, scope, callers, returned, output, readings⟩ =>
    let bytes := (text ++ "\n").toUTF8
    let m : Machine := ⟨store, scope, callers, returned, output.write bytes, readings⟩
    if output.fits bytes then .done () m else .failed .outputClosed m

/-- Sets the value of the last `return`. -/
@[inline] def setReturned (value : Value) : Run Unit :=
  fun m => .done () { m with returned := value }

/-- Takes the value of the last `return`, and leaves `nil` in its place. -/
@[inline] def takeReturned : Run Value :=
  fun m => .done m.returned { m with returned := .nil }

/-- A reading from the surroundings. -/
@[inline] def reading (host : Host) (b : Builtin) : Run Value :=
  fun m =>
    let x := match b with
      | .clock => host.clock m.readings
      | .random => host.random m.readings
    .done (.number x) { m with readings := m.readings + 1 }

end Run

end Lox
