import Lox.Machine.Member

/-!
# Evaluation

The meaning of expressions and statements, as runs. A statement ends normally or with a pending
**jump**, which loops, blocks and calls pass on or take up. The first argument of each function
bounds its depth; a run that ends under one bound ends in the same way under all greater ones.
-/

namespace Lox

/-- A transfer of control that is under way. -/
inductive Jump where
  /-- Out of the nearest loop. -/
  | breakLoop
  /-- To the next round of the nearest loop. -/
  | continueLoop
  /-- Out of the nearest call. -/
  | returnCall
deriving DecidableEq, Repr

/-- The jump that a keyword stands for. -/
def Jump.ofKeyword (keyword : Token) : Jump :=
  match keyword.kind with
  | .symbol .breakWord => .breakLoop
  | .symbol .continueWord => .continueLoop
  | _ => .returnCall

/-- How a statement ends: with a pending jump, or normally. -/
abbrev Completion := Option Jump

namespace Run

mutual

/-- The value of an expression. -/
def evaluate (host : Host) : Nat → Expr → Run Value
  | 0, _ => unfinished
  | n + 1, e =>
    match e with
    | .literal value => pure (.ofLiteral value)
    | .name token => lookUp token
    | .assign name value => do
      if ← look fun m => m.store.frames.has m.scope name.lexeme then
        let value ← evaluate host n value
        assign name.lexeme value
        return value
      else fault name (.undefinedVariable name.lexeme)
    | .get object name => do
      let target ← evaluate host n object
      member target name
    | .set object name value => do
      match ← evaluate host n object with
      | .object id =>
        let value ← evaluate host n value
        change fun store => store.setField id name.lexeme value
        return value
      | _ => fault name .notAnObject
    | .conditional condition whenTrue whenFalse => do
      let value ← evaluate host n condition
      if value.isTruthy then evaluate host n whenTrue else evaluate host n whenFalse
    | .logical left operator right => do
      let value ← evaluate host n left
      if value.isTruthy == operator.is .orWord then return value else evaluate host n right
    | .binary left operator right => do
      let a ← evaluate host n left
      let b ← evaluate host n right
      binary operator a b
    | .unary operator right => do
      let value ← evaluate host n right
      unary operator value
    | .call callee paren arguments => do
      let target ← evaluate host n callee
      let values ← evaluateAll host n arguments
      call host n target paren values
    | .lambda routine => do
      let closure ← makeClosure routine false
      return .function closure

/-- The values of expressions, from left to right. -/
def evaluateAll (host : Host) : Nat → List Expr → Run (List Value)
  | 0, _ => unfinished
  | _ + 1, [] => pure []
  | n + 1, e :: es => do
    let value ← evaluate host n e
    let values ← evaluateAll host n es
    return value :: values

/-- Calls a value. A class makes an object, and runs its initializer if there is one. -/
def call (host : Host) : Nat → Value → Token → List Value → Run Value
  | 0, _, _, _ => unfinished
  | n + 1, target, paren, values =>
    match target with
    | .builtin b => reading host b
    | .function f =>
      if values.length = f.arity then invoke host n f paren values
      else fault paren (.functionArity f.arity values.length)
    | .klass c => do
      let id ← makeObject c
      match c.methods.get? initializerName with
      | none => return .object id
      | some init =>
        if values.length = init.arity then
          let bound ← bindMethod init (.object id)
          let _ ← invoke host n bound paren values
          return .object id
        else fault paren (.constructorArity init.arity values.length)
    | _ => fault paren .notCallable

/-- Runs the body of a function for a call. An initializer yields its object, another function what
its body returned, or `nil`. -/
def invoke (host : Host) : Nat → Closure → Token → List Value → Run Value
  | 0, _, _, _ => unfinished
  | n + 1, f, paren, values => do
    if maxDepth ≤ (← look Machine.depth) then fault paren .stackOverflow
    else
      let completion ← inCall f.scope (inFrame (do
        defineAll f.routine.parameters values
        execute host n f.routine.body))
      if f.isInitializer then
        look fun m => (m.store.frames.get? f.scope thisName).getD .nil
      else if completion = some .returnCall then takeReturned
      else return .nil

/-- Executes a statement. -/
def execute (host : Host) : Nat → Stmt → Run Completion
  | 0, _ => unfinished
  | n + 1, s =>
    match s with
    | .block body => inFrame (executeAll host n body)
    | .declare name none => do
      define name.lexeme .nil
      return none
    | .declare name (some initial) => do
      let value ← evaluate host n initial
      define name.lexeme value
      return none
    | .function d => do
      let closure ← makeClosure d.routine false
      define d.name.lexeme (.function closure)
      return none
    | .classDef name methods classMethods => do
      let methods ← makeMethods methods
      let classMethods ← makeMethods classMethods
      let c ← makeClass name.lexeme methods classMethods
      define name.lexeme (.klass c)
      return none
    | .expression value => do
      let _ ← evaluate host n value
      return none
    | .print value => do
      let value ← evaluate host n value
      let text ← look fun m => m.store.display value
      printLine text
      return none
    | .branch condition whenTrue whenFalse => do
      let value ← evaluate host n condition
      if value.isTruthy then execute host n whenTrue
      else
        match whenFalse with
        | some whenFalse => execute host n whenFalse
        | none => return none
    | .whileLoop condition body => loop host n (some condition) none body
    | .forLoop initial condition step body =>
      inFrame (do
        match initial with
        | some initial =>
          let _ ← execute host n initial
          loop host n condition step body
        | none => loop host n condition step body)
    | .jump keyword none => do
      setReturned .nil
      return some (.ofKeyword keyword)
    | .jump keyword (some value) => do
      let value ← evaluate host n value
      setReturned value
      return some (.ofKeyword keyword)
    | .empty => return none

/-- Executes statements one after another, up to the first one that ends with a jump. -/
def executeAll (host : Host) : Nat → List Stmt → Run Completion
  | 0, _ => unfinished
  | _ + 1, [] => return none
  | n + 1, s :: ss => do
    match ← execute host n s with
    | some jump => return some jump
    | none => executeAll host n ss

/-- Repeats a body and then a step as long as a condition holds; an absent condition always holds.
A `break` ends the loop and a `continue` the body. -/
def loop (host : Host) : Nat → Option Expr → Option Expr → Stmt → Run Completion
  | 0, _, _, _ => unfinished
  | n + 1, condition, step, body => do
    let goesOn ← match condition with
      | some condition => do
        let value ← evaluate host n condition
        pure value.isTruthy
      | none => pure true
    if goesOn then
      match ← execute host n body with
      | some .breakLoop => return none
      | some .returnCall => return some .returnCall
      | _ =>
        match step with
        | some e =>
          let _ ← evaluate host n e
          loop host n condition step body
        | none => loop host n condition step body
    else return none

end

/-- Executes the statements of a program. Jumps that are left over are dropped. -/
def interpret (host : Host) (n : Nat) : List Stmt → Run Unit
  | [] => pure ()
  | s :: ss => do
    let _ ← execute host n s
    interpret host n ss

/-- Executes the statements of a program and lists how each of them ended, up to and with the first
error; also gives the machine at the end. `none` says that the bound was too low. -/
def trace (host : Host) (n : Nat) :
    List Stmt → Machine → Option (List (Except RuntimeError Completion) × Machine)
  | [], m => some ([], m)
  | s :: ss, m =>
    match execute host n s m with
    | .done completion m =>
      (trace host n ss m).map fun (results, m) => (.ok completion :: results, m)
    | .failed e m => some ([.error e], m)
    | .unfinished => none

end Run

end Lox
