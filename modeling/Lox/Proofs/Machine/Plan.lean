import Lox.Machine.Eval
import Mathlib.Logic.Relation

/-!
# Plans

The seven functions of the evaluator are seven kinds of **task**, and `Task.run` carries a task out
under a bound. A **plan** says how: which steps are taken, which parts are tasks of their own, and
what is done inside a new frame or a call. `Task.run_succ` ties the two together: under a bound
that is not yet reached, a task is run by following its plan. What holds of every plan therefore
holds of every run.

A plan also shows the moments of a run. `Plan.Starts` says that a task is started in the course of
a plan, and `Moment.Within` follows these starts to any depth, whether or not the run as a whole
ever ends.
-/

namespace Lox

/-- What a machine may be asked to do. -/
inductive Task where
  /-- Find the value of an expression. -/
  | evaluate (e : Expr)
  /-- Find the values of expressions, from left to right. -/
  | evaluateAll (es : List Expr)
  /-- Call a value. -/
  | call (target : Value) (paren : Token) (values : List Value)
  /-- Run the body of a function for a call. -/
  | invoke (f : Closure) (paren : Token) (values : List Value)
  /-- Execute a statement. -/
  | execute (s : Stmt)
  /-- Execute statements, up to the first one that ends with a jump. -/
  | executeAll (ss : List Stmt)
  /-- Go through the rounds of a loop. -/
  | loop (condition step : Option Expr) (body : Stmt)

/-- What a task yields. -/
abbrev Task.Result : Task → Type
  | evaluate _ | call .. | invoke .. => Value
  | evaluateAll _ => List Value
  | execute _ | executeAll _ | loop .. => Completion

/-- Carries out a task under a bound on the depth. -/
def Task.run (host : Host) (n : Nat) : (t : Task) → Run t.Result
  | evaluate e => Run.evaluate host n e
  | evaluateAll es => Run.evaluateAll host n es
  | call target paren values => Run.call host n target paren values
  | invoke f paren values => Run.invoke host n f paren values
  | execute s => Run.execute host n s
  | executeAll ss => Run.executeAll host n ss
  | loop condition step body => Run.loop host n condition step body

/-- How something is carried out. -/
inductive Plan : Type → Type 1 where
  /-- A step that starts no task. -/
  | act {α : Type} (r : Run α) : Plan α
  /-- A part that is a task of its own. -/
  | part (t : Task) : Plan t.Result
  /-- One plan and then another. -/
  | andThen {α β : Type} (p : Plan α) (next : α → Plan β) : Plan β
  /-- A plan that is followed in a new frame inside the present scope. -/
  | inFrame {α : Type} (p : Plan α) : Plan α
  /-- A plan that is followed as the body of a call, in the scope of the function called. -/
  | inCall {α : Type} (scope : FrameId) (p : Plan α) : Plan α

namespace Plan

instance : Monad Plan where
  pure value := .act (pure value)
  bind := .andThen

/-- Steps stand in plans as they are. -/
instance {α : Type} : Coe (Run α) (Plan α) := ⟨.act⟩

/-- What the machine shows. -/
def look {α : Type} (f : Machine → α) : Plan α := act (Run.look f)

/-- The program stops for a fault on the line of a token. -/
def fault {α : Type} (t : Token) (cause : RuntimeFault) : Plan α := act (Run.fault t cause)

/-- Finds the value of an expression. -/
def evaluate (e : Expr) : Plan Value := part (.evaluate e)

/-- Finds the values of expressions. -/
def evaluateAll (es : List Expr) : Plan (List Value) := part (.evaluateAll es)

/-- Executes a statement. -/
def execute (s : Stmt) : Plan Completion := part (.execute s)

/-- Goes through the rounds of a loop. -/
def loop (condition step : Option Expr) (body : Stmt) : Plan Completion :=
  part (.loop condition step body)

/-- Follows a plan, with `answer` for its parts. -/
def follow (answer : (t : Task) → Run t.Result) : {α : Type} → Plan α → Run α
  | _, act r => r
  | _, part t => answer t
  | _, andThen p next => (p.follow answer).bind fun value => (next value).follow answer
  | _, inFrame p => Run.inFrame (p.follow answer)
  | _, inCall scope p => Run.inCall scope (p.follow answer)

/-! ### The plans of the tasks -/

/-- How the value of an expression is found. -/
def ofExpr : Expr → Plan Value
  | .literal value => return .ofLiteral value
  | .name token => Run.lookUp token
  | .assign name value => do
    if ← look fun m => m.store.frames.has m.scope name.lexeme then
      let value ← evaluate value
      Run.assign name.lexeme value
      return value
    else fault name (.undefinedVariable name.lexeme)
  | .get object name => do
    let target ← evaluate object
    Run.member target name
  | .set object name value => do
    match ← evaluate object with
    | .object id =>
      let value ← evaluate value
      Run.change fun store => store.setField id name.lexeme value
      return value
    | _ => fault name .notAnObject
  | .conditional condition whenTrue whenFalse => do
    let value ← evaluate condition
    if value.isTruthy then evaluate whenTrue else evaluate whenFalse
  | .logical left operator right => do
    let value ← evaluate left
    if value.isTruthy == operator.is .orWord then return value else evaluate right
  | .binary left operator right => do
    let a ← evaluate left
    let b ← evaluate right
    Run.binary operator a b
  | .unary operator right => do
    let value ← evaluate right
    Run.unary operator value
  | .call callee paren arguments => do
    let target ← evaluate callee
    let values ← evaluateAll arguments
    part (.call target paren values)
  | .lambda routine => do
    let closure ← Run.makeClosure routine false
    return .function closure

/-- How the values of expressions are found. -/
def ofExprs : List Expr → Plan (List Value)
  | [] => return []
  | e :: es => do
    let value ← evaluate e
    let values ← evaluateAll es
    return value :: values

/-- How a value is called. -/
def ofCall (host : Host) (target : Value) (paren : Token) (values : List Value) : Plan Value :=
  match target with
  | .builtin b => Run.reading host b
  | .function f =>
    if values.length = f.arity then part (.invoke f paren values)
    else fault paren (.functionArity f.arity values.length)
  | .klass c => do
    let id ← Run.makeObject c
    match c.methods.get? Run.initializerName with
    | none => return .object id
    | some init =>
      if values.length = init.arity then
        let bound ← Run.bindMethod init (.object id)
        let _ ← part (.invoke bound paren values)
        return .object id
      else fault paren (.constructorArity init.arity values.length)
  | _ => fault paren .notCallable

/-- How the body of a function is run for a call. -/
def ofInvoke (f : Closure) (paren : Token) (values : List Value) : Plan Value := do
  if maxDepth ≤ (← look Machine.depth) then fault paren .stackOverflow
  else
    let completion ← inCall f.scope (inFrame (do
      Run.defineAll f.routine.parameters values
      execute f.routine.body))
    if f.isInitializer then
      look fun m => (m.store.frames.get? f.scope Run.thisName).getD .nil
    else if completion = some .returnCall then Run.takeReturned
    else return .nil

/-- How a statement is executed. -/
def ofStmt : Stmt → Plan Completion
  | .block body => inFrame (part (.executeAll body))
  | .declare name none => do
    Run.define name.lexeme .nil
    return none
  | .declare name (some initial) => do
    let value ← evaluate initial
    Run.define name.lexeme value
    return none
  | .function d => do
    let closure ← Run.makeClosure d.routine false
    Run.define d.name.lexeme (.function closure)
    return none
  | .classDef name methods classMethods => do
    let methods ← Run.makeMethods methods
    let classMethods ← Run.makeMethods classMethods
    let c ← Run.makeClass name.lexeme methods classMethods
    Run.define name.lexeme (.klass c)
    return none
  | .expression value => do
    let _ ← evaluate value
    return none
  | .print value => do
    let value ← evaluate value
    let text ← look fun m => m.store.display value
    Run.printLine text
    return none
  | .branch condition whenTrue whenFalse => do
    let value ← evaluate condition
    if value.isTruthy then execute whenTrue
    else
      match whenFalse with
      | some whenFalse => execute whenFalse
      | none => return none
  | .whileLoop condition body => loop (some condition) none body
  | .forLoop initial condition step body =>
    inFrame (do
      match initial with
      | some initial =>
        let _ ← execute initial
        loop condition step body
      | none => loop condition step body)
  | .jump keyword none => do
    Run.setReturned .nil
    return some (.ofKeyword keyword)
  | .jump keyword (some value) => do
    let value ← evaluate value
    Run.setReturned value
    return some (.ofKeyword keyword)
  | .empty => return none

/-- How statements are executed one after another. -/
def ofStmts : List Stmt → Plan Completion
  | [] => return none
  | s :: ss => do
    match ← execute s with
    | some jump => return some jump
    | none => part (.executeAll ss)

/-- How one round of a loop is gone through, and the loop again behind it. -/
def ofRound (condition step : Option Expr) (body : Stmt) : Plan Completion := do
  match ← execute body with
  | some .breakLoop => return none
  | some .returnCall => return some .returnCall
  | _ =>
    match step with
    | some e => do
      let _ ← evaluate e
      loop condition step body
    | none => loop condition step body

/-- How a loop is gone through. -/
def ofLoop (condition step : Option Expr) (body : Stmt) : Plan Completion :=
  match condition with
  | some e => do
    let value ← evaluate e
    if value.isTruthy then ofRound condition step body else return none
  | none => ofRound condition step body

end Plan

/-- How a task is carried out. -/
def Task.plan (host : Host) : (t : Task) → Plan t.Result
  | evaluate e => .ofExpr e
  | evaluateAll es => .ofExprs es
  | call target paren values => .ofCall host target paren values
  | invoke f paren values => .ofInvoke f paren values
  | execute s => .ofStmt s
  | executeAll ss => .ofStmts ss
  | loop condition step body => .ofLoop condition step body

/-! ### Tasks are run by their plans -/

/-- Steps that agree on every value make runs that agree. -/
theorem Run.bind_congr {α β : Type} {r : Run α} {f g : α → Run β} (h : ∀ value, f value = g value) :
    r.bind f = r.bind g := by
  rw [funext h]

namespace Plan

variable (host : Host) (n : Nat)

theorem follow_ofExpr (e : Expr) :
    (ofExpr e).follow (Task.run host n) = Run.evaluate host (n + 1) e := by
  cases e <;> rw [Run.evaluate] <;> try rfl
  case assign => exact Run.bind_congr fun found => by cases found <;> rfl
  case set => exact Run.bind_congr fun target => by cases target <;> rfl
  case conditional => exact Run.bind_congr fun value => by dsimp only; cases value.isTruthy <;> rfl
  case logical _ operator _ =>
    exact Run.bind_congr fun value => by
      dsimp only; cases value.isTruthy == operator.is .orWord <;> rfl

theorem follow_ofExprs (es : List Expr) :
    (ofExprs es).follow (Task.run host n) = Run.evaluateAll host (n + 1) es := by
  cases es <;> rw [Run.evaluateAll] <;> rfl

theorem follow_ofCall (target : Value) (paren : Token) (values : List Value) :
    (ofCall host target paren values).follow (Task.run host n) =
      Run.call host (n + 1) target paren values := by
  rw [Run.call.eq_def]
  cases target <;> try rfl
  case function => simp only [ofCall]; split <;> rfl
  case klass c =>
    refine Run.bind_congr fun id => ?_
    dsimp only
    cases c.methods.get? Run.initializerName with
    | none => rfl
    | some init => dsimp only; split <;> rfl

theorem follow_ofInvoke (f : Closure) (paren : Token) (values : List Value) :
    (ofInvoke f paren values).follow (Task.run host n) =
      Run.invoke host (n + 1) f paren values := by
  rw [Run.invoke]
  refine Run.bind_congr fun depth => ?_
  dsimp only
  split
  · rfl
  · refine Run.bind_congr fun completion => ?_
    dsimp only
    split
    · rfl
    · split <;> rfl

theorem follow_ofStmt (s : Stmt) :
    (ofStmt s).follow (Task.run host n) = Run.execute host (n + 1) s := by
  cases s with
  | declare name initial => cases initial <;> rw [Run.execute] <;> rfl
  | jump keyword value => cases value <;> rw [Run.execute] <;> rfl
  | forLoop initial condition step body => cases initial <;> rw [Run.execute.eq_def] <;> rfl
  | branch condition whenTrue whenFalse =>
    rw [Run.execute.eq_def]
    refine Run.bind_congr fun value => ?_
    dsimp only
    split
    · rfl
    · cases whenFalse <;> rfl
  | _ => rw [Run.execute]; rfl

theorem follow_ofStmts (ss : List Stmt) :
    (ofStmts ss).follow (Task.run host n) = Run.executeAll host (n + 1) ss := by
  cases ss with
  | nil => rw [Run.executeAll]; rfl
  | cons s ss =>
    rw [Run.executeAll]
    exact Run.bind_congr fun completion => by cases completion <;> rfl

theorem follow_ofLoop (condition step : Option Expr) (body : Stmt) :
    (ofLoop condition step body).follow (Task.run host n) =
      Run.loop host (n + 1) condition step body := by
  rw [Run.loop.eq_def]
  cases condition with
  | none =>
    refine Run.bind_congr fun completion => ?_
    rcases completion with _ | _ | _ | _ <;> cases step <;> rfl
  | some e =>
    refine Run.bind_congr fun value => ?_
    dsimp only
    cases value.isTruthy with
    | false => rfl
    | true =>
      refine Run.bind_congr fun completion => ?_
      rcases completion with _ | _ | _ | _ <;> cases step <;> rfl

end Plan

theorem Task.run_zero (host : Host) (t : Task) : t.run host 0 = Run.unfinished := by
  cases t <;> simp only [run, Run.evaluate, Run.evaluateAll, Run.call, Run.invoke, Run.execute,
    Run.executeAll, Run.loop]

theorem Task.run_succ (host : Host) (n : Nat) (t : Task) :
    t.run host (n + 1) = (t.plan host).follow (Task.run host n) := by
  cases t with
  | evaluate e => exact (Plan.follow_ofExpr host n e).symm
  | evaluateAll es => exact (Plan.follow_ofExprs host n es).symm
  | call target paren values => exact (Plan.follow_ofCall host n target paren values).symm
  | invoke f paren values => exact (Plan.follow_ofInvoke host n f paren values).symm
  | execute s => exact (Plan.follow_ofStmt host n s).symm
  | executeAll ss => exact (Plan.follow_ofStmts host n ss).symm
  | loop condition step body => exact (Plan.follow_ofLoop host n condition step body).symm

end Lox
