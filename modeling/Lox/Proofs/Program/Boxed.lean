import Lox.Proofs.Program.Varies

/-!
# Arrows in blocks

A function without a name may be written with an arrow and a value, and is then a routine whose body
is a `return` that stands alone. `Expr.boxed` and its companions put the body of each such function
into a block of its own, so that `fun (x) -> e` becomes `fun (x) { return e; }`. What comes out is a
variation of the program (`Stmt.varies_allBoxed`).
-/

namespace Lox

/-- A `return` with a value. -/
def Stmt.isReturn : Stmt → Bool
  | .jump keyword (some _) => keyword.is .returnWord
  | _ => false

mutual

/-- The expression with arrows in blocks. -/
def Expr.boxed : Expr → Expr
  | .literal value => .literal value
  | .name token => .name token
  | .assign name value => .assign name value.boxed
  | .get object name => .get object.boxed name
  | .set object name value => .set object.boxed name value.boxed
  | .conditional condition whenTrue whenFalse =>
    .conditional condition.boxed whenTrue.boxed whenFalse.boxed
  | .logical left operator right => .logical left.boxed operator right.boxed
  | .binary left operator right => .binary left.boxed operator right.boxed
  | .unary operator right => .unary operator right.boxed
  | .call callee paren arguments => .call callee.boxed paren (Expr.allBoxed arguments)
  | .lambda routine => .lambda routine.boxedArrow

/-- The expressions with arrows in blocks. -/
def Expr.allBoxed : List Expr → List Expr
  | [] => []
  | e :: es => e.boxed :: Expr.allBoxed es

/-- The expression, if there is one, with arrows in blocks. -/
def Expr.optionBoxed : Option Expr → Option Expr
  | none => none
  | some e => some e.boxed

/-- The statement with arrows in blocks. -/
def Stmt.boxed : Stmt → Stmt
  | .block body => .block (Stmt.allBoxed body)
  | .declare name initial => .declare name (Expr.optionBoxed initial)
  | .function definition => .function definition.boxed
  | .classDef name methods classMethods =>
    .classDef name (Definition.allBoxed methods) (Definition.allBoxed classMethods)
  | .expression value => .expression value.boxed
  | .print value => .print value.boxed
  | .branch condition whenTrue whenFalse =>
    .branch condition.boxed whenTrue.boxed (Stmt.optionBoxed whenFalse)
  | .whileLoop condition body => .whileLoop condition.boxed body.boxed
  | .forLoop initial condition step body =>
    .forLoop (Stmt.optionBoxed initial) (Expr.optionBoxed condition) (Expr.optionBoxed step)
      body.boxed
  | .jump keyword value => .jump keyword (Expr.optionBoxed value)
  | .empty => .empty

/-- The statements with arrows in blocks. -/
def Stmt.allBoxed : List Stmt → List Stmt
  | [] => []
  | s :: ss => s.boxed :: Stmt.allBoxed ss

/-- The statement, if there is one, with arrows in blocks. -/
def Stmt.optionBoxed : Option Stmt → Option Stmt
  | none => none
  | some s => some s.boxed

/-- The routine of a function without a name. If its body is a `return`, it is put into a block. -/
def Routine.boxedArrow : Routine → Routine
  | .mk parameters body =>
    .mk parameters (if body.isReturn then .block [body.boxed] else body.boxed)

/-- The routine of a function with a name, with arrows inside it in blocks. -/
def Routine.boxed : Routine → Routine
  | .mk parameters body => .mk parameters body.boxed

/-- The definition with arrows in blocks. -/
def Definition.boxed : Definition → Definition
  | .mk name routine => .mk name routine.boxed

/-- The definitions with arrows in blocks. -/
def Definition.allBoxed : List Definition → List Definition
  | [] => []
  | d :: ds => d.boxed :: Definition.allBoxed ds

end

/-- The body of an arrow is boxed as the variation allows. -/
theorem Stmt.varies_box {ps : List Token} {s s' : Stmt} (hs : s.isReturn = true)
    (h : s.Varies .boxes s') : (Routine.mk ps s).Varies .boxes (.mk ps (.block [s'])) := by
  have hps : List.Forall₂ Variation.boxes.token ps ps := List.forall₂_same.mpr fun t _ => rfl
  cases h with
  | jump ht hvalue =>
    cases hvalue with
    | none => exact absurd hs Bool.false_ne_true
    | some he => exact .boxed trivial hps ht he
  | _ => exact absurd hs Bool.false_ne_true

/-! ### A program with arrows in blocks varies -/

mutual

theorem Expr.varies_boxed (e : Expr) : e.Varies .boxes e.boxed := by
  cases e with
  | literal value => exact .literal value
  | name t => exact .name rfl
  | assign t e => exact .assign rfl e.varies_boxed
  | get e t => exact .get e.varies_boxed rfl
  | set e t value => exact .set e.varies_boxed rfl value.varies_boxed
  | conditional e whenTrue whenFalse =>
    exact .conditional e.varies_boxed whenTrue.varies_boxed whenFalse.varies_boxed
  | logical left t right => exact .logical left.varies_boxed rfl right.varies_boxed
  | binary left t right => exact .binary left.varies_boxed rfl right.varies_boxed
  | unary t right => exact .unary rfl right.varies_boxed
  | call callee t arguments => exact .call callee.varies_boxed rfl (Expr.varies_allBoxed arguments)
  | lambda r => exact .lambda r.varies_boxedArrow

theorem Expr.varies_allBoxed (es : List Expr) :
    List.Forall₂ (Expr.Varies .boxes) es (Expr.allBoxed es) := by
  cases es with
  | nil => exact .nil
  | cons e es => exact .cons e.varies_boxed (Expr.varies_allBoxed es)

theorem Expr.varies_optionBoxed (e : Option Expr) :
    Option.Rel (Expr.Varies .boxes) e (Expr.optionBoxed e) := by
  cases e with
  | none => exact .none
  | some e => exact .some e.varies_boxed

theorem Stmt.varies_boxed (s : Stmt) : s.Varies .boxes s.boxed := by
  cases s with
  | block body => exact .block (Stmt.varies_allBoxed body)
  | declare t initial => exact .declare rfl (Expr.varies_optionBoxed initial)
  | function d => exact .function d.varies_boxed
  | classDef t methods classMethods =>
    exact .classDef rfl (Definition.varies_allBoxed methods)
      (Definition.varies_allBoxed classMethods)
  | expression e => exact .expression e.varies_boxed
  | print e => exact .print e.varies_boxed
  | branch e whenTrue whenFalse =>
    exact .branch e.varies_boxed whenTrue.varies_boxed (Stmt.varies_optionBoxed whenFalse)
  | whileLoop e body => exact .whileLoop e.varies_boxed body.varies_boxed
  | forLoop initial condition step body =>
    exact .forLoop (Stmt.varies_optionBoxed initial) (Expr.varies_optionBoxed condition)
      (Expr.varies_optionBoxed step) body.varies_boxed
  | jump t value => exact .jump rfl (Expr.varies_optionBoxed value)
  | empty => exact .empty

theorem Stmt.varies_allBoxed (ss : List Stmt) :
    List.Forall₂ (Stmt.Varies .boxes) ss (Stmt.allBoxed ss) := by
  cases ss with
  | nil => exact .nil
  | cons s ss => exact .cons s.varies_boxed (Stmt.varies_allBoxed ss)

theorem Stmt.varies_optionBoxed (s : Option Stmt) :
    Option.Rel (Stmt.Varies .boxes) s (Stmt.optionBoxed s) := by
  cases s with
  | none => exact .none
  | some s => exact .some s.varies_boxed

theorem Routine.varies_boxedArrow (r : Routine) : r.Varies .boxes r.boxedArrow := by
  cases r with
  | mk ps body =>
    have hbody := body.varies_boxed
    rw [Routine.boxedArrow]
    split
    · rename_i hreturn
      exact Stmt.varies_box hreturn hbody
    · exact .mk (List.forall₂_same.mpr fun t _ => rfl) hbody

theorem Routine.varies_boxed (r : Routine) : r.Varies .boxes r.boxed := by
  cases r with
  | mk ps body => exact .mk (List.forall₂_same.mpr fun t _ => rfl) body.varies_boxed

theorem Definition.varies_boxed (d : Definition) : d.Varies .boxes d.boxed := by
  cases d with
  | mk t r => exact .mk rfl r.varies_boxed

theorem Definition.varies_allBoxed (ds : List Definition) :
    List.Forall₂ (Definition.Varies .boxes) ds (Definition.allBoxed ds) := by
  cases ds with
  | nil => exact .nil
  | cons d ds => exact .cons d.varies_boxed (Definition.varies_allBoxed ds)

end

end Lox
