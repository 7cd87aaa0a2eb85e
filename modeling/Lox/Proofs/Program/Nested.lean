import Lox.Proofs.Machine.Jump

/-!
# The statements inside a program

Statements stand inside other statements, and in the bodies of functions also inside expressions.
`Stmt.allStatements` lists all statements of a program, at whatever depth they stand. Each of them
is legal in some context if the program is, so those of a program that is read without a mistake are
(`Session.isLegal_of_mem`).
-/

namespace Lox

mutual

/-- The statements inside an expression. -/
def Expr.statements : Expr → List Stmt
  | .literal _ => []
  | .name _ => []
  | .assign _ value => value.statements
  | .get object _ => object.statements
  | .set object _ value => object.statements ++ value.statements
  | .conditional condition whenTrue whenFalse =>
    condition.statements ++ whenTrue.statements ++ whenFalse.statements
  | .logical left _ right => left.statements ++ right.statements
  | .binary left _ right => left.statements ++ right.statements
  | .unary _ right => right.statements
  | .call callee _ arguments => callee.statements ++ Expr.allStatements arguments
  | .lambda routine => routine.statements

/-- The statements inside expressions. -/
def Expr.allStatements : List Expr → List Stmt
  | [] => []
  | e :: es => e.statements ++ Expr.allStatements es

/-- The statements inside an expression, if there is one. -/
def Expr.optionStatements : Option Expr → List Stmt
  | none => []
  | some e => e.statements

/-- A statement and the statements inside it. -/
def Stmt.statements : Stmt → List Stmt
  | .block body => .block body :: Stmt.allStatements body
  | .declare name initial => .declare name initial :: Expr.optionStatements initial
  | .function definition => .function definition :: definition.statements
  | .classDef name methods classMethods => .classDef name methods classMethods ::
      (Definition.allStatements methods ++ Definition.allStatements classMethods)
  | .expression value => .expression value :: value.statements
  | .print value => .print value :: value.statements
  | .branch condition whenTrue whenFalse => .branch condition whenTrue whenFalse ::
      (condition.statements ++ whenTrue.statements ++ Stmt.optionStatements whenFalse)
  | .whileLoop condition body =>
    .whileLoop condition body :: (condition.statements ++ body.statements)
  | .forLoop initial condition step body => .forLoop initial condition step body ::
      (Stmt.optionStatements initial ++ Expr.optionStatements condition ++
        Expr.optionStatements step ++ body.statements)
  | .jump keyword value => .jump keyword value :: Expr.optionStatements value
  | .empty => [.empty]

/-- The statements of a program, and those inside them. -/
def Stmt.allStatements : List Stmt → List Stmt
  | [] => []
  | s :: ss => s.statements ++ Stmt.allStatements ss

/-- A statement, if there is one, and the statements inside it. -/
def Stmt.optionStatements : Option Stmt → List Stmt
  | none => []
  | some s => s.statements

/-- The body of a routine and the statements inside it. -/
def Routine.statements : Routine → List Stmt
  | .mk _ body => body.statements

/-- The body of a definition and the statements inside it. -/
def Definition.statements : Definition → List Stmt
  | .mk _ routine => routine.statements

/-- The bodies of definitions and the statements inside them. -/
def Definition.allStatements : List Definition → List Stmt
  | [] => []
  | d :: ds => d.statements ++ Definition.allStatements ds

end

@[simp]
theorem Stmt.mem_statements_self (s : Stmt) : s ∈ s.statements := by
  cases s <;> exact List.mem_cons_self

theorem Stmt.mem_allStatements {s : Stmt} {ss : List Stmt} (h : s ∈ ss) :
    s ∈ Stmt.allStatements ss := by
  induction ss with
  | nil => cases h
  | cons first ss ih =>
    rw [Stmt.allStatements, List.mem_append]
    obtain rfl | h := List.mem_cons.mp h
    · exact .inl s.mem_statements_self
    · exact .inr (ih h)

/-! ### Legal programs -/

/-- A statement that can be written, in one context or another. -/
def Stmt.IsLegal (s : Stmt) : Prop :=
  ∃ c : Context, s.Legal c

mutual

theorem Expr.Legal.statements {c : Context} :
    {e : Expr} → e.Legal c → ∀ s ∈ e.statements, s.IsLegal
  | .literal _, _ => List.forall_mem_nil _
  | .name _, _ => List.forall_mem_nil _
  | .assign _ _, h => h.2.statements
  | .get _ _, h => h.1.statements
  | .set _ _ _, h => List.forall_mem_append.mpr ⟨h.1.statements, h.2.2.statements⟩
  | .conditional _ _ _, h => List.forall_mem_append.mpr
      ⟨List.forall_mem_append.mpr ⟨h.1.statements, h.2.1.statements⟩, h.2.2.statements⟩
  | .logical _ _ _, h => List.forall_mem_append.mpr ⟨h.2.1.statements, h.2.2.statements⟩
  | .binary _ _ _, h => List.forall_mem_append.mpr ⟨h.2.1.statements, h.2.2.statements⟩
  | .unary _ _, h => h.2.statements
  | .call _ _ _, h =>
    List.forall_mem_append.mpr ⟨h.1.statements, Expr.AllLegal.statements h.2.2.1⟩
  | .lambda _, h => Routine.Legal.statements h

theorem Expr.AllLegal.statements {c : Context} :
    {es : List Expr} → Expr.AllLegal c es → ∀ s ∈ Expr.allStatements es, s.IsLegal
  | [], _ => List.forall_mem_nil _
  | _ :: _, h => List.forall_mem_append.mpr ⟨h.1.statements, Expr.AllLegal.statements h.2⟩

theorem Expr.OptionLegal.statements {c : Context} :
    {e : Option Expr} → Expr.OptionLegal c e → ∀ s ∈ Expr.optionStatements e, s.IsLegal
  | none, _ => List.forall_mem_nil _
  | some e, h => Expr.Legal.statements (e := e) h

theorem Stmt.Legal.statements {c : Context} :
    {s : Stmt} → s.Legal c → ∀ s' ∈ s.statements, s'.IsLegal
  | .block body, h => by
    have hbody : Stmt.AllLegal c body := h
    exact List.forall_mem_cons.mpr ⟨⟨c, h⟩, hbody.statements⟩
  | .declare _ _, h => List.forall_mem_cons.mpr ⟨⟨c, h⟩, Expr.OptionLegal.statements h.2⟩
  | .function d, h => List.forall_mem_cons.mpr ⟨⟨c, h⟩, Definition.Legal.statements (d := d) h⟩
  | .classDef _ _ _, h => List.forall_mem_cons.mpr ⟨⟨c, h⟩, List.forall_mem_append.mpr
      ⟨Definition.AllLegal.statements h.2.1.1, Definition.AllLegal.statements h.2.2.1⟩⟩
  | .expression e, h => List.forall_mem_cons.mpr ⟨⟨c, h⟩, Expr.Legal.statements (e := e) h⟩
  | .print e, h => List.forall_mem_cons.mpr ⟨⟨c, h⟩, Expr.Legal.statements (e := e) h⟩
  | .branch _ _ none, h => List.forall_mem_cons.mpr ⟨⟨c, h⟩, List.forall_mem_append.mpr
      ⟨List.forall_mem_append.mpr ⟨h.1.statements, h.2.1.statements⟩, List.forall_mem_nil _⟩⟩
  | .branch _ _ (some _), h => List.forall_mem_cons.mpr ⟨⟨c, h⟩, List.forall_mem_append.mpr
      ⟨List.forall_mem_append.mpr ⟨h.1.statements, h.2.1.1.statements⟩, h.2.2.1.statements⟩⟩
  | .whileLoop _ _, h => List.forall_mem_cons.mpr
      ⟨⟨c, h⟩, List.forall_mem_append.mpr ⟨h.1.statements, h.2.1.statements⟩⟩
  | .forLoop _ _ _ _, h => by
    obtain ⟨hinitial, hcondition, hstep, hbody, -⟩ := id h
    refine List.forall_mem_cons.mpr ⟨⟨c, h⟩, ?_⟩
    have hheader := List.forall_mem_append.mpr
      ⟨Stmt.InitialLegal.statements hinitial, Expr.OptionLegal.statements hcondition⟩
    exact List.forall_mem_append.mpr
      ⟨List.forall_mem_append.mpr ⟨hheader, Expr.OptionLegal.statements hstep⟩, hbody.statements⟩
  | .jump _ none, h => List.forall_mem_cons.mpr ⟨⟨c, h⟩, List.forall_mem_nil _⟩
  | .jump _ (some _), h => List.forall_mem_cons.mpr ⟨⟨c, h⟩, h.2.2.statements⟩
  | .empty, h => List.forall_mem_singleton.mpr ⟨c, h⟩

theorem Stmt.AllLegal.statements {c : Context} :
    {ss : List Stmt} → Stmt.AllLegal c ss → ∀ s ∈ Stmt.allStatements ss, s.IsLegal
  | [], _ => List.forall_mem_nil _
  | _ :: _, h => List.forall_mem_append.mpr ⟨h.1.statements, Stmt.AllLegal.statements h.2⟩

theorem Stmt.InitialLegal.statements {c : Context} :
    {s : Option Stmt} → Stmt.InitialLegal c s → ∀ s' ∈ Stmt.optionStatements s, s'.IsLegal
  | none, _ => List.forall_mem_nil _
  | some _, h => h.1.statements

theorem Routine.Legal.statements {c : Context} {r : Routine} (h : r.Legal c) :
    ∀ s ∈ r.statements, s.IsLegal := by
  obtain ⟨c', -, hbody⟩ := h.sealed
  cases r with
  | mk names body => exact Stmt.Legal.statements (s := body) hbody

theorem Definition.Legal.statements {c : Context} {d : Definition} (h : d.Legal c) :
    ∀ s ∈ d.statements, s.IsLegal := by
  obtain ⟨c', -, hbody⟩ := h.sealed
  cases d with
  | mk name r =>
    cases r with
    | mk names body => exact Stmt.Legal.statements (s := body) hbody

theorem Definition.AllLegal.statements {c : Context} :
    {ds : List Definition} → Definition.AllLegal c ds →
      ∀ s ∈ Definition.allStatements ds, s.IsLegal
  | [], _ => List.forall_mem_nil _
  | _ :: _, h => List.forall_mem_append.mpr ⟨h.1.statements, Definition.AllLegal.statements h.2⟩

end

/-- The statements of a program that is executed are legal, at whatever depth they stand. -/
theorem Session.isLegal_of_mem {source : String} (h : rejections source = []) {s : Stmt}
    (hs : s ∈ Stmt.allStatements (program source)) : s.IsLegal :=
  (legal_program h).statements s hs

end Lox
