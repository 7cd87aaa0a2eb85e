import Lox.Proofs.Machine.Carried

/-!
# Traits

A **trait** is a property of programs that a whole has if its parts have it: what names it gives
values to, at which tokens it may fail, whether it has loops, which routines stand in it. The bodies
of the functions in a program belong to its parts, so the trait of a program is also the trait of all
functions that are ever made while it runs. That is the invariant of a trait (`Trait.invariant`).

Main definitions:

* `Expr.Has`, `Stmt.Has`, `Routine.Has`, `Task.Has` — the programs and tasks with a trait;
* `Trait.invariant` — what is executed has a trait, and so have the routines that a machine carries.
-/

namespace Lox

/-- A property of programs, given by what it demands of their parts. -/
structure Trait where
  /-- What is demanded of the tokens at which an expression may fail. -/
  token : Token → Prop
  /-- What is demanded of the names that are given values. -/
  name : Token → Prop
  /-- There may be loops. -/
  loops : Prop
  /-- What is demanded of the routines. -/
  routine : Routine → Prop

mutual

/-- All parts of an expression are as a trait demands. -/
def Expr.Has (q : Trait) : Expr → Prop
  | .literal _ => True
  | .name token => q.token token
  | .assign name value => (q.token name ∧ q.name name) ∧ value.Has q
  | .get object name => object.Has q ∧ q.token name
  | .set object name value => object.Has q ∧ q.token name ∧ value.Has q
  | .conditional condition whenTrue whenFalse =>
    condition.Has q ∧ whenTrue.Has q ∧ whenFalse.Has q
  | .logical left _ right => left.Has q ∧ right.Has q
  | .binary left operator right => left.Has q ∧ q.token operator ∧ right.Has q
  | .unary operator right => q.token operator ∧ right.Has q
  | .call callee paren arguments => callee.Has q ∧ q.token paren ∧ Expr.AllHave q arguments
  | .lambda routine => routine.Has q

/-- All parts of expressions are as a trait demands. -/
def Expr.AllHave (q : Trait) : List Expr → Prop
  | [] => True
  | e :: es => e.Has q ∧ Expr.AllHave q es

/-- All parts of an expression, if there is one, are as a trait demands. -/
def Expr.OptionHas (q : Trait) : Option Expr → Prop
  | none => True
  | some e => e.Has q

/-- All parts of a statement are as a trait demands. -/
def Stmt.Has (q : Trait) : Stmt → Prop
  | .block body => Stmt.AllHave q body
  | .declare name initial => q.name name ∧ Expr.OptionHas q initial
  | .function definition => q.name definition.name ∧ definition.Has q
  | .classDef name methods classMethods =>
    q.name name ∧ Definition.AllHave q methods ∧ Definition.AllHave q classMethods
  | .expression value => value.Has q
  | .print value => value.Has q
  | .branch condition whenTrue whenFalse =>
    condition.Has q ∧ whenTrue.Has q ∧ Stmt.OptionHas q whenFalse
  | .whileLoop condition body => q.loops ∧ condition.Has q ∧ body.Has q
  | .forLoop initial condition step body => q.loops ∧ Stmt.OptionHas q initial ∧
      Expr.OptionHas q condition ∧ Expr.OptionHas q step ∧ body.Has q
  | .jump _ value => Expr.OptionHas q value
  | .empty => True

/-- All parts of statements are as a trait demands. -/
def Stmt.AllHave (q : Trait) : List Stmt → Prop
  | [] => True
  | s :: ss => s.Has q ∧ Stmt.AllHave q ss

/-- All parts of a statement, if there is one, are as a trait demands. -/
def Stmt.OptionHas (q : Trait) : Option Stmt → Prop
  | none => True
  | some s => s.Has q

/-- A routine and all parts of it are as a trait demands. -/
def Routine.Has (q : Trait) : Routine → Prop
  | .mk parameters body =>
    (∀ p ∈ parameters, q.name p) ∧ q.routine (.mk parameters body) ∧ body.Has q

/-- All parts of a definition are as a trait demands; its name counts where it is defined. -/
def Definition.Has (q : Trait) : Definition → Prop
  | .mk _ routine => routine.Has q

/-- All parts of definitions are as a trait demands. -/
def Definition.AllHave (q : Trait) : List Definition → Prop
  | [] => True
  | d :: ds => d.Has q ∧ Definition.AllHave q ds

end

/-- All routines that a value carries have a trait. -/
abbrev Value.Has (q : Trait) : Value → Prop :=
  Value.Carries (Routine.Has q)

/-- All routines that a machine carries have a trait. -/
abbrev Machine.Has (q : Trait) : Machine → Prop :=
  Machine.Carries (Routine.Has q)

/-- What a task is about has a trait. -/
def Task.Has (q : Trait) : Task → Prop
  | evaluate e => e.Has q
  | evaluateAll es => Expr.AllHave q es
  | call target paren values => q.token paren ∧ target.Has q ∧ ∀ v ∈ values, v.Has q
  | invoke f paren values => q.token paren ∧ f.routine.Has q ∧ ∀ v ∈ values, v.Has q
  | execute s => s.Has q
  | executeAll ss => Stmt.AllHave q ss
  | loop condition step body =>
    q.loops ∧ Expr.OptionHas q condition ∧ Expr.OptionHas q step ∧ body.Has q

/-- All routines that the result of a task carries have a trait. -/
def Task.Yields (q : Trait) : (t : Task) → t.Result → Prop
  | evaluate _, v | call .., v | invoke .., v => v.Has q
  | evaluateAll _, vs => ∀ v ∈ vs, v.Has q
  | execute _, _ | executeAll _, _ | loop .., _ => True

variable {q : Trait}

theorem Routine.Has.parameters {r : Routine} (h : r.Has q) : ∀ p ∈ r.parameters, q.name p := by
  obtain ⟨names, body⟩ := r
  exact h.1

theorem Routine.Has.body {r : Routine} (h : r.Has q) : r.body.Has q := by
  obtain ⟨names, body⟩ := r
  exact h.2.2

theorem Definition.Has.routine {d : Definition} (h : d.Has q) : d.routine.Has q := by
  obtain ⟨name, r⟩ := d
  exact h

theorem Definition.allHave_iff {ds : List Definition} :
    Definition.AllHave q ds ↔ ∀ d ∈ ds, d.routine.Has q := by
  induction ds with
  | nil => simp [Definition.AllHave]
  | cons d ds ih =>
    obtain ⟨name, r⟩ := d
    rw [Definition.AllHave, ih, List.forall_mem_cons]
    rfl

theorem Stmt.allHave_append {ss ss' : List Stmt} :
    Stmt.AllHave q (ss ++ ss') ↔ Stmt.AllHave q ss ∧ Stmt.AllHave q ss' := by
  induction ss with
  | nil => exact (and_iff_right trivial).symm
  | cons s ss ih => rw [List.cons_append, Stmt.AllHave, Stmt.AllHave, ih, and_assoc]

/-! ### No demands -/

/-- Nothing is demanded. -/
def Trait.any : Trait where
  token _ := True
  name _ := True
  loops := True
  routine _ := True

mutual

theorem Expr.has_any : (e : Expr) → e.Has .any
  | .literal _ => trivial
  | .name _ => trivial
  | .assign _ value => ⟨⟨trivial, trivial⟩, value.has_any⟩
  | .get object _ => ⟨object.has_any, trivial⟩
  | .set object _ value => ⟨object.has_any, trivial, value.has_any⟩
  | .conditional condition whenTrue whenFalse =>
    ⟨condition.has_any, whenTrue.has_any, whenFalse.has_any⟩
  | .logical left _ right => ⟨left.has_any, right.has_any⟩
  | .binary left _ right => ⟨left.has_any, trivial, right.has_any⟩
  | .unary _ right => ⟨trivial, right.has_any⟩
  | .call callee _ arguments => ⟨callee.has_any, trivial, Expr.allHave_any arguments⟩
  | .lambda routine => routine.has_any

theorem Expr.allHave_any : (es : List Expr) → Expr.AllHave .any es
  | [] => trivial
  | e :: es => ⟨e.has_any, Expr.allHave_any es⟩

theorem Expr.optionHas_any : (e : Option Expr) → Expr.OptionHas .any e
  | none => trivial
  | some e => e.has_any

theorem Stmt.has_any : (s : Stmt) → s.Has .any
  | .block body => Stmt.allHave_any body
  | .declare _ initial => ⟨trivial, Expr.optionHas_any initial⟩
  | .function definition => ⟨trivial, definition.has_any⟩
  | .classDef _ methods classMethods =>
    ⟨trivial, Definition.allHave_any methods, Definition.allHave_any classMethods⟩
  | .expression value => value.has_any
  | .print value => value.has_any
  | .branch condition whenTrue whenFalse =>
    ⟨condition.has_any, whenTrue.has_any, Stmt.optionHas_any whenFalse⟩
  | .whileLoop condition body => ⟨trivial, condition.has_any, body.has_any⟩
  | .forLoop initial condition step body => ⟨trivial, Stmt.optionHas_any initial,
      Expr.optionHas_any condition, Expr.optionHas_any step, body.has_any⟩
  | .jump _ value => Expr.optionHas_any value
  | .empty => trivial

theorem Stmt.allHave_any : (ss : List Stmt) → Stmt.AllHave .any ss
  | [] => trivial
  | s :: ss => ⟨s.has_any, Stmt.allHave_any ss⟩

theorem Stmt.optionHas_any : (s : Option Stmt) → Stmt.OptionHas .any s
  | none => trivial
  | some s => s.has_any

theorem Routine.has_any : (r : Routine) → r.Has .any
  | .mk _ body => ⟨fun _ _ => trivial, trivial, body.has_any⟩

theorem Definition.has_any : (d : Definition) → d.Has .any
  | .mk _ routine => routine.has_any

theorem Definition.allHave_any : (ds : List Definition) → Definition.AllHave .any ds
  | [] => trivial
  | d :: ds => ⟨d.has_any, Definition.allHave_any ds⟩

end

theorem Value.has_any (v : Value) : v.Has .any := by
  cases v with
  | function f => exact f.routine.has_any
  | klass c => exact ⟨fun _ f _ => f.routine.has_any, fun _ f _ => f.routine.has_any⟩
  | _ => trivial

theorem Task.has_any (t : Task) : t.Has .any := by
  cases t with
  | evaluate e => exact e.has_any
  | evaluateAll es => exact Expr.allHave_any es
  | call target paren values => exact ⟨trivial, target.has_any, fun v _ => v.has_any⟩
  | invoke f paren values => exact ⟨trivial, f.routine.has_any, fun v _ => v.has_any⟩
  | execute s => exact s.has_any
  | executeAll ss => exact Stmt.allHave_any ss
  | loop condition step body =>
    exact ⟨trivial, Expr.optionHas_any condition, Expr.optionHas_any step, body.has_any⟩

/-! ### The invariant -/

namespace Trait

/-- What is executed has a trait, and so have all routines that a machine carries. -/
def invariant (q : Trait) : Invariant where
  holds := Machine.Has q
  starts := Task.Has q
  yields := Task.Yields q
  enterFrame h := ⟨h.store.allocFrame _, h.returned⟩
  backIn _ h := ⟨h.store, h.returned⟩
  enterCall _ h := ⟨h.store, h.returned⟩
  leaveCall h := ⟨h.store, h.returned⟩

end Trait

end Lox
