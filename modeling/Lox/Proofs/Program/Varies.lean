import Lox.Program.Basic
import Mathlib.Data.List.Forall2
import Mathlib.Data.Option.Basic

/-!
# Programs that vary

Two programs may be written differently and still do the same. A `Variation` says what may differ:
the tokens, as long as their kinds and their texts are the same, and whether a function that only
returns a value may do so in a block of its own. `Expr.Varies` and its companions relate programs
that are the same otherwise.
-/

namespace Lox

/-- What may differ between two programs. -/
structure Variation where
  /-- A token may have another one in its place. -/
  token : Token → Token → Prop
  /-- The body of a function that only returns a value may stand in a block. -/
  boxed : Prop
  /-- A token in the place of another one has the same kind. -/
  kind {t t' : Token} : token t t' → t'.kind = t.kind
  /-- It has the same text. -/
  lexeme {t t' : Token} : token t t' → t'.lexeme = t.lexeme

namespace Variation

/-- Nothing may differ. -/
def none : Variation where
  token := Eq
  boxed := False
  kind h := congrArg Token.kind h.symm
  lexeme h := congrArg Token.lexeme h.symm

/-- The lines of the tokens may differ. -/
def lines : Variation where
  token t t' := t'.kind = t.kind ∧ t'.lexeme = t.lexeme
  boxed := False
  kind h := h.1
  lexeme h := h.2

/-- The bodies of functions may stand in blocks. -/
def boxes : Variation where
  token := Eq
  boxed := True
  kind h := congrArg Token.kind h.symm
  lexeme h := congrArg Token.lexeme h.symm

/-! Where nothing has to differ, tokens may stay as they are. -/

instance : Std.Refl none.token := ⟨fun _ => rfl⟩

instance : Std.Refl lines.token := ⟨fun _ => ⟨rfl, rfl⟩⟩

instance : Std.Refl boxes.token := ⟨fun _ => rfl⟩

variable {V : Variation} {t t' : Token}

theorem is (h : V.token t t') (s : Symbol) : t'.is s = t.is s := by
  unfold Token.is
  rw [V.kind h]

end Variation

/-! ### The relations -/

mutual

/-- Expressions that vary. -/
inductive Expr.Varies (V : Variation) : Expr → Expr → Prop where
  | literal (value : Literal) : Expr.Varies V (.literal value) (.literal value)
  | name {t t' : Token} (ht : V.token t t') : Expr.Varies V (.name t) (.name t')
  | assign {t t' : Token} {e e' : Expr} (ht : V.token t t') (he : e.Varies V e') :
    Expr.Varies V (.assign t e) (.assign t' e')
  | get {e e' : Expr} {t t' : Token} (he : e.Varies V e') (ht : V.token t t') :
    Expr.Varies V (.get e t) (.get e' t')
  | set {e e' : Expr} {t t' : Token} {value value' : Expr} (he : e.Varies V e')
      (ht : V.token t t') (hvalue : value.Varies V value') :
    Expr.Varies V (.set e t value) (.set e' t' value')
  | conditional {e e' whenTrue whenTrue' whenFalse whenFalse' : Expr} (he : e.Varies V e')
      (htrue : whenTrue.Varies V whenTrue') (hfalse : whenFalse.Varies V whenFalse') :
    Expr.Varies V (.conditional e whenTrue whenFalse) (.conditional e' whenTrue' whenFalse')
  | logical {left left' right right' : Expr} {t t' : Token} (hleft : left.Varies V left')
      (ht : V.token t t') (hright : right.Varies V right') :
    Expr.Varies V (.logical left t right) (.logical left' t' right')
  | binary {left left' right right' : Expr} {t t' : Token} (hleft : left.Varies V left')
      (ht : V.token t t') (hright : right.Varies V right') :
    Expr.Varies V (.binary left t right) (.binary left' t' right')
  | unary {t t' : Token} {right right' : Expr} (ht : V.token t t')
      (hright : right.Varies V right') : Expr.Varies V (.unary t right) (.unary t' right')
  | call {callee callee' : Expr} {t t' : Token} {arguments arguments' : List Expr}
      (hcallee : callee.Varies V callee') (ht : V.token t t')
      (harguments : List.Forall₂ (Expr.Varies V) arguments arguments') :
    Expr.Varies V (.call callee t arguments) (.call callee' t' arguments')
  | lambda {r r' : Routine} (hr : r.Varies V r') : Expr.Varies V (.lambda r) (.lambda r')

/-- Statements that vary. -/
inductive Stmt.Varies (V : Variation) : Stmt → Stmt → Prop where
  | block {body body' : List Stmt} (hbody : List.Forall₂ (Stmt.Varies V) body body') :
    Stmt.Varies V (.block body) (.block body')
  | declare {t t' : Token} {initial initial' : Option Expr} (ht : V.token t t')
      (hinitial : Option.Rel (Expr.Varies V) initial initial') :
    Stmt.Varies V (.declare t initial) (.declare t' initial')
  | function {d d' : Definition} (hd : d.Varies V d') : Stmt.Varies V (.function d) (.function d')
  | classDef {t t' : Token} {methods methods' classMethods classMethods' : List Definition}
      (ht : V.token t t') (hmethods : List.Forall₂ (Definition.Varies V) methods methods')
      (hclassMethods : List.Forall₂ (Definition.Varies V) classMethods classMethods') :
    Stmt.Varies V (.classDef t methods classMethods) (.classDef t' methods' classMethods')
  | expression {e e' : Expr} (he : e.Varies V e') : Stmt.Varies V (.expression e) (.expression e')
  | print {e e' : Expr} (he : e.Varies V e') : Stmt.Varies V (.print e) (.print e')
  | branch {e e' : Expr} {whenTrue whenTrue' : Stmt} {whenFalse whenFalse' : Option Stmt}
      (he : e.Varies V e') (htrue : whenTrue.Varies V whenTrue')
      (hfalse : Option.Rel (Stmt.Varies V) whenFalse whenFalse') :
    Stmt.Varies V (.branch e whenTrue whenFalse) (.branch e' whenTrue' whenFalse')
  | whileLoop {e e' : Expr} {body body' : Stmt} (he : e.Varies V e') (hbody : body.Varies V body') :
    Stmt.Varies V (.whileLoop e body) (.whileLoop e' body')
  | forLoop {initial initial' : Option Stmt} {condition condition' step step' : Option Expr}
      {body body' : Stmt} (hinitial : Option.Rel (Stmt.Varies V) initial initial')
      (hcondition : Option.Rel (Expr.Varies V) condition condition')
      (hstep : Option.Rel (Expr.Varies V) step step') (hbody : body.Varies V body') :
    Stmt.Varies V (.forLoop initial condition step body) (.forLoop initial' condition' step' body')
  | jump {t t' : Token} {value value' : Option Expr} (ht : V.token t t')
      (hvalue : Option.Rel (Expr.Varies V) value value') :
    Stmt.Varies V (.jump t value) (.jump t' value')
  | empty : Stmt.Varies V .empty .empty

/-- Routines that vary. -/
inductive Routine.Varies (V : Variation) : Routine → Routine → Prop where
  | mk {ps ps' : List Token} {body body' : Stmt} (hps : List.Forall₂ V.token ps ps')
      (hbody : body.Varies V body') : Routine.Varies V (.mk ps body) (.mk ps' body')
  | boxed {ps ps' : List Token} {t t' : Token} {e e' : Expr} (hV : V.boxed)
      (hps : List.Forall₂ V.token ps ps') (ht : V.token t t') (he : e.Varies V e') :
    Routine.Varies V (.mk ps (.jump t (some e))) (.mk ps' (.block [.jump t' (some e')]))

/-- Definitions that vary. -/
inductive Definition.Varies (V : Variation) : Definition → Definition → Prop where
  | mk {t t' : Token} {r r' : Routine} (ht : V.token t t') (hr : r.Varies V r') :
    Definition.Varies V (.mk t r) (.mk t' r')

end

variable {V : Variation}

theorem Routine.Varies.parameters {r r' : Routine} (h : r.Varies V r') :
    List.Forall₂ V.token r.parameters r'.parameters := by
  cases h with
  | mk hps hbody => exact hps
  | boxed hV hps ht he => exact hps

theorem Routine.Varies.arity {r r' : Routine} (h : r.Varies V r') : r'.arity = r.arity :=
  h.parameters.length_eq.symm

theorem Definition.Varies.name {d d' : Definition} (h : d.Varies V d') :
    V.token d.name d'.name := by
  cases h with
  | mk ht hr => exact ht

theorem Definition.Varies.routine {d d' : Definition} (h : d.Varies V d') :
    d.routine.Varies V d'.routine := by
  cases h with
  | mk ht hr => exact hr

end Lox
