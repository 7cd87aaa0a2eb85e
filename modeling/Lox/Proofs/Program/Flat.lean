import Lox.Proofs.Program.Phrase
import Lox.Proofs.Program.Script

/-!
# Trees in the order of their text

A tree keeps some of the tokens that it is read from: names, `this`, constants, operators, and the
keywords of jumps and classes. They are its **leaves**. `Expr.flat` and `Stmt.flat` put the leaves
of a tree down in the order of the text, each in the context where it stands; how, a `Flattening`
says. The order of the text is that of the tree, but for the members of a class, of which a tree
does not say how those of its objects and its own were mixed.
-/

namespace Lox

/-! ### Leaves -/

/-- What a tree keeps of a token, or a mistake noted between tokens. -/
inductive Leaf where
  /-- A name, `this`, or an operator other than the comma. -/
  | word (t : Token)
  /-- A constant. -/
  | constant (value : Literal)
  /-- The keyword of a jump. -/
  | jump (keyword : Token)
  /-- The keyword of a class, or of a member that belongs to the class itself. -/
  | classWord
  /-- A mistake. -/
  | flaw (mistake : Mistake)

/-- The mistake that stands in a place of a leaf. -/
def Leaf.flaw? : Leaf → Option Mistake
  | flaw mistake => some mistake
  | _ => none

/-- What a tree keeps of a token that is a symbol: nothing of brackets, separators, and words that
only say what follows. -/
def Symbol.leaf? (t : Token) : Symbol → Option Leaf
  | trueWord => some (.constant (.bool true))
  | falseWord => some (.constant (.bool false))
  | nilWord => some (.constant .nil)
  | breakWord | continueWord | returnWord => some (.jump t)
  | classWord => some .classWord
  | thisWord | minus | plus | slash | star | percent | bang | bangEqual | equalEqual | greater
  | greaterEqual | less | lessEqual | andWord | orWord => some (.word t)
  | _ => none

/-- What a tree keeps of a token. -/
def Token.leaf? (t : Token) : Option Leaf :=
  match t.kind with
  | .symbol x => x.leaf? t
  | .identifier => some (.word t)
  | .number value => some (.constant (.number value))
  | .string value => some (.constant (.text value))
  | .eof => none

namespace Token

variable {t : Token}

theorem leaf?_of_is {x : Symbol} (h : t.is x = true) : t.leaf? = x.leaf? t := by
  rw [leaf?, is_iff.mp h]

theorem leaf?_of_isIdentifier (h : t.isIdentifier = true) : t.leaf? = some (.word t) := by
  cases hkind : t.kind with
  | identifier => simp [leaf?, hkind]
  | _ => simp [isIdentifier, hkind] at h

/-- The operators of the tiers are kept, and the comma is none of them. -/
theorem leaf?_of_admits {tier : Tier} (h : tier.admits t = true) :
    t.leaf? = some (.word t) ∧ t.is .comma = false := by
  cases hkind : t.kind with
  | symbol x => cases x <;> simp_all [Tier.admits, Tier.ofSymbol?, leaf?, Symbol.leaf?, is]
  | _ => simp [Tier.admits, hkind] at h

end Token

/-- The mistake of a jump that stands in a context where it may not: a `return` outside every
function, another jump in no loop of its function. -/
def Context.misplaced (c : Context) (keyword : Token) : List Leaf :=
  if keyword.is .returnWord then if c.inFunction then [] else [.flaw .returnOutsideFunction]
  else if c.inLoop then [] else [.flaw (.jumpOutsideLoop keyword.lexeme)]

/-- Parameters or arguments, with the mistake of there being too many in front of the first that is
one too many. -/
def Leaf.crowded (mistake : Mistake) (parts : List (List Leaf)) : List Leaf :=
  (parts.take maxArity).flatten ++ (if maxArity < parts.length then [.flaw mistake] else []) ++
    (parts.drop maxArity).flatten

/-! ### Flattenings -/

/-- How the leaves of a tree are put down. -/
structure Flattening (M : Type) where
  /-- One after the other. -/
  row : List M → M
  /-- A name, `this`, or an operator other than the comma. -/
  word : Token → M
  /-- A constant. -/
  constant : Literal → M
  /-- The keyword of a jump in a context. -/
  jump : Context → Token → M
  /-- The keyword of a class, or of a member that belongs to the class itself. -/
  classWord : M
  /-- Parameters or arguments, of which there may be too many. -/
  list : Mistake → List M → M
  /-- The methods of the objects of a class, and those of the class itself. -/
  members : List M → List M → M

variable {M : Type}

/-- An operator between two operands. -/
def Flattening.operator (f : Flattening M) (t : Token) : M :=
  if t.is .comma then f.row [] else f.word t

/-- A member of a class behind its keyword, if it has one. -/
def Flattening.member (f : Flattening M) (ofClass : Bool) (definition : M) : M :=
  if ofClass then f.row [f.classWord, definition] else definition

mutual

/-- An expression in the order of its text. -/
def Expr.flat (f : Flattening M) (c : Context) : Expr → M
  | .literal value => f.constant value
  | .name token => f.word token
  | .assign name value => f.row [f.word name, value.flat f c]
  | .get object name => f.row [object.flat f c, f.word name]
  | .set object name value => f.row [f.row [object.flat f c, f.word name], value.flat f c]
  | .conditional condition whenTrue whenFalse =>
    f.row [condition.flat f c, whenTrue.flat f c, whenFalse.flat f c]
  | .logical left operator right => f.row [left.flat f c, f.word operator, right.flat f c]
  | .binary left operator right => f.row [left.flat f c, f.operator operator, right.flat f c]
  | .unary operator right => f.row [f.word operator, right.flat f c]
  | .call callee _ arguments =>
    f.row [callee.flat f c, f.list .tooManyArguments (Expr.allFlat f c arguments)]
  | .lambda routine => routine.flat f c

/-- Each of some expressions in the order of its text. -/
def Expr.allFlat (f : Flattening M) (c : Context) : List Expr → List M
  | [] => []
  | e :: es => e.flat f c :: Expr.allFlat f c es

/-- An expression in the order of its text, if there is one. -/
def Expr.optionFlat (f : Flattening M) (c : Context) : Option Expr → M
  | none => f.row []
  | some e => e.flat f c

/-- A statement in the order of its text. -/
def Stmt.flat (f : Flattening M) (c : Context) : Stmt → M
  | .block body => f.row (Stmt.allFlat f c body)
  | .declare name initial => f.row [f.word name, Expr.optionFlat f c initial]
  | .function definition => definition.flat f c
  | .classDef name methods classMethods => f.row [f.classWord, f.word name,
      f.members ((Definition.allFlat f c.enterClass methods).map (f.member false))
        ((Definition.allFlat f c.enterClass classMethods).map (f.member true))]
  | .expression value => value.flat f c
  | .print value => value.flat f c
  | .branch condition whenTrue whenFalse =>
    f.row [condition.flat f c, whenTrue.flat f c, Stmt.optionFlat f c whenFalse]
  | .whileLoop condition body => f.row [condition.flat f c, body.flat f c.enterLoop]
  | .forLoop initial condition step body =>
    f.row [Stmt.optionFlat f c initial, Expr.optionFlat f c condition, Expr.optionFlat f c step,
      body.flat f c.enterLoop]
  | .jump keyword value => f.row [f.jump c keyword, Expr.optionFlat f c value]
  | .empty => f.row []

/-- Each of some statements in the order of its text. -/
def Stmt.allFlat (f : Flattening M) (c : Context) : List Stmt → List M
  | [] => []
  | s :: ss => s.flat f c :: Stmt.allFlat f c ss

/-- A statement in the order of its text, if there is one. -/
def Stmt.optionFlat (f : Flattening M) (c : Context) : Option Stmt → M
  | none => f.row []
  | some s => s.flat f c

/-- A routine in the order of its text. The body behind an arrow is read in the context around it,
and the keyword of the jump that stands for it is in no text. -/
def Routine.flat (f : Flattening M) (c : Context) : Routine → M
  | .mk names (.jump _ (some value)) =>
    f.row [f.list .tooManyParameters (names.map f.word), value.flat f c]
  | .mk names body =>
    f.row [f.list .tooManyParameters (names.map f.word), body.flat f c.enterFunction]

/-- A definition in the order of its text. -/
def Definition.flat (f : Flattening M) (c : Context) : Definition → M
  | .mk name routine => f.row [f.word name, routine.flat f c]

/-- Each of some definitions in the order of its text. -/
def Definition.allFlat (f : Flattening M) (c : Context) : List Definition → List M
  | [] => []
  | d :: ds => d.flat f c :: Definition.allFlat f c ds

end

variable {f : Flattening M} {c : Context}

theorem Definition.allFlat_eq_map (ds : List Definition) :
    Definition.allFlat f c ds = ds.map (Definition.flat f c) := by
  induction ds with
  | nil => rfl
  | cons d ds ih => rw [Definition.allFlat, ih, List.map_cons]

theorem Routine.flat_block (names : List Token) (body : List Stmt) :
    (Routine.mk names (.block body)).flat f c =
      f.row [f.list .tooManyParameters (names.map f.word),
        f.row (Stmt.allFlat f c.enterFunction body)] := by
  simp [Routine.flat, Stmt.flat]

/-- An assignment is put down as its target and its value. -/
theorem Expr.flat_assigned {target value e : Expr} (h : target.assigned? value = some e) :
    e.flat f c = f.row [target.flat f c, value.flat f c] := by
  obtain ⟨t, rfl, -, rfl⟩ | ⟨object, name, rfl, rfl⟩ := Expr.assigned?_eq_some.mp h
  · rfl
  · rfl

theorem Expr.flat_join {t : Tier} {operator : Token} (h : t.admits operator = true)
    (left right : Expr) :
    (t.join left operator right).flat f c =
      f.row [left.flat f c, f.word operator, right.flat f c] := by
  have hcomma := (Token.leaf?_of_admits h).2
  cases t <;> simp [Tier.join, Expr.flat, Flattening.operator, hcomma]

end Lox
