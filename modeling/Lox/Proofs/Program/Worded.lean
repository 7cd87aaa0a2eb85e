import Lox.Proofs.Program.Nest

/-!
# Trees as nests of words

The text of a tree in parenthesised form is that of a nest (`Expr.text_nest`, `Stmt.text_nest`). The
words of the nest say what they were made from: some are the same in all trees, the others are
constants and tokens of the tree.
-/

namespace Lox

/-- The places of a tree where a token may only be one of a few symbols. -/
inductive Mark where
  /-- An operator whose right operand may stay unevaluated. -/
  | lazy
  /-- Any other operator between two operands. -/
  | strict
  /-- An operator in front of its operand. -/
  | front
  /-- The keyword of a jump. -/
  | jump

/-- The symbols that may stand in a place. -/
def Mark.symbols : Mark → List Symbol
  | lazy => [.andWord, .orWord]
  | strict => [.comma, .bangEqual, .equalEqual, .greater, .greaterEqual, .less, .lessEqual, .minus,
      .plus, .slash, .star, .percent]
  | front => [.bang, .minus]
  | jump => [.breakWord, .continueWord, .returnWord]

/-- A word of a tree in parenthesised form. -/
inductive Word where
  /-- A word that does not depend on the tokens of the tree. -/
  | head (text : String) (h : IsWord text)
  /-- A constant. -/
  | constant (value : Literal)
  /-- A name that is declared or assigned to, or that of a member. -/
  | name (t : Token)
  /-- A variable, or `this`. -/
  | reference (t : Token)
  /-- A symbol in a place for a few of them. -/
  | symbol (mark : Mark) (t : Token)
  /-- The word for a call, which stands for its opening parenthesis. -/
  | call (paren : Token)

/-- The text of a word. -/
def Word.text : Word → String
  | head text _ => text
  | constant value => value.form
  | name t => t.lexeme
  | reference t => t.lexeme
  | symbol _ t => t.lexeme
  | call _ => "call"

/-- A list in parentheses that starts with a word that does not depend on tokens. -/
def Nest.headed (text : String) (parts : List (Nest Word)) (h : IsWord text := by decide) :
    Nest Word :=
  .group (.word (.head text h) :: parts)

/-- The mark for a part that is absent. -/
def Nest.absent : Nest Word :=
  .word (.head "_" (by decide))

/-- A name as a nest. -/
def Token.nest (t : Token) : Nest Word :=
  .word (.name t)

mutual

/-- An expression as a nest of words. -/
def Expr.nest : Expr → Nest Word
  | .literal value => .word (.constant value)
  | .name token => .word (.reference token)
  | .assign name value => .headed "=" [name.nest, value.nest]
  | .get object name => .headed "." [object.nest, name.nest]
  | .set object name value => .headed "=" [.headed "." [object.nest, name.nest], value.nest]
  | .conditional condition whenTrue whenFalse =>
    .headed "?" [condition.nest, whenTrue.nest, whenFalse.nest]
  | .logical left operator right =>
    .group [.word (.symbol .lazy operator), left.nest, right.nest]
  | .binary left operator right =>
    .group [.word (.symbol .strict operator), left.nest, right.nest]
  | .unary operator right => .group [.word (.symbol .front operator), right.nest]
  | .call callee paren arguments =>
    .group (.word (.call paren) :: callee.nest :: Expr.nests arguments)
  | .lambda routine => .headed "fun" routine.nests

/-- Expressions as nests. -/
def Expr.nests : List Expr → List (Nest Word)
  | [] => []
  | e :: es => e.nest :: Expr.nests es

/-- A part that may be absent as a nest. -/
def Expr.optionNest : Option Expr → Nest Word
  | some e => e.nest
  | none => .absent

/-- A statement as a nest of words. -/
def Stmt.nest : Stmt → Nest Word
  | .block body => .headed "block" (Stmt.nests body)
  | .declare name (some value) => .headed "var" [name.nest, value.nest]
  | .declare name none => .headed "var" [name.nest]
  | .function definition => definition.nest
  | .classDef name methods classMethods => .headed "class"
      (name.nest :: Definition.nests methods ++ Definition.classNests classMethods)
  | .expression value => .headed ";" [value.nest]
  | .print value => .headed "print" [value.nest]
  | .branch condition whenTrue (some whenFalse) =>
    .headed "if" [condition.nest, whenTrue.nest, whenFalse.nest]
  | .branch condition whenTrue none => .headed "if" [condition.nest, whenTrue.nest]
  | .whileLoop condition body => .headed "while" [condition.nest, body.nest]
  | .forLoop initial condition step body => .headed "for"
      [Stmt.optionNest initial, Expr.optionNest condition, Expr.optionNest step, body.nest]
  | .jump keyword (some value) => .group [.word (.symbol .jump keyword), value.nest]
  | .jump keyword none => .group [.word (.symbol .jump keyword)]
  | .empty => .headed ";" []

/-- Statements as nests. -/
def Stmt.nests : List Stmt → List (Nest Word)
  | [] => []
  | s :: ss => s.nest :: Stmt.nests ss

/-- A part that may be absent as a nest. -/
def Stmt.optionNest : Option Stmt → Nest Word
  | some s => s.nest
  | none => .absent

/-- The parameters of a routine and its body as nests. -/
def Routine.nests : Routine → List (Nest Word)
  | .mk parameters body => [.group (parameters.map Token.nest), body.nest]

/-- A definition as a nest. -/
def Definition.nest : Definition → Nest Word
  | .mk name routine => .headed "fun" (name.nest :: routine.nests)

/-- Definitions as nests. -/
def Definition.nests : List Definition → List (Nest Word)
  | [] => []
  | d :: ds => d.nest :: Definition.nests ds

/-- Definitions that belong to a class as nests. -/
def Definition.classNests : List Definition → List (Nest Word)
  | [] => []
  | d :: ds => .headed "class" [d.nest] :: Definition.classNests ds

end

/-! ### Lists of nests -/

theorem Expr.nests_eq_map (es : List Expr) : Expr.nests es = es.map Expr.nest := by
  induction es with
  | nil => rfl
  | cons e es ih => rw [Expr.nests, ih, List.map_cons]

theorem Stmt.nests_eq_map (ss : List Stmt) : Stmt.nests ss = ss.map Stmt.nest := by
  induction ss with
  | nil => rfl
  | cons s ss ih => rw [Stmt.nests, ih, List.map_cons]

theorem Definition.nests_eq_map (ds : List Definition) :
    Definition.nests ds = ds.map Definition.nest := by
  induction ds with
  | nil => rfl
  | cons d ds ih => rw [Definition.nests, ih, List.map_cons]

theorem Definition.classNests_eq_map (ds : List Definition) :
    Definition.classNests ds = ds.map fun d => Nest.headed "class" [d.nest] := by
  induction ds with
  | nil => rfl
  | cons d ds ih => rw [Definition.classNests, ih, List.map_cons]

/-! ### The text of a tree is that of its nest -/

open Nest

theorem texts_append (f : Word → String) (ns ns' : List (Nest Word)) :
    texts f (ns ++ ns') = texts f ns ++ texts f ns' := by
  induction ns with
  | nil => rfl
  | cons n ns ih => rw [List.cons_append, texts, ih]; rfl

theorem texts_map_nest (names : List Token) :
    texts Word.text (names.map Token.nest) = names.map Token.lexeme := by
  induction names with
  | nil => rfl
  | cons t names ih => rw [List.map_cons, texts, ih]; rfl

theorem text_headed (text : String) (parts : List (Nest Word)) (h : IsWord text) :
    (headed text parts h).text Word.text = parenthesised (text :: texts Word.text parts) :=
  rfl

mutual

theorem Expr.text_nest (e : Expr) : e.nest.text Word.text = e.form := by
  cases e with
  | literal value => rfl
  | name t => rfl
  | assign t value => simp only [Expr.nest, text_headed, texts, value.text_nest]; rfl
  | get object t => simp only [Expr.nest, text_headed, texts, object.text_nest]; rfl
  | set object t value =>
    simp only [Expr.nest, text_headed, texts, object.text_nest, value.text_nest]
    rfl
  | conditional condition whenTrue whenFalse =>
    simp only [Expr.nest, text_headed, texts, condition.text_nest, whenTrue.text_nest,
      whenFalse.text_nest]
    rfl
  | logical left operator right | binary left operator right =>
    simp only [Expr.nest, text, texts, left.text_nest, right.text_nest]
    rfl
  | unary operator right => simp only [Expr.nest, text, texts, right.text_nest]; rfl
  | call callee paren arguments =>
    simp only [Expr.nest, text, texts, callee.text_nest, Expr.texts_nests arguments]
    rfl
  | lambda routine => simp only [Expr.nest, text_headed, routine.texts_nests]; rfl

theorem Expr.texts_nests (es : List Expr) : texts Word.text (Expr.nests es) = Expr.forms es := by
  cases es with
  | nil => rfl
  | cons e es => simp only [Expr.nests, texts, e.text_nest, Expr.texts_nests es]; rfl

theorem Expr.text_optionNest (e : Option Expr) :
    (Expr.optionNest e).text Word.text = Expr.optionalForm e := by
  cases e with
  | none => rfl
  | some e => exact e.text_nest

theorem Stmt.text_nest (s : Stmt) : s.nest.text Word.text = s.form := by
  cases s with
  | block body => simp only [Stmt.nest, text_headed, Stmt.texts_nests body]; rfl
  | declare t initial =>
    cases initial with
    | none => rfl
    | some value => simp only [Stmt.nest, text_headed, texts, value.text_nest]; rfl
  | function d => exact d.text_nest
  | classDef t methods classMethods =>
    simp only [Stmt.nest, text_headed, texts_append, List.cons_append, texts,
      Definition.texts_nests methods, Definition.texts_classNests classMethods]
    rfl
  | expression value => simp only [Stmt.nest, text_headed, texts, value.text_nest]; rfl
  | print value => simp only [Stmt.nest, text_headed, texts, value.text_nest]; rfl
  | branch condition whenTrue whenFalse =>
    cases whenFalse with
    | none =>
      simp only [Stmt.nest, text_headed, texts, condition.text_nest, whenTrue.text_nest]
      rfl
    | some whenFalse =>
      simp only [Stmt.nest, text_headed, texts, condition.text_nest, whenTrue.text_nest,
        whenFalse.text_nest]
      rfl
  | whileLoop condition body =>
    simp only [Stmt.nest, text_headed, texts, condition.text_nest, body.text_nest]
    rfl
  | forLoop initial condition step body =>
    simp only [Stmt.nest, text_headed, texts, Stmt.text_optionNest initial,
      Expr.text_optionNest condition, Expr.text_optionNest step, body.text_nest]
    rfl
  | jump keyword value =>
    cases value with
    | none => rfl
    | some value => simp only [Stmt.nest, text, texts, value.text_nest]; rfl
  | empty => rfl

theorem Stmt.texts_nests (ss : List Stmt) : texts Word.text (Stmt.nests ss) = Stmt.forms ss := by
  cases ss with
  | nil => rfl
  | cons s ss => simp only [Stmt.nests, texts, s.text_nest, Stmt.texts_nests ss]; rfl

theorem Stmt.text_optionNest (s : Option Stmt) :
    (Stmt.optionNest s).text Word.text = Stmt.optionalForm s := by
  cases s with
  | none => rfl
  | some s => exact s.text_nest

theorem Routine.texts_nests (r : Routine) : texts Word.text r.nests = r.forms := by
  cases r with
  | mk names body =>
    simp only [Routine.nests, texts, text, texts_map_nest, body.text_nest]
    rfl

theorem Definition.text_nest (d : Definition) : d.nest.text Word.text = d.form := by
  cases d with
  | mk t r => simp only [Definition.nest, text_headed, texts, r.texts_nests]; rfl

theorem Definition.texts_nests (ds : List Definition) :
    texts Word.text (Definition.nests ds) = Definition.forms ds := by
  cases ds with
  | nil => rfl
  | cons d ds => simp only [Definition.nests, texts, d.text_nest, Definition.texts_nests ds]; rfl

theorem Definition.texts_classNests (ds : List Definition) :
    texts Word.text (Definition.classNests ds) = Definition.classForms ds := by
  cases ds with
  | nil => rfl
  | cons d ds =>
    simp only [Definition.classNests, text_headed, texts, d.text_nest,
      Definition.texts_classNests ds]
    rfl

end

end Lox
