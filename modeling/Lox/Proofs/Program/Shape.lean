import Lox.Proofs.Program.Readable

/-!
# Shapes of trees

The **shape** of a tree is the form that its outermost node has. The nest of a tree shows its shape:
in the word it starts with, in the number of its parts, and where these are not enough, in whether
the first part is a word (`Expr.shape_nest`, `Stmt.shape_nest`). Nests that are alike have the same
shape, and so have the trees that are written alike.
-/

namespace Lox

/-- The forms of nodes. All words of a tree have the same one. -/
inductive Shape where
  | word | assign | get | set | conditional | logical | binary | unary | call | lambda
  | block | declare | function | classDef | expression | print | branch | whileLoop | forLoop
  | jump | empty
deriving DecidableEq

/-- The shape of an expression. -/
def Expr.shape : Expr → Shape
  | literal _ | name _ => .word
  | assign .. => .assign
  | get .. => .get
  | set .. => .set
  | conditional .. => .conditional
  | logical .. => .logical
  | binary .. => .binary
  | unary .. => .unary
  | call .. => .call
  | lambda _ => .lambda

/-- The shape of a statement. -/
def Stmt.shape : Stmt → Shape
  | block _ => .block
  | declare .. => .declare
  | function _ => .function
  | classDef .. => .classDef
  | expression _ => .expression
  | print _ => .print
  | branch .. => .branch
  | whileLoop .. => .whileLoop
  | forLoop .. => .forLoop
  | jump .. => .jump
  | empty => .empty

/-- The shape that a list in parentheses shows by its first word, by the number of the parts behind
it, and by whether the first of these is a word. -/
def Shape.ofHead (head : String) (count : Nat) (named : Bool) : Shape :=
  match head with
  | "=" => if named then assign else set
  | "." => get
  | "?" => conditional
  | "and" | "or" => logical
  | "call" => call
  | "fun" => if named then function else lambda
  | "block" => block
  | "var" => declare
  | "class" => classDef
  | ";" => if count = 0 then empty else expression
  | "print" => print
  | "if" => branch
  | "while" => whileLoop
  | "for" => forLoop
  | "break" | "continue" | "return" => jump
  | _ => if count = 1 then unary else binary

namespace Nest

/-- Whether a nest is a word. -/
def isWord {α : Type} : Nest α → Bool
  | word _ => true
  | group _ => false

/-- The shape that a nest shows. -/
def shape : Nest Word → Shape
  | group (word w :: parts) => .ofHead w.text parts.length (parts.head?.any isWord)
  | _ => .word

variable {α : Type} {f : α → String}

theorem Alike.isWord_eq {n n' : Nest α} (h : n.Alike f n') : n.isWord = n'.isWord := by
  cases n <;> cases n' <;> first | rfl | cases h

/-- Lists of nests that are alike have the same length, and start with words or not. -/
theorem Match.length_eq {ns ns' : List (Nest α)} (h : Match f ns ns') :
    ns.length = ns'.length ∧ ns.head?.any isWord = ns'.head?.any isWord := by
  have hforall := match_iff.mp h
  refine ⟨hforall.length_eq, ?_⟩
  cases hforall with
  | nil => rfl
  | cons hfirst _ => exact hfirst.isWord_eq

/-- **Nests that are alike have the same shape.** -/
theorem Alike.shape_eq {n n' : Nest Word} (h : n.Alike Word.text n') : n.shape = n'.shape := by
  cases n with
  | word w =>
    cases n' with
    | word w' => rfl
    | group parts' => cases h
  | group parts =>
    cases n' with
    | word w' => cases h
    | group parts' =>
      cases match_iff.mp h with
      | nil => rfl
      | @cons first first' rest rest' hfirst hrest =>
        cases first with
        | word w =>
          cases first' with
          | word w' =>
            have htext : w.text = w'.text := hfirst
            obtain ⟨hlength, hnamed⟩ := Match.length_eq (match_iff.mpr hrest)
            rw [shape, shape, htext, hlength, hnamed]
          | group => cases hfirst
        | group =>
          cases first' with
          | word => cases hfirst
          | group => rfl

/-- All words of a nest are readable. -/
abbrev IsReadable (n : Nest Word) : Prop :=
  n.All Word.IsReadable

end Nest

/-! ### Trees show their shape -/

variable {m : Mark} {t : Token}

/-- A symbol in its place is spelled in one of a few ways. -/
theorem Word.IsReadable.exists_spelling (h : (Word.symbol m t).IsReadable) :
    ∃ x ∈ m.symbols, t.kind = .symbol x ∧ t.lexeme = x.spelling := by
  obtain ⟨⟨x, hx, hkind⟩, hspelled⟩ := h.spelled
  rw [Token.IsSpelled, hkind] at hspelled
  exact ⟨x, hx, hkind, hspelled⟩

/-- The shapes that have symbols of a place in front. -/
def Mark.shape : Mark → Shape
  | lazy => .logical
  | strict => .binary
  | front => .unary
  | jump => .jump

/-- The numbers of operands that the symbols of a place may have. -/
def Mark.counts : Mark → List Nat
  | lazy | strict => [2]
  | front => [1]
  | jump => [0, 1]

/-- The symbols of a place show the shape. -/
theorem Word.IsReadable.ofHead_eq {count : Nat} (h : (Word.symbol m t).IsReadable)
    (hcount : count ∈ m.counts) (named : Bool) : Shape.ofHead t.lexeme count named = m.shape := by
  have hall : ∀ x ∈ m.symbols, ∀ count ∈ m.counts, ∀ named : Bool,
      Shape.ofHead x.spelling count named = m.shape := by
    cases m <;> decide
  obtain ⟨x, hx, -, hlexeme⟩ := h.exists_spelling
  rw [hlexeme]
  exact hall x hx count hcount named

/-- **The nest of an expression shows its shape.** -/
theorem Expr.shape_nest {e : Expr} (h : e.nest.IsReadable) : e.nest.shape = e.shape := by
  cases e with
  | logical left operator right => exact Word.IsReadable.ofHead_eq h.1 (List.mem_singleton_self 2) _
  | binary left operator right => exact Word.IsReadable.ofHead_eq h.1 (List.mem_singleton_self 2) _
  | unary operator right => exact Word.IsReadable.ofHead_eq h.1 (List.mem_singleton_self 1) _
  | lambda routine => cases routine; rfl
  | _ => rfl

theorem Definition.shape_nest (d : Definition) : d.nest.shape = .function := by
  cases d
  rfl

/-- **The nest of a statement shows its shape.** -/
theorem Stmt.shape_nest {s : Stmt} (h : s.nest.IsReadable) : s.nest.shape = s.shape := by
  cases s with
  | declare name initial => cases initial <;> rfl
  | function definition => exact definition.shape_nest
  | branch condition whenTrue whenFalse => cases whenFalse <;> rfl
  | jump keyword value =>
    cases value with
    | none => exact Word.IsReadable.ofHead_eq h.1 (show 0 ∈ Mark.jump.counts by decide) _
    | some value => exact Word.IsReadable.ofHead_eq h.1 (show 1 ∈ Mark.jump.counts by decide) _
  | _ => rfl

/-- Expressions that are written alike have the same shape. -/
theorem Expr.shape_eq {e e' : Expr} (he : e.nest.IsReadable) (he' : e'.nest.IsReadable)
    (h : e.nest.Alike Word.text e'.nest) : e.shape = e'.shape :=
  (Expr.shape_nest he).symm.trans (h.shape_eq.trans (Expr.shape_nest he'))

/-- Statements that are written alike have the same shape. -/
theorem Stmt.shape_eq {s s' : Stmt} (hs : s.nest.IsReadable) (hs' : s'.nest.IsReadable)
    (h : s.nest.Alike Word.text s'.nest) : s.shape = s'.shape :=
  (Stmt.shape_nest hs).symm.trans (h.shape_eq.trans (Stmt.shape_nest hs'))

end Lox
