import Lox.Program.Cursor

/-!
# Replies

What comes of reading a part of a program: the part and the cursor behind it, or the mistake for
which the statement around it is abandoned and the cursor where reading stopped. Either way there
may be **reports**, mistakes that were noted on the way and for which nothing was abandoned. The type
`Reply α n` holds the proof that fewer than `n` tokens are left, or at most `n` after a mistake.
A bound that follows from those in the context is found by `grind` and need not be written.
-/

namespace Lox

/-- What comes of reading an `α` where `n` bounds the tokens that are left. -/
inductive Reply (α : Type) (n : Nat) where
  /-- The part was read. -/
  | done (value : α) (rest : Cursor) (reports : List GrammarError) (shorter : rest.size < n)
  /-- The statement around the part is abandoned. -/
  | failed (error : GrammarError) (rest : Cursor) (reports : List GrammarError)
      (notLonger : rest.size ≤ n)

namespace Reply

variable {α β : Type} {m n : Nat}

/-- Nothing more is read: the part is there. -/
def pure (value : α) (s : Cursor)
    (h : s.size < n := by first | assumption | grind -abstractProof) : Reply α n :=
  done value s [] h

/-- The statement is abandoned for a mistake on a line. -/
def fail (line : Nat) (mistake : Mistake) (s : Cursor)
    (h : s.size ≤ n := by first | assumption | grind -abstractProof) : Reply α n :=
  failed ⟨line, mistake⟩ s [] h

/-- A reply with further reports in front of its own. -/
def note (reports : List GrammarError) : Reply α n → Reply α n
  | done value s own h => done value s (reports ++ own) h
  | failed e s own h => failed e s (reports ++ own) h

/-- A reply under a bound that is no smaller. -/
def widen (r : Reply α m)
    (h : m ≤ n := by first | assumption | grind -abstractProof) : Reply α n :=
  match r with
  | done value s reports hs => done value s reports (Nat.lt_of_lt_of_le hs h)
  | failed e s reports hs => failed e s reports (Nat.le_trans hs h)

/-- Reads on behind a part that was read; a mistake in it stands. -/
def andThen (r : Reply α m) (f : α → (s : Cursor) → s.size < m → Reply β n)
    (h : m ≤ n := by first | assumption | grind -abstractProof) : Reply β n :=
  match r with
  | done value s reports hs => (f value s hs).note reports
  | failed e s reports hs => failed e s reports (Nat.le_trans hs h)

/-- Applies a function to the part that was read. -/
def map (f : α → β) : Reply α n → Reply β n
  | done value s reports h => done (f value) s reports h
  | failed e s reports h => failed e s reports h

end Reply

/-- Reads one token of a symbol that the grammar demands. -/
def Cursor.expect (x : Symbol) (demand : Demand) (s : Cursor) : Reply Token s.size :=
  match s.accept x with
  | .token t s' h => .pure t s'
  | .stop => .fail s.lastLine (.missing demand) s

/-- Reads a name that the grammar demands. -/
def Cursor.expectName (demand : Demand) (s : Cursor) : Reply Token s.size :=
  match s.next with
  | .token t s' h =>
    match t.kind with
    | .identifier => .pure t s'
    | _ => .fail s.lastLine (.missing demand) s
  | .stop => .fail s.lastLine (.missing demand) s

end Lox
