import Lox.Program.Mistake

/-!
# Cursors

A cursor stands between the tokens that were read and those that are left. It remembers the line of
the token read last, on which a missing token is reported, and the line where the input ends.
-/

namespace Lox

/-- A place in a list of tokens. -/
structure Cursor where
  /-- The tokens that are left. -/
  rest : List Token
  /-- The line of the token read last; at the start, of the first token. -/
  lastLine : Nat
  /-- The line on which the input ends. -/
  endLine : Nat

/-- Whether a kind marks the end of the input. -/
def Kind.isEof : Kind → Bool
  | eof => true
  | _ => false

namespace Cursor

/-- The number of tokens that are left. -/
def size (s : Cursor) : Nat :=
  s.rest.length

/-- The line of the next token, or of the end of the input. -/
def line (s : Cursor) : Nat :=
  match s.rest with
  | t :: _ => t.line
  | [] => s.endLine

/-- The cursor at the start of a list of tokens. The input ends at the first end mark; without one
it ends on the line of the last token, or on the first line if there is no token. -/
def ofTokens (ts : List Token) : Cursor :=
  let rest := ts.takeWhile fun t => !t.kind.isEof
  let endLine := match ts.find? fun t => t.kind.isEof with
    | some t => t.line
    | none => (ts.getLast?.map Token.line).getD 1
  ⟨rest, (rest.head?.map Token.line).getD endLine, endLine⟩

/-- The cursor behind the next token, if there is one. -/
def skip (s : Cursor) : Cursor :=
  match s.rest with
  | t :: ts => { s with rest := ts, lastLine := t.line }
  | [] => s

theorem size_skip (s : Cursor) : s.skip.size = s.size - 1 := by
  unfold skip size
  split <;> simp_all

end Cursor

/-- What a cursor sees next: nothing, or a token with the cursor behind it, which has fewer than `n`
tokens left. -/
inductive Next (n : Nat) where
  /-- The input ends. -/
  | stop
  /-- A token. -/
  | token (t : Token) (rest : Cursor) (shorter : rest.size < n)

namespace Cursor

/-- What a cursor sees next. -/
def next (s : Cursor) : Next s.size :=
  match h : s.rest with
  | [] => .stop
  | t :: ts => .token t { s with rest := ts, lastLine := t.line } (by simp [size, h])

/-- Whether the next token is a given symbol. -/
def sees (s : Cursor) (x : Symbol) : Bool :=
  match s.rest with
  | t :: _ => t.is x
  | [] => false

/-- The next token and the cursor behind it, if the token is a given symbol. -/
def accept (x : Symbol) (s : Cursor) : Next s.size :=
  match s.next with
  | .token t s' h => if t.is x then .token t s' h else .stop
  | .stop => .stop

/-- Whether a statement starts with a symbol, so that reading can be taken up in front of it. -/
def startsStatement : Symbol → Bool
  | .classWord | .funWord | .varWord | .forWord | .ifWord | .whileWord | .printWord | .returnWord
  | .breakWord | .continueWord | .leftBrace => true
  | _ => false

/-- The place where reading is taken up after a mistake: behind the next semicolon, or in front of a
symbol that starts a statement, or at the end. -/
def resume (s : Cursor) : Cursor :=
  go s.lastLine s.rest
where
  /-- Looks for the place; `lastLine` is the line of the token passed last. -/
  go (lastLine : Nat) : List Token → Cursor
    | [] => ⟨[], lastLine, s.endLine⟩
    | t :: ts =>
      match t.kind with
      | .symbol x =>
        if x = .semicolon then ⟨ts, t.line, s.endLine⟩
        else if startsStatement x then ⟨t :: ts, lastLine, s.endLine⟩
        else go t.line ts
      | _ => go t.line ts

theorem size_resume_go_le (s : Cursor) (lastLine : Nat) (ts : List Token) :
    (resume.go s lastLine ts).size ≤ ts.length := by
  induction ts generalizing lastLine with
  | nil => exact Nat.le_refl 0
  | cons t ts ih =>
    have := ih t.line
    unfold resume.go
    split
    · split
      · exact Nat.le_succ _
      · split
        · exact Nat.le_refl _
        · exact Nat.le_succ_of_le this
    · exact Nat.le_succ_of_le this

theorem size_resume_le (s : Cursor) : s.resume.size ≤ s.size :=
  size_resume_go_le s s.lastLine s.rest

end Cursor

end Lox
