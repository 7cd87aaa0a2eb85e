import Lox.Token.Piece

/-!
# The items of a text

The items of a text are its tokens and its faults, each with its line, and the end of the input as
the last token. A line is one more than the number of newlines up to the end of the piece; since a
token holds no newline that is the line it starts on, and a comment that is never closed is reported
on the last line of the text.
-/

namespace Lox

/-- A fault with the line it is reported on. -/
structure LexicalError where
  /-- The line, counted from one. -/
  line : Nat
  /-- What is wrong. -/
  fault : Fault
deriving DecidableEq, Repr

/-- A token of a text, or a fault in its place. -/
inductive Item where
  /-- A token. -/
  | token (t : Token)
  /-- Text that is no token. -/
  | fault (e : LexicalError)

namespace Item

/-- The item that a piece stands for when the lines before it end on `line`; gaps stand for none. -/
def ofPiece? (line : Nat) (p : Piece) : Option Item :=
  match p.content with
  | .gap => none
  | .token kind => some (.token ⟨kind, String.ofList p.text, line⟩)
  | .fault cause => some (.fault ⟨line, cause⟩)

/-- The items of pieces that start on a line, and the end of the input behind them. -/
def ofPieces (line : Nat) : List Piece → List Item
  | [] => [.token ⟨.eof, "", line⟩]
  | p :: ps =>
    let line := line + p.text.count '\n'
    match ofPiece? line p with
    | some item => item :: ofPieces line ps
    | none => ofPieces line ps

/-- The token of an item. -/
def token? : Item → Option Token
  | token t => some t
  | fault _ => none

/-- The fault of an item. -/
def fault? : Item → Option LexicalError
  | token _ => none
  | fault e => some e

end Item

/-- The items of a text. -/
def scan (source : String) : List Item :=
  Item.ofPieces 1 (pieces source.toList)

/-- The tokens of a text, the end of the input included. -/
def tokens (source : String) : List Token :=
  (scan source).filterMap Item.token?

/-- The faults of a text. -/
def faults (source : String) : List LexicalError :=
  (scan source).filterMap Item.fault?

end Lox
