import Lox.Decimal.Binary
import Lox.Text.Alphabetic
import Lox.Text.Blank
import Lox.Text.Numeric
import Lox.Token.Basic

/-!
# Cutting a text into pieces

A text is cut into pieces from left to right: tokens, faults, and the gaps between them (white space
and comments). `Piece.cut` takes the first piece off, and `pieces` repeats it to the end. Main
statements: the pieces are not empty (`Piece.cut_text_ne_nil`) and their texts, joined, are the text
that was cut (`flatMap_text_pieces`), so nothing is lost and nothing is read twice.
-/

namespace Lox

/-- What is wrong with a piece of text that is no token. -/
inductive Fault where
  /-- No token and no comment starts with this character. -/
  | unexpected (c : Char)
  /-- A string is not closed on its line. -/
  | openString
  /-- A block comment is not closed. -/
  | openComment
deriving DecidableEq, Repr

/-- What a piece of text is. -/
inductive Piece.Content where
  /-- White space or a comment. -/
  | gap
  /-- A token. -/
  | token (kind : Kind)
  /-- Text that is no token. -/
  | fault (cause : Fault)

/-- A piece of a text. -/
structure Piece where
  /-- The characters of the piece. -/
  text : List Char
  /-- What the piece is. -/
  content : Piece.Content

/-- A name starts with a letter or an underscore. -/
def startsName (c : Char) : Bool :=
  Text.isAlphabetic c || c == '_'

/-- A name goes on with letters, numeric characters and underscores. -/
def continuesName (c : Char) : Bool :=
  Text.isAlphabetic c || Text.isNumeric c || c == '_'

/-- The symbol spelled with two characters. -/
def Symbol.ofPair? : Char → Char → Option Symbol
  | '-', '>' => some .arrow
  | '!', '=' => some .bangEqual
  | '=', '=' => some .equalEqual
  | '<', '=' => some .lessEqual
  | '>', '=' => some .greaterEqual
  | _, _ => none

/-- The symbol spelled with one character. -/
def Symbol.ofChar? : Char → Option Symbol
  | '(' => some .leftParen
  | ')' => some .rightParen
  | '{' => some .leftBrace
  | '}' => some .rightBrace
  | ',' => some .comma
  | '.' => some .dot
  | '-' => some .minus
  | '+' => some .plus
  | ';' => some .semicolon
  | '/' => some .slash
  | '*' => some .star
  | '%' => some .percent
  | '?' => some .question
  | ':' => some .colon
  | '!' => some .bang
  | '=' => some .equal
  | '>' => some .greater
  | '<' => some .less
  | _ => none

/-- The kind of a name: a reserved word, or an identifier. -/
def Kind.ofName (text : List Char) : Kind :=
  match Symbol.ofWord? (String.ofList text) with
  | some s => .symbol s
  | none => .identifier

/-- The number of characters up to the end of the first `*/`, or `none` if there is none. -/
def commentEnd? (text : List Char) : Option Nat :=
  go 0 text
where
  /-- Counts on from the `n` characters passed. -/
  go (n : Nat) : List Char → Option Nat
    | '*' :: '/' :: _ => some (n + 2)
    | _ :: rest => go (n + 1) rest
    | [] => none

namespace Piece

/-- The piece made of the first character and the longest run of further ones that satisfy `p`,
with the text behind it. -/
def run (p : Char → Bool) (c : Char) (rest : List Char) (content : List Char → Content) :
    Piece × List Char :=
  (⟨c :: rest.takeWhile p, content (c :: rest.takeWhile p)⟩, rest.dropWhile p)

/-- A comment to the end of its line, the newline left out. -/
def lineComment (rest : List Char) : Piece × List Char :=
  run (· != '\n') '/' rest fun _ => .gap

/-- A comment that starts with `/*`; `rest` is the text behind these two characters. Without an end
it takes in the rest of the text. -/
def blockComment (rest : List Char) : Piece × List Char :=
  match commentEnd? rest with
  | some n => (⟨'/' :: '*' :: rest.take n, .gap⟩, rest.drop n)
  | none => (⟨'/' :: '*' :: rest, .fault .openComment⟩, [])

/-- A string; `rest` is the text behind its opening quote. A string that meets the end of the line
or of the text is a fault that stops there. -/
def string (rest : List Char) : Piece × List Char :=
  let inside := rest.takeWhile fun c => c != '"' && c != '\n'
  match rest.dropWhile fun c => c != '"' && c != '\n' with
  | '"' :: rest => (⟨'"' :: inside ++ ['"'], .token (.string (String.ofList inside))⟩, rest)
  | rest => (⟨'"' :: inside, .fault .openString⟩, rest)

/-- A symbol of two characters, or else of one; a character that spells none is a fault. -/
def mark (c : Char) (rest : List Char) : Piece × List Char :=
  match rest with
  | d :: rest' =>
    match Symbol.ofPair? c d with
    | some s => (⟨[c, d], .token (.symbol s)⟩, rest')
    | none => single c rest
  | [] => single c rest
where
  /-- The piece of one character. -/
  single (c : Char) (rest : List Char) : Piece × List Char :=
    match Symbol.ofChar? c with
    | some s => (⟨[c], .token (.symbol s)⟩, rest)
    | none => (⟨[c], .fault (.unexpected c)⟩, rest)

/-- The first piece of the text `c :: rest`, with the text behind it. -/
def cut (c : Char) (rest : List Char) : Piece × List Char :=
  if Text.isBlank c then (⟨[c], .gap⟩, rest)
  else if c = '"' then string rest
  else if c.isDigit then run Char.isDigit c rest fun text => .token (.number (Decimal.ofDigits text))
  else if startsName c then run continuesName c rest fun text => .token (Kind.ofName text)
  else if c = '/' ∧ rest.head? = some '/' then lineComment rest
  else if c = '/' ∧ rest.head? = some '*' then blockComment rest.tail
  else mark c rest

/-! ### What is cut off and what is left make up the text -/

theorem text_append_run (p : Char → Bool) (c : Char) (rest : List Char)
    (content : List Char → Content) :
    (run p c rest content).1.text ++ (run p c rest content).2 = c :: rest := by
  simp only [run, List.cons_append, List.takeWhile_append_dropWhile]

theorem text_append_blockComment (rest : List Char) :
    (blockComment rest).1.text ++ (blockComment rest).2 = '/' :: '*' :: rest := by
  unfold blockComment
  split <;> simp only [List.cons_append, List.take_append_drop, List.append_nil]

theorem text_append_string (rest : List Char) :
    (string rest).1.text ++ (string rest).2 = '"' :: rest := by
  have h := List.takeWhile_append_dropWhile (p := fun c => c != '"' && c != '\n') (l := rest)
  unfold string
  simp only
  split
  · rename_i rest' hr
    rw [hr] at h
    simpa only [List.cons_append, List.append_assoc, List.nil_append] using congrArg ('"' :: ·) h
  · simpa only [List.cons_append] using congrArg ('"' :: ·) h

theorem text_append_single (c : Char) (rest : List Char) :
    (mark.single c rest).1.text ++ (mark.single c rest).2 = c :: rest := by
  unfold mark.single
  split <;> rfl

theorem text_append_mark (c : Char) (rest : List Char) :
    (mark c rest).1.text ++ (mark c rest).2 = c :: rest := by
  unfold mark
  split
  · split
    · rfl
    · exact text_append_single _ _
  · exact text_append_single _ _

/-- A piece and the text behind it make up the text that was cut. -/
theorem text_append_cut (c : Char) (rest : List Char) :
    (cut c rest).1.text ++ (cut c rest).2 = c :: rest := by
  unfold cut
  split
  · rfl
  split
  · rename_i h; subst h; exact text_append_string rest
  split
  · exact text_append_run ..
  split
  · exact text_append_run ..
  split
  · rename_i h; obtain ⟨rfl, -⟩ := h; exact text_append_run ..
  split
  · rename_i h
    obtain ⟨rfl, h⟩ := h
    cases rest with
    | nil => simp at h
    | cons d rest =>
      simp only [List.head?_cons, Option.some.injEq] at h
      subst h
      exact text_append_blockComment rest
  · exact text_append_mark ..

/-! ### No piece is empty -/

theorem single_text_ne_nil (c : Char) (rest : List Char) : (mark.single c rest).1.text ≠ [] := by
  unfold mark.single
  split <;> simp

/-- A piece has at least one character. -/
theorem cut_text_ne_nil (c : Char) (rest : List Char) : (cut c rest).1.text ≠ [] := by
  unfold cut
  split
  · simp
  split
  · unfold string; simp only; split <;> simp
  split
  · simp [run]
  split
  · simp [run]
  split
  · simp [lineComment, run]
  split
  · unfold blockComment; split <;> simp
  · unfold mark
    split
    · split
      · simp
      · exact single_text_ne_nil _ _
    · exact single_text_ne_nil _ _

/-- The text behind a piece is shorter than the text that was cut. -/
theorem length_cut_lt (c : Char) (rest : List Char) :
    (cut c rest).2.length < (c :: rest).length := by
  have h := congrArg List.length (text_append_cut c rest)
  have hne := List.length_pos_iff.2 (cut_text_ne_nil c rest)
  simp only [List.length_append] at h
  omega

end Piece

/-- The pieces of a text, from left to right. -/
def pieces : List Char → List Piece
  | [] => []
  | c :: rest => (Piece.cut c rest).1 :: pieces (Piece.cut c rest).2
termination_by text => text.length
decreasing_by exact Piece.length_cut_lt c rest

@[simp] theorem pieces_nil : pieces [] = [] := by
  rw [pieces]

theorem pieces_cons (c : Char) (rest : List Char) :
    pieces (c :: rest) = (Piece.cut c rest).1 :: pieces (Piece.cut c rest).2 := by
  rw [pieces]

/-- The texts of the pieces, joined, are the text that was cut. -/
theorem flatMap_text_pieces (text : List Char) : (pieces text).flatMap Piece.text = text := by
  fun_induction pieces text with
  | case1 => rfl
  | case2 c rest ih => simp only [List.flatMap_cons, ih, Piece.text_append_cut]

end Lox
