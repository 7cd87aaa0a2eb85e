/-!
# Tokens

A token has a kind, the text it was cut from, and a line. A **symbol** is a kind of token with one
spelling: a bracket, an operator or a reserved word. The other kinds are names, strings, numbers and
the mark at the end of the input. Decisions are made on the kind; names and operators are written
with the text, so the two are independent.
-/

namespace Lox

/-- The tokens with one spelling each. -/
inductive Symbol where
  | leftParen | rightParen | leftBrace | rightBrace
  | comma | dot | minus | plus | semicolon | slash | star | percent | question | colon
  | bang | bangEqual | equal | equalEqual | greater | greaterEqual | less | lessEqual | arrow
  | andWord | breakWord | classWord | continueWord | elseWord | falseWord | funWord | forWord
  | ifWord | nilWord | orWord | printWord | returnWord | superWord | thisWord | trueWord | varWord
  | whileWord
deriving DecidableEq, Repr

namespace Symbol

/-- How a symbol is spelled. -/
def spelling : Symbol → String
  | leftParen => "(" | rightParen => ")" | leftBrace => "\x7b" | rightBrace => "\x7d"
  | comma => "," | dot => "." | minus => "-" | plus => "+" | semicolon => ";" | slash => "/"
  | star => "*" | percent => "%" | question => "?" | colon => ":" | bang => "!"
  | bangEqual => "!=" | equal => "=" | equalEqual => "==" | greater => ">" | greaterEqual => ">="
  | less => "<" | lessEqual => "<=" | arrow => "->"
  | andWord => "and" | breakWord => "break" | classWord => "class" | continueWord => "continue"
  | elseWord => "else" | falseWord => "false" | funWord => "fun" | forWord => "for"
  | ifWord => "if" | nilWord => "nil" | orWord => "or" | printWord => "print"
  | returnWord => "return" | superWord => "super" | thisWord => "this" | trueWord => "true"
  | varWord => "var" | whileWord => "while"

/-- The reserved words. -/
def words : List Symbol :=
  [andWord, breakWord, classWord, continueWord, elseWord, falseWord, funWord, forWord, ifWord,
    nilWord, orWord, printWord, returnWord, superWord, thisWord, trueWord, varWord, whileWord]

/-- The brackets, operators and separators. -/
def marks : List Symbol :=
  [leftParen, rightParen, leftBrace, rightBrace, comma, dot, minus, plus, semicolon, slash, star,
    percent, question, colon, bang, bangEqual, equal, equalEqual, greater, greaterEqual, less,
    lessEqual, arrow]

/-- The reserved word with a spelling, if there is one. -/
def ofWord? (text : String) : Option Symbol :=
  words.find? fun s => s.spelling == text

/-- The name of a symbol in token listings. -/
def label : Symbol → String
  | leftParen => "LEFT_PAREN" | rightParen => "RIGHT_PAREN" | leftBrace => "LEFT_BRACE"
  | rightBrace => "RIGHT_BRACE" | comma => "COMMA" | dot => "DOT" | minus => "MINUS"
  | plus => "PLUS" | semicolon => "SEMICOLON" | slash => "SLASH" | star => "STAR"
  | percent => "PERCENT" | question => "QUESTION" | colon => "COLON" | bang => "BANG"
  | bangEqual => "BANG_EQUAL" | equal => "EQUAL" | equalEqual => "EQUAL_EQUAL"
  | greater => "GREATER" | greaterEqual => "GREATER_EQUAL" | less => "LESS"
  | lessEqual => "LESS_EQUAL" | arrow => "ARROW" | andWord => "AND" | breakWord => "BREAK"
  | classWord => "CLASS" | continueWord => "CONTINUE" | elseWord => "ELSE" | falseWord => "FALSE"
  | funWord => "FUN" | forWord => "FOR" | ifWord => "IF" | nilWord => "NIL" | orWord => "OR"
  | printWord => "PRINT" | returnWord => "RETURN" | superWord => "SUPER" | thisWord => "THIS"
  | trueWord => "TRUE" | varWord => "VAR" | whileWord => "WHILE"

end Symbol

/-- What a token is. -/
inductive Kind where
  /-- A bracket, an operator or a reserved word. -/
  | symbol (s : Symbol)
  /-- A name. -/
  | identifier
  /-- A string, with the text between its quotes. -/
  | string (text : String)
  /-- A number, with its value. -/
  | number (value : Float)
  /-- The end of the input. -/
  | eof

namespace Kind

/-- Whether two kinds are the same up to the text of a string and the value of a number. -/
def alike : Kind → Kind → Bool
  | symbol s, symbol t => s == t
  | identifier, identifier => true
  | string _, string _ => true
  | number _, number _ => true
  | eof, eof => true
  | _, _ => false

/-- The name of a kind in token listings. -/
def label : Kind → String
  | symbol s => s.label
  | identifier => "IDENTIFIER"
  | string _ => "STRING"
  | number _ => "NUMBER"
  | eof => "EOF"

/-- The symbols and the kinds without one, by the name in token listings; strings and numbers get
the text and the value given. -/
def ofLabel? (text : String) (value : Float) (name : String) : Option Kind :=
  (((Symbol.marks ++ Symbol.words).map Kind.symbol) ++
    [identifier, string text, number value, eof]).find? fun k => k.label == name

end Kind

/-- A token of the input. -/
structure Token where
  /-- What the token is. -/
  kind : Kind
  /-- The text the token was cut from. -/
  lexeme : String
  /-- The line it stands on, counted from one. -/
  line : Nat

namespace Token

/-- Whether two tokens agree in kind, text and line, whatever the literal they carry. -/
def alike (s t : Token) : Bool :=
  s.kind.alike t.kind && s.lexeme == t.lexeme && s.line == t.line

/-- Whether a token is a given symbol. -/
def is (t : Token) (s : Symbol) : Bool :=
  match t.kind with
  | .symbol s' => s' == s
  | _ => false

/-- A token that is a given symbol has it as its kind. -/
theorem is_iff {t : Token} {s : Symbol} : t.is s = true ↔ t.kind = .symbol s := by
  cases h : t.kind <;> simp [is, h]

end Token

end Lox
