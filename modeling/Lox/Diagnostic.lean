import Lox.Token.Scan

/-!
# Diagnostics

A diagnostic is what a user reads about an error: the stage that found it, a line and a message.
Each stage has its own type of errors and says how they are worded; a collector receives only the
line and the message. A failure of the output channel has no line, and its line is given as zero.
-/

namespace Lox

/-- The stages that find errors. -/
inductive Stage where
  /-- Cutting the text into tokens. -/
  | lexical
  /-- Reading the tokens as a program. -/
  | grammar
  /-- Running the program. -/
  | runtime
  /-- Writing the output. -/
  | output
deriving DecidableEq, Repr

/-- An error as it is reported. -/
structure Diagnostic where
  /-- The stage that found it. -/
  stage : Stage
  /-- Its line, or zero for a failure of the output. -/
  line : Nat
  /-- What is wrong, in words. -/
  message : String
deriving DecidableEq, Repr

namespace Diagnostic

/-- The diagnostic of a stage with a line and a message. A failure of the output has no line. -/
def ofStage (stage : Stage) (line : Nat) (message : String) : Diagnostic :=
  ⟨stage, if stage = .output then 0 else line, message⟩

/-- The full text of a diagnostic. -/
def text (d : Diagnostic) : String :=
  match d.stage with
  | .lexical | .grammar => "[line " ++ toString d.line ++ "] Error: " ++ d.message
  | .runtime => "[line " ++ toString d.line ++ "] Runtime error: " ++ d.message
  | .output => d.message

/-- What a collector receives. -/
def report (d : Diagnostic) : Nat × String :=
  (d.line, d.message)

/-- The line that the command writes for a diagnostic; it is the same for all stages. -/
def reportLine (d : Diagnostic) : String :=
  "[line " ++ toString d.line ++ "] Error: " ++ d.message

end Diagnostic

/-- A fault in words. -/
def Fault.message : Fault → String
  | .unexpected c => "Unexpected character: " ++ String.singleton c
  | .openString => "Unterminated string literal."
  | .openComment => "Unterminated block comment."

/-- A fault as it is reported. -/
def LexicalError.diagnostic (e : LexicalError) : Diagnostic :=
  .ofStage .lexical e.line e.fault.message

end Lox
