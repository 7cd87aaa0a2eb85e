import Lox.Machine.Eval
import Lox.Program.OfTokens

/-!
# Sessions

A session runs one source text after another on one machine, so that each finds what those before it
defined. A text with faults is not read as a program, and a program with mistakes is not executed;
all of them are reported. A program that is executed stops at its first error.
-/

namespace Lox

/-- A session between two runs. -/
structure Session where
  /-- The machine as the last run left it. -/
  machine : Machine
  /-- The last run reported something. -/
  hadError : Bool

namespace Session

/-- A session before its first run. -/
def initial (output : Channel) : Session :=
  ⟨.initial output, false⟩

/-- The diagnostics of a source text that is not executed: its faults, or else its mistakes. -/
def rejections (source : String) : List Diagnostic :=
  match faults source with
  | [] => (Parsed.ofTokens (tokens source)).errors.map GrammarError.diagnostic
  | found => found.map LexicalError.diagnostic

/-- The statements of a source text, its faults and mistakes left out. -/
def program (source : String) : List Stmt :=
  (Parsed.ofTokens (tokens source)).program

/-- Runs a source text: what is reported, and the session behind it. `none` says that the bound on
the depth was too low. -/
def run (host : Host) (n : Nat) (source : String) (s : Session) :
    Option (List Diagnostic × Session) :=
  match rejections source with
  | [] =>
    match Run.interpret host n (program source) s.machine with
    | .done _ m => some ([], ⟨m, false⟩)
    | .failed e m => some ([e.diagnostic], ⟨m, true⟩)
    | .unfinished => none
  | found => some (found, { s with hadError := true })

end Session

end Lox
