import Lox.Diagnostic
import Lox.Directory
import Lox.Text.Quoted
import Lox.Text.Utf8

/-!
# Transcripts

A transcript is what a command writes, to the output and to the errors, and whether it succeeds.

A command that cannot be carried out ends with a `Failure`, which names what was attempted and the
cause. Diagnostics are not failures: they are listed one a line, and the command goes on.
-/

namespace Lox

/-- What a command writes, and how it ends. -/
structure Transcript where
  /-- The bytes on the output. -/
  output : ByteArray
  /-- The text on the errors. -/
  errors : String
  /-- The command ends with success. -/
  succeeds : Bool

/-- Why a command is not carried out. -/
inductive Failure where
  /-- The file is not read. -/
  | file (name : String) (cause : FileError)
  /-- The file is not UTF-8. -/
  | encoding (name : String) (fault : Utf8.Fault)
  /-- The input is not UTF-8. -/
  | input
deriving DecidableEq, Repr

namespace Failure

/-- What was attempted, in words. A directory can be opened, and is found out when it is read. -/
def attempt : Failure → String
  | file name .directory => "Failed to read file " ++ Text.quoted name
  | file name _ => "Failed to open file " ++ Text.quoted name
  | encoding name _ => Text.quoted name ++ " is not valid UTF-8"
  | input => "Failed to read input"

/-- The cause in words. -/
def cause : Failure → String
  | file _ cause => cause.message
  | encoding _ fault => fault.message
  | input => "stream did not contain valid UTF-8"

/-- A failure as it is shown. -/
def text (f : Failure) : String :=
  "Error: " ++ f.attempt ++ "\n\nCaused by:\n    " ++ f.cause ++ "\n"

end Failure

namespace Transcript

/-- The transcript of a text on the output. -/
def ofOutput (text : String) : Transcript :=
  ⟨text.toUTF8, "", true⟩

/-- The transcript of a failure. -/
def ofFailure (f : Failure) : Transcript :=
  ⟨.empty, f.text, false⟩

/-- The transcript of an output and of diagnostics: success if there are none. -/
def ofDiagnostics (output : ByteArray) (ds : List Diagnostic) : Transcript :=
  ⟨output, String.join (ds.map fun d => d.reportLine ++ "\n"), ds.isEmpty⟩

/-- One transcript and then another, which says how both end. -/
def andThen (a b : Transcript) : Transcript :=
  ⟨a.output ++ b.output, a.errors ++ b.errors, b.succeeds⟩

end Transcript

end Lox
