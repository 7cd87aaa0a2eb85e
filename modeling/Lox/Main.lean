import Lox.Command

/-!
# The command line

Reads the arguments, files and the input, and writes transcripts. What is written is said in
`Lox.Command` and `Lox.Prompt`.
-/

namespace Lox.Main

/-- A bound on the depth that no run reaches. -/
def depthBound : Nat := 1 <<< 60

/-- Writes a transcript. -/
def write (t : Transcript) : IO Unit := do
  let output ← IO.getStdout
  output.write t.output
  output.flush
  IO.eprint t.errors

/-- The exit status of a command. -/
def status (t : Transcript) : UInt32 :=
  if t.succeeds then 0 else 1

/-- The number of an error of the system, which may be given with a minus sign. -/
def errorNumber (code : UInt32) : UInt32 :=
  min code (0 - code)

/-- Why a file is not read, from an error of the system. -/
def fileError : IO.Error → FileError
  | .noFileOrDirectory .. => .missing
  | .permissionDenied .. => .denied
  | .inappropriateType _ code _ => if errorNumber code = 20 then .notDirectory else .directory
  | .invalidArgument _ code details =>
    if errorNumber code = 36 then .tooLong else .other details
  | e => .other (toString e)

/-- The contents of a file. -/
def contents (name : String) : IO (Except FileError ByteArray) := do
  try
    return .ok (← IO.FS.readBinFile name)
  catch e => return .error (fileError e)

/-- Reads the bytes of a line behind those read before, its newline included. -/
partial def readLine (input : IO.FS.Stream) (before : ByteArray) : IO (List UInt8) := do
  let bytes ← input.read 1
  match bytes.toList with
  | [b] => if b = 0x0A then return (before.push b).toList else readLine input (before.push b)
  | _ => return before.toList

/-- Answers the lines of the input one after another. -/
partial def converse (host : Host) (s : Session) : IO UInt32 := do
  write (.ofOutput Prompt.mark)
  let line ← readLine (← IO.getStdin) .empty
  if line.isEmpty then
    write (.ofOutput Prompt.farewell)
    return 0
  match Prompt.answer host depthBound line s with
  | some (t, some s) =>
    write t
    converse host s
  | some (t, none) =>
    write t
    return status t
  | none => return 1

/-- A host with the present time and a seed taken from it. -/
def presentHost : IO Host := do
  let nanoseconds ← IO.monoNanosNow
  return .ofSeed (nanoseconds.toFloat / 1000000000) nanoseconds.toUInt64

/-- Carries out a command. -/
def perform (host : Host) : Command → IO UInt32
  | .prompt => do
    write (.ofOutput Prompt.greeting)
    converse host (.initial (.ofLimit none))
  | .onFile action name => do
    match action.performOnFile host depthBound name (← contents name) with
    | some t =>
      write t
      return status t
    | none => return 1

end Lox.Main

/-- Carries out the command that the arguments ask for. -/
def main (arguments : List String) : IO UInt32 := do
  match Lox.Command.ofArguments? arguments with
  | some command => Lox.Main.perform (← Lox.Main.presentHost) command
  | none =>
    IO.eprintln "usage: [--log] [repl | run FILE | parse FILE | tokenize FILE [--json]]"
    return 2
