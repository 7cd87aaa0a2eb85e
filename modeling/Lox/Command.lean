import Lox.Program.Form
import Lox.Prompt
import Lox.Token.Dump
import Lox.Token.Line

/-!
# Commands

What the arguments of the command line ask for: a conversation at the prompt, or an action on the
text of one file. An action on a text that is not well-formed reports what is wrong with it.
-/

namespace Lox

/-- What is done with the text of a file. -/
inductive Action where
  /-- It is executed. -/
  | run
  /-- Its statements are listed in parenthesised form. -/
  | parse
  /-- Its tokens are listed, or dumped as JSON. -/
  | tokenize (asJson : Bool)
deriving DecidableEq, Repr

/-- What a command line asks for. -/
inductive Command where
  /-- A conversation at the prompt. -/
  | prompt
  /-- An action on a file. -/
  | onFile (action : Action) (name : String)
deriving DecidableEq, Repr

namespace Command

/-- The argument that asks for a dump. -/
def dumpOption : String := "--json"

/-- The argument that asks for a log; it changes nothing else. -/
def logOption : String := "--log"

/-- The argument behind which all arguments are names. -/
def endOfOptions : String := "--"

/-- An argument is an option when it starts with a dash; a dash alone is a name. -/
def isOption (argument : String) : Bool :=
  argument.startsWith "-" && argument != "-"

/-- The options among some arguments, and the names. -/
def sort : List String → List String × List String
  | [] => ([], [])
  | argument :: rest =>
    if argument = endOfOptions then ([], rest)
    else
      let (options, names) := sort rest
      if isOption argument then (argument :: options, names) else (options, argument :: names)

/-- Whether options are among those that are understood, each at most once. -/
def understood (known options : List String) : Bool :=
  options.all known.contains && decide options.Nodup

/-- The command of a word and the arguments behind it; `none` if they are not understood. -/
def ofWord? (word : String) (arguments : List String) : Option Command :=
  let (options, names) := sort arguments
  match word, names with
  | "repl", [] => if understood [logOption] options then some prompt else none
  | "run", [name] => ofFile .run [logOption] options name
  | "parse", [name] => ofFile .parse [logOption] options name
  | "tokenize", [name] =>
    ofFile (.tokenize (options.contains dumpOption)) [logOption, dumpOption] options name
  | _, _ => none
where
  /-- An action on the file of a name, which must not be empty. -/
  ofFile (action : Action) (known options : List String) (name : String) : Option Command :=
    if understood known options && name != "" then some (onFile action name) else none

/-- The command of some arguments; `none` if they are not understood. Without a word that names a
command it is the conversation at the prompt. -/
def ofArguments? (arguments : List String) : Option Command :=
  let leads := fun argument => isOption argument && argument != endOfOptions
  if understood [logOption] (arguments.takeWhile leads) then
    match arguments.dropWhile leads with
    | [] => some prompt
    | word :: rest =>
      if word = endOfOptions then (if rest.isEmpty then some prompt else none)
      else ofWord? word rest
  else none

end Command

namespace Action

/-- The lines of texts, each with a newline behind it. -/
def listing (texts : List String) : String :=
  String.join (texts.map (· ++ "\n"))

/-- Carries out an action on a text. `none` says that the bound on the depth was too low. -/
def perform (host : Host) (n : Nat) (source : String) : Action → Option Transcript
  | run =>
    (Session.run host n source (.initial (.ofLimit none))).map fun (ds, s) =>
      .ofDiagnostics s.machine.output.delivered ds
  | parse =>
    match Session.rejections source with
    | [] => some (.ofOutput (listing ((Session.program source).map Stmt.form)))
    | ds => some (.ofDiagnostics .empty ds)
  | tokenize asJson =>
    let ts := tokens source
    let text := if asJson then Token.dump ts ++ "\n" else listing (ts.map Token.listing)
    some (.ofDiagnostics text.toUTF8 ((faults source).map LexicalError.diagnostic))

/-- Carries out an action on a file, given the bytes that it holds. `none` says that the bound on
the depth was too low. -/
def performOnFile (host : Host) (n : Nat) (action : Action) (name : String)
    (contents : Except FileError ByteArray) : Option Transcript :=
  match contents with
  | .error cause => some (.ofFailure (.file name cause))
  | .ok bytes =>
    match Utf8.decode bytes.toList with
    | .error fault => some (.ofFailure (.encoding name fault))
    | .ok source => action.perform host n source

end Action

/-- Carries out a command, given the contents of files and the input. `none` says that the bound on
the depth was too low. -/
def Command.perform (host : Host) (n : Nat) (contents : String → Except FileError ByteArray)
    (input : List UInt8) : Command → Option Transcript
  | prompt => Prompt.converse host n input
  | onFile action name => action.performOnFile host n name (contents name)

end Lox
