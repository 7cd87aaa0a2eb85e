import Lox.Session
import Lox.Transcript

/-!
# The prompt

A conversation reads the input line by line. Each line, together with its newline, is one run of the
same session, and the prompt is written before a line is read. Diagnostics do not end a conversation;
input that is not UTF-8 does.
-/

namespace Lox.Prompt

/-- What is written when a conversation starts. -/
def greeting : String := "rlox shell\n"

/-- What is written before a line is read. -/
def mark : String := "rlox> "

/-- What is written at the end of the input. -/
def farewell : String := "\n"

/-- The lines of some bytes, each with its newline; the last one may lack it. -/
def lines : List UInt8 → List (List UInt8)
  | [] => []
  | b :: bytes =>
    if b = 0x0A then [b] :: lines bytes
    else
      match lines bytes with
      | [] => [[b]]
      | line :: rest => (b :: line) :: rest

/-- The lines hold all bytes in their order. -/
theorem flatten_lines (bytes : List UInt8) : (lines bytes).flatten = bytes := by
  induction bytes with
  | nil => rfl
  | cons b bytes ih =>
    simp only [lines]
    split
    · simp [ih]
    · split
      · rename_i h
        rw [h] at ih
        simp [← ih]
      · rename_i h
        rw [h] at ih
        simp [← ih]

/-- Answers one line: what is written, and the session behind it, or none if the conversation is
over. An outer `none` says that the bound on the depth was too low. -/
def answer (host : Host) (n : Nat) (line : List UInt8) (s : Session) :
    Option (Transcript × Option Session) :=
  match Utf8.decode line with
  | .error _ => some (.ofFailure .input, none)
  | .ok source =>
    let start := s.machine.output.delivered.size
    (s.run host n source).map fun (ds, s) =>
      (.ofDiagnostics (s.machine.output.deliveredFrom start) ds, some s)

/-- The conversation about some lines. -/
def converseFrom (host : Host) (n : Nat) : List (List UInt8) → Session → Option Transcript
  | [], _ => some (.ofOutput (mark ++ farewell))
  | line :: rest, s =>
    match answer host n line s with
    | none => none
    | some (t, none) => some ((Transcript.ofOutput mark).andThen t)
    | some (t, some s) =>
      (converseFrom host n rest s).map fun later =>
        ((Transcript.ofOutput mark).andThen t).andThen later

/-- The conversation about an input. `none` says that the bound on the depth was too low. -/
def converse (host : Host) (n : Nat) (input : List UInt8) : Option Transcript :=
  (converseFrom host n (lines input) (.initial (.ofLimit none))).map
    (Transcript.ofOutput greeting).andThen

end Lox.Prompt
