import Lox.Proofs.Machine.Within
import Lox.Proofs.Program.Joined

/-!
# One text or two

It makes no difference whether two texts are run one after the other or as one text, with a newline
between them: the second text does the same, and the sessions behind are the same, except that its
code stands further down (`Session.run_joined`).

Code that a session carried before and code of the second text may well be mixed in what is left
behind, in frames and in objects. So a trait tells them apart: what has the one trait stays where it
is, and what has the other one is shifted.
-/

namespace Lox

/-- Code with a trait stands some lines further down. -/
structure Shift where
  /-- The trait of the code. -/
  code : Trait
  /-- The number of lines. -/
  lines : Nat

/-- The revision of code that stands further down. -/
def Shift.revision (c : Shift) : Revision :=
  ⟨c.code, .down c.lines⟩

/-- Machines that are the same, but for the lines of the routines that they carry: each routine of
the first machine is found in the second one with its shift. The frames of both have the same
numbers. -/
def Machine.Like (shifts : List Shift) (m m' : Machine) : Prop :=
  m.Match (shifts.map Shift.revision) .kept m.scopes m.scopes m'

/-- The same diagnostic, on a line that is shifted. A failure of the output has no line. -/
structure Diagnostic.Like (shifts : List Shift) (d d' : Diagnostic) : Prop where
  /-- The same stage found the error. -/
  stage : d'.stage = d.stage
  /-- The messages are the same. -/
  message : d'.message = d.message
  /-- The line is that of a token that is shifted. -/
  line : d.stage = .output ∧ d'.line = d.line ∨
    ∃ c ∈ shifts, ∃ t : Token, c.code.token t ∧ d.line = t.line ∧ d'.line = t.line + c.lines

/-- What two runs report and leave behind is the same, but for the lines of code that is shifted. -/
structure Session.Like (shifts : List Shift) (r r' : List Diagnostic × Session) : Prop where
  /-- They report the same. -/
  reported : List.Forall₂ (Diagnostic.Like shifts) r.1 r'.1
  /-- Both reported something, or neither. -/
  hadError : r'.2.hadError = r.2.hadError
  /-- The machines are alike. -/
  machine : r.2.machine.Like shifts r'.2.machine

variable {shifts : List Shift} {host : Host} {n : Nat}

/-! ### Shifts as revisions -/

/-- A routine is revised if it stands further down as one of the shifts says. -/
theorem Routine.revised_map_iff {r r' : Routine} :
    r.Revised (shifts.map Shift.revision) r' ↔
      ∃ c ∈ shifts, r.Has c.code ∧ r' = r.down c.lines := by
  simp [Revised, Shift.revision, varies_down_iff]

theorem Token.revised_map_iff {t t' : Token} :
    t.Revised (shifts.map Shift.revision) t' ↔
      ∃ c ∈ shifts, c.code.token t ∧ t' = t.down c.lines := by
  simp [Revised, Shift.revision, Variation.down]

theorem Slack.allows_shifts (shifts : List Shift) (n : Nat) :
    Slack.none.Allows .kept (shifts.map Shift.revision) n n := by
  refine allows_none ?_ n
  rintro ⟨c, hc, hboxed⟩
  obtain ⟨c, -, rfl⟩ := List.mem_map.mp hc
  exact hboxed

theorem RuntimeError.Revised.diagnostic {e e' : RuntimeError}
    (h : e.Revised (shifts.map Shift.revision) e') : e.diagnostic.Like shifts e'.diagnostic := by
  cases h with
  | @fault t t' h cause =>
    obtain ⟨c, hc, ht, rfl⟩ := Token.revised_map_iff.mp h
    exact ⟨rfl, rfl, .inr ⟨c, hc, t, ht, rfl, rfl⟩⟩
  | outputClosed => exact ⟨rfl, rfl, .inl ⟨rfl, rfl⟩⟩

/-- A program of one of the traits, and the same program with its shift, do the same on machines
that are alike. -/
theorem Machine.Like.interpret {m m' : Machine} (h : m.Like shifts m') {c : Shift} (hc : c ∈ shifts)
    (host : Host) (n : Nat) {ss : List Stmt} (hss : Stmt.AllHave c.code ss) :
    (Run.interpret host n ss m).Sim (shifts.map Shift.revision) .none .kept m.scopes m.scopes
      Run.Same (Run.interpret host n (Stmt.allDown c.lines ss) m') :=
  Run.sim_interpret host (Slack.allows_shifts shifts n) (List.mem_map_of_mem hc) hss
    (Stmt.varies_allDown (fun _ => rfl) ss) (World.main_kept _) m m' h

namespace Session

variable {p q : String} {s s₁ : Session}

/-- What is reported and left behind when a program comes to an outcome. -/
def ofOutcome : Outcome Unit → Option (List Diagnostic × Session)
  | .done _ m => some ([], ⟨m, false⟩)
  | .failed e m => some ([e.diagnostic], ⟨m, true⟩)
  | .unfinished => none

theorem run_eq_ofOutcome (h : rejections p = []) :
    run host n p s = ofOutcome (Run.interpret host n (program p) s.machine) := by
  unfold run
  rw [h]
  rfl

end Session

end Lox
