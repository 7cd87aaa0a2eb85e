import Lox.Proofs.Program.Fresh

/-!
# Reading at a desk

A **desk** is what is kept while a list of tokens is read: the tokens, with a mark at their end, the
place among them, the mistakes noted so far, and how many loops, functions and classes stand around
the place. The loops outside a function do not count inside it; their number is saved while its body
is read.

`Script.perform` follows a script at a desk. The counts go up where a part is entered and down where
it is left, be it read or abandoned. To look at a place without a token is a fault, and so is to
lower a count that is zero. There are no faults: a job that is done at a desk comes to what
`Job.read` comes to, and it leaves the counts as they were (`Job.perform_eq`).
-/

namespace Lox

/-- What is kept while tokens are read. -/
structure Desk where
  /-- The tokens, with a mark at the end. -/
  tokens : List Token
  /-- The number of tokens passed. -/
  current : Nat
  /-- The mistakes noted so far. -/
  errors : List GrammarError
  /-- The number of loops around the place, inside the innermost function. -/
  loops : Nat
  /-- The numbers of loops around the functions that stand around the place, the innermost first. -/
  saved : List Nat
  /-- The number of functions around the place. -/
  functions : Nat
  /-- The number of classes around the place. -/
  classes : Nat

/-- Tokens with a mark at the end: theirs, or one on the line of the last token. -/
def sealed (ts : List Token) : List Token :=
  if (ts.getLast?.map fun t => t.kind.isEof) = some true then ts
  else ts ++ [⟨.eof, "", (ts.getLast?.map Token.line).getD 1⟩]

/-- What comes of reading a part at a desk. -/
inductive Performed (α : Type) where
  /-- The part was read. -/
  | read (value : α) (desk : Desk)
  /-- The statement around the part is abandoned. -/
  | broken (error : GrammarError) (desk : Desk)

namespace Desk

/-- The desk in front of a list of tokens. -/
def new (ts : List Token) : Desk :=
  ⟨sealed ts, 0, [], 0, [], 0, 0⟩

/-- The token at the place. -/
def peek (d : Desk) : Option Token :=
  d.tokens[d.current]?

/-- The token in front of the place; at the start, the token at it. -/
def previous (d : Desk) : Option Token :=
  d.tokens[d.current - 1]?

/-- The desk with the next token passed. -/
def advance (d : Desk) : Desk :=
  { d with current := d.current + 1 }

/-- The line of a place. -/
def lineOf (d : Desk) : Spot → Option Nat
  | .last => d.previous.map Token.line
  | .next => d.peek.map Token.line
  | .of t => some t.line

/-- The desk with a mistake noted. -/
def report (d : Desk) (spot : Spot) (mistake : Mistake) : Option Desk :=
  (d.lineOf spot).map fun line => { d with errors := d.errors ++ [⟨line, mistake⟩] }

/-- Whether something stands around the place. -/
def inside (d : Desk) : Around → Bool
  | .loop => d.loops != 0
  | .function => d.functions != 0
  | .classBody => d.classes != 0

/-- The desk inside something further, or in nothing further. -/
def enter (d : Desk) : Option Around → Desk
  | some .loop => { d with loops := d.loops + 1 }
  | some .function =>
    { d with functions := d.functions + 1, saved := d.loops :: d.saved, loops := 0 }
  | some .classBody => { d with classes := d.classes + 1 }
  | none => d

/-- The desk outside of what was entered. -/
def leave (d : Desk) : Option Around → Option Desk
  | some .loop => if d.loops = 0 then none else some { d with loops := d.loops - 1 }
  | some .function =>
    if d.functions = 0 then none
    else some { d with
      loops := d.saved.head?.getD 0, saved := d.saved.tail, functions := d.functions - 1 }
  | some .classBody => if d.classes = 0 then none else some { d with classes := d.classes - 1 }
  | none => some d

/-- The number of tokens in front of the next mark of an end. -/
def left (d : Desk) : Nat :=
  ((d.tokens.drop d.current).takeWhile fun t => !t.kind.isEof).length

end Desk

/-- The way back from a part that was entered. -/
def Performed.leave {α : Type} (a : Option Around) : Performed α → Option (Performed α)
  | read value d => (d.leave a).map (read value)
  | broken e d => (d.leave a).map (broken e)

/-- Follows a script at a desk, with `answer` for the parts; `none` is a fault. -/
def Script.perform {α : Type} (answer : (j : Job) → Desk → Option (Performed j.Result)) :
    Script α → Desk → Option (Performed α)
  | done value, d => some (.read value d)
  | take p found absent, d =>
    d.peek.bind fun t =>
      if !t.kind.isEof && p t then (found t).perform answer d.advance else absent.perform answer d
  | look next stop, d =>
    d.peek.bind fun t =>
      if t.kind.isEof then stop.perform answer d else (next t).perform answer d
  | report reason spot mistake rest, d =>
    (if reason then d.report spot mistake else some d).bind fun d => rest.perform answer d
  | fail spot mistake, d => (d.lineOf spot).map fun line => .broken ⟨line, mistake⟩ d
  | ask a rest, d => (rest (d.inside a)).perform answer d
  | start a j rest, d =>
    (answer j (d.enter a)).bind fun r => (r.leave a).bind fun r =>
      match r with
      | .read value d => (rest value).perform answer d
      | .broken e d => some (.broken e d)

namespace Job

/-- The cost of a job at a desk. -/
def weight (j : Job) (d : Desk) : Nat :=
  20 * d.left + j.rank

/-- Does a job at a desk. A part that is no smaller than the job is not read; there is none. -/
def perform (j : Job) (d : Desk) : Option (Performed j.Result) :=
  j.script.perform (fun j' d' => if _ : j'.weight d' < j.weight d then j'.perform d' else none) d
termination_by j.weight d

/-- Does jobs of a weight below `n`. -/
def performBelow (n : Nat) (j : Job) (d : Desk) : Option (Performed j.Result) :=
  if j.weight d < n then j.perform d else none

theorem perform_eq_script (j : Job) (d : Desk) :
    j.perform d = j.script.perform (performBelow (j.weight d)) d := by
  rw [perform]
  rfl

end Job

/-! ### Desks and cursors -/

namespace Desk

/-- What stands around the place. -/
def context (d : Desk) : Context :=
  ⟨d.loops != 0, d.functions != 0, d.classes != 0⟩

/-- A desk with further tokens passed and further mistakes noted. -/
def moved (d : Desk) (passed : Nat) (reports : List GrammarError) : Desk :=
  { d with current := d.current + passed, errors := d.errors ++ reports }

/-- The place of a desk is that of a cursor, and the same things stand around it. -/
structure Shows (d : Desk) (c : Context) (s : Cursor) : Prop where
  /-- The tokens from the place on are those of the cursor, up to the mark of the end. -/
  ahead : ∃ eof more, d.tokens.drop d.current = s.rest ++ eof :: more ∧ eof.kind.isEof = true ∧
    eof.line = s.endLine
  /-- The input does not end before. -/
  plain : ∀ t ∈ s.rest, t.kind.isEof = false
  /-- The token in front of the place is on the line that the cursor remembers. -/
  last : d.previous.map Token.line = some s.lastLine
  /-- The counts say what stands around the cursor. -/
  context : d.context = c

theorem context_enter (d : Desk) (a : Option Around) :
    (d.enter a).context = d.context.enter a := by
  rcases a with _ | _ | _ | _ <;> rfl

theorem inside_eq (d : Desk) (a : Around) : d.inside a = d.context.has a := by
  cases a <;> rfl

/-- What was entered can be left, and the counts are what they were. -/
theorem leave_moved_enter (d : Desk) (a : Option Around) (passed : Nat)
    (reports : List GrammarError) :
    ((d.enter a).moved passed reports).leave a = some (d.moved passed reports) := by
  rcases a with _ | _ | _ | _ <;> rfl

theorem moved_zero (d : Desk) : d.moved 0 [] = d := by
  simp [moved]

theorem moved_moved (d : Desk) (passed passed' : Nat) (reports reports' : List GrammarError) :
    (d.moved passed reports).moved passed' reports' =
      d.moved (passed + passed') (reports ++ reports') := by
  simp [moved, Nat.add_assoc]

theorem advance_eq (d : Desk) : d.advance = d.moved 1 [] := by
  simp [moved, advance]

namespace Shows

variable {d : Desk} {c : Context} {s s' : Cursor} {t : Token} {ts : List Token}

theorem peek_of_cons (h : d.Shows c s) (hs : s.rest = t :: ts) :
    d.peek = some t ∧ t.kind.isEof = false := by
  obtain ⟨eof, more, hdrop, -, -⟩ := h.ahead
  refine ⟨?_, h.plain t (by simp [hs])⟩
  rw [peek, ← List.head?_drop, hdrop, hs]
  rfl

theorem peek_of_nil (h : d.Shows c s) (hs : s.rest = []) :
    ∃ eof, d.peek = some eof ∧ eof.kind.isEof = true ∧ eof.line = s.endLine := by
  obtain ⟨eof, more, hdrop, heof, hline⟩ := h.ahead
  refine ⟨eof, ?_, heof, hline⟩
  rw [peek, ← List.head?_drop, hdrop, hs]
  rfl

theorem lineOf (h : d.Shows c s) (spot : Spot) : d.lineOf spot = some (spot.line s) := by
  cases spot with
  | last => exact h.last
  | of t => rfl
  | next =>
    cases hs : s.rest with
    | nil =>
      obtain ⟨eof, hpeek, -, hline⟩ := h.peek_of_nil hs
      rw [Desk.lineOf, hpeek, Spot.line, Cursor.line, hs]
      exact congrArg some hline
    | cons t ts => rw [Desk.lineOf, (h.peek_of_cons hs).1, Spot.line, Cursor.line, hs]; rfl

theorem left_eq (h : d.Shows c s) : d.left = s.size := by
  obtain ⟨eof, more, hdrop, heof, -⟩ := h.ahead
  rw [left, hdrop, List.takeWhile_append_of_pos (by simpa using h.plain),
    List.takeWhile_cons_of_neg (by simp [heof]), List.append_nil, Cursor.size]

theorem weight_eq (h : d.Shows c s) (j : Job) : j.weight d = j.cost s := by
  rw [Job.weight, h.left_eq, Job.cost]

theorem enter (h : d.Shows c s) (a : Option Around) : (d.enter a).Shows (c.enter a) s := by
  refine ⟨?_, h.plain, ?_, by rw [context_enter, h.context]⟩
  · have := h.ahead
    rcases a with _ | _ | _ | _ <;> exact this
  · have := h.last
    rcases a with _ | _ | _ | _ <;> exact this

theorem advance (h : d.Shows c s) (hs : s.rest = t :: ts) : d.advance.Shows c s.skip := by
  obtain ⟨eof, more, hdrop, heof, hline⟩ := h.ahead
  rw [hs] at hdrop
  refine ⟨⟨eof, more, ?_, heof, ?_⟩, fun t' ht' => h.plain t' ?_, ?_, h.context⟩
  · rw [Desk.advance, ← List.drop_drop, hdrop, Cursor.skip, hs]
    rfl
  · rw [hline, Cursor.skip, hs]
  · rw [Cursor.skip, hs] at ht'
    rw [hs]
    exact List.mem_cons_of_mem t ht'
  · rw [previous, Desk.advance, Cursor.skip, hs]
    exact congrArg (Option.map Token.line) (h.peek_of_cons hs).1

theorem moved_zero (h : d.Shows c s) (reports : List GrammarError) :
    (d.moved 0 reports).Shows c s :=
  ⟨h.ahead, h.plain, h.last, h.context⟩

/-- Where a mistake is noted the desk stays. -/
theorem report (h : d.Shows c s) (reason : Bool) (spot : Spot) (mistake : Mistake) :
    (if reason then d.report spot mistake else some d) =
      some (d.moved 0 (if reason then [⟨spot.line s, mistake⟩] else [])) := by
  cases reason with
  | false => rw [if_neg Bool.false_ne_true, if_neg Bool.false_ne_true, Desk.moved_zero]
  | true => rw [if_pos rfl, if_pos rfl, Desk.report, h.lineOf]; rfl

/-- Where a cursor moves a desk can follow. -/
theorem moved (h : d.Shows c s) (hm : s.Moves s') (reports : List GrammarError) :
    (d.moved (s.size - s'.size) reports).Shows c s' := by
  induction hm with
  | refl =>
    rw [Nat.sub_self]
    exact h.moved_zero reports
  | @tail s₁ s₂ hm hs ih =>
    subst hs
    cases hrest : s₁.rest with
    | nil => rwa [Cursor.skip, hrest]
    | cons t ts =>
      have hle := Cursor.Moves.size_le hm
      have hlt := Script.size_skip_lt hrest
      have hsize := s₁.size_skip
      have hpassed : s.size - s₁.skip.size = s.size - s₁.size + 1 := by omega
      have := ih.advance hrest
      rwa [advance_eq, moved_moved, List.append_nil, ← hpassed] at this

end Shows

end Desk

/-- What comes of a reading, at the desk where it started. -/
def Readout.performed {α : Type} (d : Desk) (s : Cursor) : Readout α → Performed α
  | read x s' reports => .read x (d.moved (s.size - s'.size) reports)
  | broken e s' reports => .broken e (d.moved (s.size - s'.size) reports)

/-- What comes of reading on, behind tokens and mistakes that were passed before. -/
theorem Readout.performed_note {α : Type} {r : Readout α} {d : Desk} {s s' : Cursor}
    (reports : List GrammarError) (hm : s.Moves s') (hr : s'.Moves r.rest) :
    r.performed (d.moved (s.size - s'.size) reports) s' = (r.note reports).performed d s := by
  have hle := hm.size_le
  cases r with
  | read x s₁ own =>
    have hle' : s₁.size ≤ s'.size := hr.size_le
    have hpassed : s.size - s'.size + (s'.size - s₁.size) = s.size - s₁.size := by omega
    rw [performed, Desk.moved_moved, hpassed, note, performed]
  | broken e s₁ own =>
    have hle' : s₁.size ≤ s'.size := hr.size_le
    have hpassed : s.size - s'.size + (s'.size - s₁.size) = s.size - s₁.size := by omega
    rw [performed, Desk.moved_moved, hpassed, note, performed]

/-- A part that was entered is left at the desk where it was entered. -/
theorem Readout.leave_performed {α : Type} (r : Readout α) (d : Desk) (s : Cursor)
    (a : Option Around) : (r.performed (d.enter a) s).leave a = some (r.performed d s) := by
  cases r with
  | read x s' reports => rw [performed, Performed.leave, Desk.leave_moved_enter]; rfl
  | broken e s' reports => rw [performed, Performed.leave, Desk.leave_moved_enter]; rfl

/-- A job that costs less than `n` is done by following its script. -/
theorem Job.performBelow_eq {n : Nat} {j : Job} {d : Desk} {c : Context} {s : Cursor}
    (hd : d.Shows c s) (hn : j.cost s < n) :
    performBelow n j d = j.script.perform (performBelow (j.cost s)) d := by
  rw [performBelow, hd.weight_eq, if_pos hn, perform_eq_script, hd.weight_eq]

/-- Followed at a desk, a script comes to what it yields. -/
theorem Script.Yields.perform_eq {n : Nat} {c : Context} {α : Type} {p : Script α} {s : Cursor}
    {r : Readout α} (h : Yields n c p s r) {d : Desk} (hd : d.Shows c s) :
    p.perform (Job.performBelow n) d = some (r.performed d s) := by
  induction h generalizing d with
  | done => rw [perform, Readout.performed, Nat.sub_self, Desk.moved_zero]
  | @found n c α p found absent s t ts r hs ht h ih =>
    obtain ⟨hpeek, heof⟩ := hd.peek_of_cons hs
    have hsize := s.size_skip
    have hlt := size_skip_lt hs
    have hpassed : s.size - s.skip.size = 1 := by omega
    rw [perform, hpeek, Option.bind_some, heof, ht]
    refine (ih (hd.advance hs)).trans (congrArg some ?_)
    have := Readout.performed_note (d := d) [] Cursor.moves_skip h.moves
    rwa [hpassed, ← Desk.advance_eq, Readout.note_nil] at this
  | @absent n c α p found absent s r hs h ih =>
    rw [perform]
    cases hrest : s.rest with
    | nil =>
      obtain ⟨eof, hpeek, heof, -⟩ := hd.peek_of_nil hrest
      rw [hpeek, Option.bind_some, heof]
      exact ih hd
    | cons t ts =>
      rw [(hd.peek_of_cons hrest).1, Option.bind_some, hs t (by simp [hrest]), Bool.and_false]
      exact ih hd
  | look hs _ ih =>
    obtain ⟨hpeek, heof⟩ := hd.peek_of_cons hs
    rw [perform, hpeek, Option.bind_some, heof]
    exact ih hd
  | stop hs _ ih =>
    obtain ⟨eof, hpeek, heof, -⟩ := hd.peek_of_nil hs
    rw [perform, hpeek, Option.bind_some, heof]
    exact ih hd
  | @report n c α reason spot mistake rest s r h ih =>
    rw [perform, hd.report, Option.bind_some, ih (hd.moved_zero _)]
    have := Readout.performed_note (d := d)
      (if reason then [⟨spot.line s, mistake⟩] else []) .refl h.moves
    rw [Nat.sub_self] at this
    rw [this]
  | fail => rw [perform, hd.lineOf, Readout.performed, Nat.sub_self, Desk.moved_zero]; rfl
  | ask _ ih =>
    rw [perform, Desk.inside_eq, hd.context]
    exact ih hd
  | @read n c α a j rest s s' x reports r hn hj h ihj ih =>
    have hm : s.Moves s' := hj.moves
    rw [perform, Job.performBelow_eq (hd.enter a) hn, ihj (hd.enter a), Option.bind_some,
      Readout.leave_performed, Option.bind_some, ← Readout.performed_note reports hm h.moves]
    exact ih (hd.moved hm reports)
  | @broken n c α a j rest s s' e reports hn hj ihj =>
    rw [perform, Job.performBelow_eq (hd.enter a) hn, ihj (hd.enter a), Option.bind_some,
      Readout.leave_performed, Option.bind_some]
    rfl

/-- **A job is done at a desk without fault.** It comes to what is read at the cursor, and the
counts of what stands around the place are those from before, be the part read or abandoned. -/
theorem Job.perform_eq {c : Context} {s : Cursor} {d : Desk} (j : Job) (hd : d.Shows c s) :
    j.perform d = some ((j.read c s).performed d s) := by
  rw [perform_eq_script, hd.weight_eq]
  exact (j.yields c s).perform_eq hd

end Lox
