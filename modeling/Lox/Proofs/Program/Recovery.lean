import Lox.Proofs.Program.Desk
import Lox.Proofs.Program.Phrase
import Mathlib.Data.List.TakeWhile

/-!
# Taking up reading after a mistake

A program is read at a desk in **rounds**: while the end is not reached, a statement is read, or it
is abandoned and tokens are passed up to the next place where one may start. Whatever was abandoned,
and however deep inside classes, functions and loops, the next round starts at the top level, and
what it makes of the tokens that are left is what a fresh desk would make of them
(`Parsing.starts_afresh`).
-/

namespace Lox

namespace Desk

/-- The place where reading is taken up in front of tokens, if the tokens have an end. -/
def landing : List Token → Nat → Option Nat
  | [], _ => none
  | t :: ts, i =>
    match t.kind with
    | .eof => some i
    | .symbol x =>
      if x = .semicolon then some (i + 1)
      else if Cursor.startsStatement x then some i
      else landing ts (i + 1)
    | _ => landing ts (i + 1)

/-- The desk at the place where reading is taken up, at the top level. -/
def synchronize (d : Desk) : Option Desk :=
  (landing (d.tokens.drop d.current) d.current).map fun i =>
    { d with current := i, loops := 0, saved := [], functions := 0, classes := 0 }

/-- Nothing stands around the place. -/
structure AtTopLevel (d : Desk) : Prop where
  /-- No loop. -/
  loops : d.loops = 0
  /-- No loop around a function. -/
  saved : d.saved = []
  /-- No function. -/
  functions : d.functions = 0
  /-- No class. -/
  classes : d.classes = 0

/-- From one desk to another the same tokens are passed as from one cursor to another. -/
structure Follows (d d' : Desk) (s s' : Cursor) : Prop where
  /-- The tokens are the same. -/
  tokens : d'.tokens = d.tokens
  /-- The cursor passes tokens. -/
  moves : s.Moves s'
  /-- The tokens passed and the tokens left are as many as before. -/
  current : d'.current + s'.size = d.current + s.size

end Desk

/-- The state of reading a program: the desk, and the statements that were read. -/
structure Parsing where
  /-- The desk. -/
  desk : Desk
  /-- The statements. -/
  program : List Stmt

namespace Parsing

/-- In front of a list of tokens. -/
def start (ts : List Token) : Parsing :=
  ⟨.new ts, []⟩

/-- Whether the end is reached. -/
def atEnd (p : Parsing) : Option Bool :=
  p.desk.peek.map fun t => t.kind.isEof

/-- The tokens that are left, with the mark of the end. -/
def left (p : Parsing) : List Token :=
  p.desk.tokens.drop p.desk.current

/-- One round: a statement is read, or abandoned. If no token of an abandoned statement was passed,
one is passed now. -/
def round (p : Parsing) : Option Parsing :=
  (Job.declaration.perform p.desk).bind fun r =>
    match r with
    | .read stmt d => some ⟨d, p.program ++ [stmt]⟩
    | .broken e d =>
      (if d.current = p.desk.current then (d.moved 0 [e]).advance else d.moved 0 [e]).synchronize.map
        fun d => ⟨d, p.program⟩

/-- One round after the other, while the end is not reached. -/
def Reaches : Parsing → Parsing → Prop :=
  Relation.ReflTransGen fun p q => p.atEnd = some false ∧ p.round = some q

end Parsing

/-! ### The place where reading is taken up -/

namespace Desk

namespace Follows

variable {d d' d'' : Desk} {s s' s'' : Cursor}

theorem refl (d : Desk) (s : Cursor) : d.Follows d s s :=
  ⟨rfl, .refl, rfl⟩

theorem trans (h : d.Follows d' s s') (h' : d'.Follows d'' s' s'') : d.Follows d'' s s'' :=
  ⟨h'.tokens.trans h.tokens, h.moves.trans h'.moves, h'.current.trans h.current⟩

theorem moved (d : Desk) (hm : s.Moves s') (reports : List GrammarError) :
    d.Follows (d.moved (s.size - s'.size) reports) s s' := by
  have hle := hm.size_le
  exact ⟨rfl, hm, by simp only [Desk.moved]; omega⟩

end Follows

theorem landing_eq (s : Cursor) {ts : List Token} (more : List Token) {eof : Token}
    (hts : ∀ t ∈ ts, t.kind.isEof = false) (heof : eof.kind.isEof = true) (lastLine i : Nat) :
    landing (ts ++ eof :: more) i =
      some (i + (ts.length - (Cursor.resume.go s lastLine ts).size)) := by
  induction ts generalizing lastLine i with
  | nil =>
    cases hkind : eof.kind with
    | eof => simp [landing, hkind]
    | _ => simp [hkind, Kind.isEof] at heof
  | cons t ts ih =>
    have hle := Cursor.size_resume_go_le s t.line ts
    have hlater : landing (ts ++ eof :: more) (i + 1) =
        some (i + ((t :: ts).length - (Cursor.resume.go s t.line ts).size)) := by
      rw [ih (fun t' ht' => hts t' (List.mem_cons_of_mem t ht')) t.line, List.length_cons]
      congr 1
      omega
    rw [List.cons_append, landing, Cursor.resume.go]
    cases hkind : t.kind with
    | eof => simp [hkind, Kind.isEof] at hts
    | symbol x =>
      dsimp only
      split
      · simp [Cursor.size]
      · split
        · simp [Cursor.size]
        · exact hlater
    | _ => exact hlater

/-- After a mistake the counts are set to zero, at the place where the cursor takes up reading. -/
theorem Shows.synchronize {d : Desk} {c : Context} {s : Cursor} (h : d.Shows c s) :
    ∃ d', d.synchronize = some d' ∧ d'.Shows .outermost s.resume ∧ d'.AtTopLevel ∧
      d.Follows d' s s.resume ∧ d'.errors = d.errors := by
  obtain ⟨eof, more, hdrop, heof, -⟩ := h.ahead
  have hmoved := h.moved Cursor.moves_resume []
  have hlanding := landing_eq s more h.plain heof s.lastLine d.current
  rw [← hdrop] at hlanding
  refine ⟨{ d.moved (s.size - s.resume.size) [] with
    loops := 0, saved := [], functions := 0, classes := 0 }, ?_,
    ⟨hmoved.ahead, hmoved.plain, hmoved.last, rfl⟩, ⟨rfl, rfl, rfl, rfl⟩,
    ⟨rfl, Cursor.moves_resume, (Follows.moved d Cursor.moves_resume []).current⟩,
    List.append_nil _⟩
  rw [Desk.synchronize, hlanding, Desk.moved, List.append_nil]
  rfl

end Desk

/-! ### The ends of token lists -/

namespace Cursor

/-- With the mark at their end, tokens are those in front of the cursor, the mark of the end, and
what no reading comes to. -/
theorem sealed_eq (ts : List Token) : ∃ eof more, sealed ts = (ofTokens ts).rest ++ eof :: more ∧
    eof.kind.isEof = true ∧ eof.line = (ofTokens ts).endLine := by
  cases hfind : ts.find? fun t => t.kind.isEof with
  | some eof =>
    obtain ⟨heof, before, behind, rfl, hbefore⟩ := List.find?_eq_some_iff_append.mp hfind
    have hrest : (ofTokens (before ++ eof :: behind)).rest = before := by
      rw [ofTokens, List.takeWhile_append_of_pos (by simpa using hbefore),
        List.takeWhile_cons_of_neg (by simp [heof]), List.append_nil]
    have hend : (ofTokens (before ++ eof :: behind)).endLine = eof.line := by
      simp only [ofTokens, hfind]
    rw [hrest, hend, sealed]
    split
    · exact ⟨eof, behind, rfl, heof, rfl⟩
    · exact ⟨eof, _, List.append_assoc .., heof, rfl⟩
  | none =>
    have hplain : ∀ t ∈ ts, t.kind.isEof = false := by simpa using List.find?_eq_none.mp hfind
    have hrest : (ofTokens ts).rest = ts := by
      rw [ofTokens, List.takeWhile_eq_self_iff.mpr (by simpa using hplain)]
    have hend : (ofTokens ts).endLine = (ts.getLast?.map Token.line).getD 1 := by
      simp only [ofTokens, hfind]
    have hlast : ¬ (ts.getLast?.map fun t => t.kind.isEof) = some true := by
      intro hlast
      obtain ⟨t, ht, heof⟩ := Option.map_eq_some_iff.mp hlast
      rw [hplain t (List.mem_of_getLast? ht)] at heof
      cases heof
    rw [hrest, hend, sealed, if_neg hlast]
    exact ⟨_, [], rfl, rfl, rfl⟩

/-- In front of tokens with a mark of the end, a cursor is at the start of a list of tokens. -/
theorem agrees_ofTokens {s : Cursor} {eof : Token} {more : List Token}
    (hs : ∀ t ∈ s.rest, t.kind.isEof = false) (heof : eof.kind.isEof = true)
    (hline : eof.line = s.endLine) : s.Agrees (ofTokens (s.rest ++ eof :: more)) := by
  have hfind : (s.rest ++ eof :: more).find? (fun t => t.kind.isEof) = some eof := by
    rw [List.find?_append, List.find?_eq_none.mpr (by simpa using hs),
      List.find?_cons_of_pos (p := fun t : Token => t.kind.isEof) heof]
    rfl
  refine ⟨?_, ?_⟩
  · rw [ofTokens, List.takeWhile_append_of_pos (by simpa using hs),
      List.takeWhile_cons_of_neg (by simp [heof]), List.append_nil]
  · simp only [ofTokens, hfind, hline]

end Cursor

theorem Desk.new_shows (ts : List Token) : (Desk.new ts).Shows .outermost (.ofTokens ts) := by
  obtain ⟨eof, more, hsealed, heof, hline⟩ := Cursor.sealed_eq ts
  refine ⟨⟨eof, more, hsealed, heof, hline⟩, fun t ht => ?_, ?_, rfl⟩
  · simpa using List.mem_takeWhile_imp (p := fun t : Token => !t.kind.isEof) ht
  · rw [previous, new, hsealed]
    have hlast : (Cursor.ofTokens ts).lastLine =
      ((Cursor.ofTokens ts).rest.head?.map Token.line).getD (Cursor.ofTokens ts).endLine := rfl
    rw [hlast]
    cases (Cursor.ofTokens ts).rest with
    | nil => exact congrArg some hline
    | cons t ts' => rfl

/-! ### Rounds -/

namespace Desk

/-- Where a statement is abandoned the mistake is noted and, if no token was passed, one is
passed. -/
theorem Shows.abandoned {d : Desk} {c : Context} {s s' : Cursor} (h : d.Shows c s) {t : Token}
    {ts : List Token} (hs : s.rest = t :: ts) (hm : s.Moves s') (reports : List GrammarError)
    (e : GrammarError) :
    let d' := d.moved (s.size - s'.size) reports
    let s'' := if s'.size = s.size then s.skip else s'
    ∃ d'', (if d'.current = d.current then (d'.moved 0 [e]).advance else d'.moved 0 [e]) = d'' ∧
      d''.Shows c s'' ∧ d.Follows d'' s s'' ∧ d''.errors = d.errors ++ (reports ++ [e]) := by
  intro d' s''
  have hle := hm.size_le
  have hnoted : d'.moved 0 [e] = d.moved (s.size - s'.size) (reports ++ [e]) := by
    rw [Desk.moved_moved, Nat.add_zero]
  have hcurrent : d'.current = d.current + (s.size - s'.size) := rfl
  rw [hnoted]
  by_cases hsize : s'.size = s.size
  · have hlt := Script.size_skip_lt hs
    have hskip := s.size_skip
    have hs'' : s'' = s.skip := if_pos hsize
    rw [hs'', if_pos (by omega), hsize, Nat.sub_self]
    exact ⟨_, rfl, (h.moved_zero _).advance hs,
      ⟨rfl, Cursor.moves_skip, by simp only [Desk.advance, Desk.moved]; omega⟩, rfl⟩
  · have hs'' : s'' = s' := if_neg hsize
    rw [hs'', if_neg (by omega)]
    exact ⟨_, rfl, h.moved hm _, .moved d hm _, rfl⟩

/-- Nothing is left open when tokens are passed and mistakes are noted. -/
theorem AtTopLevel.moved {d : Desk} (h : d.AtTopLevel) (passed : Nat)
    (reports : List GrammarError) : (d.moved passed reports).AtTopLevel :=
  ⟨h.loops, h.saved, h.functions, h.classes⟩

end Desk

namespace Parsing

/-- Reading stands at a cursor, at the top level. -/
structure At (p : Parsing) (s : Cursor) : Prop where
  /-- The desk is where the cursor is. -/
  shows : p.desk.Shows .outermost s
  /-- Nothing stands around the place. -/
  top : p.desk.AtTopLevel

/-- Reading goes on with what is read from a cursor. -/
structure Finds (p q : Parsing) (found : Parsed) : Prop where
  /-- The statements that come to those that were read before. -/
  program : q.program = p.program ++ found.program
  /-- The mistakes that come to those that were noted before. -/
  errors : q.desk.errors = p.desk.errors ++ found.errors

variable {p q : Parsing} {s : Cursor}

theorem Finds.trans {q' : Parsing} {program : List Stmt} {errors : List GrammarError}
    {found : Parsed} (h : p.Finds q ⟨program, errors⟩) (h' : q.Finds q' found) :
    p.Finds q' (found.prepend program errors) :=
  ⟨by rw [h'.program, h.program, List.append_assoc]; rfl,
    by rw [h'.errors, h.errors, List.append_assoc]; rfl⟩

theorem At.atEnd_of_nil (h : p.At s) (hs : s.rest = []) : p.atEnd = some true := by
  obtain ⟨eof, hpeek, heof, -⟩ := h.shows.peek_of_nil hs
  rw [atEnd, hpeek, Option.map_some, heof]

theorem At.atEnd_of_cons (h : p.At s) {t : Token} {ts : List Token} (hs : s.rest = t :: ts) :
    p.atEnd = some false := by
  obtain ⟨hpeek, heof⟩ := h.shows.peek_of_cons hs
  rw [atEnd, hpeek, Option.map_some, heof]

/-- What a fresh desk makes of the tokens that are left is what is read from the cursor. -/
theorem At.ofTokens_left (h : p.At s) : Parsed.ofTokens p.left = Parsed.ofCursor s := by
  obtain ⟨eof, more, hdrop, heof, hline⟩ := h.shows.ahead
  rw [left, hdrop]
  exact Parsed.ofCursor_agrees (Cursor.agrees_ofTokens h.shows.plain heof hline)

theorem at_start (ts : List Token) : (start ts).At (.ofTokens ts) :=
  ⟨Desk.new_shows ts, ⟨rfl, rfl, rfl, rfl⟩⟩

/-- One round, of which a statement is read. -/
theorem At.round_of_read (h : p.At s) {stmt : Stmt} {s' : Cursor} {reports : List GrammarError}
    (hr : Job.declaration.read .outermost s = .read stmt s' reports) :
    let q : Parsing := ⟨p.desk.moved (s.size - s'.size) reports, p.program ++ [stmt]⟩
    p.round = some q ∧ q.At s' := by
  have hm := Job.declaration.moves .outermost s
  have hperform := Job.declaration.perform_eq h.shows
  rw [hr] at hm hperform
  refine ⟨?_, h.shows.moved hm reports, h.top.moved _ _⟩
  rw [Parsing.round, hperform]
  rfl

/-- **One round.** While tokens are left a round ends without fault at the top level, with fewer
tokens left, and what it found comes in front of what is read from there. -/
theorem At.round (h : p.At s) {t : Token} {ts : List Token} (hs : s.rest = t :: ts) :
    ∃ q s' program errors, p.round = some q ∧ q.At s' ∧ s'.size < s.size ∧
      p.desk.Follows q.desk s s' ∧ p.Finds q ⟨program, errors⟩ ∧
      Parsed.ofCursor s = (Parsed.ofCursor s').prepend program errors := by
  have hm := Job.declaration.moves .outermost s
  have hperform := Job.declaration.perform_eq h.shows
  cases hr : Job.declaration.read .outermost s with
  | read stmt s' reports =>
    replace hm : s.Moves s' := by rwa [hr] at hm
    obtain ⟨hround, hat⟩ := h.round_of_read hr
    exact ⟨_, s', [stmt], reports, hround, hat, Job.size_lt_of_read hr,
      .moved p.desk hm reports, ⟨rfl, rfl⟩, Parsed.ofCursor_of_read hr⟩
  | broken e s' reports =>
    replace hm : s.Moves s' := by rwa [hr] at hm
    obtain ⟨d, hd, hshows, hfollows, herrors⟩ := h.shows.abandoned hs hm reports e
    obtain ⟨d', hsync, hshows', htop, hfollows', herrors'⟩ := hshows.synchronize
    refine ⟨⟨d', p.program⟩, s.recover s', [], reports ++ [e], ?_, ⟨hshows', htop⟩,
      Cursor.size_recover_lt hs hm, hfollows.trans hfollows',
      ⟨(List.append_nil _).symm, herrors'.trans herrors⟩, Parsed.ofCursor_of_broken hs hr⟩
    rw [Parsing.round, hperform, Option.bind_some, hr, Readout.performed]
    dsimp only
    rw [hd, hsync]
    rfl

/-- Whenever the end is tested for, reading stands at a cursor, and what was found so far comes in
front of what is read from there. -/
theorem Reaches.at (h : p.Reaches q) (hp : p.At s) :
    ∃ s' program errors, q.At s' ∧ p.desk.Follows q.desk s s' ∧ p.Finds q ⟨program, errors⟩ ∧
      Parsed.ofCursor s = (Parsed.ofCursor s').prepend program errors := by
  induction h with
  | refl =>
    exact ⟨s, [], [], hp, .refl p.desk s, ⟨(List.append_nil _).symm, (List.append_nil _).symm⟩, rfl⟩
  | @tail q q' _ hstep ih =>
    obtain ⟨s', program, errors, hq, hfollows, hfinds, heq⟩ := ih
    cases hs : s'.rest with
    | nil =>
      have := (hq.atEnd_of_nil hs).symm.trans hstep.1
      cases this
    | cons t ts =>
      obtain ⟨q₁, s₁, program', errors', hround, hq₁, -, hfollows', hfinds', heq'⟩ := hq.round hs
      cases hround.symm.trans hstep.2
      refine ⟨s₁, program ++ program', errors ++ errors', hq₁, hfollows.trans hfollows',
        hfinds.trans hfinds', ?_⟩
      rw [heq, heq', Parsed.prepend, Parsed.prepend, Parsed.prepend, List.append_assoc,
        List.append_assoc]

/-- The rounds come to the end, and find what is read from the cursor. -/
theorem At.ends {p : Parsing} {s : Cursor} (h : p.At s) :
    ∃ q, p.Reaches q ∧ q.atEnd = some true ∧ p.Finds q (Parsed.ofCursor s) := by
  cases hs : s.rest with
  | nil =>
    refine ⟨p, .refl, h.atEnd_of_nil hs, ?_⟩
    rw [Parsed.ofCursor_of_nil hs]
    exact ⟨(List.append_nil _).symm, (List.append_nil _).symm⟩
  | cons t ts =>
    obtain ⟨q, s', program, errors, hround, hq, hlt, -, hfinds, heq⟩ := h.round hs
    obtain ⟨q', hreaches, hend, hfinds'⟩ := hq.ends
    exact ⟨q', .head ⟨h.atEnd_of_cons hs, hround⟩ hreaches, hend, heq ▸ hfinds.trans hfinds'⟩
termination_by s.size

/-- Read in rounds, a list of tokens is read as `Parsed.ofTokens` reads it. -/
theorem ends_ofTokens (ts : List Token) : ∃ q, (start ts).Reaches q ∧ q.atEnd = some true ∧
    q.program = (Parsed.ofTokens ts).program ∧ q.desk.errors = (Parsed.ofTokens ts).errors := by
  obtain ⟨q, hreaches, hend, hfinds⟩ := (at_start ts).ends
  exact ⟨q, hreaches, hend, hfinds.program, hfinds.errors⟩

/-- **Recovery leaks no context.** Whenever the end is tested for while a list of tokens is read,
nothing is left open: no loop, no function, no class. If tokens are left another round ends without
fault, and so on to the end; and the statements and mistakes that are still to come are those that
are found in the tokens that are left, read as a program of their own. -/
theorem starts_afresh {ts : List Token} (h : (start ts).Reaches p) :
    p.desk.AtTopLevel ∧
      (p.atEnd = some true ∨ p.atEnd = some false ∧ ∃ q, p.round = some q) ∧
      ∃ q, p.Reaches q ∧ q.atEnd = some true ∧ p.Finds q (Parsed.ofTokens p.left) := by
  obtain ⟨s, -, -, hp, -⟩ := h.at (at_start ts)
  refine ⟨hp.top, ?_, hp.ofTokens_left ▸ hp.ends⟩
  cases hs : s.rest with
  | nil => exact .inl (hp.atEnd_of_nil hs)
  | cons t ts =>
    obtain ⟨q, _, _, _, hround, -⟩ := hp.round hs
    exact .inr ⟨hp.atEnd_of_cons hs, q, hround⟩

/-- A statement that is abandoned in a loop of a method; the `break` behind it is in no loop. -/
theorem starts_afresh_in_loop :
    let ts := [Symbol.classWord.token 1, ⟨.identifier, "A", 1⟩, Symbol.leftBrace.token 1,
        ⟨.identifier, "m", 2⟩] ++
      [Symbol.leftParen, .rightParen, .leftBrace, .whileWord, .leftParen, .nilWord, .rightParen,
        .dot, .semicolon, .breakWord, .semicolon].map (Symbol.token 2)
    ∃ p, (start ts).Reaches p ∧ p.desk.current = 13 ∧ p.desk.AtTopLevel ∧
      (p.atEnd = some true ∨ p.atEnd = some false ∧ ∃ q, p.round = some q) ∧
      ∃ q, p.Reaches q ∧ q.atEnd = some true ∧ p.Finds q (Parsed.ofTokens p.left) := by
  intro ts
  have hround : (start ts).round.map (fun p => p.desk.current) = some 13 := by decide +kernel
  obtain ⟨p, hp, hcurrent⟩ := Option.map_eq_some_iff.mp hround
  have hreaches : (start ts).Reaches p := .single ⟨by decide +kernel, hp⟩
  exact ⟨p, hreaches, hcurrent, starts_afresh hreaches⟩

end Parsing

end Lox
