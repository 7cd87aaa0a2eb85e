import Lox.Proofs.Program.Recovery
import Mathlib.Order.WellFounded

/-!
# Reading step by step

`Script.Goes` is one step of a script at a desk, a part that was read counting as one, and
`Parsing.Begins` says which jobs are begun, at which desks, while a list of tokens is read. Every
step leaves the desk on a place of the tokens, at or behind the one where it was and not behind the
first mark of the end; a job that is begun again by its own kind has passed a token since, and no
job begins others without end. Reading therefore comes to its end on every list of tokens
(`Parsing.finishes_in_bounds`).
-/

namespace Lox

/-! ### Steps -/

/-- One step of a script at a desk. -/
inductive Script.Goes {α : Type} : Script α → Desk → Script α → Desk → Prop where
  | found {p : Token → Bool} {found : Token → Script α} {absent : Script α} {d : Desk} {t : Token}
      (ht : d.peek = some t) (hplain : t.kind.isEof = false) (hp : p t = true) :
    Goes (.take p found absent) d (found t) d.advance
  | absent {p : Token → Bool} {found : Token → Script α} {absent : Script α} {d : Desk} {t : Token}
      (ht : d.peek = some t) (hp : (!t.kind.isEof && p t) = false) :
    Goes (.take p found absent) d absent d
  | look {next : Token → Script α} {stop : Script α} {d : Desk} {t : Token} (ht : d.peek = some t)
      (hplain : t.kind.isEof = false) : Goes (.look next stop) d (next t) d
  | stop {next : Token → Script α} {stop : Script α} {d : Desk} {t : Token} (ht : d.peek = some t)
      (heof : t.kind.isEof = true) : Goes (.look next stop) d stop d
  | report {reason : Bool} {spot : Spot} {mistake : Mistake} {rest : Script α} {d d' : Desk}
      (h : (if reason then d.report spot mistake else some d) = some d') :
    Goes (.report reason spot mistake rest) d rest d'
  | ask {a : Around} {rest : Bool → Script α} {d : Desk} :
    Goes (.ask a rest) d (rest (d.inside a)) d
  | back {a : Option Around} {j : Job} {rest : j.Result → Script α} {d d' d'' : Desk}
      {x : j.Result} (hj : j.perform (d.enter a) = some (.read x d')) (hd : d'.leave a = some d'') :
    Goes (.start a j rest) d (rest x) d''

/-- A script comes to what is left of it at another desk. -/
inductive Script.Comes {α : Type} (p : Script α) (d : Desk) : Script α → Desk → Prop where
  | here : Comes p d p d
  | step {p' p'' : Script α} {d' d'' : Desk} (h : Comes p d p' d') (hstep : p'.Goes d' p'' d'') :
    Comes p d p'' d''

/-- A job that was begun at a desk begins a part of it at another desk. -/
inductive Job.Starts (j : Job) (d : Desk) : Job → Desk → Prop where
  | part {a : Option Around} {j' : Job} {rest : j'.Result → Script j.Result} {d' : Desk}
      (h : j.script.Comes d (.start a j' rest) d') : Starts j d j' (d'.enter a)

/-- While a list of tokens is read, a job is begun at a desk. -/
inductive Parsing.Begins (ts : List Token) : Job → Desk → Prop where
  | round {p : Parsing} (hp : (start ts).Reaches p) (hleft : p.atEnd = some false) :
    Begins ts .declaration p.desk
  | part {j j' : Job} {d d' : Desk} (h : Begins ts j d) (hpart : j.Starts d j' d') :
    Begins ts j' d'

/-- Whether a job is begun again as the next round of a loop: the members of a class, the statements
of a block, parameters, arguments, and the operators behind an operand. -/
def Job.repeats : Job → Job → Bool
  | operands .., operands .. | trailers _, trailers _ | argumentList _, argumentList _
  | parameterList _, parameterList _ | block, block | members, members => true
  | _, _ => false

/-- Where a desk stands in a list of tokens. -/
structure Desk.InBounds (ts : List Token) (d : Desk) : Prop where
  /-- The tokens are those of the list, with a mark at the end. -/
  tokens : d.tokens = sealed ts
  /-- There is a token at the place. -/
  next : d.current < d.tokens.length
  /-- There is a token in front of the place, or the place is the first. -/
  last : d.current - 1 < d.tokens.length
  /-- No mark of the end was passed. -/
  passed : ∀ t ∈ d.tokens.take d.current, t.kind.isEof = false

/-- The desk where a part was left. -/
def Performed.desk {α : Type} : Performed α → Desk
  | read _ d => d
  | broken _ d => d

/-! ### What one step keeps -/

theorem Script.Ranked.mono {α : Type} {p : Script α} {r r' : Nat} (h : p.Ranked r) (hle : r ≤ r') :
    p.Ranked r' := by
  induction p generalizing r r' with
  | done x => trivial
  | take p found absent _ ih => exact ⟨h.1, ih h.2 hle⟩
  | look next stop ihnext ihstop => exact ⟨fun t => ihnext t (h.1 t) hle, ihstop h.2 hle⟩
  | report reason spot mistake rest ih => exact ih h hle
  | fail spot mistake => trivial
  | ask a rest ih => exact fun b => ih b (h b) hle
  | start a j rest ih =>
    refine ⟨Nat.lt_of_lt_of_le h.1 hle, fun x => ih x (h.2 x) ?_⟩
    split
    · exact Nat.le_refl 20
    · exact hle

namespace Desk.Follows

variable {d d' : Desk} {s s' : Cursor} (a : Option Around)

theorem tokens_enter (d : Desk) : (d.enter a).tokens = d.tokens := by
  rcases a with _ | _ | _ | _ <;> rfl

theorem current_enter (d : Desk) : (d.enter a).current = d.current := by
  rcases a with _ | _ | _ | _ <;> rfl

/-- What stands around the place does not matter to the tokens. -/
theorem enter (h : d.Follows d' s s') : d.Follows (d'.enter a) s s' :=
  ⟨(tokens_enter a d').trans h.tokens, h.moves, (current_enter a d').symm ▸ h.current⟩

end Desk.Follows

section

variable {α : Type} {p p' : Script α} {d d' : Desk} {c : Context} {s : Cursor}

namespace Desk.Shows

variable {t : Token}

/-- The cursor sees the token that the desk sees. -/
theorem rest_of_peek (h : d.Shows c s) (ht : d.peek = some t) (hplain : t.kind.isEof = false) :
    ∃ ts, s.rest = t :: ts := by
  cases hs : s.rest with
  | nil =>
    obtain ⟨eof, hpeek, heof, -⟩ := h.peek_of_nil hs
    cases ht.symm.trans hpeek
    cases hplain.symm.trans heof
  | cons t' ts =>
    cases ht.symm.trans (h.peek_of_cons hs).1
    exact ⟨ts, rfl⟩

/-- What is read of a part, and left again, is what is read at the cursor. -/
theorem back (h : d.Shows c s) {a : Option Around} {j : Job} {x : j.Result} {d'' : Desk}
    (hj : j.perform (d.enter a) = some (.read x d')) (hd : d'.leave a = some d'') :
    ∃ s' reports, j.read (c.enter a) s = .read x s' reports ∧ s.Moves s' ∧
      d'' = d.moved (s.size - s'.size) reports := by
  have hm := j.moves (c.enter a) s
  rw [j.perform_eq (h.enter a), Option.some_inj] at hj
  cases hr : j.read (c.enter a) s with
  | broken e s' reports =>
    rw [hr] at hj
    cases hj
  | read y s' reports =>
    rw [hr] at hm hj
    cases hj
    rw [leave_moved_enter, Option.some_inj] at hd
    exact ⟨s', reports, rfl, hm, hd.symm⟩

end Desk.Shows

/-- **One step.** It ends at a desk that shows a cursor at or behind the first one, and what is left
to begin is of a lower rank unless a token was passed. -/
theorem Script.Goes.shows (hstep : p.Goes d p' d') (h : d.Shows c s) :
    ∃ s', d'.Shows c s' ∧ d.Follows d' s s' ∧
      ∀ r ≤ 20, p.Ranked r → p'.Ranked (if s'.size < s.size then 20 else r) := by
  have hstay : ¬ s.size < s.size := Nat.lt_irrefl _
  cases hstep with
  | found ht hplain hp =>
    obtain ⟨ts, hs⟩ := h.rest_of_peek ht hplain
    have hlt := size_skip_lt hs
    have hsize := s.size_skip
    refine ⟨s.skip, h.advance hs, ⟨rfl, Cursor.moves_skip, ?_⟩, fun r _ hr => ?_⟩
    · simp only [Desk.advance]
      omega
    · rw [if_pos hlt]
      exact hr.1 _
  | absent => exact ⟨s, h, .refl d s, fun r _ hr => (if_neg hstay).symm ▸ hr.2⟩
  | look => exact ⟨s, h, .refl d s, fun r _ hr => (if_neg hstay).symm ▸ hr.1 _⟩
  | stop => exact ⟨s, h, .refl d s, fun r _ hr => (if_neg hstay).symm ▸ hr.2⟩
  | report hd =>
    rw [h.report, Option.some_inj] at hd
    subst hd
    exact ⟨s, h.moved_zero _, ⟨rfl, .refl, rfl⟩, fun r _ hr => (if_neg hstay).symm ▸ hr⟩
  | ask => exact ⟨s, h, .refl d s, fun r _ hr => (if_neg hstay).symm ▸ hr _⟩
  | @back a j rest _ d' _ x hj hd =>
    obtain ⟨s', reports, hread, hm, rfl⟩ := h.back hj hd
    have hlt := Job.size_lt_of_read hread
    refine ⟨s', h.moved hm reports, .moved d hm reports, fun r hle hr => ?_⟩
    by_cases hslack : j.slack = 0
    · have := hr.2 x
      rwa [if_pos hslack, ← if_pos (show s'.size < s.size by omega) (t := 20) (e := r)] at this
    · refine Ranked.mono (r := r) ?_ ?_
      · have := hr.2 x
        rwa [if_neg hslack] at this
      · split
        · exact hle
        · exact Nat.le_refl r

/-- What one step keeps, kept from the beginning of a script. -/
theorem Script.Comes.shows (hcomes : p.Comes d p' d') (h : d.Shows c s) {r : Nat} (hle : r ≤ 20)
    (hr : p.Ranked r) :
    ∃ s', d'.Shows c s' ∧ d.Follows d' s s' ∧
      p'.Ranked (if s'.size < s.size then 20 else r) := by
  induction hcomes with
  | here => exact ⟨s, h, .refl d s, (if_neg (Nat.lt_irrefl s.size)).symm ▸ hr⟩
  | step _ hstep ih =>
    obtain ⟨s', h', hfollows, hr'⟩ := ih
    obtain ⟨s'', h'', hfollows', hr''⟩ := hstep.shows h'
    have hsize := hfollows.moves.size_le
    have hsize' := hfollows'.moves.size_le
    refine ⟨s'', h'', hfollows.trans hfollows', ?_⟩
    have := hr'' _ (by split <;> omega) hr'
    split at this
    · rwa [if_pos (by omega)]
    · have heq : s''.size = s'.size := by omega
      rwa [heq]

end

/-! ### What is begun -/

namespace Desk

variable {ts : List Token} {d : Desk} {c : Context} {s : Cursor}

theorem Shows.inBounds (h : d.Shows c s) (hfollows : (Desk.new ts).Follows d (.ofTokens ts) s) :
    d.InBounds ts := by
  obtain ⟨eof, more, hdrop, -, -⟩ := h.ahead
  have hnext : d.current < d.tokens.length := by
    refine Nat.lt_of_not_le fun hle => ?_
    rw [List.drop_eq_nil_of_le hle] at hdrop
    exact List.append_ne_nil_of_right_ne_nil _ (List.cons_ne_nil eof more) hdrop.symm
  refine ⟨hfollows.tokens, hnext, by omega, fun t ht => ?_⟩
  obtain ⟨eof, more, hsealed, -, -⟩ := Cursor.sealed_eq ts
  have hcurrent : d.current + s.size = 0 + (Cursor.ofTokens ts).rest.length := hfollows.current
  rw [hfollows.tokens, new, hsealed, List.take_append_of_le_length (by omega)] at ht
  exact (new_shows ts).plain t (List.mem_of_mem_take ht)

/-- The desk where a reading ends shows the cursor where it ends. -/
theorem Shows.performed (h : d.Shows c s) {α : Type} {r : Readout α} (hm : s.Moves r.rest) :
    (r.performed d s).desk.Shows c r.rest ∧ d.Follows (r.performed d s).desk s r.rest := by
  cases r with
  | read x s' reports => exact ⟨h.moved hm reports, .moved d hm reports⟩
  | broken e s' reports => exact ⟨h.moved hm reports, .moved d hm reports⟩

end Desk

/-- **One part.** It is begun at a desk that shows a cursor at or behind the first one, and it costs
less than the job that it is a part of. -/
theorem Job.Starts.shows {j j' : Job} {d d' : Desk} {c : Context} {s : Cursor}
    (hpart : j.Starts d j' d') (h : d.Shows c s) :
    ∃ c' s', d'.Shows c' s' ∧ d.Follows d' s s' ∧
      j'.rank < if s'.size < s.size then 20 else j.rank := by
  cases hpart with
  | @part a _ _ d' hcomes =>
    obtain ⟨s', h', hfollows, hr⟩ := hcomes.shows h (Nat.le_of_lt j.rank_lt) j.ranked
    exact ⟨c.enter a, s', h'.enter a, hfollows.enter a, hr.1⟩

namespace Parsing

variable {ts : List Token} {p q : Parsing} {j j' : Job} {d d' : Desk}

theorem Reaches.placed (h : (start ts).Reaches p) :
    ∃ s, p.At s ∧ (Desk.new ts).Follows p.desk (.ofTokens ts) s := by
  obtain ⟨s, -, -, hat, hfollows, -⟩ := h.at (at_start ts)
  exact ⟨s, hat, hfollows⟩

theorem Begins.placed (h : Begins ts j d) :
    ∃ c s, d.Shows c s ∧ (Desk.new ts).Follows d (.ofTokens ts) s := by
  induction h with
  | round hp _ =>
    obtain ⟨s, hat, hfollows⟩ := hp.placed
    exact ⟨_, s, hat.shows, hfollows⟩
  | part h hpart ih =>
    obtain ⟨c, s, hd, hfollows⟩ := ih
    obtain ⟨c', s', hd', hfollows', -⟩ := hpart.shows hd
    exact ⟨c', s', hd', hfollows.trans hfollows'⟩

theorem Begins.weight_lt (h : Begins ts j d) (hpart : j.Starts d j' d') :
    j'.weight d' < j.weight d := by
  obtain ⟨c, s, hd, -⟩ := h.placed
  obtain ⟨c', s', hd', hfollows, hr⟩ := hpart.shows hd
  have hle := hfollows.moves.size_le
  have hrank := j'.rank_lt
  rw [hd'.weight_eq, hd.weight_eq, Job.cost, Job.cost]
  split at hr <;> omega

theorem repeats_rank (h : j.repeats j' = true) : j'.rank = j.rank := by
  cases j <;> cases j' <;> first | rfl | cases h

/-- What reading does from the beginning of a job. -/
structure Proceeds (ts : List Token) (j : Job) (d : Desk) : Prop where
  /-- The job comes to an end without fault, and there the desk is at a place of the tokens. -/
  ends : ∃ r, j.perform d = some r ∧ r.desk.InBounds ts ∧ d.current ≤ r.desk.current
  /-- At every step the desk is at a place of the tokens. -/
  inBounds : ∀ p d', j.script.Comes d p d' → d'.InBounds ts
  /-- No step goes back. -/
  forward : ∀ p d' p' d'', j.script.Comes d p d' → p.Goes d' p' d'' → d'.current ≤ d''.current
  /-- What was read has a token, if the job has no slack. -/
  passes : ∀ x d', j.perform d = some (.read x d') → j.slack = 0 → d.current < d'.current
  /-- A round of a loop that is followed by another has passed a token. -/
  repeats : ∀ j' d', j.Starts d j' d' → j.repeats j' = true → d.current < d'.current

theorem Begins.proceeds (h : Begins ts j d) : Proceeds ts j d := by
  obtain ⟨c, s, hd, hfollows⟩ := h.placed
  have hperform := j.perform_eq hd
  have hm := j.moves c s
  have hle := hm.size_le
  have hcomes : ∀ p d', j.script.Comes d p d' →
      ∃ s', d'.Shows c s' ∧ (Desk.new ts).Follows d' (.ofTokens ts) s' := by
    intro p d' hcomes
    obtain ⟨s', hd', hfollows', -⟩ := hcomes.shows hd (Nat.le_of_lt j.rank_lt) j.ranked
    exact ⟨s', hd', hfollows.trans hfollows'⟩
  refine ⟨⟨_, hperform, ?_⟩, ?_, ?_, ?_, ?_⟩
  · obtain ⟨hd', hfollows'⟩ := hd.performed hm
    have hcurrent := hfollows'.current
    exact ⟨hd'.inBounds (hfollows.trans hfollows'), by omega⟩
  · intro p d' hp
    obtain ⟨s', hd', hfollows'⟩ := hcomes p d' hp
    exact hd'.inBounds hfollows'
  · intro p d' p' d'' hp hstep
    obtain ⟨s', hd', -⟩ := hcomes p d' hp
    obtain ⟨s'', -, hfollows', -⟩ := hstep.shows hd'
    have := hfollows'.moves.size_le
    have := hfollows'.current
    omega
  · intro x d' hx hslack
    rw [hperform, Option.some_inj] at hx
    cases hr : j.read c s with
    | broken e s' reports =>
      rw [hr] at hx
      cases hx
    | read y s' reports =>
      have hlt := Job.size_lt_of_read hr
      rw [hr] at hx
      cases hx
      simp only [Desk.moved]
      omega
  · intro j' d' hpart hrepeats
    obtain ⟨c', s', -, hfollows', hr⟩ := hpart.shows hd
    have := hfollows'.current
    rw [repeats_rank hrepeats] at hr
    split at hr <;> omega

/-- Parts are not begun in parts without end. -/
theorem Begins.ends {f : ℕ → Job × Desk} (h : Begins ts (f 0).1 (f 0).2) :
    ∃ n, ¬ (f n).1.Starts (f n).2 (f (n + 1)).1 (f (n + 1)).2 := by
  by_contra hall
  have hparts : ∀ n, (f n).1.Starts (f n).2 (f (n + 1)).1 (f (n + 1)).2 := by simpa using hall
  have hbegins : ∀ n, Begins ts (f n).1 (f n).2 := fun n => by
    induction n with
    | zero => exact h
    | succ n ih => exact ih.part (hparts n)
  obtain ⟨n, hn⟩ := WellFounded.not_rel_apply_succ (r := (· < ·)) fun n => (f n).1.weight (f n).2
  exact hn ((hbegins n).weight_lt (hparts n))

/-- A round passes a token. -/
theorem Reaches.current_lt (h : (start ts).Reaches p) (hleft : p.atEnd = some false)
    (hround : p.round = some q) : p.desk.current < q.desk.current := by
  obtain ⟨s, hat, -⟩ := h.placed
  cases hs : s.rest with
  | nil => cases hleft.symm.trans (hat.atEnd_of_nil hs)
  | cons t ts =>
    obtain ⟨q', s', _, _, hround', -, hlt, hfollows, -⟩ := hat.round hs
    cases hround.symm.trans hround'
    have := hfollows.current
    omega

/-- What stands behind the first mark of the end is not read. -/
theorem ofTokens_take (ts : List Token) :
    Parsed.ofTokens (ts.take (ts.findIdx (fun t => t.kind.isEof) + 1)) = Parsed.ofTokens ts := by
  cases hfind : ts.find? fun t => t.kind.isEof with
  | none =>
    have hplain := List.find?_eq_none.mp hfind
    rw [List.findIdx_eq_length.mpr (by simpa using hplain), List.take_of_length_le (Nat.le_succ _)]
  | some eof =>
    obtain ⟨heof, before, behind, rfl, hbefore⟩ := List.find?_eq_some_iff_append.mp hfind
    have hplain : before.findIdx (fun t => t.kind.isEof) = before.length :=
      List.findIdx_eq_length.mpr (by simpa using hbefore)
    have hidx : (before ++ eof :: behind).findIdx (fun t => t.kind.isEof) = before.length := by
      rw [List.findIdx_append, if_neg (by omega), List.findIdx_cons, heof, cond_true, Nat.zero_add]
    have hread : ∀ more, Parsed.ofTokens (before ++ eof :: more) =
        Parsed.ofCursor ⟨before, eof.line, eof.line⟩ := fun more =>
      Parsed.ofCursor_agrees (Cursor.agrees_ofTokens (by simpa using hbefore) heof rfl)
    rw [hidx, List.take_append, List.take_of_length_le (Nat.le_succ _), Nat.add_sub_cancel_left]
    exact (hread []).trans (hread behind).symm

/-- **Reading comes to its end, within the tokens.** Whatever the list of tokens, the rounds come to
the end, and what they found is what `Parsed.ofTokens` finds. Whenever the end is tested for the
desk is at a place of the tokens, and a round passes a token; every job that is begun proceeds
within the tokens as `Proceeds` says, and parts are not begun in parts without end. What stands
behind the first mark of the end does not matter. -/
theorem finishes_in_bounds (ts : List Token) :
    (∃ q, (start ts).Reaches q ∧ q.atEnd = some true ∧
      q.program = (Parsed.ofTokens ts).program ∧ q.desk.errors = (Parsed.ofTokens ts).errors) ∧
    (∀ p, (start ts).Reaches p → p.desk.InBounds ts ∧
      ∀ q, p.atEnd = some false → p.round = some q → p.desk.current < q.desk.current) ∧
    (∀ j d, Begins ts j d → Proceeds ts j d) ∧
    (∀ f : ℕ → Job × Desk, Begins ts (f 0).1 (f 0).2 →
      ∃ n, ¬ (f n).1.Starts (f n).2 (f (n + 1)).1 (f (n + 1)).2) ∧
    Parsed.ofTokens (ts.take (ts.findIdx (fun t => t.kind.isEof) + 1)) = Parsed.ofTokens ts := by
  refine ⟨ends_ofTokens ts, fun p hp => ⟨?_, fun q => hp.current_lt⟩, fun j d => Begins.proceeds,
    fun f => Begins.ends, ofTokens_take ts⟩
  obtain ⟨s, hat, hfollows⟩ := hp.placed
  exact hat.shows.inBounds hfollows

/-- A block that the end of the input cuts off, with tokens behind the end: its statements are begun
behind the brace, and what follows the mark of the end is not read. -/
theorem finishes_in_bounds_cut_block :
    let ts := [Symbol.leftBrace, .nilWord, .semicolon].map (Symbol.token 1) ++
      [⟨.eof, "", 1⟩, Symbol.rightBrace.token 2]
    (∃ d, Begins ts .block d ∧ d.current = 1 ∧ Proceeds ts .block d) ∧
      Parsed.ofTokens (ts.take 4) = Parsed.ofTokens ts := by
  intro ts
  obtain ⟨-, -, hproceeds, -, htake⟩ := finishes_in_bounds ts
  have hdeclaration : Begins ts .declaration (start ts).desk := .round .refl rfl
  have hstatement : Begins ts .statement (start ts).desk := hdeclaration.part
    (.part (a := none) (.step (.step (.step .here (.absent rfl rfl)) (.absent rfl rfl))
      (.absent rfl rfl)))
  have hblock : Begins ts .block (start ts).desk.advance := hstatement.part
    (.part (a := none) (.step (.step (.step (.step (.step (.step .here (.absent rfl rfl))
      (.absent rfl rfl)) (.absent rfl rfl)) (.absent rfl rfl)) (.absent rfl rfl))
      (.found rfl rfl rfl)))
  exact ⟨⟨_, hblock, rfl, hproceeds .block _ hblock⟩, htake⟩

end Parsing

end Lox
