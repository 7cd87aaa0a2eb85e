import Lox.Proofs.Program.Scripted
import Mathlib.Logic.Relation

/-!
# What scripts yield

`Script.Yields` is the way that a script takes from a cursor to its end, with the ways of the jobs
that it starts: a tree of the steps that are really taken. Every reading has one (`Job.yields`), so
that a statement about all readings is proved by induction on it, one case for each kind of step.

The trees are finite because a job starts others with fewer tokens left, or of a lower rank on the
same tokens; `Job.cost` is the number that gets smaller.
-/

namespace Lox

/-! ### The cost of a job -/

namespace Job

/-- How many tokens a job may leave more than it was given, less one: a job that may read nothing
has slack. -/
def slack : Job → Nat
  | operands .. | trailers _ | optionalExpression _ => 1
  | _ => 0

/-- The place of a job among those that are started on the same tokens. -/
def rank : Job → Nat
  | expression l => 12 - l.rank
  | argumentList _ => 13
  | arguments => 14
  | expressionStatement | optionalExpression _ => 15
  | statement | forInitial => 16
  | declaration => 17
  | block => 18
  | lambda | primary | members => 1
  | _ => 0

/-- The cost of a job at a cursor. -/
def cost (j : Job) (s : Cursor) : Nat :=
  20 * s.size + j.rank

theorem rank_expression_lt (l : Level) : (expression l).rank < 13 :=
  Nat.lt_succ_of_le (Nat.sub_le 12 l.rank)

/-- Whatever the job, with one token less it costs less. -/
theorem rank_lt (j : Job) : j.rank < 20 := by
  cases j with
  | expression l => exact Nat.lt_trans (rank_expression_lt l) (by decide)
  | _ => simp only [rank]; decide

end Job

theorem Reply.size_lt_of_readout {α : Type} {n : Nat} {r : Reply α n} {x : α} {s : Cursor}
    {reports : List GrammarError} (h : r.readout = .read x s reports) : s.size < n := by
  cases r with
  | done x s reports hs =>
    cases h
    exact hs
  | failed e s reports hs => cases h

/-- What a job reads has at least one token, but for its slack. -/
theorem Job.size_lt_of_read {c : Context} {j : Job} {s s' : Cursor} {x : j.Result}
    {reports : List GrammarError} (h : j.read c s = .read x s' reports) :
    s'.size < s.size + j.slack := by
  cases j with
  | _ => exact Reply.size_lt_of_readout h

/-- Every job that a script starts is of a rank below `r`, or is started with fewer tokens left. -/
def Script.Ranked {α : Type} : Script α → Nat → Prop
  | done _, _ => True
  | take _ found absent, r => (∀ t, (found t).Ranked 20) ∧ absent.Ranked r
  | look next stop, r => (∀ t, (next t).Ranked r) ∧ stop.Ranked r
  | report _ _ _ rest, r => rest.Ranked r
  | fail .., _ => True
  | ask _ rest, r => ∀ b, (rest b).Ranked r
  | start _ j rest, r => j.rank < r ∧ ∀ x, (rest x).Ranked (if j.slack = 0 then 20 else r)

theorem Job.ranked (j : Job) : j.script.Ranked j.rank := by
  cases j with
  | expression l =>
    cases l with
    | tier t =>
      have htighter := Tier.rank_lt_tighter t
      have hle := Level.rank_le t.tighter
      have hrank : (expression t.tighter).rank < (expression (.tier t)).rank := by
        simp only [rank]
        omega
      simp [Script.Ranked, hrank, slack, rank_lt]
    | assignment =>
      simp only [script, Script.ofLevel, Script.part, Script.accept, Script.Ranked]
      refine ⟨by decide, fun target => ⟨fun equal => ⟨rank_lt _, fun value => ?_⟩, trivial⟩⟩
      cases target.assigned? value <;> trivial
    | _ => simp [Script.Ranked, rank, slack, Level.rank, Tier.rank]
  | operands t left => simp [Script.Ranked, rank_lt, slack]
  | optionalExpression stop =>
    simp only [script, Script.ofOptional, Script.part, Script.Ranked]
    have hlt : (expression .comma).rank < (optionalExpression stop).rank := by
      simp [rank, Level.rank]
    refine ⟨fun t => ?_, hlt, fun _ => trivial⟩
    split
    · trivial
    · exact ⟨hlt, fun _ => trivial⟩
  | _ => simp [Script.Ranked, rank, slack, Level.rank]

/-! ### Ways -/

/-- What comes of a script from a cursor, by the steps that are taken. Every job that is started
costs less than `n`. -/
inductive Script.Yields : Nat → Context → {α : Type} → Script α → Cursor → Readout α → Prop where
  | done {n : Nat} {c : Context} {α : Type} {x : α} {s : Cursor} :
    Yields n c (.done x) s (.read x s [])
  | found {n : Nat} {c : Context} {α : Type} {p : Token → Bool} {found : Token → Script α}
      {absent : Script α} {s : Cursor} {t : Token} {ts : List Token} {r : Readout α}
      (hs : s.rest = t :: ts) (ht : p t = true) (h : Yields n c (found t) s.skip r) :
    Yields n c (.take p found absent) s r
  | absent {n : Nat} {c : Context} {α : Type} {p : Token → Bool} {found : Token → Script α}
      {absent : Script α} {s : Cursor} {r : Readout α}
      (hs : ∀ t ∈ s.rest.head?, p t = false) (h : Yields n c absent s r) :
    Yields n c (.take p found absent) s r
  | look {n : Nat} {c : Context} {α : Type} {next : Token → Script α} {stop : Script α}
      {s : Cursor} {t : Token} {ts : List Token} {r : Readout α} (hs : s.rest = t :: ts)
      (h : Yields n c (next t) s r) : Yields n c (.look next stop) s r
  | stop {n : Nat} {c : Context} {α : Type} {next : Token → Script α} {stop : Script α}
      {s : Cursor} {r : Readout α} (hs : s.rest = []) (h : Yields n c stop s r) :
    Yields n c (.look next stop) s r
  | report {n : Nat} {c : Context} {α : Type} {reason : Bool} {spot : Spot} {mistake : Mistake}
      {rest : Script α} {s : Cursor} {r : Readout α} (h : Yields n c rest s r) :
    Yields n c (.report reason spot mistake rest) s
      (r.note (if reason then [⟨spot.line s, mistake⟩] else []))
  | fail {n : Nat} {c : Context} {α : Type} {spot : Spot} {mistake : Mistake} {s : Cursor} :
    Yields n c (.fail spot mistake : Script α) s (.broken ⟨spot.line s, mistake⟩ s [])
  | ask {n : Nat} {c : Context} {α : Type} {a : Around} {rest : Bool → Script α} {s : Cursor}
      {r : Readout α} (h : Yields n c (rest (c.has a)) s r) : Yields n c (.ask a rest) s r
  | read {n : Nat} {c : Context} {α : Type} {a : Option Around} {j : Job}
      {rest : j.Result → Script α} {s s' : Cursor} {x : j.Result} {reports : List GrammarError}
      {r : Readout α} (hn : j.cost s < n)
      (hj : Yields (j.cost s) (c.enter a) j.script s (.read x s' reports))
      (h : Yields n c (rest x) s' r) : Yields n c (.start a j rest) s (r.note reports)
  | broken {n : Nat} {c : Context} {α : Type} {a : Option Around} {j : Job}
      {rest : j.Result → Script α} {s s' : Cursor} {e : GrammarError}
      {reports : List GrammarError} (hn : j.cost s < n)
      (hj : Yields (j.cost s) (c.enter a) j.script s (.broken e s' reports)) :
    Yields n c (.start a j rest) s (.broken e s' reports)

namespace Script

variable {α : Type}

theorem size_skip_lt {s : Cursor} {t : Token} {ts : List Token} (hs : s.rest = t :: ts) :
    s.skip.size < s.size := by
  simp only [Cursor.skip, Cursor.size, hs, List.length_cons, Nat.lt_succ_self]

/-- A script yields what following it gives, if the jobs of a lower cost do. -/
theorem yields_follow {n : Nat} (hjobs : ∀ (c : Context) (j : Job) (s : Cursor), j.cost s < n →
    Yields (j.cost s) c j.script s (j.read c s)) {c : Context} {p : Script α} {r : Nat}
    (hp : p.Ranked r) (hr : r ≤ 20) {s : Cursor} (hs : 20 * s.size + r ≤ n) :
    Yields n c p s (p.follow c s) := by
  induction p generalizing r s with
  | done x => exact .done
  | take p found absent ihfound ihabsent =>
    have habsent := ihabsent hp.2 hr hs
    rw [follow]
    split
    · next t ts hrest =>
      split
      · next ht =>
        have hskip := size_skip_lt hrest
        exact .found hrest ht (ihfound t (hp.1 t) (Nat.le_refl 20) (by omega))
      · next ht => exact .absent (by simp [hrest, ht]) habsent
    · next hrest => exact .absent (by simp [hrest]) habsent
  | look next stop ihnext ihstop =>
    rw [follow]
    split
    · next t ts hrest => exact .look hrest (ihnext t (hp.1 t) hr hs)
    · next hrest => exact .stop hrest (ihstop hp.2 hr hs)
  | report reason spot mistake rest ih => exact .report (ih hp hr hs)
  | fail spot mistake => exact .fail
  | ask a rest ih => exact .ask (ih _ (hp _) hr hs)
  | start a j rest ih =>
    have hn : j.cost s < n := by
      have := hp.1
      unfold Job.cost
      omega
    have hj := hjobs (c.enter a) j s hn
    rw [follow]
    cases hread : j.read (c.enter a) s with
    | broken e s' reports => exact .broken hn (hread ▸ hj)
    | read x s' reports =>
      have hlt := Job.size_lt_of_read hread
      have hrest := hp.2 x
      refine .read hn (hread ▸ hj) ?_
      split at hrest
      · exact ih x hrest (Nat.le_refl 20) (by omega)
      · have : j.slack = 1 := by cases j <;> first | rfl | contradiction
        exact ih x hrest hr (by omega)

end Script

/-- **Every reading has a way.** -/
theorem Job.yields (c : Context) (j : Job) (s : Cursor) :
    Script.Yields (j.cost s) c j.script s (j.read c s) := by
  rw [j.read_eq]
  exact Script.yields_follow (fun c' j' s' _ => Job.yields c' j' s') j.ranked
    (Nat.le_of_lt j.rank_lt) (Nat.le_refl _)
termination_by j.cost s

/-- What a script yields is what comes of following it. -/
theorem Script.Yields.eq_follow {n : Nat} {c : Context} {α : Type} {p : Script α} {s : Cursor}
    {r : Readout α} (h : Yields n c p s r) : r = p.follow c s := by
  induction h with
  | done | fail => rfl
  | found hs ht _ ih => rw [follow, hs, ih]; exact (if_pos ht).symm
  | @absent _ _ _ p _ _ s _ hs _ ih =>
    rw [follow, ih]
    split
    · next t ts hrest => exact (if_neg (by simp [hs t (by simp [hrest])])).symm
    · rfl
  | look hs _ ih => rw [follow, hs, ih]
  | stop hs _ ih => rw [follow, hs, ih]
  | report _ ih => rw [follow, ih]
  | ask _ ih => rw [follow, ih]
  | read _ _ _ ihj ih => rw [follow, Job.read_eq, ← ihj, ih]; rfl
  | broken _ _ ihj => rw [follow, Job.read_eq, ← ihj]; rfl

/-! ### Passing tokens -/

namespace Cursor

/-- One cursor is reached from another by passing tokens. -/
def Moves : Cursor → Cursor → Prop :=
  Relation.ReflTransGen fun s s' => s' = s.skip

variable {s s' s'' : Cursor}

theorem Moves.refl : s.Moves s :=
  Relation.ReflTransGen.refl

theorem Moves.trans (h : s.Moves s') (h' : s'.Moves s'') : s.Moves s'' :=
  Relation.ReflTransGen.trans h h'

theorem moves_skip : s.Moves s.skip := .single rfl

/-- What holds of a cursor and stays when a token is passed holds of every cursor behind it. -/
theorem Moves.preserves {P : Cursor → Prop} (h : s.Moves s') (hs : P s)
    (hskip : ∀ s t ts, s.rest = t :: ts → P s → P ⟨ts, t.line, s.endLine⟩) : P s' := by
  induction h with
  | refl => exact hs
  | @tail s₁ s₂ _ hs₂ ih =>
    subst hs₂
    cases hrest : s₁.rest with
    | nil => rwa [skip, hrest]
    | cons t ts =>
      have := hskip s₁ t ts hrest ih
      rwa [skip, hrest]

theorem Moves.endLine_eq (h : s.Moves s') : s'.endLine = s.endLine :=
  h.preserves (P := fun s₁ => s₁.endLine = s.endLine) rfl fun _ _ _ _ h => h

theorem Moves.suffix (h : s.Moves s') : s'.rest <:+ s.rest := by
  refine h.preserves (P := fun s₁ => s₁.rest <:+ s.rest) (List.suffix_refl _)
    fun s₁ t ts hrest hsuffix => ?_
  exact (List.suffix_cons t ts).trans (hrest ▸ hsuffix)

theorem Moves.size_le (h : s.Moves s') : s'.size ≤ s.size :=
  h.suffix.length_le

/-- Reading is taken up behind tokens that are passed. -/
theorem moves_resume : s.Moves s.resume := by
  suffices hgo : ∀ ts lastLine, (⟨ts, lastLine, s.endLine⟩ : Cursor).Moves
      (resume.go s lastLine ts) from hgo s.rest s.lastLine
  intro ts
  induction ts with
  | nil => exact fun _ => .refl
  | cons t ts ih =>
    intro lastLine
    have hskip : (⟨t :: ts, lastLine, s.endLine⟩ : Cursor).Moves ⟨ts, t.line, s.endLine⟩ :=
      moves_skip
    unfold resume.go
    split
    · split
      · exact hskip
      · split
        · exact .refl
        · exact hskip.trans (ih t.line)
    · exact hskip.trans (ih t.line)

end Cursor

/-- The cursor where reading ends. -/
def Readout.rest {α : Type} : Readout α → Cursor
  | read _ s _ => s
  | broken _ s _ => s

@[simp]
theorem Readout.rest_note {α : Type} (r : Readout α) (reports : List GrammarError) :
    (r.note reports).rest = r.rest := by
  cases r <;> rfl

/-- A script moves forward only. -/
theorem Script.Yields.moves {n : Nat} {c : Context} {α : Type} {p : Script α} {s : Cursor}
    {r : Readout α} (h : Yields n c p s r) : s.Moves r.rest := by
  induction h with
  | done | fail => exact .refl
  | found _ _ _ ih => exact Cursor.moves_skip.trans ih
  | absent _ _ ih | look _ _ ih | stop _ _ ih | ask _ ih => exact ih
  | report _ ih => rwa [Readout.rest_note]
  | read _ _ _ ihj ih => rw [Readout.rest_note]; exact ihj.trans ih
  | broken _ _ ihj => exact ihj

/-- A job moves forward only. -/
theorem Job.moves (c : Context) (j : Job) (s : Cursor) : s.Moves (j.read c s).rest :=
  (j.yields c s).moves

/-! ### Programs -/

namespace Cursor

variable {s s' : Cursor} {t : Token} {ts : List Token}

/-- The cursor where reading goes on after a statement that was started at `s` and abandoned at
`s'`. -/
def recover (s s' : Cursor) : Cursor :=
  (if s'.size = s.size then s.skip else s').resume

theorem moves_recover (hm : s.Moves s') : s.Moves (s.recover s') := by
  unfold recover
  split
  · exact moves_skip.trans moves_resume
  · exact hm.trans moves_resume

theorem size_recover_lt (hs : s.rest = t :: ts) (hm : s.Moves s') :
    (s.recover s').size < s.size := by
  refine Nat.lt_of_le_of_lt (size_resume_le _) ?_
  have := hm.size_le
  split
  · exact Script.size_skip_lt hs
  · omega

end Cursor

namespace Parsed

open Job

variable {s s' : Cursor} {reports : List GrammarError}

theorem ofCursor_of_nil (hs : s.rest = []) : ofCursor s = ⟨[], []⟩ := by
  rw [ofCursor, Cursor.next_of_rest_nil hs]

theorem ofCursor_of_read {stmt : Stmt}
    (h : declaration.read .outermost s = .read stmt s' reports) :
    ofCursor s = (ofCursor s').prepend [stmt] reports := by
  have hlt := Job.size_lt_of_read h
  obtain ⟨t, ts, hs⟩ : ∃ t ts, s.rest = t :: ts :=
    List.exists_cons_of_ne_nil fun hs => by simp [Cursor.size, hs, slack] at hlt
  obtain ⟨next, hnext, hn, -⟩ := Cursor.next_of_rest hs
  rw [ofCursor, hn]
  change (Reading.declaration .outermost s).readout = _ at h
  dsimp only
  generalize Reading.declaration .outermost s = r at h
  cases r with
  | done => cases h; rfl
  | failed => cases h

theorem ofCursor_of_broken {t : Token} {ts : List Token} (hs : s.rest = t :: ts)
    {e : GrammarError} (h : declaration.read .outermost s = .broken e s' reports) :
    ofCursor s = (ofCursor (s.recover s')).prepend [] (reports ++ [e]) := by
  obtain ⟨next, hnext, hn, -⟩ := Cursor.next_of_rest hs
  rw [ofCursor, hn]
  change (Reading.declaration .outermost s).readout = _ at h
  dsimp only
  generalize Reading.declaration .outermost s = r at h
  cases r with
  | done => cases h
  | failed => cases h; rw [Cursor.recover, Cursor.skip_of_next hn]

end Parsed

end Lox
