import Lox.Proofs.Program.Yields

/-!
# Reading looks ahead only

A cursor remembers the line of the token read last, and a missing token is reported there. A
**guarded** job passes a token before it looks at that line, so that it does not matter what stood
in front of it (`Job.read_agrees`). Statements are read by a guarded job, and what is made of the
rest of a program depends on the tokens that are left alone (`Parsed.ofCursor_agrees`).
-/

namespace Lox

/-- Cursors with the same tokens ahead and the same end; the lines of the tokens read last may
differ. -/
structure Cursor.Agrees (s s' : Cursor) : Prop where
  /-- The same tokens are left. -/
  rest : s'.rest = s.rest
  /-- The input ends on the same line. -/
  endLine : s'.endLine = s.endLine

namespace Cursor.Agrees

variable {s s' : Cursor}

theorem refl (s : Cursor) : s.Agrees s :=
  ⟨rfl, rfl⟩

theorem line (h : s.Agrees s') : s'.line = s.line := by
  rw [Cursor.line, Cursor.line, h.rest, h.endLine]

theorem size (h : s.Agrees s') : s'.size = s.size := by
  rw [Cursor.size, Cursor.size, h.rest]

/-- Behind the next token there is no difference left. -/
theorem skip_eq (h : s.Agrees s') {t : Token} {ts : List Token} (hs : s.rest = t :: ts) :
    s'.skip = s.skip := by
  rw [Cursor.skip, Cursor.skip, h.rest, hs]
  simp only [h.endLine]

/-- Reading is taken up at the same place. -/
theorem resume (h : s.Agrees s') : s.resume.Agrees s'.resume := by
  suffices hgo : ∀ ts lastLine lastLine', (Cursor.resume.go s lastLine ts).Agrees
      (Cursor.resume.go s' lastLine' ts) by
    rw [Cursor.resume, Cursor.resume, h.rest]
    exact hgo s.rest s.lastLine s'.lastLine
  intro ts
  induction ts with
  | nil => exact fun _ _ => ⟨rfl, h.endLine⟩
  | cons t ts ih =>
    intro lastLine lastLine'
    unfold Cursor.resume.go
    split
    · split
      · exact ⟨rfl, h.endLine⟩
      · split
        · exact ⟨rfl, h.endLine⟩
        · exact ih _ _
    · exact ih _ _

end Cursor.Agrees

/-! ### Guarded jobs -/

/-- The jobs that look at no token behind the cursor before they have passed one. -/
def Job.guarded : Job → Bool
  | expression _ | primary | argumentList _ | declaration | statement | expressionStatement
  | forInitial => true
  | _ => false

/-- Whether a script passes a token before it refers to the token read last, or ends. -/
def Script.Guarded {α : Type} : Script α → Prop
  | done _ => False
  | take _ _ absent => absent.Guarded
  | look next stop => (∀ t, (next t).Guarded) ∧ stop.Guarded
  | report _ spot _ rest => spot = .next ∧ rest.Guarded
  | fail spot _ => spot = .next
  | ask _ rest => ∀ b, (rest b).Guarded
  | start _ j _ => j.guarded = true

theorem Job.guarded_script {j : Job} (h : j.guarded = true) : j.script.Guarded := by
  cases j with
  | expression l => cases l <;> simp [Script.Guarded, guarded]
  | primary | argumentList count | declaration | statement | expressionStatement | forInitial =>
    simp [Script.Guarded, guarded]
  | _ => cases h

/-- What comes of reading from cursors that agree: the same, but for the line of the token read
last where no token was passed. -/
inductive Readout.Agrees {α : Type} : Readout α → Readout α → Prop where
  | refl (r : Readout α) : Agrees r r
  | broken {e : GrammarError} {s s' : Cursor} {reports : List GrammarError} (hs : s.Agrees s') :
    Agrees (.broken e s reports) (.broken e s' reports)

namespace Readout.Agrees

variable {α : Type} {r r' : Readout α} {s : Cursor} {reports : List GrammarError}

theorem note (h : r.Agrees r') (reports : List GrammarError) :
    (r.note reports).Agrees (r'.note reports) := by
  cases h with
  | refl => exact .refl _
  | broken hs => exact .broken hs

theorem eq_of_read {x : α} (h : Agrees (.read x s reports) r') : r' = .read x s reports := by
  cases h with
  | refl => rfl

theorem of_broken {e : GrammarError} (h : Agrees (.broken e s reports : Readout α) r') :
    ∃ s', r' = .broken e s' reports ∧ s.Agrees s' := by
  cases h with
  | refl => exact ⟨s, rfl, .refl s⟩
  | broken hs => exact ⟨_, rfl, hs⟩

end Readout.Agrees

/-- A guarded script yields the same from cursors that agree. -/
theorem Script.Yields.agrees {n : Nat} {c : Context} {α : Type} {p : Script α} {s s' : Cursor}
    {r : Readout α} (h : Yields n c p s r) (hp : p.Guarded) (hs' : s.Agrees s') :
    r.Agrees (p.follow c s') := by
  induction h with
  | done => exact hp.elim
  | found hs ht h =>
    rw [follow, hs'.rest, hs, h.eq_follow]
    dsimp only
    rw [if_pos ht, hs'.skip_eq hs]
    exact .refl _
  | @absent _ _ _ p _ _ s _ hs _ ih =>
    rw [follow, hs'.rest]
    split
    · next t ts hrest =>
      rw [if_neg (by simp [hs t (by simp [hrest])])]
      exact ih hp hs'
    · exact ih hp hs'
  | look hs _ ih => rw [follow, hs'.rest, hs]; exact ih (hp.1 _) hs'
  | stop hs _ ih => rw [follow, hs'.rest, hs]; exact ih hp.2 hs'
  | report _ ih =>
    obtain ⟨rfl, hp⟩ := hp
    rw [follow, Spot.line, Spot.line, hs'.line]
    exact (ih hp hs').note _
  | fail =>
    cases hp
    rw [follow, Spot.line, Spot.line, hs'.line]
    exact .broken hs'
  | ask _ ih => exact ih (hp _) hs'
  | read _ _ h ihj =>
    rw [follow, Job.read_eq, (ihj (Job.guarded_script hp) hs').eq_of_read, h.eq_follow]
    exact .refl _
  | broken _ _ ihj =>
    obtain ⟨s₁, hr, hs₁⟩ := (ihj (Job.guarded_script hp) hs').of_broken
    rw [follow, Job.read_eq, hr]
    exact .broken hs₁

/-- **A guarded job does not look back.** From cursors with the same tokens ahead it reads the same
and finds the same mistakes. -/
theorem Job.read_agrees (c : Context) {j : Job} (hj : j.guarded = true) {s s' : Cursor}
    (h : s.Agrees s') : (j.read c s).Agrees (j.read c s') := by
  rw [j.read_eq c s']
  exact (j.yields c s).agrees (Job.guarded_script hj) h

namespace Cursor.Agrees

variable {s s' : Cursor}

theorem recover (h : s.Agrees s') {s₁ s₁' : Cursor} (h₁ : s₁.Agrees s₁') :
    (s.recover s₁).Agrees (s'.recover s₁') := by
  unfold Cursor.recover
  rw [h.size, h₁.size]
  split
  · cases hs : s.rest with
    | nil =>
      rw [Cursor.skip, Cursor.skip, h.rest, hs]
      exact h.resume
    | cons t ts =>
      rw [h.skip_eq hs]
      exact .refl _
  · exact h₁.resume

end Cursor.Agrees

/-- What is read of the rest of a program, and the mistakes found in it, depend on the tokens that
are left and on the line of the end. -/
theorem Parsed.ofCursor_agrees {s s' : Cursor} (h : s.Agrees s') : ofCursor s' = ofCursor s := by
  cases hs : s.rest with
  | nil => rw [ofCursor_of_nil hs, ofCursor_of_nil (h.rest.trans hs)]
  | cons t ts =>
    have hread := Job.read_agrees .outermost (j := .declaration) rfl h
    cases hr : Job.declaration.read .outermost s with
    | read stmt s₁ reports =>
      rw [hr] at hread
      rw [ofCursor_of_read hr, ofCursor_of_read hread.eq_of_read]
    | broken e s₁ reports =>
      rw [hr] at hread
      obtain ⟨s₁', hr', hs₁⟩ := hread.of_broken
      have hlt := Cursor.size_recover_lt hs (hr ▸ Job.moves .outermost .declaration s)
      rw [ofCursor_of_broken hs hr, ofCursor_of_broken (h.rest.trans hs) hr',
        ofCursor_agrees (h.recover hs₁)]
termination_by s.size

end Lox
