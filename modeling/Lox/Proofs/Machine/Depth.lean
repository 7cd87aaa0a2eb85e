import Lox.Proofs.Machine.Step

/-!
# Bounds on the depth

A run that ends under one bound ends in the same way under all greater ones (`Task.run_eq_of_le`).
So a plan ends if all tasks do that it starts, each under a bound of its own
(`Plan.finishes_of_starts`).
-/

namespace Lox

variable {α β : Type} {q : Trait} {host : Host} {E : Effects}

/-- The bound on the depth was high enough. -/
def Outcome.Finished (o : Outcome α) : Prop :=
  o ≠ .unfinished

theorem Outcome.finished_onMachine {o : Outcome α} {k : Machine → Machine} :
    (o.onMachine k).Finished ↔ o.Finished := by
  cases o <;> simp [onMachine, Finished]

namespace Run

theorem finished_bind {r : Run α} {f : α → Run β} {m : Machine} :
    (r.bind f m).Finished ↔
      (r m).Finished ∧ ∀ value m', r m = .done value m' → (f value m').Finished := by
  unfold Run.bind
  cases h : r m with
  | done value m' => simp [Outcome.Finished]
  | failed e m' => simp [Outcome.Finished]
  | unfinished => simp [Outcome.Finished]

theorem finished_inFrame {r : Run α} {m : Machine} :
    (inFrame r m).Finished ↔ (r m.enterFrame).Finished := by
  rw [inFrame_eq, Outcome.finished_onMachine]

theorem finished_inCall {r : Run α} {closure : FrameId} {m : Machine} :
    (inCall closure r m).Finished ↔ (r (m.enterCall closure)).Finished := by
  rw [inCall_eq, Outcome.finished_onMachine]

/-- What is run in a new frame depends on the machine in that frame only. -/
theorem inFrame_congr {r r' : Run α} {m : Machine} (h : r m.enterFrame = r' m.enterFrame) :
    inFrame r m = inFrame r' m := by
  rw [inFrame_eq, inFrame_eq, h]

/-- What is run for a call depends on the machine in the scope of the call only. -/
theorem inCall_congr {r r' : Run α} {closure : FrameId} {m : Machine}
    (h : r (m.enterCall closure) = r' (m.enterCall closure)) :
    inCall closure r m = inCall closure r' m := by
  rw [inCall_eq, inCall_eq, h]

theorem IsStep.finished {r : Run α} (h : IsStep q host E r) (m : Machine) : (r m).Finished := by
  induction h generalizing m with
  | basic hb =>
    cases hb with
    | printLine _ text =>
      unfold printLine
      dsimp only
      split <;> exact nofun
    | _ => exact nofun
  | bind _ _ ihr ihf => exact finished_bind.mpr ⟨ihr m, fun value m' _ => ihf value m'⟩

/-- All steps that plans are made of end. -/
theorem IsAct.finished {r : Run α} (h : IsAct q host E r) (m : Machine) : (r m).Finished := by
  induction h generalizing m with
  | step h => exact h.finished m
  | bindMethod method id => exact nofun
  | look f _ ih => exact ih _ m
  | map _ f ih => exact finished_bind.mpr ⟨ih m, fun _ _ _ => nofun⟩

end Run

/-! ### Greater bounds -/

/-- A plan that ends ends in the same way if more of its parts are answered. -/
theorem Plan.follow_eq_of_finished {answer answer' : (t : Task) → Run t.Result}
    (h : ∀ t m, (answer t m).Finished → answer' t m = answer t m) (p : Plan α) (m : Machine)
    (hp : (p.follow answer m).Finished) : p.follow answer' m = p.follow answer m := by
  induction p generalizing m with
  | act r => rfl
  | part t => exact h t m hp
  | andThen p next ihp ihnext =>
    obtain ⟨hfirst, hrest⟩ := Run.finished_bind.mp hp
    show (p.follow answer').bind _ m = (p.follow answer).bind _ m
    rw [Run.bind, Run.bind, ihp m hfirst]
    cases hm : p.follow answer m with
    | done value m' => exact ihnext value m' (hrest value m' hm)
    | failed e m' => rfl
    | unfinished => rfl
  | inFrame p ih => exact Run.inFrame_congr (ih _ (Run.finished_inFrame.mp hp))
  | inCall scope p ih => exact Run.inCall_congr (ih _ (Run.finished_inCall.mp hp))

/-- **A run that ends under a bound ends in the same way under all greater ones.** -/
theorem Task.run_eq_of_le {n n' : Nat} (hle : n ≤ n') (t : Task) (m : Machine)
    (h : (t.run host n m).Finished) : t.run host n' m = t.run host n m := by
  induction n generalizing n' t m with
  | zero =>
    rw [Task.run_zero] at h
    exact absurd rfl h
  | succ n ih =>
    obtain ⟨k, rfl⟩ : ∃ k, n' = k + 1 := ⟨n' - 1, by omega⟩
    have hk : n ≤ k := Nat.le_of_succ_le_succ hle
    rw [Task.run_succ] at h ⊢
    rw [Task.run_succ]
    exact Plan.follow_eq_of_finished (fun t m => ih hk t m) (t.plan host) m h

theorem Plan.follow_eq_of_le {n n' : Nat} (hle : n ≤ n') (p : Plan α) (m : Machine)
    (h : (p.follow (Task.run host n) m).Finished) :
    p.follow (Task.run host n') m = p.follow (Task.run host n) m :=
  Plan.follow_eq_of_finished (fun t m => Task.run_eq_of_le hle t m) p m h

/-- The same holds of programs. -/
theorem Run.interpret_eq_of_le {n n' : Nat} (hle : n ≤ n') (ss : List Stmt) (m : Machine)
    (h : (interpret host n ss m).Finished) : interpret host n' ss m = interpret host n ss m := by
  induction ss generalizing m with
  | nil => rfl
  | cons s ss ih =>
    obtain ⟨hfirst, hrest⟩ := finished_bind.mp h
    have hs : execute host n' s m = execute host n s m :=
      Task.run_eq_of_le hle (.execute s) m hfirst
    show (execute host n' s).bind _ m = (execute host n s).bind _ m
    rw [Run.bind, Run.bind, hs]
    cases hm : execute host n s m with
    | done completion m' => exact ih m' (hrest completion m' hm)
    | failed e m' => rfl
    | unfinished => rfl

/-! ### Plans that end -/

/-- **A plan ends if all tasks do that it starts.** -/
theorem Plan.finishes_of_starts {p : Plan α} (hp : p.StepsOnly q host E) {m : Machine}
    (h : ∀ t m', p.Starts host m t m' → ∃ n, (t.run host n m').Finished) :
    ∃ n, (p.follow (Task.run host n) m).Finished := by
  induction hp generalizing m with
  | act hr => exact ⟨0, hr.finished m⟩
  | @part _ t _ => exact h t m ⟨rfl, rfl⟩
  | @andThen _ _ _ p next _ _ ihp ihnext =>
    obtain ⟨n, hn⟩ := ihp fun t m' hs => h t m' (.inl hs)
    cases hfirst : p.follow (Task.run host n) m with
    | done value m₁ =>
      obtain ⟨k, hk⟩ := ihnext value fun t m' hs => h t m' (.inr ⟨n, value, m₁, hfirst, hs⟩)
      -- Both parts end under the greater of the two bounds.
      have hboth : p.follow (Task.run host (max n k)) m = .done value m₁ :=
        (follow_eq_of_le (Nat.le_max_left n k) p m hn).trans hfirst
      have hrest : ((next value).follow (Task.run host (max n k)) m₁).Finished := by
        rw [follow_eq_of_le (Nat.le_max_right n k) (next value) m₁ hk]
        exact hk
      refine ⟨max n k, Run.finished_bind.mpr ⟨by rw [hboth]; exact nofun, ?_⟩⟩
      intro value' m' hdone
      obtain ⟨rfl, rfl⟩ := Outcome.done.inj (hboth.symm.trans hdone)
      exact hrest
    | failed e m₁ =>
      refine ⟨n, Run.finished_bind.mpr ⟨hn, fun value' m' hdone => ?_⟩⟩
      exact nomatch hfirst.symm.trans hdone
    | unfinished => exact absurd hfirst hn
  | inFrame _ ih =>
    obtain ⟨n, hn⟩ := ih h
    exact ⟨n, Run.finished_inFrame.mpr hn⟩
  | inCall scope _ _ ih =>
    obtain ⟨n, hn⟩ := ih h
    exact ⟨n, Run.finished_inCall.mpr (Run.finished_inFrame.mpr hn)⟩

end Lox
