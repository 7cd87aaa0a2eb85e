import Lox.Proofs.Machine.Course
import Lox.Proofs.Machine.Invariant

/-!
# What holds throughout a plan

A contract speaks of the machines on which tasks are started and of those at their ends. In between
a plan makes moves of its own, and `Plan.Throughout` says that the machine behind each of them is as
it should be, where the tasks that are started may be taken to keep a contract. Then no machine of a
session is left out (`Contract.KeptAt.moves`).
-/

namespace Lox

variable {α : Type} {host : Host} {C : Contract} {P : Machine → Prop}

namespace Plan

/-- The machine behind each move of a plan that is followed on the machine is as it should be, if
the tasks that the plan starts keep a contract. -/
def Throughout (C : Contract) (P : Machine → Prop) : {α : Type} → Plan α → Machine → Prop
  | _, act r, m => (r m).Leaves P
  | _, part _, _ => True
  | _, andThen p next, m => p.Throughout C P m ∧
      p.Meets C m (fun value m' => (next value).Throughout C P m') fun _ _ => True
  | _, inFrame p, m => P m.enterFrame ∧ p.Throughout C P m.enterFrame ∧
      p.Meets C m.enterFrame (fun _ m' => P (m'.backIn m.scope)) fun _ m' => P (m'.backIn m.scope)
  | _, inCall scope p, m => P (m.enterCall scope) ∧ p.Throughout C P (m.enterCall scope) ∧
      p.Meets C (m.enterCall scope) (fun _ m' => P m'.leaveCall) fun _ m' => P m'.leaveCall

/-- The second machine of a move is as it should be, if the tasks that are really started are run as
the contract says. -/
theorem Throughout.of_passes {p : Plan α} {m m₁ m₂ : Machine} (hp : p.Throughout C P m)
    (hends : ∀ n t m', p.Starts host m t m' → C.before t m' →
      (t.run host n m').Ends (C.result t m') (C.error t m'))
    (h : p.Passes host m m₁ m₂) : P m₂ := by
  induction p generalizing m with
  | act r =>
    obtain ⟨rfl, hstops⟩ := h
    exact Outcome.Leaves.of_stops hp hstops
  | part t => exact h.elim
  | andThen p next ihp ihnext =>
    obtain h | ⟨n, value, m', hdone, h⟩ := h
    · exact ihp hp.1 (fun n t m' hs => hends n t m' (.inl hs)) h
    · have hfirst := hp.2.follow_of_starts (n := n) fun t m' hs => hends n t m' (.inl hs)
      rw [hdone] at hfirst
      exact ihnext value hfirst
        (fun k t m₁ hs => hends k t m₁ (.inr ⟨n, value, m', hdone, hs⟩)) h
  | inFrame p ih =>
    obtain ⟨rfl, rfl⟩ | h | ⟨⟨n, hstops⟩, rfl⟩ := h
    · exact hp.1
    · exact ih hp.2.1 hends h
    · have hback := hp.2.2.follow_of_starts (n := n) fun t m' hs => hends n t m' hs
      exact Outcome.Leaves.of_stops (P := fun m' => P (m'.backIn m.scope)) hback hstops
  | inCall scope p ih =>
    obtain ⟨rfl, rfl⟩ | h | ⟨⟨n, hstops⟩, rfl⟩ := h
    · exact hp.1
    · exact ih hp.2.1 hends h
    · have hback := hp.2.2.follow_of_starts (n := n) fun t m' hs => hends n t m' hs
      exact Outcome.Leaves.of_stops (P := fun m' => P m'.leaveCall) hback hstops

end Plan

/-- **What holds throughout all plans holds behind every move of a session**, if a contract is kept
in it under which the plans are followed. -/
theorem Contract.KeptAt.moves {output : Channel}
    (hkept : C.KeptAt host (Session.Happens host output))
    (h : ∀ t m, Session.Happens host output ⟨t, m⟩ → (t.plan host).Throughout C P m)
    {m m' : Machine} (hmoves : Session.Moves host output m m') : P m' := by
  obtain ⟨⟨t, m₀⟩, ha, hpasses⟩ := hmoves
  refine (h t m₀ ha).of_passes (fun n t' m₁ hs hb => ?_) hpasses
  exact hkept.run (fun _ _ => Session.Happens.starts) n t' m₁ (ha.starts hs) hb

end Lox
