import Lox.Proofs.Machine.Upheld
import Lox.Session

/-!
# Scope discipline

Whatever a run does, it ends in the scope and with the callers that it started with: after a result
as after an error, and an error may arise at any depth of blocks, loops and calls. A session
therefore stands in the global frame, with no call in progress, between any two of its runs
(`scope_and_callers_restored`).

What a comparison of machines says about runs carries over to programs and to sessions
(`Respected.interpret`, `Respected.reaches`).
-/

namespace Lox

/-! ### Programs and sessions -/

theorem Run.interpret_append (host : Host) (n : Nat) (ss ss' : List Stmt) :
    interpret host n (ss ++ ss') = (interpret host n ss >>= fun _ => interpret host n ss') := by
  induction ss with
  | nil => rfl
  | cons s ss ih =>
    funext m
    rw [List.cons_append, interpret, ih, interpret]
    show (execute host n s).bind _ m = ((execute host n s).bind _).bind _ m
    unfold Run.bind
    cases execute host n s m <;> rfl

/-- One source text was run, under some bound. -/
def Session.Step (host : Host) (s s' : Session) : Prop :=
  ∃ n source reported, Session.run host n source s = some (reported, s')

/-- Source texts were run, one after another. -/
def Session.Reaches (host : Host) : Session → Session → Prop :=
  Relation.ReflTransGen (Session.Step host)

/-- A run either leaves the machine alone, since the source text was rejected, or interprets the
program. -/
theorem Session.run_eq_some {host : Host} {n : Nat} {source : String} {s s' : Session}
    {reported : List Diagnostic} (h : Session.run host n source s = some (reported, s')) :
    s'.machine = s.machine ∨ rejections source = [] ∧
      (∃ u, Run.interpret host n (program source) s.machine = .done u s'.machine) ∨
      rejections source = [] ∧
      ∃ e, Run.interpret host n (program source) s.machine = .failed e s'.machine := by
  unfold Session.run at h
  split at h
  · rename_i hr
    split at h
    · rename_i u m hi
      obtain ⟨-, rfl⟩ := Prod.mk.inj (Option.some.inj h)
      exact .inr (.inl ⟨hr, u, hi⟩)
    · rename_i e m hi
      obtain ⟨-, rfl⟩ := Prod.mk.inj (Option.some.inj h)
      exact .inr (.inr ⟨hr, e, hi⟩)
    · cases h
  · obtain ⟨-, rfl⟩ := Prod.mk.inj (Option.some.inj h)
    exact .inl rfl

namespace Respected

variable {host : Host} {R : Machine → Machine → Prop}

theorem interpret (h : Respected host R) (n : Nat) (ss : List Stmt) (m : Machine) :
    (Run.interpret host n ss m).Leaves (R m) := by
  induction ss generalizing m with
  | nil => exact h.refl m
  | cons s ss ih =>
    refine Run.ends_bind.mpr ((h.run n (.execute s) m).mono (fun _ m₁ h₁ => ?_) fun _ _ h₁ => h₁)
    exact (ih m₁).mono (fun _ _ => h.trans h₁) fun _ _ => h.trans h₁

theorem reaches (h : Respected host R) {s s' : Session} (hs : Session.Reaches host s s') :
    R s.machine s'.machine := by
  induction hs with
  | refl => exact h.refl _
  | @tail a b _ hab ih =>
    obtain ⟨n, source, reported, hrun⟩ := hab
    refine h.trans ih ?_
    have hi := h.interpret n (Session.program source) a.machine
    rcases Session.run_eq_some hrun with hm | ⟨-, u, hd⟩ | ⟨-, e, hf⟩
    · rw [hm]; exact h.refl _
    · rw [hd] at hi; exact hi
    · rw [hf] at hi; exact hi

end Respected

/-! ### Scope and callers -/

namespace Machine

/-- Two machines are in the same scope and have the same callers. -/
def SamePlace (m m' : Machine) : Prop :=
  m'.scope = m.scope ∧ m'.callers = m.callers

namespace SamePlace

variable {m m' m'' : Machine}

theorem refl (m : Machine) : m.SamePlace m :=
  ⟨rfl, rfl⟩

theorem trans (h : m.SamePlace m') (h' : m'.SamePlace m'') : m.SamePlace m'' :=
  ⟨h'.1.trans h.1, h'.2.trans h.2⟩

/-- A body that left the callers as it found them is left at the place of the call. -/
theorem leaveCall_eq {scope : FrameId} (h : (m.enterCall scope).enterFrame.SamePlace m') :
    (m'.backIn scope).leaveCall = m'.backAt m.scope m.callers := by
  have hcallers : (m'.backIn scope).callers = m.scope :: m.callers := h.2
  exact Machine.leaveCall_eq hcallers

end SamePlace

theorem respected_samePlace (host : Host) : Respected host SamePlace where
  refl := .refl
  trans := .trans
  basic h m := by
    cases h with
    | printLine _ text =>
      unfold Run.printLine
      dsimp only
      split <;> exact ⟨rfl, rfl⟩
    | _ => exact ⟨rfl, rfl⟩
  bindMethod _ _ _ := ⟨rfl, rfl⟩
  -- The scope outside a frame is kept in mind; the callers are those that the part inside left.
  inFrame h := ⟨rfl, h.2⟩
  -- The body left the callers as it found them, so the innermost one is the caller of this call.
  inCall {m m' _} h := by
    have hcallers : m'.callers = m.scope :: m.callers := h.2
    rw [leaveCall_eq hcallers]
    exact ⟨rfl, rfl⟩

end Machine

/-- **Scope and callers are restored.** However a statement or an expression ends, the machine is in
the scope in which it started and has the callers with which it started. So after any source texts,
rejected, failed or not, a session is in the global frame and no call is in progress. -/
theorem scope_and_callers_restored (host : Host) :
    (∀ n s m, (Run.execute host n s m).Leaves fun m' =>
      m'.scope = m.scope ∧ m'.callers = m.callers) ∧
    (∀ n e m, (Run.evaluate host n e m).Leaves fun m' =>
      m'.scope = m.scope ∧ m'.callers = m.callers) ∧
    ∀ output s, Session.Reaches host (.initial output) s →
      s.machine.scope = 0 ∧ s.machine.callers = [] :=
  have respected := Machine.respected_samePlace host
  ⟨fun n s m => respected.run n (.execute s) m, fun n e m => respected.run n (.evaluate e) m,
    fun _ _ h => respected.reaches h⟩

/-- A run that fails inside two blocks of a function, and behind it a text that is rejected. -/
theorem scope_and_callers_restored_failed_call :
    ∃ s, Session.Reaches (.ofSeed 0 0) (.initial (.ofLimit none)) s ∧ s.hadError = true ∧
      s.machine.scope = 0 ∧ s.machine.callers = [] := by
  have hfail : ((Session.run (.ofSeed 0 0) 30 "fun f() \x7b \x7b missing(); \x7d \x7d f();"
      (.initial (.ofLimit none))).map fun (reported, s) => (reported.map Diagnostic.report,
        (Session.run (.ofSeed 0 0) 30 "f(;" s).map fun (_, s') => s'.hadError)) =
      some ([(1, "Undefined variable 'missing'.")], some true) := by decide +kernel
  obtain ⟨⟨reported, s⟩, h, hs⟩ := Option.map_eq_some_iff.mp hfail
  obtain ⟨⟨reported', s'⟩, h', he⟩ := Option.map_eq_some_iff.mp (Prod.mk.inj hs).2
  have hr : Session.Reaches (.ofSeed 0 0) (.initial (.ofLimit none)) s' :=
    .tail (.single ⟨30, _, reported, h⟩) ⟨30, _, reported', h'⟩
  exact ⟨s', hr, he, (scope_and_callers_restored _).2.2 _ s' hr⟩

end Lox
