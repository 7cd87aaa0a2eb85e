import Lox.Proofs.Machine.Plan

/-!
# Contracts

A contract says what holds when a task is started and what holds when it has ended, with a result
or with an error. It is kept if every plan keeps it, where a plan may take for granted that the
tasks it starts keep it too (`Contract.Kept`). A contract that is kept holds of every run
(`Contract.Kept.run`), and its first half holds at every moment of a run, however deep inside and
whether or not the run ever ends (`Contract.Kept.before`).
-/

namespace Lox

/-! ### Outcomes -/

namespace Outcome

variable {α : Type}

/-- The outcome is a value or an error as it should be, or the bound was too low. -/
def Ends (result : α → Machine → Prop) (error : RuntimeError → Machine → Prop) : Outcome α → Prop
  | done value m => result value m
  | failed e m => error e m
  | unfinished => True

/-- However the run ended, the machine is as it should be. -/
def Leaves (P : Machine → Prop) : Outcome α → Prop :=
  Ends (fun _ => P) (fun _ => P)

/-- The value and the machine at the end, if the run came to its end without an error. -/
def done? : Outcome α → Option (α × Machine)
  | done value m => some (value, m)
  | failed _ _ => none
  | unfinished => none

theorem done?_eq_some {o : Outcome α} {value : α} {m : Machine} :
    o.done? = some (value, m) ↔ o = .done value m := by
  cases o <;> simp [done?]

/-- The outcome on another machine. -/
def onMachine (k : Machine → Machine) : Outcome α → Outcome α
  | done value m => done value (k m)
  | failed e m => failed e (k m)
  | unfinished => unfinished

theorem onMachine_id (o : Outcome α) : o.onMachine (fun m => m) = o := by
  cases o <;> rfl

theorem onMachine_onMachine (o : Outcome α) (k k' : Machine → Machine) :
    (o.onMachine k).onMachine k' = o.onMachine fun m => k' (k m) := by
  cases o <;> rfl

theorem ends_onMachine {o : Outcome α} {k : Machine → Machine} {result : α → Machine → Prop}
    {error : RuntimeError → Machine → Prop} : (o.onMachine k).Ends result error ↔
      o.Ends (fun value m => result value (k m)) fun e m => error e (k m) := by
  cases o <;> rfl

theorem leaves_onMachine {o : Outcome α} {k : Machine → Machine} {P : Machine → Prop} :
    (o.onMachine k).Leaves P ↔ o.Leaves fun m => P (k m) :=
  ends_onMachine

theorem onMachine_eq_done {o : Outcome α} {k : Machine → Machine} {value : α} {m' : Machine} :
    o.onMachine k = done value m' ↔ ∃ m, o = done value m ∧ k m = m' := by
  cases o <;> simp [onMachine, and_assoc]

/-- Only what is done to the machine that was left counts. -/
theorem onMachine_congr {o : Outcome α} {k k' : Machine → Machine}
    (h : o.Leaves fun m => k m = k' m) : o.onMachine k = o.onMachine k' := by
  cases o with
  | done value m => exact congrArg (done value) h
  | failed e m => exact congrArg (failed e) h
  | unfinished => rfl

theorem Ends.mono {result result' : α → Machine → Prop}
    {error error' : RuntimeError → Machine → Prop} {o : Outcome α} (h : o.Ends result error)
    (hr : ∀ value m, result value m → result' value m)
    (he : ∀ e m, error e m → error' e m) : o.Ends result' error' := by
  cases o with
  | done value m => exact hr value m h
  | failed e m => exact he e m h
  | unfinished => trivial

end Outcome

/-! ### Frames and calls -/

namespace Machine

/-- The machine in a new frame inside its scope. -/
def enterFrame (m : Machine) : Machine :=
  { m with store := m.store.allocFrame (some m.scope), scope := m.store.nextFrame }

/-- The machine back in a scope. -/
def backIn (m : Machine) (scope : FrameId) : Machine :=
  { m with scope := scope }

/-- The machine at another place: in a scope, with callers. -/
def backAt (m : Machine) (scope : FrameId) (callers : List FrameId) : Machine :=
  { m with scope := scope, callers := callers }

/-- What a call left as it found it is left at the place of the call. -/
theorem leaveCall_eq {m m' : Machine} (h : m'.callers = m.scope :: m.callers) :
    m'.leaveCall = m'.backAt m.scope m.callers := by
  rw [leaveCall, h]
  rfl

end Machine

namespace Run

variable {α β : Type}

theorem ends_bind {r : Run α} {f : α → Run β} {result : β → Machine → Prop}
    {error : RuntimeError → Machine → Prop} {m : Machine} :
    (r.bind f m).Ends result error ↔
      (r m).Ends (fun value m' => (f value m').Ends result error) error := by
  unfold Run.bind
  cases r m <;> rfl

/-- What is run in a new frame comes to its end, and the machine back to its scope. -/
theorem inFrame_eq (r : Run α) (m : Machine) :
    inFrame r m = (r m.enterFrame).onMachine (·.backIn m.scope) := by
  obtain ⟨store, scope, callers, returned, output, readings⟩ := m
  unfold inFrame Machine.enterFrame
  dsimp only
  cases r ⟨store.allocFrame (some scope), store.nextFrame, callers, returned, output, readings⟩ <;>
    rfl

/-- What is run for a call comes to its end, and the call is left. -/
theorem inCall_eq (closure : FrameId) (r : Run α) (m : Machine) :
    inCall closure r m = (r (m.enterCall closure)).onMachine Machine.leaveCall := by
  unfold inCall
  cases r (m.enterCall closure) <;> rfl

theorem ends_inFrame {r : Run α} {result : α → Machine → Prop}
    {error : RuntimeError → Machine → Prop} {m : Machine} :
    (inFrame r m).Ends result error ↔
      (r m.enterFrame).Ends (fun value m' => result value (m'.backIn m.scope))
        (fun e m' => error e (m'.backIn m.scope)) := by
  rw [inFrame_eq, Outcome.ends_onMachine]

theorem ends_inCall {r : Run α} {closure : FrameId} {result : α → Machine → Prop}
    {error : RuntimeError → Machine → Prop} {m : Machine} :
    (inCall closure r m).Ends result error ↔
      (r (m.enterCall closure)).Ends (fun value m' => result value m'.leaveCall)
        (fun e m' => error e m'.leaveCall) := by
  rw [inCall_eq, Outcome.ends_onMachine]

/-! What comes to a value is put together from what comes to values. -/

theorem bind_eq_done {r : Run α} {f : α → Run β} {m m' : Machine} {value : β} :
    (r >>= f) m = .done value m' ↔ ∃ x m₁, r m = .done x m₁ ∧ f x m₁ = .done value m' := by
  show r.bind f m = _ ↔ _
  unfold Run.bind
  cases r m <;> simp [and_assoc]

theorem inFrame_eq_done {r : Run α} {m m' : Machine} {value : α} :
    inFrame r m = .done value m' ↔
      ∃ m₁, r m.enterFrame = .done value m₁ ∧ m₁.backIn m.scope = m' := by
  rw [inFrame_eq, Outcome.onMachine_eq_done]

theorem inCall_eq_done {r : Run α} {closure : FrameId} {m m' : Machine} {value : α} :
    inCall closure r m = .done value m' ↔
      ∃ m₁, r (m.enterCall closure) = .done value m₁ ∧ m₁.leaveCall = m' := by
  rw [inCall_eq, Outcome.onMachine_eq_done]

end Run

/-! ### Contracts -/

/-- What is promised of tasks. -/
structure Contract where
  /-- What holds when a task is started. -/
  before : Task → Machine → Prop
  /-- What holds of the result of a task, given the machine it was started on. -/
  result : (t : Task) → Machine → t.Result → Machine → Prop
  /-- What holds when a task ended with an error, given the machine it was started on. -/
  error : Task → Machine → RuntimeError → Machine → Prop

/-- A plan that is followed on a machine comes to a result or an error as it should be, if the tasks
that it starts keep a contract; and it starts them as the contract asks. -/
def Plan.Meets (C : Contract) : {α : Type} → Plan α → Machine → (α → Machine → Prop) →
    (RuntimeError → Machine → Prop) → Prop
  | _, act r, m, result, error => (r m).Ends result error
  | _, part t, m, result, error => C.before t m ∧
      (∀ value m', C.result t m value m' → result value m') ∧
      ∀ e m', C.error t m e m' → error e m'
  | _, andThen p next, m, result, error =>
      p.Meets C m (fun value m' => (next value).Meets C m' result error) error
  | _, inFrame p, m, result, error =>
      p.Meets C m.enterFrame (fun value m' => result value (m'.backIn m.scope))
        fun e m' => error e (m'.backIn m.scope)
  | _, inCall scope p, m, result, error =>
      p.Meets C (m.enterCall scope) (fun value m' => result value m'.leaveCall)
        fun e m' => error e m'.leaveCall

/-- A contract is kept if every plan keeps it. -/
def Contract.Kept (host : Host) (C : Contract) : Prop :=
  ∀ t m, C.before t m → (t.plan host).Meets C m (C.result t m) (C.error t m)

/-- A plan is followed as it should be if its parts are answered as the contract says. -/
theorem Plan.Meets.follow {C : Contract} {answer : (t : Task) → Run t.Result}
    (h : ∀ t m, C.before t m → (answer t m).Ends (C.result t m) (C.error t m)) :
    ∀ {α : Type} {p : Plan α} {m : Machine} {result : α → Machine → Prop}
      {error : RuntimeError → Machine → Prop}, p.Meets C m result error →
        (p.follow answer m).Ends result error := by
  intro α p
  induction p with
  | act r => exact fun hp => hp
  | part t =>
    rintro m result error ⟨hb, hr, he⟩
    exact (h t m hb).mono hr he
  | andThen p next ihp ihnext =>
    intro m result error hp
    exact Run.ends_bind.mpr ((ihp hp).mono (fun value m' hv => ihnext value hv) fun _ _ he => he)
  | inFrame p ih => exact fun hp => Run.ends_inFrame.mpr (ih hp)
  | inCall scope p ih => exact fun hp => Run.ends_inCall.mpr (ih hp)

/-- **A contract that is kept holds of every run**, under every bound. -/
theorem Contract.Kept.run {host : Host} {C : Contract} (h : C.Kept host) (n : Nat) (t : Task)
    (m : Machine) (hb : C.before t m) : (t.run host n m).Ends (C.result t m) (C.error t m) := by
  -- The tasks that a plan starts are run under a lower bound.
  induction n generalizing t m with
  | zero => rw [Task.run_zero]; trivial
  | succ n ih => rw [Task.run_succ]; exact (h t m hb).follow ih

/-! ### The moments of a run -/

/-- A task is started on a machine in the course of a plan. What comes behind a part of the plan
counts if the part ends with a value, under whatever bound. -/
def Plan.Starts (host : Host) : {α : Type} → Plan α → Machine → Task → Machine → Prop
  | _, act _, _, _, _ => False
  | _, part t, m, t', m' => t' = t ∧ m' = m
  | _, andThen p next, m, t', m' => p.Starts host m t' m' ∨
      ∃ n value m₁, p.follow (Task.run host n) m = .done value m₁ ∧
        (next value).Starts host m₁ t' m'
  | _, inFrame p, m, t', m' => p.Starts host m.enterFrame t' m'
  | _, inCall scope p, m, t', m' => p.Starts host (m.enterCall scope) t' m'

/-- A task and the machine it is started on. -/
structure Moment where
  /-- The task. -/
  task : Task
  /-- The machine. -/
  machine : Machine

namespace Moment

/-- The plan of one task starts another. -/
def Starts (host : Host) (a b : Moment) : Prop :=
  (a.task.plan host).Starts host a.machine b.task b.machine

/-- A task is started in the course of another, at whatever depth. -/
def Within (host : Host) : Moment → Moment → Prop :=
  Relation.ReflTransGen (Starts host)

end Moment

/-- A contract is kept at the moments of which `H` holds if their plans keep it. -/
def Contract.KeptAt (host : Host) (H : Moment → Prop) (C : Contract) : Prop :=
  ∀ t m, H ⟨t, m⟩ → C.before t m → (t.plan host).Meets C m (C.result t m) (C.error t m)

section
variable {host : Host} {C : Contract} {α : Type} {p : Plan α} {m m' : Machine} {t : Task}
  {result : α → Machine → Prop} {error : RuntimeError → Machine → Prop}

/-- A plan is followed as it should be if the tasks that are really started in its course are run as
the contract says. -/
theorem Plan.Meets.follow_of_starts {n : Nat} (hp : p.Meets C m result error)
    (h : ∀ t m', p.Starts host m t m' → C.before t m' →
      (t.run host n m').Ends (C.result t m') (C.error t m')) :
    (p.follow (Task.run host n) m).Ends result error := by
  induction p generalizing m error with
  | act r => exact hp
  | part t => exact (h t m ⟨rfl, rfl⟩ hp.1).mono hp.2.1 hp.2.2
  | andThen p next ihp ihnext =>
    have hfirst := ihp hp fun t m' hs => h t m' (.inl hs)
    refine Run.ends_bind.mpr ?_
    cases hr : p.follow (Task.run host n) m with
    | done value m₁ =>
      rw [hr] at hfirst
      exact ihnext value hfirst fun t m' hs => h t m' (.inr ⟨n, value, m₁, hr, hs⟩)
    | failed e m₁ =>
      rw [hr] at hfirst
      exact hfirst
    | unfinished => trivial
  | inFrame p ih => exact Run.ends_inFrame.mpr (ih hp h)
  | inCall scope p ih => exact Run.ends_inCall.mpr (ih hp h)

/-- A task is started as the contract asks if those in front of it are run as the contract says. -/
theorem Plan.Meets.before_of_ends (hp : p.Meets C m result error)
    (h : ∀ n t m', p.Starts host m t m' → C.before t m' →
      (t.run host n m').Ends (C.result t m') (C.error t m'))
    (hs : p.Starts host m t m') : C.before t m' := by
  induction p generalizing m error with
  | act r => exact hs.elim
  | part t =>
    obtain ⟨rfl, rfl⟩ := hs
    exact hp.1
  | andThen p next ihp ihnext =>
    obtain hs | ⟨n, value, m₁, hd, hs⟩ := hs
    · exact ihp hp (fun n t m' hs => h n t m' (.inl hs)) hs
    -- The first part ended with the value, so the rest meets its demands on the machine left.
    · have hv := Plan.Meets.follow_of_starts (p := p) hp fun t m' hs => h n t m' (.inl hs)
      rw [hd] at hv
      exact ihnext value hv (fun n' t m' hs => h n' t m' (.inr ⟨n, value, m₁, hd, hs⟩)) hs
  | inFrame p ih => exact ih hp h hs
  | inCall scope p ih => exact ih hp h hs

theorem Plan.Meets.before_of_starts (h : C.Kept host) (hp : p.Meets C m result error)
    (hs : p.Starts host m t m') : C.before t m' :=
  hp.before_of_ends (fun n t m' _ => h.run n t m') hs

end

/-- **A contract that is kept at all moments of a run holds of the run.** -/
theorem Contract.KeptAt.run {host : Host} {H : Moment → Prop} {C : Contract} (h : C.KeptAt host H)
    (hH : ∀ a b, H a → a.Starts host b → H b) (n : Nat) (t : Task) (m : Machine) (ha : H ⟨t, m⟩)
    (hb : C.before t m) : (t.run host n m).Ends (C.result t m) (C.error t m) := by
  induction n generalizing t m with
  | zero => rw [Task.run_zero]; trivial
  | succ n ih =>
    rw [Task.run_succ]
    exact (h t m ha hb).follow_of_starts fun t' m' hs => ih t' m' (hH ⟨t, m⟩ ⟨t', m'⟩ ha hs)

/-- Such a contract is met at every moment of the run. -/
theorem Contract.KeptAt.before {host : Host} {H : Moment → Prop} {C : Contract}
    (h : C.KeptAt host H) (hH : ∀ a b, H a → a.Starts host b → H b) {a b : Moment}
    (hab : a.Within host b) (ha : H a) (hb : C.before a.task a.machine) :
    C.before b.task b.machine := by
  suffices hboth : H b ∧ C.before b.task b.machine from hboth.2
  induction hab with
  | refl => exact ⟨ha, hb⟩
  | @tail b c _ hs ih =>
    refine ⟨hH b c ih.1 hs, (h _ _ ih.1 ih.2).before_of_ends (fun n t m' hs' => ?_) hs⟩
    exact h.run hH n t m' (hH b ⟨t, m'⟩ ih.1 hs')

/-- **A contract that is kept is met at every moment of a run**: every task is started as the
contract asks. -/
theorem Contract.Kept.before {host : Host} {C : Contract} (h : C.Kept host) {a b : Moment}
    (hab : a.Within host b) (hb : C.before a.task a.machine) : C.before b.task b.machine := by
  have hkept : C.KeptAt host fun _ => True := fun t m _ => h t m
  exact hkept.before (fun _ _ _ _ => trivial) hab trivial hb

end Lox
