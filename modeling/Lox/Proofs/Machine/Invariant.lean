import Lox.Proofs.Machine.Contract

/-!
# Invariants

An invariant is a contract of a simple form: it says what holds of the machine at all times, which
tasks are started, and what they yield. `Run.Keeps` and `Plan.Keeps` speak of one step and of one
plan, with one lemma for each way to put them together, and an invariant that the plans of all tasks
keep is a contract that is kept (`Invariant.contract_kept`).
-/

namespace Lox

/-- What holds at all times. -/
structure Invariant where
  /-- What holds of the machine whenever a task is started or has ended. -/
  holds : Machine → Prop
  /-- What holds of the tasks that are started. -/
  starts : Task → Prop
  /-- What holds of the result of a task. -/
  yields : (t : Task) → t.Result → Prop
  /-- The machine may enter a new frame. -/
  enterFrame {m : Machine} : holds m → holds m.enterFrame
  /-- The machine may come back from a frame. -/
  backIn {m : Machine} (scope : FrameId) : holds m → holds (m.backIn scope)
  /-- The machine may enter a call. -/
  enterCall {m : Machine} (scope : FrameId) : holds m → holds (m.enterCall scope)
  /-- The machine may come back from a call. -/
  leaveCall {m : Machine} : holds m → holds m.leaveCall

variable {α β : Type}

/-- Demands on an outcome that are met one by one are met together. -/
theorem Outcome.Ends.forall {ι : Type} {A : ι → Prop} {o : Outcome α}
    {result : ι → α → Machine → Prop} {error : RuntimeError → Machine → Prop} (hne : ∃ i, A i)
    (h : ∀ i, A i → o.Ends (result i) error) :
    o.Ends (fun value m => ∀ i, A i → result i value m) error := by
  obtain ⟨i₀, h₀⟩ := hne
  cases o with
  | done value m => exact h
  | failed e m => exact h i₀ h₀
  | unfinished => trivial

/-! ### Steps -/

namespace Run

variable {H : Machine → Prop} {Q : α → Prop} {Q' : β → Prop}

/-- A step leaves a machine of which `H` holds if it is taken on one, and its value is as it should
be. -/
def Keeps (H : Machine → Prop) (r : Run α) (Q : α → Prop) : Prop :=
  ∀ m, H m → (r m).Ends (fun value m' => Q value ∧ H m') fun _ m' => H m'

theorem keeps_pure {value : α} (h : Q value) : Keeps H (pure value) Q :=
  fun _ hm => ⟨h, hm⟩

theorem keeps_fault (t : Token) (cause : RuntimeFault) : Keeps H (fault t cause) Q :=
  fun _ hm => hm

theorem keeps_look {f : Machine → α} (h : ∀ m, H m → Q (f m)) : Keeps H (look f) Q :=
  fun m hm => ⟨h m hm, hm⟩

theorem keeps_see (f : Machine → α) : Keeps H (look f) fun _ => True :=
  keeps_look fun _ _ => trivial

theorem Keeps.bind {r : Run α} {f : α → Run β} (hr : Keeps H r Q)
    (hf : ∀ value, Q value → Keeps H (f value) Q') : Keeps H (r >>= f) Q' := by
  intro m hm
  refine ends_bind.mpr ((hr m hm).mono (fun value m' h => ?_) fun _ _ h => h)
  exact hf value h.1 m' h.2

end Run

/-! ### Plans -/

namespace Invariant

/-- The contract of an invariant. -/
def contract (I : Invariant) : Contract where
  before t m := I.starts t ∧ I.holds m
  result t _ value m' := I.yields t value ∧ I.holds m'
  error _ _ _ m' := I.holds m'

end Invariant

namespace Plan

variable {I : Invariant} {Q : α → Prop} {Q' : β → Prop}

/-- A plan keeps an invariant and comes to a value as it should be, if the tasks that it starts
do. -/
def Keeps (I : Invariant) (p : Plan α) (Q : α → Prop) : Prop :=
  ∀ m, I.holds m →
    p.Meets I.contract m (fun value m' => Q value ∧ I.holds m') fun _ m' => I.holds m'

theorem keeps_act {r : Run α} (h : r.Keeps I.holds Q) : Keeps I (.act r) Q :=
  h

theorem keeps_part {t : Task} (h : I.starts t) : Keeps I (.part t) (I.yields t) :=
  fun _ hm => ⟨⟨h, hm⟩, fun _ _ hr => hr, fun _ _ he => he⟩

theorem Meets.mono {C : Contract} {p : Plan α} {m : Machine} {result result' : α → Machine → Prop}
    {error error' : RuntimeError → Machine → Prop} (h : p.Meets C m result error)
    (hr : ∀ value m', result value m' → result' value m')
    (he : ∀ e m', error e m' → error' e m') : p.Meets C m result' error' := by
  induction p generalizing m error error' with
  | act r => exact Outcome.Ends.mono h hr he
  | part t =>
    obtain ⟨hb, hresult, herror⟩ := h
    exact ⟨hb, fun v m' hv => hr v m' (hresult v m' hv), fun e m' hm => he e m' (herror e m' hm)⟩
  | andThen p next ihp ihnext =>
    exact ihp h (fun value m' hv => ihnext value hv hr he) he
  | inFrame p ih => exact ih h (fun v m' hv => hr v _ hv) fun e m' hm => he e _ hm
  | inCall scope p ih => exact ih h (fun v m' hv => hr v _ hv) fun e m' hm => he e _ hm

/-- Demands that are met one by one are met together. -/
theorem Meets.forall {ι : Type} {A : ι → Prop} {C : Contract} {p : Plan α} {m : Machine}
    {result : ι → α → Machine → Prop} {error : RuntimeError → Machine → Prop} (hne : ∃ i, A i)
    (h : ∀ i, A i → p.Meets C m (result i) error) :
    p.Meets C m (fun value m' => ∀ i, A i → result i value m') error := by
  induction p generalizing m error with
  | act r => exact Outcome.Ends.forall hne h
  | part t =>
    obtain ⟨i₀, h₀⟩ := hne
    exact ⟨(h i₀ h₀).1, fun value m' hv i hi => (h i hi).2.1 value m' hv, (h i₀ h₀).2.2⟩
  | andThen p next ihp ihnext =>
    exact (ihp h).mono (fun value m' hv => ihnext value hv) fun _ _ he => he
  | inFrame p ih => exact ih h
  | inCall scope p ih => exact ih h

/-- What each of several assumptions says of the value of a plan, all of them say together. -/
theorem Keeps.forall {ι : Type} {A : ι → Prop} {p : Plan α} {Q : ι → α → Prop} (hne : ∃ i, A i)
    (h : ∀ i, A i → p.Keeps I (Q i)) : p.Keeps I fun value => ∀ i, A i → Q i value := by
  intro m hm
  have hall := Meets.forall hne fun i hi => h i hi m hm
  refine hall.mono (fun value m' hv => ?_) fun _ _ he => he
  obtain ⟨i₀, h₀⟩ := hne
  exact ⟨fun i hi => (hv i hi).1, (hv i₀ h₀).2⟩

theorem Keeps.mono {p : Plan α} {Q₁ : α → Prop} (h : p.Keeps I Q₁)
    (hQ : ∀ value, Q₁ value → Q value) : p.Keeps I Q :=
  fun m hm => (h m hm).mono (fun value _ hv => ⟨hQ value hv.1, hv.2⟩) fun _ _ he => he

theorem Keeps.andThen {p : Plan α} {next : α → Plan β} (hp : p.Keeps I Q)
    (hnext : ∀ value, Q value → (next value).Keeps I Q') : Keeps I (p >>= next) Q' :=
  fun m hm => (hp m hm).mono (fun value m' h => hnext value h.1 m' h.2) fun _ _ he => he

theorem Keeps.inFrame {p : Plan α} (h : p.Keeps I Q) : Keeps I (.inFrame p) Q :=
  fun m hm => (h _ (I.enterFrame hm)).mono (fun _ _ hv => ⟨hv.1, I.backIn m.scope hv.2⟩)
    fun _ _ he => I.backIn m.scope he

theorem Keeps.inCall {p : Plan α} {scope : FrameId} (h : p.Keeps I Q) :
    Keeps I (.inCall scope p) Q :=
  fun _ hm => (h _ (I.enterCall scope hm)).mono
    (fun _ _ hv => ⟨hv.1, I.leaveCall hv.2⟩) fun _ _ he => I.leaveCall he

end Plan

namespace Invariant

variable {I : Invariant} {host : Host}

/-- The plans of all tasks keep the invariant. -/
def Kept (host : Host) (I : Invariant) : Prop :=
  ∀ t, I.starts t → (t.plan host).Keeps I (I.yields t)

/-- **An invariant that the plans keep is a contract that is kept.** -/
theorem contract_kept (h : I.Kept host) : I.contract.Kept host :=
  fun t m hb => h t hb.1 m hb.2

/-- A task that may be started keeps the invariant, under every bound. -/
theorem Kept.run (h : I.Kept host) (n : Nat) {t : Task} (ht : I.starts t) :
    (t.run host n).Keeps I.holds (I.yields t) :=
  fun m hm => (contract_kept h).run n t m ⟨ht, hm⟩

/-- A plan that keeps the invariant does so when its parts are run. -/
theorem Kept.follow (h : I.Kept host) (n : Nat) {p : Plan α} {Q : α → Prop} (hp : p.Keeps I Q) :
    (p.follow (Task.run host n)).Keeps I.holds Q :=
  fun m hm => (hp m hm).follow ((contract_kept h).run n)

/-- At every moment of a run the invariant holds. -/
theorem Kept.moment (h : I.Kept host) {a b : Moment} (hab : a.Within host b)
    (ht : I.starts a.task) (hm : I.holds a.machine) : I.starts b.task ∧ I.holds b.machine :=
  (contract_kept h).before hab ⟨ht, hm⟩

end Invariant

end Lox
