import Lox.Proofs.Machine.Step

/-!
# What programs uphold

A statement about the machine at the start and at the end of a run is proved step by step: if it
survives the basic steps, the binding of methods, frames and calls, then it survives every run.
`Upheld` is for programs with a trait and for statements that hold only where steps may be taken at
all; `Respected` is for preorders that all programs respect on all machines.
-/

namespace Lox

variable {α : Type} {host : Host}

/-- Programs with a trait uphold `P` and `R`: whenever a step is taken `P` holds of the machine, and
afterwards the machine compares by `R` with the machine before. Nothing need hold between the entry
of a call and that of the frame of its body, where no step is taken. -/
structure Upheld (q : Trait) (host : Host) (P : Machine → Prop) (R : Machine → Machine → Prop) :
    Prop where
  /-- A machine compares with itself. -/
  refl {m : Machine} : P m → R m m
  /-- Comparisons can be put one after another. -/
  trans {a b c : Machine} : R a b → R b c → R a c
  /-- The next step may be taken. -/
  after {m m' : Machine} : R m m' → P m'
  /-- A basic step leaves a machine that compares with the one it started on. -/
  basic {E : Effects} {α : Type} {r : Run α} {m : Machine} :
    Run.IsBasic q host E r → P m → (r m).Leaves (R m)
  /-- So does the binding of a method. -/
  bindMethod (method : Closure) (id : ObjectId) {m : Machine} :
    P m → (Run.bindMethod method (.object id) m).Leaves (R m)
  /-- Steps may be taken in a new frame. -/
  enterFrame {m : Machine} : P m → P m.enterFrame
  /-- What is done in a new frame leaves a machine that compares. -/
  backIn {m m' : Machine} : P m → R m.enterFrame m' → R m (m'.backIn m.scope)
  /-- Steps may be taken in the frame of a body. -/
  enterCall {m : Machine} (scope : FrameId) : P m → P (m.enterCall scope).enterFrame
  /-- What a body does leaves a machine that compares, once the frame and the call are left. -/
  leaveCall {m m' : Machine} {scope : FrameId} :
    P m → R (m.enterCall scope).enterFrame m' → R m (m'.backIn scope).leaveCall

/-- A contract that asks for `P` whenever a task is started, and for `R` when it has ended. -/
def Contract.along (C : Contract) (P : Machine → Prop) (R : Machine → Machine → Prop) :
    Contract where
  before t m := C.before t m ∧ P m
  result t m value m' := C.result t m value m' ∧ R m m'
  error t m e m' := C.error t m e m' ∧ R m m'

theorem Outcome.Ends.and {o : Outcome α} {result result' : α → Machine → Prop}
    {error error' : RuntimeError → Machine → Prop} (h : o.Ends result error)
    (h' : o.Ends result' error') :
    o.Ends (fun value m => result value m ∧ result' value m) fun e m => error e m ∧ error' e m := by
  cases o with
  | done value m => exact ⟨h, h'⟩
  | failed e m => exact ⟨h, h'⟩
  | unfinished => trivial

namespace Upheld

variable {q : Trait} {E : Effects} {P : Machine → Prop} {R : Machine → Machine → Prop}

theorem step (h : Upheld q host P R) {r : Run α} (hr : Run.IsStep q host E r) {m : Machine}
    (hm : P m) : (r m).Leaves (R m) := by
  induction hr generalizing m with
  | basic hb => exact h.basic hb hm
  | bind _ _ ihr ihf =>
    refine Run.ends_bind.mpr ((ihr hm).mono (fun value m₁ h₁ => ?_) fun _ _ h₁ => h₁)
    exact (ihf value (h.after h₁)).mono (fun _ _ => h.trans h₁) fun _ _ => h.trans h₁

theorem act (h : Upheld q host P R) {r : Run α} (hr : Run.IsAct q host E r) {m : Machine}
    (hm : P m) : (r m).Leaves (R m) := by
  induction hr with
  | step hr => exact h.step hr hm
  | bindMethod method id => exact h.bindMethod method id hm
  | look f _ ih => exact ih _
  | map _ f ih => exact Run.ends_bind.mpr ih

variable {C : Contract}

/-- A plan made of the steps listed that meets demands under a contract upholds `P` and `R` too, if
the tasks that it starts do. -/
theorem meets (h : Upheld q host P R) {p : Plan α} (hp : p.StepsOnly q host E) {m : Machine}
    (hm : P m) {result : α → Machine → Prop} {error : RuntimeError → Machine → Prop}
    (hmeets : p.Meets C m result error) :
    p.Meets (C.along P R) m (fun value m' => result value m' ∧ R m m')
      fun e m' => error e m' ∧ R m m' := by
  induction hp generalizing m error with
  | act hr => exact Outcome.Ends.and hmeets (h.act hr hm)
  | part _ =>
    obtain ⟨hb, hr, he⟩ := hmeets
    exact ⟨⟨hb, hm⟩, fun value m' h₁ => ⟨hr value m' h₁.1, h₁.2⟩,
      fun e m' h₁ => ⟨he e m' h₁.1, h₁.2⟩⟩
  | andThen _ _ ihp ihnext =>
    refine (ihp hm hmeets).mono (fun value m₁ h₁ => ?_) fun _ _ h₁ => h₁
    refine (ihnext value (h.after h₁.2) h₁.1).mono (fun v m₂ h₂ => ?_) fun e m₂ h₂ => ?_
    · exact ⟨h₂.1, h.trans h₁.2 h₂.2⟩
    · exact ⟨h₂.1, h.trans h₁.2 h₂.2⟩
  | inFrame _ ih =>
    exact (ih (h.enterFrame hm) hmeets).mono
      (fun _ _ h₁ => ⟨h₁.1, h.backIn hm h₁.2⟩) fun _ _ h₁ => ⟨h₁.1, h.backIn hm h₁.2⟩
  | inCall scope _ _ ih =>
    exact (ih (h.enterCall scope hm) hmeets).mono
      (fun _ _ h₁ => ⟨h₁.1, h.leaveCall hm h₁.2⟩) fun _ _ h₁ => ⟨h₁.1, h.leaveCall hm h₁.2⟩

/-- The contract under which programs with the trait uphold `P` and `R`. -/
theorem kept (h : Upheld q host P R) : (q.invariant.contract.along P R).Kept host := by
  intro t m hb
  have hmeets := Invariant.contract_kept (q.invariant_kept host) t m hb.1
  exact h.meets (Task.stepsOnly_plan host hb.1.1) hb.2 hmeets

/-- A plan whose parts are run upholds `P` and `R`. -/
theorem follow (h : Upheld q host P R) (n : Nat) {p : Plan α} (hp : p.StepsOnly q host E)
    {m : Machine} (hm : P m) {result : α → Machine → Prop} {error : RuntimeError → Machine → Prop}
    (hmeets : p.Meets q.invariant.contract m result error) :
    (p.follow (Task.run host n) m).Ends (fun value m' => result value m' ∧ R m m')
      fun e m' => error e m' ∧ R m m' :=
  (h.meets hp hm hmeets).follow (h.kept.run n)

end Upheld

/-! ### All programs -/

/-- The contract that demands nothing. -/
def Contract.idle : Contract where
  before _ _ := True
  result _ _ _ _ := True
  error _ _ _ _ := True

theorem Plan.meets_idle (p : Plan α) (m : Machine) {result : α → Machine → Prop}
    {error : RuntimeError → Machine → Prop} (hr : ∀ value m', result value m')
    (he : ∀ e m', error e m') : p.Meets .idle m result error := by
  induction p generalizing m error with
  | act r =>
    show (r m).Ends result error
    cases r m with
    | done value m' => exact hr value m'
    | failed e m' => exact he e m'
    | unfinished => trivial
  | part t => exact ⟨trivial, fun value m' _ => hr value m', fun e m' _ => he e m'⟩
  | andThen p next ihp ihnext => exact ihp m (fun value m' => ihnext value m' hr he) he
  | inFrame p ih => exact ih _ (fun value _ => hr value _) fun e _ => he e _
  | inCall scope p ih => exact ih _ (fun value _ => hr value _) fun e _ => he e _

namespace Upheld

variable {E : Effects} {P : Machine → Prop} {R : Machine → Machine → Prop}

/-- What programs uphold whatever their names and tokens are holds of every run. -/
theorem kept_any (h : Upheld .any host P R) : (Contract.idle.along P R).Kept host := by
  intro t m hb
  have hidle : (t.plan host).Meets .idle m (fun _ _ => True) fun _ _ => True :=
    (t.plan host).meets_idle m (fun _ _ => trivial) fun _ _ => trivial
  exact h.meets (t.stepsOnly_any host) hb.2 hidle

theorem run_any (h : Upheld .any host P R) (n : Nat) (t : Task) {m : Machine} (hm : P m) :
    (t.run host n m).Leaves (R m) := by
  have hends := h.kept_any.run n t m ⟨trivial, hm⟩
  exact hends.mono (fun _ _ h₁ => h₁.2) fun _ _ h₁ => h₁.2

/-- The same holds of a plan whose parts are run. -/
theorem follow_any (h : Upheld .any host P R) (n : Nat) {p : Plan α}
    (hp : p.StepsOnly .any host E) {m : Machine} (hm : P m) :
    (p.follow (Task.run host n) m).Leaves (R m) := by
  have hidle : p.Meets .idle m (fun _ _ => True) fun _ _ => True :=
    p.meets_idle m (fun _ _ => trivial) fun _ _ => trivial
  have hends := (h.meets hp hm hidle).follow (h.kept_any.run n)
  exact hends.mono (fun _ _ h₁ => h₁.2) fun _ _ h₁ => h₁.2

end Upheld

/-! ### Preorders -/

/-- A preorder on machines that basic steps, frames and calls respect. -/
structure Respected (host : Host) (R : Machine → Machine → Prop) : Prop where
  /-- A machine compares with itself. -/
  refl (m : Machine) : R m m
  /-- Comparisons can be put one after another. -/
  trans {a b c : Machine} : R a b → R b c → R a c
  /-- A basic step leaves a machine that compares with the one it started on. -/
  basic {E : Effects} {α : Type} {r : Run α} :
    Run.IsBasic .any host E r → ∀ m, (r m).Leaves (R m)
  /-- So does the binding of a method. -/
  bindMethod (method : Closure) (id : ObjectId) (m : Machine) :
    (Run.bindMethod method (.object id) m).Leaves (R m)
  /-- So does what is done in a new frame. -/
  inFrame {m m' : Machine} : R m.enterFrame m' → R m (m'.backIn m.scope)
  /-- So does the body of a call, once the call is left. -/
  inCall {m m' : Machine} {scope : FrameId} : R (m.enterCall scope) m' → R m m'.leaveCall

namespace Respected

variable {E : Effects} {R : Machine → Machine → Prop}

/-- What all programs respect on all machines is upheld by them. -/
theorem upheld (h : Respected host R) : Upheld .any host (fun _ => True) R where
  refl _ := h.refl _
  trans := h.trans
  after _ := trivial
  basic hb _ := h.basic hb _
  bindMethod method id {m} _ := h.bindMethod method id m
  enterFrame _ := trivial
  backIn _ := h.inFrame
  enterCall _ _ := trivial
  -- The body of a call is followed in a frame of its own.
  leaveCall {m m' scope} _ hm := by
    have hin : R (m.enterCall scope) (m'.backIn scope) := h.inFrame hm
    exact h.inCall hin

theorem step (h : Respected host R) {r : Run α} (hr : Run.IsStep .any host E r) (m : Machine) :
    (r m).Leaves (R m) :=
  h.upheld.step hr trivial

/-- **What steps, frames and calls respect holds of every run**: the machine at the end compares
with the machine at the start, whether the run ends with a result or with an error. -/
theorem run (h : Respected host R) (n : Nat) (t : Task) (m : Machine) :
    (t.run host n m).Leaves (R m) :=
  h.upheld.run_any n t trivial

/-- The same holds of a plan whose parts are run. -/
theorem follow (h : Respected host R) (n : Nat) {p : Plan α} (hp : p.StepsOnly .any host E)
    (m : Machine) : (p.follow (Task.run host n) m).Leaves (R m) :=
  h.upheld.follow_any n hp trivial

end Respected

end Lox
