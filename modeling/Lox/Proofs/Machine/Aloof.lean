import Lox.Proofs.Machine.Step

/-!
# Steps that leave parts of the machine alone

Few steps of a program have to do with its output or with the value of the last `return`, and the
effects of a task tell which. Of the callers, steps see how many there are and no more. So steps
are **aloof** from these parts of the machine: they do the same whatever is put in their place, and
leave what is put there as it is (`Run.IsAct.aloof`).
-/

namespace Lox

variable {α β : Type} {q : Trait} {host : Host} {E : Effects}

/-- Other contents of three parts of the machine, each made from what is there. -/
structure Refit where
  /-- The output. -/
  output : Channel → Channel
  /-- The value of the last `return`. -/
  returned : Value → Value
  /-- The callers. -/
  callers : List FrameId → List FrameId
  /-- There are as many callers. -/
  length (scopes : List FrameId) : (callers scopes).length = scopes.length

namespace Refit

/-- The output is left to a function, and all else as it is. -/
def ofOutput (f : Channel → Channel) : Refit :=
  ⟨f, id, id, fun _ => rfl⟩

/-- The value of the last `return` is another one, and all else is as it is. -/
def ofReturned (value : Value) : Refit :=
  ⟨id, fun _ => value, id, fun _ => rfl⟩

/-- The callers are others, where there are as many. -/
def ofCallers (callers : List FrameId) : Refit where
  output := id
  returned := id
  callers scopes := if scopes.length = callers.length then callers else scopes
  length scopes := by
    split
    · rename_i h
      exact h.symm
    · rfl

end Refit

/-- The machine with other contents of three parts. -/
def Machine.refit (k : Refit) (m : Machine) : Machine :=
  { m with
    output := k.output m.output
    returned := k.returned m.returned
    callers := k.callers m.callers }

/-- Effects that have to do only with parts that are left as they are. -/
structure Effects.Spare (E : Effects) (k : Refit) : Prop where
  /-- The output is written to only if it is left as it is. -/
  output : E.prints → k.output = id
  /-- The value of the last `return` is set or taken only if it is left as it is. -/
  returned : E.calls ∨ E.returns → k.returned = id

/-- A run that does the same whatever the contents of three parts of the machine are, and leaves
them as they are. -/
def Run.Aloof (k : Refit) (r : Run α) : Prop :=
  ∀ m, r (m.refit k) = (r m).onMachine (·.refit k)

namespace Run

variable {k : Refit}

theorem Aloof.bind {r : Run α} {f : α → Run β} (hr : r.Aloof k) (hf : ∀ value, (f value).Aloof k) :
    (r >>= f).Aloof k := by
  intro m
  show r.bind f (m.refit k) = (r.bind f m).onMachine _
  unfold Run.bind
  rw [hr m]
  cases r m with
  | done value m' => exact hf value m'
  | failed e m' => rfl
  | unfinished => rfl

theorem aloof_look (k : Refit) (f : Store → FrameId → Nat → α) :
    (look fun m => f m.store m.scope m.depth).Aloof k := by
  intro m
  have hdepth : (m.refit k).depth = m.depth := k.length m.callers
  show Outcome.done (f m.store m.scope (m.refit k).depth) (m.refit k) = _
  rw [hdepth]
  rfl

theorem IsBasic.aloof {r : Run α} (h : IsBasic q host E r) (hE : E.Spare k) : r.Aloof k := by
  cases h with
  | look f => exact aloof_look k f
  | printLine hprints text =>
    intro m
    unfold Run.printLine Machine.refit
    rw [hE.output hprints]
    dsimp only [id]
    split <;> rfl
  | setReturned hreturns value =>
    intro m
    unfold Run.setReturned Machine.refit Outcome.onMachine
    rw [hE.returned (.inr hreturns)]
    rfl
  | takeReturned hcalls =>
    intro m
    unfold Run.takeReturned Machine.refit Outcome.onMachine
    rw [hE.returned (.inl hcalls)]
    rfl
  | _ => exact fun _ => rfl

theorem IsStep.aloof {r : Run α} (h : IsStep q host E r) (hE : E.Spare k) : r.Aloof k := by
  induction h with
  | basic hb => exact hb.aloof hE
  | bind _ _ ihr ihf => exact ihr.bind ihf

/-- **Steps are aloof from what their effects spare.** -/
theorem IsAct.aloof {r : Run α} (h : IsAct q host E r) (hE : E.Spare k) : r.Aloof k := by
  induction h with
  | step h => exact h.aloof hE
  | bindMethod method id => exact fun _ => rfl
  | look f _ ih => exact (aloof_look k f).bind ih
  | map _ f ih => exact ih.bind fun _ _ => rfl

end Run

end Lox
