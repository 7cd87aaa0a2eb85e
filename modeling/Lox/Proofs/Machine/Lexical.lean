import Lox.Proofs.Machine.Aloof
import Lox.Proofs.Machine.Scope

/-!
# Scoping is lexical

A function sees the scope in which it was made and nothing of the scope from which it is called: a
call does the same, whatever the scope of the caller and of the callers of the caller, as long as
there are as many (`invoke_backAt`).

Steps see no more of the callers than how many there are, so two machines that differ in the callers
take the same steps (`Run.Lexical`). When a call is left the scope of the caller is taken from the
callers, and only there the two runs differ.
-/

namespace Lox

variable {α β : Type} {host : Host} {E : Effects}

/-- The outcome with the machine at another place. -/
def Outcome.backAt (scope : FrameId) (callers : List FrameId) : Outcome α → Outcome α
  | done value m => done value (m.backAt scope callers)
  | failed e m => failed e (m.backAt scope callers)
  | unfinished => unfinished

theorem Outcome.backAt_eq (scope : FrameId) (callers : List FrameId) (o : Outcome α) :
    o.backAt scope callers = o.onMachine (·.backAt scope callers) := by
  cases o <;> rfl

/-- The run does the same if it has other callers, as long as there are as many. -/
def Run.Lexical (r : Run α) : Prop :=
  ∀ m callers, callers.length = m.callers.length →
    r (m.backAt m.scope callers) = (r m).onMachine (·.backAt m.scope callers)

namespace Run

/-- Steps have to do with the number of callers only. -/
theorem IsAct.lexical {r : Run α} (h : IsAct .any host E r) : r.Lexical := by
  intro m callers hlength
  have hplace := (Machine.respected_samePlace host).upheld.act h trivial (m := m)
  have hrefit (m' : Machine) (hm' : m.SamePlace m') :
      m'.refit (.ofCallers callers) = m'.backAt m.scope callers := by
    have hsame : m'.callers.length = callers.length :=
      (congrArg List.length hm'.2).trans hlength.symm
    show { m' with callers := if _ then callers else m'.callers } = _
    rw [if_pos hsame, Machine.backAt, hm'.1]
  have hspare : E.Spare (.ofCallers callers) := ⟨fun _ => rfl, fun _ => rfl⟩
  rw [← hrefit m (.refl m), h.aloof hspare m]
  exact Outcome.onMachine_congr (hplace.mono (fun _ => hrefit) fun _ => hrefit)

theorem Lexical.bind {r : Run α} {f : α → Run β} (hr : r.Lexical)
    (hplace : ∀ m, (r m).Leaves m.SamePlace) (hf : ∀ value, (f value).Lexical) :
    (r.bind f).Lexical := by
  intro m callers hlength
  have hplace := hplace m
  unfold Run.bind
  rw [hr m callers hlength]
  cases hm : r m with
  | done value m' =>
    rw [hm] at hplace
    obtain ⟨hscope, hcallers⟩ := hplace
    have hrest := hf value m' callers (hlength.trans (congrArg List.length hcallers).symm)
    rwa [hscope] at hrest
  | failed e m' => rfl
  | unfinished => rfl

theorem Lexical.inFrame {r : Run α} (h : r.Lexical) : (Run.inFrame r).Lexical := by
  intro m callers hlength
  have hinside : r (m.backAt m.scope callers).enterFrame =
      (r m.enterFrame).onMachine (·.backAt m.store.nextFrame callers) :=
    h m.enterFrame callers hlength
  rw [inFrame_eq, inFrame_eq, hinside, Outcome.onMachine_onMachine, Outcome.onMachine_onMachine]
  rfl

/-- The body of a call does the same wherever the call is made, and the call is left there. -/
theorem Lexical.inCall {r : Run α} (h : r.Lexical) (closure : FrameId) (m : Machine)
    (scope : FrameId) {callers : List FrameId} (hlength : callers.length = m.callers.length) :
    Run.inCall closure r (m.backAt scope callers) =
      (Run.inCall closure r m).onMachine (·.backAt scope callers) := by
  have hinside : r ((m.backAt scope callers).enterCall closure) =
      (r (m.enterCall closure)).onMachine (·.backAt closure (scope :: callers)) :=
    h (m.enterCall closure) (scope :: callers) (congrArg (· + 1) hlength)
  rw [inCall_eq, inCall_eq, hinside, Outcome.onMachine_onMachine, Outcome.onMachine_onMachine]
  rfl

end Run

/-- A plan whose parts do the same does the same. -/
theorem Plan.StepsOnly.lexical {n : Nat} {p : Plan α} (hp : p.StepsOnly .any host E)
    (hparts : ∀ t : Task, (t.run host n).Lexical) : (p.follow (Task.run host n)).Lexical := by
  induction hp with
  | act hr => exact hr.lexical
  | part _ => exact hparts _
  | andThen hp _ ihp ihnext =>
    exact ihp.bind ((Machine.respected_samePlace host).follow n hp) ihnext
  | inFrame _ ih => exact ih.inFrame
  | inCall scope _ _ ih =>
    exact fun m callers hlength => ih.inFrame.inCall scope m m.scope hlength

theorem Task.lexical_run (host : Host) (n : Nat) (t : Task) : (t.run host n).Lexical := by
  induction n generalizing t with
  | zero =>
    rw [run_zero]
    exact fun _ _ _ => rfl
  | succ n ih =>
    rw [run_succ]
    exact (t.stepsOnly_any host).lexical ih

/-- **Scoping is lexical.** A call of a function comes to the same value or the same error, and
leaves the same frames, objects and output behind, whatever scope it is made from and whatever the
scopes of the callers are, as long as there are as many. -/
theorem invoke_backAt (host : Host) (n : Nat) (f : Closure) (paren : Token) (values : List Value)
    (m : Machine) (scope : FrameId) {callers : List FrameId}
    (h : callers.length = m.callers.length) :
    Run.invoke host n f paren values (m.backAt scope callers) =
      (Run.invoke host n f paren values m).backAt scope callers := by
  rw [Outcome.backAt_eq]
  cases n with
  | zero =>
    rw [Run.invoke]
    rfl
  | succ n =>
    have hbody : (Plan.inFrame (do
        Run.defineAll f.routine.parameters values
        Plan.execute f.routine.body)).Typed .any host .all True fun _ => True :=
      .inFrame (Plan.typed_ofBody trivial f.routine.has_any fun v _ => v.has_any)
    have hcall := (hbody.stepsOnly.lexical (Task.lexical_run host n)).inCall f.scope m scope h
    have hdepth : (m.backAt scope callers).depth = m.depth := h
    rw [← Plan.follow_ofInvoke]
    show (Plan.follow _ (if maxDepth ≤ (m.backAt scope callers).depth then _ else _)) _ =
      (Plan.follow _ (if maxDepth ≤ m.depth then _ else _) m).onMachine _
    rw [hdepth]
    split
    · rfl
    · -- Behind the call only the store and the value of the last `return` are looked at.
      show Run.bind (Run.inCall f.scope _) _ _ = (Run.bind (Run.inCall f.scope _) _ m).onMachine _
      unfold Run.bind
      rw [hcall]
      cases Run.inCall f.scope _ m with
      | done completion m' =>
        show Plan.follow _ (if f.isInitializer then _ else _) _ =
          (Plan.follow _ (if f.isInitializer then _ else _) m').onMachine _
        split
        · rfl
        · split <;> rfl
      | failed e m' => rfl
      | unfinished => rfl

/-- A function of the global scope that reads `x`, called from a frame that defines another `x` and
from the global scope. -/
theorem invoke_backAt_shadowed :
    let x : Token := ⟨.identifier, "x", 1⟩
    let f : Closure :=
      ⟨0, .mk [] (.jump ⟨.symbol .returnWord, "return", 1⟩ (some (.name x))), 0, false⟩
    let initial := Machine.initial (.ofLimit none)
    let m : Machine := { initial with
      store := ((initial.store.define 0 "x" (.text "global")).allocFrame (some 0)).define 1 "x"
        (.text "local")
      scope := 1
      callers := [0] }
    [1].length = m.callers.length ∧
      Run.invoke (.ofSeed 0 0) 9 f x [] (m.backAt 0 [1]) =
        (Run.invoke (.ofSeed 0 0) 9 f x [] m).backAt 0 [1] := by
  intro x f initial m
  have hlength : [1].length = m.callers.length := rfl
  exact ⟨hlength, invoke_backAt _ 9 f x [] m 0 hlength⟩

end Lox
