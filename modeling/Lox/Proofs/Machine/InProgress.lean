import Lox.Proofs.Machine.Construction
import Lox.Proofs.Machine.Terminate

/-!
# Calls in progress

The bodies that are in progress are counted along the tasks that start each other: what the run of a
function starts is its body (`Moment.Through`). At every moment of a session, and in each machine on
its way, the machine has as many callers as bodies are in progress, and there are at most 255.
A call that would enter one more body is refused, before anything but a new object and its frame
was made, and this happens to no other call. Between two runs of a session no call is in progress,
so each run may go as deep as the first (`call_depth_exact`).

Main definitions:

* `Moment.Through` — a task is started while bodies are in progress;
* `Plan.Sees` — the machines in the course of a plan, with the bodies that the plan has entered;
* `Session.InProgress` — the machines of a session, with the bodies in progress;
* `Run.Refuses` — a call fails for the number of calls in progress and enters no body.
-/

namespace Lox

variable {α : Type} {host : Host} {output : Channel}

/-! ### Bodies in progress -/

/-- The second task is started in the course of the first one, at whatever depth, and between them
lie the bodies of `k` functions that were called and have not come to their ends. -/
inductive Moment.Through (host : Host) (a : Moment) : Nat → Moment → Prop where
  /-- Where the first task is started no body was entered. -/
  | start : Through host a 0 a
  /-- Tasks start parts of themselves. -/
  | part {k : Nat} {b c : Moment} (h : Through host a k b) (hb : ¬ b.task.IsInvoke)
      (hs : b.Starts host c) : Through host a k c
  /-- The run of a function starts its body. -/
  | body {k : Nat} {b c : Moment} (h : Through host a k b) (hb : b.task.IsInvoke)
      (hs : b.Starts host c) : Through host a (k + 1) c

/-- In the course of a plan that is followed on the machine `m`, the machine is `m'` at some point
while `k` bodies are executed that the plan itself has entered. Of its parts only the starts and the
ends count. -/
def Plan.Sees (host : Host) : {α : Type} → Plan α → Machine → Nat → Machine → Prop
  | _, act r, m, k, m' => k = 0 ∧ (m' = m ∨ (r m).Stops m')
  | _, part t, m, k, m' => k = 0 ∧ (m' = m ∨ ∃ n, (t.run host n m).Stops m')
  | _, andThen p next, m, k, m' => p.Sees host m k m' ∨
      ∃ n value m₁, p.follow (Task.run host n) m = .done value m₁ ∧
        (next value).Sees host m₁ k m'
  | _, inFrame p, m, k, m' => p.Sees host m.enterFrame k m' ∨
      k = 0 ∧ (m' = m ∨ ∃ n, ((inFrame p).follow (Task.run host n) m).Stops m')
  | _, inCall scope p, m, k, m' => (∃ j, p.Sees host (m.enterCall scope) j m' ∧ k = j + 1) ∨
      k = 0 ∧ (m' = m ∨ ∃ n, ((inCall scope p).follow (Task.run host n) m).Stops m')

namespace Session

/-- A task is started in a session while `k` bodies are in progress. -/
def During (host : Host) (output : Channel) (k : Nat) (a : Moment) : Prop :=
  ∃ s source stmt m, Reaches host (.initial output) s ∧ s.Executes host source stmt m ∧
    Moment.Through host ⟨.execute stmt, m⟩ k a

/-- A machine of a session, at a point where `k` bodies are in progress. -/
def InProgress (host : Host) (output : Channel) (k : Nat) (m : Machine) : Prop :=
  ∃ i j a, During host output i a ∧ (a.task.plan host).Sees host a.machine j m ∧ k = i + j

end Session

/-! ### The machines that a plan sees -/

namespace Plan

variable {E : Effects} {p : Plan α} {m m' : Machine} {k : Nat}

/-- A machine has one caller more for each body that was entered. -/
theorem Sees.depth_eq (h : p.Sees host m k m') (hp : p.StepsOnly .any host E) :
    m'.depth = m.depth + k := by
  have hrespected := Machine.respected_samePlace host
  have hsame {α : Type} {r : Run α} {m m' : Machine} (hr : (r m).Leaves m.SamePlace)
      (h : m' = m ∨ (r m).Stops m') : m'.depth = m.depth := by
    obtain rfl | h := h
    · rfl
    · exact congrArg List.length (hr.of_stops h).2
  have hfollow {E : Effects} {α : Type} {p : Plan α} {m m' : Machine}
      (hp : p.StepsOnly .any host E)
      (h : m' = m ∨ ∃ n, (p.follow (Task.run host n) m).Stops m') : m'.depth = m.depth := by
    obtain rfl | ⟨n, h⟩ := h
    · rfl
    · exact hsame (hrespected.follow n hp m) (.inr h)
  induction hp generalizing m m' k with
  | act hr =>
    obtain ⟨rfl, h⟩ := h
    exact hsame (hrespected.upheld.act hr trivial) h
  | part hpart =>
    obtain ⟨rfl, h⟩ := h
    exact hfollow (.part hpart) h
  | andThen hp _ ihp ihnext =>
    obtain h | ⟨n, value, m₁, hdone, h⟩ := h
    · exact ihp h
    · rw [ihnext value h, hfollow hp (.inr ⟨n, .inl ⟨value, hdone⟩⟩)]
  | inFrame hp ih =>
    obtain h | ⟨rfl, h⟩ := h
    · have hin : m'.depth = m.enterFrame.depth + k := ih h
      exact hin
    · exact hfollow hp.inFrame h
  | inCall scope hcalls hp ih =>
    obtain ⟨j, h, rfl⟩ | ⟨rfl, h⟩ := h
    · -- The body is followed in a frame of its own, and the call has one caller more.
      have hin : m'.depth = (m.enterCall scope).depth + j := by
        obtain h | ⟨rfl, h⟩ := h
        · have hbody : m'.depth = (m.enterCall scope).enterFrame.depth + j := ih h
          exact hbody
        · exact hfollow hp.inFrame h
      rw [hin, Nat.add_comm j 1, ← Nat.add_assoc]
      rfl
    · exact hfollow (.inCall scope hcalls hp) h

/-- A plan without calls enters no body. -/
theorem Sees.eq_zero (h : p.Sees host m k m') (hp : p.StepsOnly .any host E)
    (hE : ¬ E.calls) : k = 0 := by
  induction hp generalizing m k with
  | act _ => exact h.1
  | part _ => exact h.1
  | andThen _ _ ihp ihnext =>
    obtain h | ⟨n, value, m₁, -, h⟩ := h
    · exact ihp h hE
    · exact ihnext value h hE
  | inFrame _ ih =>
    obtain h | ⟨rfl, -⟩ := h
    · exact ih h hE
    · rfl
  | inCall _ hcalls => exact absurd hcalls hE

/-- The run of a function enters one body, if there may be one more. -/
theorem sees_ofInvoke {f : Closure} {paren : Token} {values : List Value}
    (h : (ofInvoke f paren values).Sees host m k m') : k = 0 ∨ k = 1 ∧ m.depth < maxDepth := by
  obtain ⟨rfl, -⟩ | ⟨n, depth, m₁, hdone, h⟩ := h
  · exact .inl rfl
  obtain ⟨rfl, rfl⟩ := Outcome.done.inj hdone
  dsimp only at h
  split at h
  · exact .inl h.1
  · rename_i hdepth
    obtain h | ⟨n, completion, m₁, -, h⟩ := h
    · obtain ⟨j, h, rfl⟩ | ⟨rfl, -⟩ := h
      · -- The body is executed in a frame, without another call.
        have hbody : (inFrame (do
            Run.defineAll f.routine.parameters values
            execute f.routine.body) : Plan Completion).StepsOnly .any host ⟨False, True, True, True⟩ :=
          .inFrame (.andThen (.act (.step (.defineAll trivial (fun _ _ => trivial) values))) fun _ =>
            .part (.inl trivial))
        exact .inr ⟨congrArg (· + 1) (h.eq_zero hbody id), Nat.lt_of_not_le hdepth⟩
      · exact .inl rfl
    -- Behind the body there are steps only.
    · dsimp only at h
      split at h
      · exact .inl h.1
      · split at h <;> exact .inl h.1

/-- A plan sees the machines on which it starts tasks. -/
theorem Starts.sees {t : Task} (h : p.Starts host m t m') : ∃ k, p.Sees host m k m' := by
  induction p generalizing m with
  | act r => exact h.elim
  | part t => exact ⟨0, rfl, .inl h.2⟩
  | andThen p next ihp ihnext =>
    obtain h | ⟨n, value, m₁, hdone, h⟩ := h
    · obtain ⟨k, h⟩ := ihp h
      exact ⟨k, .inl h⟩
    · obtain ⟨k, h⟩ := ihnext value h
      exact ⟨k, .inr ⟨n, value, m₁, hdone, h⟩⟩
  | inFrame p ih =>
    obtain ⟨k, h⟩ := ih h
    exact ⟨k, .inl h⟩
  | inCall scope p ih =>
    obtain ⟨k, h⟩ := ih h
    exact ⟨k + 1, .inl ⟨k, h, rfl⟩⟩

/-- What a plan starts in the course of which no call is made has the same number of callers. -/
theorem Starts.depth_eq {t : Task} (h : p.Starts host m t m')
    (hp : p.StepsOnly .any host E) (hE : ¬ E.calls) : m'.depth = m.depth := by
  obtain ⟨k, hsees⟩ := Starts.sees h
  have hdepth := hsees.depth_eq hp
  rwa [hsees.eq_zero hp hE] at hdepth

/-- A plan sees the machine that it is followed on. -/
theorem sees_first (p : Plan α) (m : Machine) : p.Sees host m 0 m := by
  induction p generalizing m with
  | act r => exact ⟨rfl, .inl rfl⟩
  | part t => exact ⟨rfl, .inl rfl⟩
  | andThen p next ihp _ => exact .inl (ihp m)
  | inFrame p _ => exact .inr ⟨rfl, .inl rfl⟩
  | inCall scope p _ => exact .inr ⟨rfl, .inl rfl⟩

/-- A plan sees the machine at its end. -/
theorem sees_last {n : Nat} (h : (p.follow (Task.run host n) m).Stops m') :
    ∃ k, p.Sees host m k m' := by
  induction p generalizing m with
  | act r => exact ⟨0, rfl, .inr h⟩
  | part t => exact ⟨0, rfl, .inr ⟨n, h⟩⟩
  | andThen p next ihp ihnext =>
    obtain h | ⟨value, m₁, hdone, h⟩ := Run.stops_bind h
    · obtain ⟨k, h⟩ := ihp h
      exact ⟨k, .inl h⟩
    · obtain ⟨k, h⟩ := ihnext value h
      exact ⟨k, .inr ⟨n, value, m₁, hdone, h⟩⟩
  | inFrame p _ => exact ⟨0, .inr ⟨rfl, .inr ⟨n, h⟩⟩⟩
  | inCall scope p _ => exact ⟨0, .inr ⟨rfl, .inr ⟨n, h⟩⟩⟩

/-- A plan sees both machines of each of its moves. -/
theorem Passes.sees {m₁ m₂ : Machine} (h : p.Passes host m m₁ m₂) :
    (∃ k, p.Sees host m k m₁) ∧ ∃ k, p.Sees host m k m₂ := by
  induction p generalizing m with
  | act r =>
    obtain ⟨rfl, h⟩ := h
    exact ⟨⟨0, rfl, .inl rfl⟩, 0, rfl, .inr h⟩
  | part t => exact h.elim
  | andThen p next ihp ihnext =>
    obtain h | ⟨n, value, m', hdone, h⟩ := h
    · obtain ⟨⟨k, h₁⟩, k', h₂⟩ := ihp h
      exact ⟨⟨k, .inl h₁⟩, k', .inl h₂⟩
    · obtain ⟨⟨k, h₁⟩, k', h₂⟩ := ihnext value h
      exact ⟨⟨k, .inr ⟨n, value, m', hdone, h₁⟩⟩, k', .inr ⟨n, value, m', hdone, h₂⟩⟩
  | inFrame p ih =>
    obtain ⟨rfl, rfl⟩ | h | ⟨⟨n, h⟩, rfl⟩ := h
    · exact ⟨⟨0, sees_first _ _⟩, 0, .inl (sees_first p _)⟩
    · obtain ⟨⟨k, h₁⟩, k', h₂⟩ := ih h
      exact ⟨⟨k, .inl h₁⟩, k', .inl h₂⟩
    · obtain ⟨k, hk⟩ := sees_last h
      exact ⟨⟨k, .inl hk⟩, 0, .inr ⟨rfl, .inr ⟨n, Run.stops_inFrame.mpr ⟨_, h, rfl⟩⟩⟩⟩
  | inCall scope p ih =>
    obtain ⟨rfl, rfl⟩ | h | ⟨⟨n, h⟩, rfl⟩ := h
    · exact ⟨⟨0, sees_first _ _⟩, 1, .inl ⟨0, sees_first p _, rfl⟩⟩
    · obtain ⟨⟨k, h₁⟩, k', h₂⟩ := ih h
      exact ⟨⟨k + 1, .inl ⟨k, h₁, rfl⟩⟩, k' + 1, .inl ⟨k', h₂, rfl⟩⟩
    · obtain ⟨k, hk⟩ := sees_last h
      exact ⟨⟨k + 1, .inl ⟨k, hk, rfl⟩⟩, 0, .inr ⟨rfl, .inr ⟨n, Run.stops_inCall.mpr ⟨_, h, rfl⟩⟩⟩⟩

end Plan

/-! ### The depth at the moments of a session -/

/-- A task that is started while `k` bodies are in progress has `k` callers more, and no more than
there may be. -/
theorem Moment.Through.depth {a b : Moment} {k : Nat} (h : Moment.Through host a k b) :
    b.machine.depth = a.machine.depth + k ∧
      (a.machine.depth ≤ maxDepth → b.machine.depth ≤ maxDepth) := by
  induction h with
  | start => exact ⟨rfl, id⟩
  | @part k b c _ hb hs ih =>
    rwa [Plan.Starts.depth_eq hs (b.task.stepsOnly_any host) hb]
  | @body k b c _ hb hs ih =>
    obtain ⟨task, m⟩ := b
    cases task with
    | invoke f paren values =>
      obtain ⟨hlt, hdepth⟩ := Plan.depth_of_starts_ofInvoke hs
      change m.depth = _ ∧ _ at ih
      rw [hdepth, ih.1]
      exact ⟨Nat.add_assoc _ _ _, fun _ => ih.1 ▸ hlt⟩
    | _ => exact hb.elim

namespace Session

variable {s : Session} {source : String} {stmt : Stmt} {m : Machine} {k : Nat}

theorem Reaches.depth_eq_zero (h : Reaches host (.initial output) s) : s.machine.depth = 0 :=
  congrArg List.length ((Machine.respected_samePlace host).reaches h).2

theorem Executes.depth_eq (h : s.Executes host source stmt m) : m.depth = s.machine.depth := by
  obtain ⟨-, front, rest, n, -, hfront⟩ := h
  have hplace := (Machine.respected_samePlace host).interpret n front s.machine
  rw [hfront] at hplace
  exact congrArg List.length hplace.2

theorem During.depth {a : Moment} (h : During host output k a) :
    a.machine.depth = k ∧ k ≤ maxDepth := by
  obtain ⟨s, source, stmt, m, hs, hexec, hthrough⟩ := h
  have hzero : m.depth = 0 := hexec.depth_eq.trans hs.depth_eq_zero
  obtain ⟨hdepth, hle⟩ := hthrough.depth
  rw [hzero, Nat.zero_add] at hdepth
  rw [hzero] at hle
  exact ⟨hdepth, hdepth ▸ hle (Nat.zero_le _)⟩

/-- **Each body in progress has its caller**, and there are not too many of them. -/
theorem InProgress.depth (h : InProgress host output k m) : m.depth = k ∧ k ≤ maxDepth := by
  obtain ⟨i, j, ⟨task, m₀⟩, hduring, hsees, rfl⟩ := h
  obtain ⟨rfl, hle⟩ := hduring.depth
  have hplan := task.stepsOnly_any host
  refine ⟨hsees.depth_eq hplan, ?_⟩
  have hpart (h : ¬ task.IsInvoke) : j = 0 := hsees.eq_zero hplan h
  cases task with
  | invoke f paren values =>
    obtain rfl | ⟨rfl, hlt⟩ := Plan.sees_ofInvoke hsees
    · exact hle
    · exact hlt
  | _ =>
    rw [hpart id]
    exact hle

/-- A task that is started in a session is started while some number of bodies is in progress. -/
theorem Happens.during {a : Moment} (h : Happens host output a) : ∃ k, During host output k a := by
  obtain ⟨s, source, stmt, m, hs, hexec, hwithin⟩ := h
  suffices hthrough : ∃ k, Moment.Through host ⟨.execute stmt, m⟩ k a by
    obtain ⟨k, hthrough⟩ := hthrough
    exact ⟨k, s, source, stmt, m, hs, hexec, hthrough⟩
  induction hwithin with
  | refl => exact ⟨0, .start⟩
  | @tail b c _ hs ih =>
    obtain ⟨k, hk⟩ := ih
    by_cases hb : b.task.IsInvoke
    · exact ⟨k + 1, hk.body hb hs⟩
    · exact ⟨k, hk.part hb hs⟩

/-- No machine on the way of a session is left out. -/
theorem Moves.inProgress {m m' : Machine} (h : Moves host output m m') :
    (∃ k, InProgress host output k m) ∧ ∃ k, InProgress host output k m' := by
  obtain ⟨a, ha, hpasses⟩ := h
  obtain ⟨i, hduring⟩ := ha.during
  obtain ⟨⟨j, h₁⟩, j', h₂⟩ := hpasses.sees
  exact ⟨⟨_, i, j, a, hduring, h₁, rfl⟩, _, i, j', a, hduring, h₂, rfl⟩

end Session

/-! ### Calls that are refused -/

/-- The arguments of a call are as many as it takes to enter a body: that of a function, or of the
initializer of a class. -/
def Value.Takes (values : List Value) : Value → Prop
  | .function f => values.length = f.arity
  | .klass c => ∃ method, c.methods.get? Run.initializerName = some method ∧
      values.length = method.arity
  | _ => False

/-- A body is entered for a call. -/
def Moment.Enters (host : Host) (a : Moment) : Prop :=
  ∃ b c, a.Starts host b ∧ b.task.IsInvoke ∧ b.Starts host c

/-- A call fails for the number of calls in progress, on the line of its parenthesis, and enters no
body. -/
def Run.Refuses (host : Host) (target : Value) (paren : Token) (values : List Value)
    (m : Machine) : Prop :=
  (∃ n m', Run.call host n target paren values m = .failed (.fault paren.line .stackOverflow) m') ∧
    ¬ Moment.Enters host ⟨.call target paren values, m⟩

namespace Run

variable {target : Value} {f : Closure} {paren : Token} {values : List Value} {m : Machine}

theorem defineAll_done (names : List Token) (values : List Value) (m : Machine) :
    ∃ m', defineAll names values m = .done () m' := by
  induction names generalizing values m with
  | nil => exact ⟨m, rfl⟩
  | cons name names ih =>
    cases values with
    | nil => exact ⟨m, rfl⟩
    | cons v vs => exact ih vs _

/-- A call that is given as many arguments as it takes starts the run of a function; up to there
frames and objects are made and nothing else. -/
theorem starts_of_takes (host : Host) (h : target.Takes values) (paren : Token) (m : Machine) :
    ∃ f m₁, m.Untouched m₁ ∧
      Moment.Starts host ⟨.call target paren values, m⟩ ⟨.invoke f paren values, m₁⟩ := by
  cases target with
  | function f =>
    refine ⟨f, m, .refl m, ?_⟩
    show (Plan.ofCall host (.function f) paren values).Starts _ _ _ _
    rw [Plan.ofCall, if_pos (show values.length = f.arity from h)]
    exact ⟨rfl, rfl⟩
  | klass c =>
    obtain ⟨method, hmethod, harity⟩ := h
    exact ⟨_, _, (m.untouched_withObject c).trans (Machine.untouched_withBound _ _ _),
      Plan.starts_ofCall_klass.mpr ⟨method, hmethod, harity, rfl, rfl⟩⟩
  | _ => exact h.elim

/-- A function is not run if there are too many calls. -/
theorem invoke_of_full (h : maxDepth ≤ m.depth) (n : Nat) :
    invoke host (n + 1) f paren values m = .failed (.fault paren.line .stackOverflow) m := by
  rw [invoke]
  show (if maxDepth ≤ m.depth then _ else _ : Run Value) m = _
  rw [if_pos h]
  rfl

/-- Neither is a call made then that would enter a body. -/
theorem call_of_full (host : Host) (htakes : target.Takes values) (h : maxDepth ≤ m.depth)
    (paren : Token) :
    ∃ m', m.Untouched m' ∧ ∀ n, call host (n + 2) target paren values m =
      .failed (.fault paren.line .stackOverflow) m' := by
  cases target with
  | function f =>
    refine ⟨m, .refl m, fun n => ?_⟩
    rw [call]
    simp only [if_pos (show values.length = f.arity from htakes)]
    exact invoke_of_full h n
  | klass c =>
    obtain ⟨method, hmethod, harity⟩ := htakes
    have hbound := (m.withObject c).untouched_withBound method m.store.nextObject
    refine ⟨_, (m.untouched_withObject c).trans hbound, fun n => ?_⟩
    have hfull : maxDepth ≤ ((m.withObject c).withBound method m.store.nextObject).depth := h
    rw [call_klass hmethod harity]
    show (invoke host (n + 1) _ paren values).bind _ _ = _
    rw [Run.bind, invoke_of_full hfull]
  | _ => exact htakes.elim

/-- A body is entered for a call if there may be one more. -/
theorem enters_iff (htakes : target.Takes values) :
    Moment.Enters host ⟨.call target paren values, m⟩ ↔ m.depth < maxDepth := by
  have hdepth {b : Moment} (hs : Moment.Starts host ⟨.call target paren values, m⟩ b) :
      b.machine.depth = m.depth :=
    Plan.Starts.depth_eq hs ((Task.call target paren values).stepsOnly_any host) id
  constructor
  · rintro ⟨⟨task, m₁⟩, c, hs, hinvoke, hc⟩
    rw [← hdepth hs]
    cases task with
    | invoke f paren values => exact (Plan.depth_of_starts_ofInvoke hc).1
    | _ => exact hinvoke.elim
  · intro hlt
    obtain ⟨f, m₁, -, hs⟩ := starts_of_takes host htakes paren m
    obtain ⟨m₂, hdefine⟩ := defineAll_done f.routine.parameters values
      (m₁.enterCall f.scope).enterFrame
    refine ⟨⟨.invoke f paren values, m₁⟩, ⟨.execute f.routine.body, m₂⟩, hs, trivial, ?_⟩
    exact Plan.starts_ofInvoke.mpr ⟨(hdepth hs).symm ▸ hlt, rfl, hdefine⟩

theorem refuses_iff (htakes : target.Takes values) :
    Refuses host target paren values m ↔ maxDepth ≤ m.depth := by
  rw [Refuses, enters_iff htakes, Nat.not_lt, and_iff_right_iff_imp]
  intro hfull
  obtain ⟨m', -, hcall⟩ := call_of_full host htakes hfull paren
  exact ⟨2, m', hcall 0⟩

/-- A call that is refused leaves what there was as it was. -/
theorem Refuses.untouched (h : Refuses host target paren values m) (htakes : target.Takes values)
    {n : Nat} {m' : Machine} (hstops : (call host n target paren values m).Stops m') :
    m.Untouched m' := by
  obtain ⟨m₁, hm₁, hcall⟩ := call_of_full host htakes ((refuses_iff htakes).mp h) paren
  have hfinished : (call host n target paren values m).Finished := by
    obtain ⟨v, hv⟩ | ⟨e, he⟩ := hstops
    · rw [hv]; exact nofun
    · rw [he]; exact nofun
  have hsame : call host (n + 2) target paren values m = call host n target paren values m :=
    Task.run_eq_of_le (Nat.le_add_right n 2) (.call target paren values) m hfinished
  rw [← hsame, hcall] at hstops
  obtain ⟨v, hv⟩ | ⟨e, he⟩ := hstops
  · cases hv
  · obtain ⟨-, rfl⟩ := Outcome.failed.inj he
    exact hm₁

end Run

/-- **Call depth is exact.** In each machine on the way of a session there is one caller for every
body in progress, and never more than 255. A call that is given as many arguments as it takes to
enter a body is refused, on the line of its parenthesis, just if 255 bodies are in progress; it then
leaves all frames and objects, the output and the value of the last `return` as they are. Between
the texts of a session, whether they failed or not, and wherever one of their statements is
executed, no call is in progress. -/
theorem call_depth_exact (host : Host) (output : Channel) :
    (∀ k m, Session.InProgress host output k m → m.depth = k ∧ k ≤ 255) ∧
    (∀ m m', Session.Moves host output m m' →
      (∃ k, Session.InProgress host output k m) ∧ ∃ k, Session.InProgress host output k m') ∧
    (∀ k target paren values m,
      Session.During host output k ⟨.call target paren values, m⟩ → target.Takes values →
      (Run.Refuses host target paren values m ↔ k = 255) ∧
      (Run.Refuses host target paren values m → ∀ n m',
        (Run.call host n target paren values m).Stops m' → m.Untouched m')) ∧
    ∀ s, Session.Reaches host (.initial output) s → s.machine.depth = 0 ∧
      ∀ source stmt m, s.Executes host source stmt m → m.depth = 0 := by
  refine ⟨fun k m h => h.depth, fun m m' h => h.inProgress, ?_, fun s hs => ?_⟩
  · intro k target paren values m hduring htakes
    obtain ⟨hdepth, hle⟩ := hduring.depth
    change m.depth = k at hdepth
    refine ⟨?_, fun hrefuses n m' => hrefuses.untouched htakes⟩
    rw [Run.refuses_iff htakes, hdepth]
    exact ⟨fun hge => Nat.le_antisymm hle hge, fun h => h ▸ Nat.le_refl _⟩
  · exact ⟨hs.depth_eq_zero, fun source stmt m hexec => hexec.depth_eq.trans hs.depth_eq_zero⟩

/-! A function that calls itself. -/

/-- The function does nothing but call itself: it takes no arguments, and its body is one call by a
name, which means the function wherever it runs. -/
def Machine.CallsItself (m : Machine) (f : Closure) : Prop :=
  ∃ x paren, f.routine = .mk [] (.block [.expression (.call (.name x) paren [])]) ∧
    f.scope < m.store.frames.cells.size ∧
    m.store.frames.get? f.scope x.lexeme = some (.function f)

theorem Machine.CallsItself.enterFrame {m : Machine} {f : Closure} (h : m.CallsItself f) :
    m.enterFrame.CallsItself f := by
  obtain ⟨x, paren, hroutine, hscope, hx⟩ := h
  have hframes := Frames.Undisturbed.alloc m.store.frames (some m.scope)
  refine ⟨x, paren, hroutine, Nat.lt_of_lt_of_le hscope hframes.size, ?_⟩
  rw [← hx]
  exact Frames.get?_congr (fun g _ => Frames.own?_alloc _ _ g _) hframes.parent hscope

namespace Session.During

variable {k : Nat} {b c : Moment}

theorem part (h : During host output k b) (hb : ¬ b.task.IsInvoke) (hs : b.Starts host c) :
    During host output k c := by
  obtain ⟨s, source, stmt, m, hreaches, hexec, hthrough⟩ := h
  exact ⟨s, source, stmt, m, hreaches, hexec, hthrough.part hb hs⟩

theorem body (h : During host output k b) (hb : b.task.IsInvoke) (hs : b.Starts host c) :
    During host output (k + 1) c := by
  obtain ⟨s, source, stmt, m, hreaches, hexec, hthrough⟩ := h
  exact ⟨s, source, stmt, m, hreaches, hexec, hthrough.body hb hs⟩

/-- In the body of a function that calls itself it is called again. -/
theorem again {f : Closure} {paren : Token} {m : Machine}
    (h : During host output k ⟨.call (.function f) paren [], m⟩) (hf : m.CallsItself f)
    (hk : k < maxDepth) : ∃ paren' m', m'.CallsItself f ∧
      During host output (k + 1) ⟨.call (.function f) paren' [], m'⟩ := by
  have hdepth : m.depth < maxDepth := by rwa [h.depth.1]
  obtain ⟨m₁, hm₁⟩ : ∃ m₁, (m.enterCall f.scope).enterFrame = m₁ := ⟨_, rfl⟩
  have hframe : m₁.CallsItself f := hm₁ ▸ Machine.CallsItself.enterFrame hf
  have hblock := hframe.enterFrame
  obtain ⟨x, paren', hroutine, hscope, hx⟩ := hf
  -- From the call to the statement in the block.
  have hinvoke : During host output k ⟨.invoke f paren [], m⟩ := by
    refine h.part id ?_
    show (Plan.ofCall host (.function f) paren []).Starts _ _ _ _
    rw [Plan.ofCall, if_pos (by rw [Closure.arity, hroutine]; rfl)]
    exact ⟨rfl, rfl⟩
  have hbody : During host output (k + 1) ⟨.execute f.routine.body, m₁⟩ := by
    refine hinvoke.body trivial (Plan.starts_ofInvoke.mpr ⟨hdepth, rfl, ?_⟩)
    rw [hroutine, hm₁]
    rfl
  rw [hroutine] at hbody
  have hstmts := hbody.part (c := ⟨.executeAll [.expression (.call (.name x) paren' [])],
    m₁.enterFrame⟩) id ⟨rfl, rfl⟩
  have hstmt := hstmts.part (c := ⟨.execute (.expression (.call (.name x) paren' [])),
    m₁.enterFrame⟩) id (.inl ⟨rfl, rfl⟩)
  have hcall := hstmt.part (c := ⟨.evaluate (.call (.name x) paren' []), m₁.enterFrame⟩) id
    (.inl ⟨rfl, rfl⟩)
  -- In the block the name means the function.
  have hmeans : m₁.enterFrame.store.frames.get? m₁.enterFrame.scope x.lexeme =
      some (.function f) := by
    subst hm₁
    have hsize : m.store.frames.cells.size < (m.store.frames.alloc (some f.scope)).cells.size := by
      rw [Frames.size_alloc]
      exact Nat.lt_succ_self _
    exact (Frames.get?_alloc_size hsize _).trans ((Frames.get?_alloc_size hscope _).trans hx)
  have htarget : Run.evaluate host 1 (.name x) m₁.enterFrame =
      .done (.function f) m₁.enterFrame := by
    rw [Run.evaluate]
    simp only [Run.lookUp, hmeans]
  exact ⟨paren', m₁.enterFrame, hblock,
    hcall.part id (.inr ⟨1, .function f, _, htarget, .inr ⟨1, [], _, rfl, rfl, rfl⟩⟩)⟩

end Session.During

/-- Whether statements are the call, by its name, of a function that calls itself. -/
def Machine.recurs (m : Machine) : List Stmt → Bool
  | [.expression (.call (.name x) _ [])] =>
    match m.store.frames.get? m.scope x.lexeme with
    | some (.function ⟨_, .mk [] (.block [.expression (.call (.name y) _ [])]), scope, _⟩) =>
      y.lexeme == x.lexeme && scope == m.scope && decide (scope < m.store.frames.cells.size)
    | _ => false
  | _ => false

theorem Machine.recurs_eq_true {m : Machine} {ss : List Stmt} (h : m.recurs ss = true) :
    ∃ x paren f, ss = [.expression (.call (.name x) paren [])] ∧
      m.store.frames.get? m.scope x.lexeme = some (.function f) ∧ f.arity = 0 ∧
      m.CallsItself f := by
  unfold recurs at h
  split at h
  case h_2 => cases h
  case h_1 x paren =>
  split at h
  case h_2 => cases h
  case h_1 serial y paren' scope flag hx =>
  simp only [Bool.and_eq_true, beq_iff_eq, decide_eq_true_eq] at h
  obtain ⟨⟨hy, rfl⟩, hscope⟩ := h
  exact ⟨x, paren, _, rfl, hx, rfl, y, paren', rfl, hscope, by rw [hy]; exact hx⟩

/-- A function calls itself until it is refused. -/
theorem call_depth_exact_recursion :
    let host := Host.ofSeed 0 0
    let output := Channel.ofLimit none
    ∃ f paren m, Session.During host output 255 ⟨.call (.function f) paren [], m⟩ ∧
      (Value.function f).Takes [] ∧ Run.Refuses host (.function f) paren [] m ∧ m.depth = 255 := by
  intro host output
  have hruns : ((Session.run host 30 "fun f() \x7b f(); \x7d" (.initial output)).map fun ran =>
      ran.2.machine.recurs (Session.program "f();")) = some true := by decide +kernel
  obtain ⟨ran, hrun, hrecurs⟩ := Option.map_eq_some_iff.mp hruns
  obtain ⟨x, paren, f, hprogram, hx, harity, hf⟩ := Machine.recurs_eq_true hrecurs
  have hs : Session.Reaches host (.initial output) ran.2 := .single ⟨30, _, ran.1, hrun⟩
  have hfirst := hs.happens_call (by decide +kernel : Session.rejections "f();" = []) hprogram hx
  obtain ⟨k, hfirst⟩ := hfirst.during
  -- Each call in a body is one body deeper.
  have hdeeper (j : Nat) (hj : k + j ≤ maxDepth) : ∃ paren m, m.CallsItself f ∧
      Session.During host output (k + j) ⟨.call (.function f) paren [], m⟩ := by
    induction j with
    | zero => exact ⟨paren, _, hf, hfirst⟩
    | succ j ih =>
      obtain ⟨paren, m, hf, hcall⟩ := ih (Nat.le_of_succ_le hj)
      exact hcall.again hf hj
  obtain ⟨paren, m, -, hcall⟩ := hdeeper (maxDepth - k) (by
    have hle := hfirst.depth.2
    omega)
  rw [Nat.add_sub_cancel' hfirst.depth.2] at hcall
  have htakes : (Value.function f).Takes [] := harity.symm
  have hrefuses := ((call_depth_exact host output).2.2.1 _ _ _ _ _ hcall htakes).1.mpr rfl
  exact ⟨f, paren, m, hcall, htakes, hrefuses, hcall.depth.1⟩

end Lox
