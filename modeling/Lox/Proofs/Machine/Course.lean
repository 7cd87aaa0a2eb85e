import Lox.Proofs.Machine.Jump
import Lox.Proofs.Machine.Upheld

/-!
# The course of a session

A session takes its machine from one state to the next, move by move: a step of a plan, the entry of
a frame or of a call, the return from either. `Plan.Passes` says which moves are made in the course
of a plan, `Session.Moves` which are made in a session, and one machine is **later** than another if
moves lead from the one to the other (`Session.Later`). No machine of a session is left out: runs,
their moments and the machines between the source texts all lie on the way (`Session.Happens.later`,
`Session.Reaches.later`).

What holds whenever a step is taken, and how the machine afterwards compares with the machine
before, is proved step by step (`Upheld`) and then holds at all moments and for all moves.
-/

namespace Lox

variable {α β : Type} {host : Host}

/-! ### How runs stop -/

/-- The run ended, with a value or with an error, and left this machine. -/
def Outcome.Stops (o : Outcome α) (m : Machine) : Prop :=
  (∃ value, o = .done value m) ∨ ∃ e, o = .failed e m

theorem Outcome.Leaves.of_stops {o : Outcome α} {P : Machine → Prop} {m : Machine}
    (h : o.Leaves P) (hs : o.Stops m) : P m := by
  obtain ⟨value, rfl⟩ | ⟨e, rfl⟩ := hs <;> exact h

theorem Outcome.Stops.leaves {o : Outcome α} {P : Machine → Prop} {m : Machine} (h : o.Stops m)
    (hm : P m) : o.Leaves P := by
  obtain ⟨value, rfl⟩ | ⟨e, rfl⟩ := h <;> exact hm

theorem Outcome.stops_onMachine {o : Outcome α} {k : Machine → Machine} {m' : Machine} :
    (o.onMachine k).Stops m' ↔ ∃ m, o.Stops m ∧ m' = k m := by
  cases o <;> simp [Outcome.onMachine, Outcome.Stops, eq_comm]

namespace Run

theorem stops_bind {r : Run α} {f : α → Run β} {m m' : Machine} (h : (r.bind f m).Stops m') :
    (r m).Stops m' ∨ ∃ value m₁, r m = .done value m₁ ∧ (f value m₁).Stops m' := by
  unfold Run.bind at h
  cases hr : r m with
  | done value m₁ =>
    rw [hr] at h
    exact .inr ⟨value, m₁, rfl, h⟩
  | failed e m₁ =>
    rw [hr] at h
    obtain ⟨value, h⟩ | ⟨e', h⟩ := h
    · exact nomatch h
    · obtain ⟨rfl, rfl⟩ := Outcome.failed.inj h
      exact .inl (.inr ⟨e, rfl⟩)
  | unfinished =>
    rw [hr] at h
    obtain ⟨value, h⟩ | ⟨e', h⟩ := h <;> exact nomatch h

theorem stops_inFrame {r : Run α} {m m' : Machine} :
    (inFrame r m).Stops m' ↔ ∃ m₁, (r m.enterFrame).Stops m₁ ∧ m' = m₁.backIn m.scope := by
  rw [inFrame_eq, Outcome.stops_onMachine]

theorem stops_inCall {r : Run α} {scope : FrameId} {m m' : Machine} :
    (inCall scope r m).Stops m' ↔ ∃ m₁, (r (m.enterCall scope)).Stops m₁ ∧ m' = m₁.leaveCall := by
  rw [inCall_eq, Outcome.stops_onMachine]

end Run

/-! ### Moves -/

/-- In the course of a plan that is followed on the machine `m`, the machine `m₂` comes right behind
`m₁`. The moves of a part of the plan are those of its own plan. What comes behind a part counts if
the part ends with a value, under whatever bound. -/
def Plan.Passes (host : Host) : {α : Type} → Plan α → Machine → Machine → Machine → Prop
  | _, act r, m, m₁, m₂ => m₁ = m ∧ (r m).Stops m₂
  | _, part _, _, _, _ => False
  | _, andThen p next, m, m₁, m₂ => p.Passes host m m₁ m₂ ∨
      ∃ n value m', p.follow (Task.run host n) m = .done value m' ∧
        (next value).Passes host m' m₁ m₂
  | _, inFrame p, m, m₁, m₂ => (m₁ = m ∧ m₂ = m.enterFrame) ∨ p.Passes host m.enterFrame m₁ m₂ ∨
      (∃ n, (p.follow (Task.run host n) m.enterFrame).Stops m₁) ∧ m₂ = m₁.backIn m.scope
  | _, inCall scope p, m, m₁, m₂ => (m₁ = m ∧ m₂ = m.enterCall scope) ∨
      p.Passes host (m.enterCall scope) m₁ m₂ ∨
      (∃ n, (p.follow (Task.run host n) (m.enterCall scope)).Stops m₁) ∧
        m₂ = m₁.leaveCall

namespace Session

/-- A task is started in a session that begins with the given output channel: in the course of a
statement of one of the source texts that are run one after another. -/
def Happens (host : Host) (output : Channel) (a : Moment) : Prop :=
  ∃ s source stmt m, Reaches host (.initial output) s ∧ s.Executes host source stmt m ∧
    Moment.Within host ⟨.execute stmt, m⟩ a

/-- The second machine comes right behind the first one in a session. -/
def Moves (host : Host) (output : Channel) (m m' : Machine) : Prop :=
  ∃ a, Happens host output a ∧ (a.task.plan host).Passes host a.machine m m'

/-- The second machine comes behind the first one in a session, or is the same. -/
def Later (host : Host) (output : Channel) : Machine → Machine → Prop :=
  Relation.ReflTransGen (Moves host output)

end Session

/-! ### No machine is left out -/

namespace Plan

variable {R : Machine → Machine → Prop}

/-- A plan that ends leads by its moves to the machine at its end, if the tasks that it starts
do. -/
theorem leads_of_stops {n : Nat} {p : Plan α} {m m' : Machine}
    (hmove : ∀ m₁ m₂, p.Passes host m m₁ m₂ → Relation.ReflTransGen R m₁ m₂)
    (hstart : ∀ t m₁, p.Starts host m t m₁ →
      ∀ m₂, (t.run host n m₁).Stops m₂ → Relation.ReflTransGen R m₁ m₂)
    (h : (p.follow (Task.run host n) m).Stops m') : Relation.ReflTransGen R m m' := by
  induction p generalizing m m' with
  | act r => exact hmove m m' ⟨rfl, h⟩
  | part t => exact hstart t m ⟨rfl, rfl⟩ m' h
  | andThen p next ihp ihnext =>
    have hfirst {m₁ : Machine} (h₁ : (p.follow (Task.run host n) m).Stops m₁) :
        Relation.ReflTransGen R m m₁ :=
      ihp (fun m₁ m₂ hm => hmove m₁ m₂ (.inl hm)) (fun t m₁ hs => hstart t m₁ (.inl hs)) h₁
    obtain h | ⟨value, m₁, hdone, h⟩ := Run.stops_bind h
    · exact hfirst h
    · refine (hfirst (.inl ⟨value, hdone⟩)).trans (ihnext value ?_ ?_ h)
      · exact fun m₂ m₃ hm => hmove m₂ m₃ (.inr ⟨n, value, m₁, hdone, hm⟩)
      · exact fun t m₂ hs => hstart t m₂ (.inr ⟨n, value, m₁, hdone, hs⟩)
  | inFrame p ih =>
    obtain ⟨m₁, h₁, rfl⟩ := Run.stops_inFrame.mp h
    have hin := ih (fun m₁ m₂ hm => hmove m₁ m₂ (.inr (.inl hm))) hstart h₁
    exact (hmove _ _ (.inl ⟨rfl, rfl⟩)).trans (hin.trans (hmove _ _ (.inr (.inr ⟨⟨n, h₁⟩, rfl⟩))))
  | inCall scope p ih =>
    obtain ⟨m₁, h₁, rfl⟩ := Run.stops_inCall.mp h
    have hin := ih (fun m₁ m₂ hm => hmove m₁ m₂ (.inr (.inl hm))) hstart h₁
    exact (hmove _ _ (.inl ⟨rfl, rfl⟩)).trans (hin.trans (hmove _ _ (.inr (.inr ⟨⟨n, h₁⟩, rfl⟩))))

/-- The moves of a plan lead to the tasks that it starts, if those of each task lead to its end. -/
theorem leads_of_starts {p : Plan α} {m m' : Machine} {t : Task}
    (hmove : ∀ m₁ m₂, p.Passes host m m₁ m₂ → Relation.ReflTransGen R m₁ m₂)
    (hstart : ∀ t m₁, p.Starts host m t m₁ →
      ∀ n m₂, (t.run host n m₁).Stops m₂ → Relation.ReflTransGen R m₁ m₂)
    (h : p.Starts host m t m') : Relation.ReflTransGen R m m' := by
  induction p generalizing m with
  | act r => exact h.elim
  | part t =>
    obtain ⟨rfl, rfl⟩ := h
    exact .refl
  | andThen p next ihp ihnext =>
    obtain h | ⟨n, value, m₁, hdone, h⟩ := h
    · exact ihp (fun m₁ m₂ hm => hmove m₁ m₂ (.inl hm)) (fun t m₁ hs => hstart t m₁ (.inl hs)) h
    · have hfirst : Relation.ReflTransGen R m m₁ :=
        leads_of_stops (fun m₁ m₂ hm => hmove m₁ m₂ (.inl hm))
          (fun t m₁ hs => hstart t m₁ (.inl hs) n) (.inl ⟨value, hdone⟩)
      refine hfirst.trans (ihnext value ?_ ?_ h)
      · exact fun m₂ m₃ hm => hmove m₂ m₃ (.inr ⟨n, value, m₁, hdone, hm⟩)
      · exact fun t m₂ hs => hstart t m₂ (.inr ⟨n, value, m₁, hdone, hs⟩)
  | inFrame p ih =>
    have hin := ih (fun m₁ m₂ hm => hmove m₁ m₂ (.inr (.inl hm))) hstart h
    exact (hmove _ _ (.inl ⟨rfl, rfl⟩)).trans hin
  | inCall scope p ih =>
    have hin := ih (fun m₁ m₂ hm => hmove m₁ m₂ (.inr (.inl hm))) hstart h
    exact (hmove _ _ (.inl ⟨rfl, rfl⟩)).trans hin

end Plan

namespace Session

variable {output : Channel}

theorem Happens.starts {a b : Moment} (h : Happens host output a) (hs : a.Starts host b) :
    Happens host output b := by
  obtain ⟨s, source, stmt, m, hreaches, hexec, hwithin⟩ := h
  exact ⟨s, source, stmt, m, hreaches, hexec, hwithin.tail hs⟩

/-- The machine at the end of a task comes behind the machine it was started on. -/
theorem Happens.later_of_stops {t : Task} {m m' : Machine} (h : Happens host output ⟨t, m⟩)
    {n : Nat} (hstops : (t.run host n m).Stops m') : Later host output m m' := by
  induction n generalizing t m m' with
  | zero =>
    rw [Task.run_zero] at hstops
    obtain ⟨value, h⟩ | ⟨e, h⟩ := hstops <;> exact nomatch h
  | succ n ih =>
    rw [Task.run_succ] at hstops
    refine Plan.leads_of_stops (fun m₁ m₂ hm => .single ⟨_, h, hm⟩) ?_ hstops
    exact fun t' m₁ hs m₂ hstops => ih (h.starts hs) hstops

/-- A task is started on a machine that comes behind that of the task that starts it. -/
theorem Happens.later_of_starts {a b : Moment} (h : Happens host output a)
    (hs : a.Starts host b) : Later host output a.machine b.machine := by
  refine Plan.leads_of_starts (fun m₁ m₂ hm => .single ⟨_, h, hm⟩) ?_ hs
  exact fun t' m₁ hs n m₂ hstops => Happens.later_of_stops (h.starts hs) hstops

theorem Happens.later_of_within {a b : Moment} (h : Happens host output a)
    (hab : a.Within host b) : Later host output a.machine b.machine := by
  suffices hboth : Happens host output b ∧ Later host output a.machine b.machine from hboth.2
  induction hab with
  | refl => exact ⟨h, .refl⟩
  | tail _ hs ih => exact ⟨ih.1.starts hs, ih.2.trans (ih.1.later_of_starts hs)⟩

variable {s : Session} {source : String}

/-- What the statements preserve that are executed in a session, the statements of a program
preserve from any of them to any other. -/
theorem preserves_of_interpret {P : Machine → Prop}
    (hstep : ∀ stmt m n m', Happens host output ⟨.execute stmt, m⟩ → P m →
      (Run.execute host n stmt m).Stops m' → P m')
    (hs : Reaches host (.initial output) s) (hr : rejections source = [])
    (front : List Stmt) {ss rest : List Stmt} {n : Nat} {m m' : Machine}
    (hprogram : program source = front ++ (ss ++ rest))
    (hfront : Run.interpret host n front s.machine = .done () m) (hm : P m)
    (h : (Run.interpret host n ss m).Stops m') : P m' := by
  induction ss generalizing front m with
  | nil =>
    obtain ⟨value, h⟩ | ⟨e, h⟩ := h
    · obtain ⟨-, rfl⟩ := Outcome.done.inj h
      exact hm
    · exact nomatch h
  | cons stmt ss ih =>
    have hexec : s.Executes host source stmt m := ⟨hr, front, ss ++ rest, n, hprogram, hfront⟩
    have hhappens : Happens host output ⟨.execute stmt, m⟩ :=
      ⟨s, source, stmt, m, hs, hexec, .refl⟩
    obtain h | ⟨completion, m₁, hdone, h⟩ := Run.stops_bind h
    · exact hstep stmt m n m' hhappens hm h
    · have hfirst : P m₁ := hstep stmt m n m₁ hhappens hm (.inl ⟨completion, hdone⟩)
      have hfront' : Run.interpret host n (front ++ [stmt]) s.machine = .done () m₁ := by
        rw [Run.interpret_append]
        show (Run.interpret host n front).bind _ s.machine = _
        rw [Run.bind, hfront]
        show (Run.execute host n stmt).bind _ m = _
        rw [Run.bind, hdone]
        rfl
      exact ih _ (by rw [hprogram, List.append_assoc]; rfl) hfront' hfirst h

/-- What holds at the start of a session and is preserved by the statements that are executed in it
holds of the machine between any two texts. -/
theorem Reaches.preserves {P : Machine → Prop}
    (hstep : ∀ stmt m n m', Happens host output ⟨.execute stmt, m⟩ → P m →
      (Run.execute host n stmt m).Stops m' → P m')
    (hinitial : P (.initial output)) (h : Reaches host (.initial output) s) : P s.machine := by
  induction h with
  | refl => exact hinitial
  | @tail a b hab hrun ih =>
    obtain ⟨n, source, reported, hrun⟩ := hrun
    have hinterpret (hr : rejections source = [])
        (hstops : (Run.interpret host n (program source) a.machine).Stops b.machine) : P b.machine :=
      preserves_of_interpret hstep hab hr [] (List.append_nil _).symm rfl ih hstops
    obtain hm | ⟨hr, u, hdone⟩ | ⟨hr, e, hfailed⟩ := Session.run_eq_some hrun
    · rw [hm]
      exact ih
    · exact hinterpret hr (.inl ⟨u, hdone⟩)
    · exact hinterpret hr (.inr ⟨e, hfailed⟩)

/-- The same holds of the machine on which any statement is executed. -/
theorem Executes.preserves {P : Machine → Prop}
    (hstep : ∀ stmt m n m', Happens host output ⟨.execute stmt, m⟩ → P m →
      (Run.execute host n stmt m).Stops m' → P m')
    (hinitial : P (.initial output)) (hs : Reaches host (.initial output) s) {stmt : Stmt}
    {m : Machine} (h : s.Executes host source stmt m) : P m := by
  obtain ⟨hr, front, rest, n, hprogram, hfront⟩ := h
  have hm : P s.machine := hs.preserves hstep hinitial
  exact preserves_of_interpret hstep hs hr [] hprogram rfl hm (.inl ⟨(), hfront⟩)

theorem later_step (stmt : Stmt) (m : Machine) (n : Nat) (m' : Machine)
    (h : Happens host output ⟨.execute stmt, m⟩) (hm : Later host output (.initial output) m)
    (hstops : (Run.execute host n stmt m).Stops m') : Later host output (.initial output) m' :=
  hm.trans (h.later_of_stops hstops)

/-- **The machines between the source texts of a session lie on its way.** -/
theorem Reaches.later (h : Reaches host (.initial output) s) :
    Later host output (.initial output) s.machine :=
  h.preserves later_step .refl

/-- **The machines on which tasks are started in a session lie on its way.** -/
theorem Happens.later {a : Moment} (h : Happens host output a) :
    Later host output (.initial output) a.machine := by
  obtain ⟨s, source, stmt, m, hs, hexec, hwithin⟩ := h
  have hhappens : Happens host output ⟨.execute stmt, m⟩ := ⟨s, source, stmt, m, hs, hexec, .refl⟩
  exact (hexec.preserves later_step .refl hs).trans (hhappens.later_of_within hwithin)

end Session

/-! ### Moves of programs with a trait -/

namespace Upheld

variable {q : Trait} {E : Effects} {P : Machine → Prop} {R : Machine → Machine → Prop}

/-- What holds of the steps that are taken where `P` holds, of the entry of a frame and of all moves
that leave the store alone holds of all moves of a plan. -/
theorem passes (h : Upheld q host P R) {S : Machine → Machine → Prop}
    (hact : ∀ {E : Effects} {α : Type} {r : Run α} {m m' : Machine}, Run.IsAct q host E r → P m →
      (r m).Stops m' → S m m')
    (hframe : ∀ m : Machine, S m m.enterFrame)
    (hplace : ∀ m m' : Machine, m'.store = m.store → S m m')
    {p : Plan α} (hp : p.StepsOnly q host E) {m m₁ m₂ : Machine} (hm : P m)
    {result : α → Machine → Prop} {error : RuntimeError → Machine → Prop}
    (hmeets : p.Meets q.invariant.contract m result error) (hpasses : p.Passes host m m₁ m₂) :
    S m₁ m₂ := by
  induction hp generalizing m error with
  | act hr =>
    obtain ⟨rfl, hstops⟩ := hpasses
    exact hact hr hm hstops
  | part _ => exact hpasses.elim
  | andThen hp _ ihp ihnext =>
    obtain hpasses | ⟨n, value, m', hdone, hpasses⟩ := hpasses
    · exact ihp hm hmeets hpasses
    · have hends := h.follow n hp hm hmeets
      rw [hdone] at hends
      exact ihnext value (h.after hends.2) hends.1 hpasses
  | inFrame _ ih =>
    obtain ⟨rfl, rfl⟩ | hpasses | ⟨-, rfl⟩ := hpasses
    · exact hframe m₁
    · exact ih (h.enterFrame hm) hmeets hpasses
    · exact hplace _ _ rfl
  | inCall scope _ _ ih =>
    obtain ⟨rfl, rfl⟩ | hpasses | ⟨-, rfl⟩ := hpasses
    · exact hplace _ _ rfl
    · obtain ⟨rfl, rfl⟩ | hpasses | ⟨-, rfl⟩ := hpasses
      · exact hframe _
      · exact ih (h.enterCall scope hm) hmeets hpasses
      · exact hplace _ _ rfl
    · exact hplace _ _ rfl

/-! ### What is upheld in sessions -/

variable {output : Channel}

theorem interpret (h : Upheld q host P R) (n : Nat) {ss : List Stmt} (hss : Stmt.AllHave q ss)
    {m : Machine} (hhas : m.Has q) (hm : P m) :
    (Run.interpret host n ss m).Leaves fun m' => m'.Has q ∧ P m' := by
  induction ss generalizing m with
  | nil => exact ⟨hhas, hm⟩
  | cons s ss ih =>
    have hends := h.kept.run n (.execute s) m ⟨⟨hss.1, hhas⟩, hm⟩
    refine Run.ends_bind.mpr (hends.mono (fun _ m₁ h₁ => ?_) fun _ m₁ h₁ => ?_)
    · exact ih hss.2 h₁.1.2 (h.after h₁.2)
    · exact ⟨h₁.1, h.after h₁.2⟩

/-- If all programs of a session have the trait, they uphold `P`. -/
theorem reaches (h : Upheld q host P R)
    (hprogram : ∀ source, Session.rejections source = [] →
      Stmt.AllHave q (Session.program source))
    (hinitial : P (.initial output)) {s : Session} (hs : Session.Reaches host (.initial output) s) :
    s.machine.Has q ∧ P s.machine := by
  induction hs with
  | refl => exact ⟨Machine.carries_initial output, hinitial⟩
  | @tail a b _ hstep ih =>
    obtain ⟨n, source, reported, hrun⟩ := hstep
    have hends (hr : Session.rejections source = []) := h.interpret n (hprogram _ hr) ih.1 ih.2
    obtain hm | ⟨hr, u, hdone⟩ | ⟨hr, e, hfailed⟩ := Session.run_eq_some hrun
    · rw [hm]
      exact ih
    · exact (hends hr).of_stops (.inl ⟨u, hdone⟩)
    · exact (hends hr).of_stops (.inr ⟨e, hfailed⟩)

/-- At every moment of such a session the task and the machine have the trait, and `P` holds. -/
theorem happens (h : Upheld q host P R)
    (hprogram : ∀ source, Session.rejections source = [] →
      Stmt.AllHave q (Session.program source))
    (hinitial : P (.initial output)) {a : Moment} (ha : Session.Happens host output a) :
    (a.task.Has q ∧ a.machine.Has q) ∧ P a.machine := by
  obtain ⟨s, source, stmt, m, hs, ⟨hr, front, rest, n, hsplit, hfront⟩, hwithin⟩ := ha
  have hsession := h.reaches hprogram hinitial hs
  have hhas := hprogram source hr
  rw [hsplit, Stmt.allHave_append] at hhas
  have hm := (h.interpret n hhas.1 hsession.1 hsession.2).of_stops (.inl ⟨(), hfront⟩)
  exact h.kept.before hwithin ⟨⟨hhas.2.1, hm.1⟩, hm.2⟩

/-- The moves of such a session are those of `Upheld.passes`. -/
theorem moves (h : Upheld q host P R)
    (hprogram : ∀ source, Session.rejections source = [] →
      Stmt.AllHave q (Session.program source))
    (hinitial : P (.initial output)) {S : Machine → Machine → Prop}
    (hact : ∀ {E : Effects} {α : Type} {r : Run α} {m m' : Machine}, Run.IsAct q host E r → P m →
      (r m).Stops m' → S m m')
    (hframe : ∀ m : Machine, S m m.enterFrame)
    (hplace : ∀ m m' : Machine, m'.store = m.store → S m m') {m m' : Machine}
    (hmoves : Session.Moves host output m m') : S m m' := by
  obtain ⟨a, ha, hpasses⟩ := hmoves
  have hbefore := h.happens hprogram hinitial ha
  have hmeets := Invariant.contract_kept (q.invariant_kept host) a.task a.machine hbefore.1
  exact h.passes hact hframe hplace (Task.stepsOnly_plan host hbefore.1.1) hbefore.2 hmeets hpasses

end Upheld

end Lox
