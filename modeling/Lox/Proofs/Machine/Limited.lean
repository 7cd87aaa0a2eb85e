import Lox.Proofs.Machine.Aloof
import Lox.Proofs.Machine.Course

/-!
# Output that is cut off

An output channel that accepts only so many bytes does the same as one that accepts all, up to the
first line that does not fit. That line is cut off, and the program stops there, however many loops,
calls and expressions it is inside of; only the scope and the callers are put back
(`output_truncated`).

The run that accepts all carries the proof. On its way the other machine is always the same but for
the channel (`Machine.limitedTo`), since only `print` statements have to do with the channel. An
`Outcome.Limited` says how the two runs end: both in the same way, or one of them at the print
statement that crosses the limit.
-/

namespace Lox

variable {α β : Type} {q : Trait} {host : Host} {E : Effects} {total : Nat}

/-! ### Channels -/

theorem extract_of_size_le {bytes : ByteArray} {n : Nat} (h : bytes.size ≤ n) :
    bytes.extract 0 n = bytes := by
  have hmax : bytes.extract 0 (max n bytes.size) = bytes := ByteArray.extract_zero_max_size
  rwa [Nat.max_eq_left h] at hmax

theorem extract_append_of_le_size {a : ByteArray} (b : ByteArray) {n : Nat}
    (h : n ≤ a.size) : (a ++ b).extract 0 n = a.extract 0 n := by
  rw [ByteArray.extract_append, Nat.sub_eq_zero_of_le h, Nat.zero_sub, ByteArray.extract_same,
    ByteArray.append_empty]

theorem extract_append_add (a b : ByteArray) (n : Nat) :
    (a ++ b).extract 0 (a.size + n) = a ++ b.extract 0 n := by
  rw [ByteArray.extract_append, extract_of_size_le (Nat.le_add_right _ _), Nat.zero_sub,
    Nat.add_sub_cancel_left]

namespace Channel

/-- What a channel would be that had accepted only so many bytes. -/
def limitedTo (c : Channel) (total : Nat) : Channel :=
  ⟨c.delivered.extract 0 total, some (total - c.delivered.size)⟩

variable {c : Channel}

theorem delivered_write (hroom : c.room = none) (bytes : ByteArray) :
    c.write bytes = ⟨c.delivered ++ bytes, none⟩ := by
  obtain ⟨delivered, room⟩ := c
  obtain rfl : room = none := hroom
  rfl

/-- Whether a line fits is decided by the bytes that there would be in all. -/
theorem fits_limitedTo (hle : c.delivered.size ≤ total) (bytes : ByteArray) :
    (c.limitedTo total).fits bytes = decide ((c.delivered ++ bytes).size ≤ total) := by
  refine decide_eq_decide.mpr ?_
  rw [ByteArray.size_append]
  omega

/-- What is written is cut off where the limit is. -/
theorem write_limitedTo (hroom : c.room = none) (hle : c.delivered.size ≤ total)
    (bytes : ByteArray) : (c.limitedTo total).write bytes = (c.write bytes).limitedTo total := by
  rw [delivered_write hroom, limitedTo, limitedTo, extract_of_size_le hle, write]
  dsimp only
  rw [ByteArray.size_append, ByteArray.extract_append, extract_of_size_le hle,
    Nat.zero_sub]
  split
  · rename_i hfits
    rw [extract_of_size_le hfits, Nat.sub_sub]
  · rename_i hover
    have hfull : total - (c.delivered.size + bytes.size) = 0 := by omega
    rw [hfull]

end Channel

/-! ### Machines -/

namespace Machine

/-- The machine with another output channel. -/
def withOutput (m : Machine) (c : Channel) : Machine :=
  { m with output := c }

/-- The machine with a channel that accepts so much more. -/
def withRoom (m : Machine) (room : Option Nat) : Machine :=
  m.withOutput ⟨m.output.delivered, room⟩

/-- The machine that had accepted only so many bytes. -/
def limitedTo (m : Machine) (total : Nat) : Machine :=
  m.withOutput (m.output.limitedTo total)

/-- The machine behind a line that was written. -/
def printed (m : Machine) (text : String) : Machine :=
  m.withOutput (m.output.write (text ++ "\n").toUTF8)

/-- What fits is not cut off. -/
theorem limitedTo_of_size_le {m : Machine} (h : m.output.delivered.size ≤ total) :
    m.limitedTo total = m.withRoom (some (total - m.output.delivered.size)) := by
  refine congrArg m.withOutput ?_
  rw [Channel.limitedTo, extract_of_size_le h]

/-- A limit on all the bytes is one on those that are yet to come. -/
theorem limitedTo_withRoom (m : Machine) (room : Nat) :
    (m.withRoom none).limitedTo (m.output.delivered.size + room) = m.withRoom (some room) := by
  have hle : (m.withRoom none).output.delivered.size ≤ m.output.delivered.size + room :=
    Nat.le_add_right _ _
  rw [limitedTo_of_size_le hle]
  exact congrArg (fun k => m.withRoom (some k)) (Nat.add_sub_cancel_left _ _)

/-- All output is accepted, and a limit is not yet crossed. -/
structure Below (total : Nat) (m : Machine) : Prop where
  /-- All output is accepted. -/
  room : m.output.room = none
  /-- There are not more bytes than the limit. -/
  size : m.output.delivered.size ≤ total

/-- Nothing that was delivered is taken back, and if all output is accepted it still is. -/
structure Extends (m m' : Machine) : Prop where
  /-- All output is still accepted. -/
  room : m.output.room = none → m'.output.room = none
  /-- The bytes delivered are still there, and more behind them. -/
  delivered : ∃ bytes, m'.output.delivered = m.output.delivered ++ bytes

theorem Extends.of_output {m m' : Machine} (h : m'.output = m.output) : m.Extends m' :=
  ⟨fun hroom => h ▸ hroom, .empty, by rw [h, ByteArray.append_empty]⟩

theorem Extends.trans {m₁ m₂ m₃ : Machine} (h : m₁.Extends m₂) (h' : m₂.Extends m₃) :
    m₁.Extends m₃ := by
  obtain ⟨bytes, hbytes⟩ := h.delivered
  obtain ⟨bytes', hbytes'⟩ := h'.delivered
  exact ⟨fun hroom => h'.room (h.room hroom), bytes ++ bytes', by
    rw [hbytes', hbytes, ByteArray.append_assoc]⟩

theorem extends_printed (m : Machine) (text : String) : m.Extends (m.printed text) := by
  obtain ⟨store, scope, callers, returned, ⟨delivered, room⟩, readings⟩ := m
  cases room with
  | none => exact ⟨fun _ => rfl, _, rfl⟩
  | some room =>
    refine ⟨nofun, ?_⟩
    show ∃ bytes, (Channel.write ⟨delivered, some room⟩ _).delivered = delivered ++ bytes
    unfold Channel.write
    dsimp only
    split <;> exact ⟨_, rfl⟩

/-- A line that does not fit is cut off, and the program stops. -/
theorem printLine_eq (text : String) (m : Machine) : Run.printLine text m =
    if m.output.fits (text ++ "\n").toUTF8 then .done () (m.printed text)
    else .failed .outputClosed (m.printed text) :=
  rfl

/-- **The output only grows.** -/
theorem respected_extends (host : Host) : Respected host Extends where
  refl _ := .of_output rfl
  trans := .trans
  basic h m := by
    cases h with
    | printLine _ text =>
      unfold Run.printLine
      dsimp only
      split <;> exact m.extends_printed text
    | _ => exact .of_output rfl
  bindMethod _ _ _ := .of_output rfl
  inFrame h := ⟨h.room, h.delivered⟩
  inCall h := ⟨h.room, h.delivered⟩

/-- What is cut off of the output is cut off of the line. -/
theorem printed_limitedTo {m : Machine} (hm : m.Below total) (text : String) :
    (m.limitedTo total).printed text = (m.printed text).limitedTo total :=
  congrArg m.withOutput (Channel.write_limitedTo hm.room hm.size _)

theorem Below.of_output {m m' : Machine} (h : m.Below total) (houtput : m'.output = m.output) :
    m'.Below total :=
  ⟨houtput ▸ h.room, houtput ▸ h.size⟩

end Machine

/-! ### Two runs -/

/-- How a run ends that accepts all output, and how the same run ends that accepts only so much:
both in the same way, or the second one behind a line that crosses the limit. -/
inductive Outcome.Limited (total : Nat) (crossing : Machine → Prop) :
    Outcome α → Outcome α → Prop where
  /-- All output fits. -/
  | fits {o : Outcome α} (h : o.Leaves (Machine.Below total)) :
    Limited total crossing o (o.onMachine (·.limitedTo total))
  /-- A line that is written on the way does not fit. -/
  | cut {o : Outcome α} {m : Machine} (scope : FrameId) (callers : List FrameId) (h : crossing m)
      (hlater : o.Leaves m.Extends) :
    Limited total crossing o (.failed .outputClosed ((m.limitedTo total).backAt scope callers))

namespace Outcome.Limited

variable {crossing crossing' : Machine → Prop}

theorem mono {o o' : Outcome α} (h : Limited total crossing o o')
    (hcrossing : ∀ m, crossing m → crossing' m) : Limited total crossing' o o' := by
  cases h with
  | fits h => exact .fits h
  | cut scope callers h hlater => exact .cut scope callers (hcrossing _ h) hlater

/-- A change of place does not matter. -/
theorem onMachine {o o' : Outcome α} (h : Limited total crossing o o') {k : Machine → Machine}
    (houtput : ∀ m, (k m).output = m.output)
    (hlimited : ∀ m, k (m.limitedTo total) = (k m).limitedTo total)
    (hback : ∀ (m : Machine) scope callers, ∃ scope' callers',
      k (m.backAt scope callers) = m.backAt scope' callers') :
    Limited total crossing (o.onMachine k) (o'.onMachine k) := by
  cases h with
  | fits h =>
    have heq : (o.onMachine (·.limitedTo total)).onMachine k =
        (o.onMachine k).onMachine (·.limitedTo total) := by
      simp only [Outcome.onMachine_onMachine, hlimited]
    rw [heq]
    have hbelow (m : Machine) (hm : m.Below total) : (k m).Below total := hm.of_output (houtput m)
    exact .fits (Outcome.leaves_onMachine.mpr (h.mono (fun _ => hbelow) fun _ => hbelow))
  | @cut m scope callers h hlater =>
    obtain ⟨scope', callers', heq⟩ := hback (m.limitedTo total) scope callers
    have hextends (m' : Machine) (hm : m.Extends m') : m.Extends (k m') :=
      hm.trans (.of_output (houtput m'))
    show Limited total crossing _ (.failed .outputClosed (k _))
    rw [heq]
    exact .cut scope' callers' h
      (Outcome.leaves_onMachine.mpr (hlater.mono (fun _ => hextends) fun _ => hextends))

/-- One run and then another. -/
theorem bind {r : Run α} {f : α → Run β} {m m' : Machine}
    (h : Limited total crossing (r m) (r m'))
    (hnext : ∀ value m₁, r m = .done value m₁ → m₁.Below total →
      Limited total crossing (f value m₁) (f value (m₁.limitedTo total)))
    (hgrows : ∀ value m₁, (f value m₁).Leaves m₁.Extends) :
    Limited total crossing (r.bind f m) (r.bind f m') := by
  unfold Run.bind
  generalize ho : r m = o, r m' = o' at h
  cases h with
  | fits h =>
    cases o with
    | done value m₁ => exact hnext value m₁ ho h
    | failed e m₁ => exact .fits (o := .failed e m₁) h
    | unfinished => exact .fits (o := .unfinished) trivial
  | cut scope callers h hlater =>
    refine .cut scope callers h ?_
    cases o with
    | done value m₁ =>
      exact (hgrows value m₁).mono (fun _ _ => hlater.trans) fun _ _ => hlater.trans
    | failed e m₁ => exact hlater
    | unfinished => trivial

end Outcome.Limited

/-- A step that writes nothing does the same. -/
theorem Run.IsAct.limited {r : Run α} (h : IsAct q host E r) (hE : ¬ E.prints)
    (crossing : Machine → Prop) {m : Machine} (hm : m.Below total) :
    (r m).Limited total crossing (r (m.limitedTo total)) := by
  have haloof (f : Channel → Channel) :
      r { m with output := f m.output } = (r m).onMachine fun m' =>
        { m' with output := f m'.output } :=
    h.aloof (k := .ofOutput f) ⟨fun hprints => absurd hprints hE, fun _ => rfl⟩ m
  -- If the channel is put in place of itself, it is still there at the end.
  have houtput : (r m).Leaves fun m' => m'.output = m.output := by
    have hself : r m = _ := haloof fun _ => m.output
    rw [hself, Outcome.leaves_onMachine]
    cases r m <;> trivial
  have heq : r (m.limitedTo total) = (r m).onMachine (·.limitedTo total) :=
    haloof (·.limitedTo total)
  rw [heq]
  exact .fits (houtput.mono (fun _ _ => hm.of_output) fun _ _ => hm.of_output)

/-- A line is written, or is cut off where the limit is. -/
theorem Run.limited_printLine {crossing : Machine → Prop} {m : Machine} (hm : m.Below total)
    (text : String) (h : total < (m.printed text).output.delivered.size →
      crossing (m.printed text)) :
    (printLine text m).Limited total crossing (printLine text (m.limitedTo total)) := by
  have hwritten : (m.printed text).output =
      ⟨m.output.delivered ++ (text ++ "\n").toUTF8, none⟩ := Channel.delivered_write hm.room _
  have hfits : (m.limitedTo total).output.fits (text ++ "\n").toUTF8 =
      decide ((m.printed text).output.delivered.size ≤ total) :=
    hwritten ▸ Channel.fits_limitedTo hm.size _
  have hdone : printLine text m = .done () (m.printed text) := by
    rw [Machine.printLine_eq, Channel.fits, hm.room]
    rfl
  rw [hdone, Machine.printLine_eq, hfits, Machine.printed_limitedTo hm]
  by_cases hle : (m.printed text).output.delivered.size ≤ total
  · rw [if_pos (decide_eq_true hle)]
    exact .fits (o := .done () (m.printed text)) ⟨hwritten ▸ rfl, hle⟩
  · rw [if_neg (by simpa using hle)]
    exact .cut (o := .done () (m.printed text)) m.scope m.callers (h (Nat.lt_of_not_le hle))
      (.of_output rfl)

/-! ### Crossing the limit -/

/-- In the course of a task a `print` statement is executed that writes across a limit. The machine
is the one right behind the line, if all output is accepted. -/
def Moment.Crosses (host : Host) (total : Nat) (a : Moment) (m : Machine) : Prop :=
  ∃ e m₀ n value m₁, a.Within host ⟨.execute (.print e), m₀⟩ ∧
    Run.evaluate host n e m₀ = .done value m₁ ∧ m₁.Below total ∧
    m = m₁.printed (m₁.store.display value) ∧ total < m.output.delivered.size

/-- Such a statement is executed in the course of a plan. -/
def Plan.Crosses (host : Host) (total : Nat) (p : Plan α) (m₀ m : Machine) : Prop :=
  ∃ t m₁, p.Starts host m₀ t m₁ ∧ Moment.Crosses host total ⟨t, m₁⟩ m

/-- A task ends like its counterpart whose output is limited, or that one is cut off. -/
def Task.Limited (host : Host) (total n : Nat) : Prop :=
  ∀ (t : Task) (m : Machine), m.Below total →
    (t.run host n m).Limited total (Moment.Crosses host total ⟨t, m⟩)
      (t.run host n (m.limitedTo total))

theorem Moment.Crosses.of_plan {t : Task} {m₀ m : Machine}
    (h : (t.plan host).Crosses host total m₀ m) : Moment.Crosses host total ⟨t, m₀⟩ m := by
  obtain ⟨t', m₁, hstarts, e, m₂, n, value, m₃, hwithin, hrest⟩ := h
  have hfirst : Moment.Starts host ⟨t, m₀⟩ ⟨t', m₁⟩ := hstarts
  exact ⟨e, m₂, n, value, m₃, .head hfirst hwithin, hrest⟩

namespace Plan

variable {n : Nat} {p : Plan α}

/-- What is done in a new frame. -/
theorem limited_inFrame {m : Machine}
    (h : (p.follow (Task.run host n) m.enterFrame).Limited total (p.Crosses host total m.enterFrame)
      (p.follow (Task.run host n) (m.enterFrame.limitedTo total))) :
    ((inFrame p).follow (Task.run host n) m).Limited total ((inFrame p).Crosses host total m)
      ((inFrame p).follow (Task.run host n) (m.limitedTo total)) := by
  show Outcome.Limited total _ (Run.inFrame _ m) (Run.inFrame _ (m.limitedTo total))
  rw [Run.inFrame_eq, Run.inFrame_eq]
  exact h.onMachine (fun _ => rfl) (fun _ => rfl) fun m' _ callers => ⟨m.scope, callers, rfl⟩

/-- What is done in a call. -/
theorem limited_inCall {m : Machine} (scope : FrameId)
    (h : (p.follow (Task.run host n) (m.enterCall scope)).Limited total
      (p.Crosses host total (m.enterCall scope))
      (p.follow (Task.run host n) ((m.enterCall scope).limitedTo total))) :
    ((inCall scope p).follow (Task.run host n) m).Limited total
      ((inCall scope p).Crosses host total m)
      ((inCall scope p).follow (Task.run host n) (m.limitedTo total)) := by
  show Outcome.Limited total _ (Run.inCall _ _ m) (Run.inCall _ _ (m.limitedTo total))
  rw [Run.inCall_eq, Run.inCall_eq]
  exact h.onMachine (fun _ => rfl) (fun _ => rfl) fun m' scope callers =>
    ⟨callers.headD scope, callers.tail, rfl⟩

/-- A plan that writes nothing, whose parts are cut off where they cross the limit. -/
theorem limited_follow (hparts : Task.Limited host total n) (hp : p.StepsOnly .any host E)
    (hE : ¬ E.prints) {m : Machine} (hm : m.Below total) :
    (p.follow (Task.run host n) m).Limited total (p.Crosses host total m)
      (p.follow (Task.run host n) (m.limitedTo total)) := by
  induction hp generalizing m with
  | act hr => exact hr.limited hE _ hm
  | @part _ t _ => exact (hparts t m hm).mono fun m' h => ⟨t, m, ⟨rfl, rfl⟩, h⟩
  | @andThen _ _ _ p next hp hnext ihp ihnext =>
    refine Outcome.Limited.bind ((ihp hE hm).mono ?_) (fun value m₁ hdone hm₁ => ?_) ?_
    · rintro m' ⟨t, m₁, hstarts, h⟩
      exact ⟨t, m₁, .inl hstarts, h⟩
    · refine (ihnext value hE hm₁).mono ?_
      rintro m' ⟨t, m₂, hstarts, h⟩
      exact ⟨t, m₂, .inr ⟨n, value, m₁, hdone, hstarts⟩, h⟩
    · exact fun value m₁ => (Machine.respected_extends host).follow n (hnext value) m₁
  | inFrame _ ih => exact limited_inFrame (ih hE ⟨hm.room, hm.size⟩)
  | inCall scope _ _ ih =>
    exact limited_inCall scope (limited_inFrame (ih hE ⟨hm.room, hm.size⟩))

end Plan

namespace Task

/-- A `print` statement writes its line, or is cut off there. -/
theorem limited_print {n : Nat} (hparts : Task.Limited host total n) (e : Expr) {m : Machine}
    (hm : m.Below total) :
    (Run.execute host (n + 1) (.print e) m).Limited total
      (Moment.Crosses host total ⟨.execute (.print e), m⟩)
      (Run.execute host (n + 1) (.print e) (m.limitedTo total)) := by
  have hwrite (value : Value) : (do
      let text ← Plan.look fun m => m.store.display value
      Run.printLine text
      return none : Plan Completion).StepsOnly .any host .all :=
    .andThen (.act (.step (.look fun store _ _ => store.display value))) fun _ =>
      .andThen (.act (.step (.basic (.printLine trivial _)))) fun _ => .act (.step (.pure _))
  rw [← Plan.follow_ofStmt]
  refine Outcome.Limited.bind ((hparts (.evaluate e) m hm).mono fun m' h => ?_)
    (fun value m₁ hdone hm₁ => ?_) fun value m₁ => ?_
  · exact .of_plan ⟨.evaluate e, m, .inl ⟨rfl, rfl⟩, h⟩
  · have hline : (Run.printLine (m₁.store.display value) m₁).Limited total
        (Moment.Crosses host total ⟨.execute (.print e), m⟩)
        (Run.printLine (m₁.store.display value) (m₁.limitedTo total)) :=
      Run.limited_printLine hm₁ _ fun hlt => ⟨e, m, n, value, m₁, .refl, hdone, hm₁, rfl, hlt⟩
    have hend (m₂ : Machine) : (Outcome.done () m₂).Leaves m₂.Extends :=
      Machine.Extends.of_output rfl
    show Outcome.Limited total _
      ((Run.printLine (m₁.store.display value)).bind (fun _ => pure (none : Completion)) m₁)
      ((Run.printLine (m₁.store.display value)).bind (fun _ => pure none) (m₁.limitedTo total))
    exact hline.bind (fun _ m₂ _ hm₂ => .fits (o := .done none m₂) hm₂) fun _ => hend
  · exact (Machine.respected_extends host).follow n (hwrite value) m₁

/-- **Every task ends like its counterpart whose output is limited**, or that one is cut off at the
print statement that crosses the limit. -/
theorem limited (host : Host) (total n : Nat) : Task.Limited host total n := by
  induction n with
  | zero =>
    intro t m _
    rw [run_zero]
    exact .fits (o := .unfinished) trivial
  | succ n ih =>
    intro t m hm
    by_cases hprint : t.IsPrint
    · obtain ⟨e, rfl⟩ := hprint.exists_eq
      exact limited_print ih e hm
    · rw [run_succ]
      exact (Plan.limited_follow ih (t.stepsOnly_any host) hprint hm).mono fun _ => .of_plan

end Task

/-! ### Programs -/

/-- In the course of a program a `print` statement is executed that writes across a limit. The
second machine is the one right behind the line, if all output is accepted. -/
def Run.Crosses (host : Host) (n total : Nat) (ss : List Stmt) (m m' : Machine) : Prop :=
  ∃ front stmt rest m₀, ss = front ++ stmt :: rest ∧ interpret host n front m = .done () m₀ ∧
    Moment.Crosses host total ⟨.execute stmt, m₀⟩ m'

theorem Run.Crosses.lt {n : Nat} {ss : List Stmt} {m m' : Machine}
    (h : Crosses host n total ss m m') : total < m'.output.delivered.size := by
  obtain ⟨_, _, _, _, -, -, _, _, _, _, _, -, -, -, -, hlt⟩ := h
  exact hlt

theorem Run.limited_interpret (host : Host) (n total : Nat) (ss : List Stmt) {m : Machine}
    (hm : m.Below total) : (interpret host n ss m).Limited total (Crosses host n total ss m)
      (interpret host n ss (m.limitedTo total)) := by
  induction ss generalizing m with
  | nil => exact .fits (o := .done () m) hm
  | cons s ss ih =>
    have hfirst := Task.limited host total n (.execute s) m hm
    show Outcome.Limited total _ ((execute host n s).bind (fun _ => interpret host n ss) m)
      ((execute host n s).bind (fun _ => interpret host n ss) (m.limitedTo total))
    refine (hfirst.mono fun m' h => ?_).bind (fun completion m₁ hdone hm₁ => ?_) fun _ m₁ => ?_
    · exact ⟨[], s, ss, m, rfl, rfl, h⟩
    · refine (ih hm₁).mono ?_
      rintro m' ⟨front, stmt, rest, m₀, rfl, hfront, h⟩
      have hrun : interpret host n (s :: front) m = .done () m₀ := by
        show (execute host n s).bind (fun _ => interpret host n front) m = _
        rw [Run.bind, show execute host n s m = _ from hdone]
        exact hfront
      exact ⟨s :: front, stmt, rest, m₀, rfl, hrun, h⟩
    · exact (Machine.respected_extends host).interpret n ss m₁

/-- A program on a channel that accepts all, and on one that accepts only so many bytes. -/
theorem Run.limited_withRoom (host : Host) (n room : Nat) (ss : List Stmt) (m : Machine) :
    (interpret host n ss (m.withRoom none)).Limited (m.output.delivered.size + room)
      (Crosses host n (m.output.delivered.size + room) ss (m.withRoom none))
      (interpret host n ss (m.withRoom (some room))) := by
  rw [← Machine.limitedTo_withRoom]
  exact limited_interpret host n _ ss ⟨rfl, Nat.le_add_right _ _⟩

/-- **A bounded output channel only truncates.** Let a program run to an end, with a result or with
an error, on a channel that accepts all, and let `printed` be the bytes that it writes. On a channel
that accepts `room` bytes it runs to an end too, and the bytes delivered are the first `room` of
these.

* If `printed` fits, then the two runs end in the same way, on machines that are the same but for
  the room that is left.
* If not, then the second run fails since the output is closed, which is reported on line zero. A
  `print` statement of the first run writes across the limit, and right behind it the machine is,
  but for the channel, the one that the second run leaves, with scope and callers put back. -/
theorem output_truncated (host : Host) (n room : Nat) (ss : List Stmt) {m m₁ : Machine}
    (h : (Run.interpret host n ss (m.withRoom none)).Stops m₁) :
    ∃ printed, m₁.output = ⟨m.output.delivered ++ printed, none⟩ ∧
      (∃ m₂, (Run.interpret host n ss (m.withRoom (some room))).Stops m₂ ∧
        m₂.output.delivered = m.output.delivered ++ printed.extract 0 room) ∧
      (printed.size ≤ room → Run.interpret host n ss (m.withRoom (some room)) =
        (Run.interpret host n ss (m.withRoom none)).onMachine
          (·.withRoom (some (room - printed.size)))) ∧
      (room < printed.size → RuntimeError.outputClosed.diagnostic.line = 0 ∧
        ∃ m₂, Run.Crosses host n (m.output.delivered.size + room) ss (m.withRoom none) m₂ ∧
          Run.interpret host n ss (m.withRoom (some room)) = .failed .outputClosed
            { m₂ with
              scope := m.scope
              callers := m.callers
              output := ⟨m.output.delivered ++ printed.extract 0 room, some 0⟩ }) := by
  have hruns := Run.limited_withRoom host n room ss m
  have hplace := (Machine.respected_samePlace host).interpret n ss (m.withRoom (some room))
  -- What the first run prints.
  have hextends := ((Machine.respected_extends host).interpret n ss _).of_stops h
  obtain ⟨printed, hprinted⟩ : ∃ bytes, m₁.output.delivered = m.output.delivered ++ bytes :=
    hextends.delivered
  have hsize : m₁.output.delivered.size = m.output.delivered.size + printed.size := by
    rw [hprinted, ByteArray.size_append]
  have htruncated : m₁.output.delivered.extract 0 (m.output.delivered.size + room) =
      m.output.delivered ++ printed.extract 0 room := by
    rw [hprinted, extract_append_add]
  refine ⟨printed, by rw [← hprinted, ← hextends.room rfl], ?_⟩
  generalize Run.interpret host n ss (m.withRoom none) = o,
    Run.interpret host n ss (m.withRoom (some room)) = o' at h hruns hplace
  cases hruns with
  | fits hleaves =>
    have hfits := (hleaves.of_stops h).size
    have hroom : m.output.delivered.size + room - m₁.output.delivered.size = room - printed.size :=
      by rw [hsize, Nat.add_sub_add_left]
    have hend := Machine.limitedTo_of_size_le hfits
    rw [hroom] at hend
    exact ⟨⟨_, Outcome.stops_onMachine.mpr ⟨_, h, rfl⟩, htruncated⟩,
      fun _ => Outcome.onMachine_congr (h.leaves hend), fun hover => absurd hover (by omega)⟩
  | @cut m₂ scope callers hcrosses hlater =>
    have hlt := hcrosses.lt
    obtain ⟨rest, hrest⟩ := (hlater.of_stops h).delivered
    have hsize' : m₁.output.delivered.size = m₂.output.delivered.size + rest.size := by
      rw [hrest, ByteArray.size_append]
    rw [hrest, extract_append_of_le_size rest (Nat.le_of_lt hlt)] at htruncated
    have houtput : m₂.output.limitedTo (m.output.delivered.size + room) =
        ⟨m.output.delivered ++ printed.extract 0 room, some 0⟩ := by
      rw [Channel.limitedTo, htruncated, Nat.sub_eq_zero_of_le (Nat.le_of_lt hlt)]
    obtain ⟨rfl, rfl⟩ : scope = m.scope ∧ callers = m.callers := hplace
    refine ⟨⟨_, .inr ⟨_, rfl⟩, htruncated⟩, fun hfits => absurd hfits (by omega),
      fun _ => ⟨rfl, m₂, hcrosses, ?_⟩⟩
    rw [← houtput]
    rfl

/-- The limit is crossed in a function that is called in the expression of a `print` statement. -/
theorem output_truncated_call :
    let host := Host.ofSeed 0 0
    let ss := Session.program "fun f() \x7b print 12; print 34; return 5; \x7d print f();"
    let m := Machine.initial (.ofLimit none)
    ∃ m₁ m₂, (Run.interpret host 20 ss (m.withRoom none)).Stops m₁ ∧
      m₁.output.delivered = "12\n34\n5\n".toUTF8 ∧
      Run.interpret host 20 ss (m.withRoom (some 4)) = .failed .outputClosed m₂ ∧
      m₂.output.delivered = "12\n3".toUTF8 ∧ m₂.scope = m.scope ∧ m₂.callers = m.callers := by
  intro host ss m
  have hruns : ((Run.interpret host 20 ss (m.withRoom none)).done?.map
      fun found => found.2.output.delivered) = some "12\n34\n5\n".toUTF8 := by decide +kernel
  obtain ⟨⟨u, m₁⟩, hdone, hdelivered⟩ := Option.map_eq_some_iff.mp hruns
  rw [Outcome.done?_eq_some] at hdone
  obtain ⟨printed, houtput, -, -, hover⟩ := output_truncated host 20 4 ss (.inl ⟨u, hdone⟩)
  have hprinted : printed = "12\n34\n5\n".toUTF8 := by
    rw [← hdelivered, houtput]
    exact ByteArray.empty_append.symm
  obtain ⟨-, m₂, -, hcut⟩ := hover (by rw [hprinted]; decide +kernel)
  refine ⟨m₁, _, .inl ⟨u, hdone⟩, hdelivered, hcut, ?_, rfl, rfl⟩
  rw [hprinted]
  show ByteArray.empty ++ "12\n34\n5\n".toUTF8.extract 0 4 = "12\n3".toUTF8
  decide +kernel

end Lox
