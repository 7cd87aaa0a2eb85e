import Lox.Proofs.Machine.Course
import Lox.Proofs.Program.Trait
import Lox.Proofs.Store.Chain

/-!
# What `this` means

Only the binding of a method to an object defines `this`, in a new frame of its own. No program
gives `this` or any other name a value in such a frame: `this` is a reserved word, and what a body
declares goes into a frame inside. So the frame stays as it was made, and in the body of the method,
as in all functions that are made there, `this` is the object the method was bound to, however late
they run (`this_immutable`).

Main definitions:

* `Machine.Tidy` — names may be given values in the scope of a machine;
* `Frames.Undisturbed` — the frames are still there, each with its `this`;
* `Moment.InBody` — a task is started for the body of a call;
* `Session.Belongs` — a function is a method of an object, or was made in the body of one.
-/

namespace Lox

/-! ### Frames that define `this` -/

namespace Frames

variable {fs fs' fs'' : Frames Value}

/-- A frame that defines `this` defines no other name. -/
def ThisApart (fs : Frames Value) : Prop :=
  ∀ f receiver, fs.own? f Run.thisName = some receiver →
    ∀ name value, fs.own? f name = some value → name = Run.thisName

/-- All frames are still there, each in the frame it was in, and `this` is what it was in each. -/
structure Undisturbed (fs fs' : Frames Value) : Prop where
  /-- No frame was removed. -/
  size : fs.cells.size ≤ fs'.cells.size
  /-- The frames around frames are the same. -/
  parent : ∀ f < fs.cells.size, fs'.parent? f = fs.parent? f
  /-- The frames define the same `this`, or none. -/
  this : ∀ f < fs.cells.size, fs'.own? f Run.thisName = fs.own? f Run.thisName

namespace Undisturbed

theorem refl (fs : Frames Value) : fs.Undisturbed fs :=
  ⟨Nat.le_refl _, fun _ _ => rfl, fun _ _ => rfl⟩

theorem trans (h : fs.Undisturbed fs') (h' : fs'.Undisturbed fs'') : fs.Undisturbed fs'' where
  size := Nat.le_trans h.size h'.size
  parent f hf := (h'.parent f (Nat.lt_of_lt_of_le hf h.size)).trans (h.parent f hf)
  this f hf := (h'.this f (Nat.lt_of_lt_of_le hf h.size)).trans (h.this f hf)

theorem alloc (fs : Frames Value) (parent : Option FrameId) : fs.Undisturbed (fs.alloc parent) where
  size := by rw [size_alloc]; exact Nat.le_succ _
  parent _ hf := parent?_alloc fs parent hf
  this f _ := own?_alloc fs parent f _

theorem define (fs : Frames Value) (g : FrameId) {name : String} (h : name ≠ Run.thisName)
    (value : Value) : fs.Undisturbed (fs.define g name value) where
  size := Nat.le_of_eq (size_define fs g name value).symm
  parent f _ := parent?_define fs g name value f
  this f _ := own?_define_of_ne fs g h.symm value f

/-- What `this` means in a frame that is still there is the same. -/
theorem get? (h : fs.Undisturbed fs') {f : FrameId} (hf : f < fs.cells.size) :
    fs'.get? f Run.thisName = fs.get? f Run.thisName :=
  get?_congr h.this h.parent hf

end Undisturbed

/-- A name may be defined wherever `this` is not. -/
theorem ThisApart.define (h : fs.ThisApart) {g : FrameId} {name : String}
    (hg : fs.own? g Run.thisName = none) (hname : name ≠ Run.thisName) (value : Value) :
    (fs.define g name value).ThisApart := by
  intro f receiver hthis name' value' hvalue
  rw [own?_define_of_ne fs g hname.symm] at hthis
  rw [own?_define, if_neg] at hvalue
  · exact h f receiver hthis name' value' hvalue
  · rintro ⟨rfl, -, -⟩
    exact nomatch hg.symm.trans hthis

/-- A frame that defines another name does not define `this`. -/
theorem ThisApart.own?_eq_none (h : fs.ThisApart) {g : FrameId} {name : String}
    (hg : (fs.own? g name).isSome) (hname : name ≠ Run.thisName) :
    fs.own? g Run.thisName = none := by
  obtain ⟨value, hvalue⟩ := Option.isSome_iff_exists.mp hg
  cases hthis : fs.own? g Run.thisName with
  | none => rfl
  | some receiver => exact absurd (h g receiver hthis name value hvalue) hname

/-! A new frame that defines `this`. -/

theorem own?_bind (fs : Frames Value) (parent : Option FrameId) (receiver : Value) (f : FrameId)
    (name : String) : ((fs.alloc parent).define fs.cells.size Run.thisName receiver).own? f name =
      if f = fs.cells.size ∧ name = Run.thisName then some receiver else fs.own? f name := by
  rw [own?_define, own?_alloc, size_alloc]
  refine ite_congr (propext ?_) (fun _ => rfl) fun _ => rfl
  exact ⟨fun h => ⟨h.1, h.2.2⟩, fun h => ⟨h.1, h.1 ▸ Nat.lt_succ_self _, h.2⟩⟩

theorem get?_bind (fs : Frames Value) (parent : Option FrameId) (receiver : Value) :
    ((fs.alloc parent).define fs.cells.size Run.thisName receiver).get? fs.cells.size Run.thisName =
      some receiver := by
  rw [get?_eq, own?_bind, if_pos ⟨rfl, rfl⟩]
  rfl

theorem Undisturbed.bind (fs : Frames Value) (parent : Option FrameId) (receiver : Value) :
    fs.Undisturbed ((fs.alloc parent).define fs.cells.size Run.thisName receiver) where
  size := by rw [size_define, size_alloc]; exact Nat.le_succ _
  parent f hf := (parent?_define ..).trans (parent?_alloc fs parent hf)
  this f hf := by rw [own?_bind, if_neg fun h => Nat.ne_of_lt hf h.1]

theorem ThisApart.bind (h : fs.ThisApart) (parent : Option FrameId) (receiver : Value) :
    ((fs.alloc parent).define fs.cells.size Run.thisName receiver).ThisApart := by
  intro f receiver' hthis name value hvalue
  rw [own?_bind] at hthis hvalue
  refine Decidable.byContradiction fun hname => ?_
  rw [if_neg fun h => hname h.2] at hvalue
  -- A frame that defines another name is not the new one.
  have hf : f ≠ fs.cells.size := Nat.ne_of_lt (lt_of_own? hvalue)
  rw [if_neg fun h => hf h.1] at hthis
  exact hname (h f receiver' hthis name value hvalue)

end Frames

/-! ### Steps that give names values -/

/-- No name that is given a value is `this`. -/
def Trait.plain : Trait where
  token _ := True
  name t := t.lexeme ≠ Run.thisName
  loops := True
  routine _ := True

/-- **No program gives `this` a value**, since `this` is not an identifier. -/
theorem Session.plain_program (source : String) (h : rejections source = []) :
    Stmt.AllHave .plain (program source) := by
  refine has_program ⟨trivial, fun _ => trivial⟩ h fun t ht => ⟨trivial, fun hkind hname => ?_⟩
  have hcut := cut_of_mem_tokens t ht
  rw [hkind, hname] at hcut
  have hword : Symbol.ofWord? Run.thisName = none := hcut
  exact absurd hword (by decide)

/-- Names may be given values in the scope of a machine without harm to any `this`. -/
structure Machine.Tidy (m : Machine) : Prop where
  /-- Frames that define `this` define nothing else. -/
  apart : m.store.frames.ThisApart
  /-- The scope is a frame. -/
  inside : m.scope < m.store.frames.cells.size
  /-- The scope does not define `this` itself. -/
  free : m.store.frames.own? m.scope Run.thisName = none

/-- A machine is in the same place, may go on giving names values there, and its frames are
undisturbed. -/
structure Machine.Tended (m m' : Machine) : Prop where
  /-- Names may be given values. -/
  tidy : m'.Tidy
  /-- The frames are undisturbed. -/
  frames : m.store.frames.Undisturbed m'.store.frames
  /-- The place is the same. -/
  place : m.SamePlace m'

namespace Machine.Tended

variable {m m' m'' : Machine}

theorem scope (h : m.Tended m') : m'.scope = m.scope :=
  h.place.1

theorem trans (h : m.Tended m') (h' : m'.Tended m'') : m.Tended m'' :=
  ⟨h'.tidy, h.frames.trans h'.frames, h.place.trans h'.place⟩

end Machine.Tended

namespace Machine.Tidy

variable {m m' : Machine}

/-- The built-in functions are not called `this`. -/
theorem own?_initial (output : Channel) (f : FrameId) :
    (Machine.initial output).store.frames.own? f Run.thisName = none := by
  have hne (b : Builtin) : Run.thisName ≠ b.name := by cases b <;> decide
  show (((Frames.empty.alloc none).define 0 _ _).define 0 _ _).own? f Run.thisName = none
  rw [Frames.own?_define_of_ne _ _ (hne .random), Frames.own?_define_of_ne _ _ (hne .clock),
    Frames.own?_alloc]
  rfl

theorem initial (output : Channel) : (Machine.initial output).Tidy where
  apart f receiver h := nomatch (own?_initial output f).symm.trans h
  inside := by
    show 0 < (((Frames.empty.alloc none).define 0 _ _).define 0 _ _).cells.size
    rw [Frames.size_define, Frames.size_define, Frames.size_alloc]
    exact Nat.succ_pos _
  free := own?_initial output _

/-- Changes that leave frames and scope alone do no harm. -/
theorem tended_of_eq (h : m.Tidy) (hframes : m'.store.frames = m.store.frames)
    (hplace : m.SamePlace m') : m.Tended m' where
  tidy := ⟨by rw [hframes]; exact h.apart, by rw [hframes, hplace.1]; exact h.inside,
    by rw [hframes, hplace.1]; exact h.free⟩
  frames := by rw [hframes]; exact .refl _
  place := hplace

/-- A machine whose frames are undisturbed is tidy in a scope in which it was. -/
theorem of_undisturbed (h : m.Tidy) (hframes : m.store.frames.Undisturbed m'.store.frames)
    (hscope : m'.scope = m.scope) (hapart : m'.store.frames.ThisApart) : m'.Tidy where
  apart := hapart
  inside := by rw [hscope]; exact Nat.lt_of_lt_of_le h.inside hframes.size
  free := by rw [hscope, hframes.this _ h.inside]; exact h.free

theorem tended_of_apart (h : m.Tidy) (hframes : m.store.frames.Undisturbed m'.store.frames)
    (hplace : m.SamePlace m') (hapart : m'.store.frames.ThisApart) : m.Tended m' :=
  ⟨h.of_undisturbed hframes hplace.1 hapart, hframes, hplace⟩

end Machine.Tidy

/-- A new frame is fit for names. -/
theorem Machine.tidy_enterFrame {m : Machine} (h : m.store.frames.ThisApart) :
    m.enterFrame.Tidy where
  apart f receiver hthis name value hvalue := by
    have hthis : (m.store.frames.alloc (some m.scope)).own? f Run.thisName = some receiver := hthis
    have hvalue : (m.store.frames.alloc (some m.scope)).own? f name = some value := hvalue
    rw [Frames.own?_alloc] at hthis hvalue
    exact h f receiver hthis name value hvalue
  inside := by
    show m.store.frames.cells.size < (m.store.frames.alloc _).cells.size
    rw [Frames.size_alloc]
    exact Nat.lt_succ_self _
  free := by
    show (m.store.frames.alloc _).own? m.store.frames.cells.size _ = none
    rw [Frames.own?_alloc, Frames.own?_of_le (Nat.le_refl _)]

/-- A basic step leaves the frames alone, or it defines a name in the scope or where the name is
defined. -/
theorem Run.IsBasic.frames_cases {q : Trait} {host : Host} {E : Effects} {α : Type} {r : Run α}
    (h : IsBasic q host E r) (m : Machine) : (r m).Leaves fun m' => m.SamePlace m' ∧
      (m'.store.frames = m.store.frames ∨ ∃ g name value, q.name name ∧
        (g = m.scope ∨ (m.store.frames.own? g name.lexeme).isSome) ∧
        m'.store.frames = m.store.frames.define g name.lexeme value) := by
  cases h with
  | @define name _ hname value => exact ⟨.refl m, .inr ⟨m.scope, name, value, hname, .inl rfl, rfl⟩⟩
  | @assign name hname value =>
    refine ⟨.refl m, ?_⟩
    obtain h | ⟨g, hg, h⟩ := m.store.frames.assign_cases m.scope name.lexeme value
    · exact .inl h
    · exact .inr ⟨g, name, value, hname, .inr hg, h⟩
  | printLine _ text =>
    unfold Run.printLine
    dsimp only
    split <;> exact ⟨.refl m, .inl rfl⟩
  | _ => exact ⟨.refl m, .inl rfl⟩

/-- **Programs leave every `this` alone.** -/
theorem Machine.upheld_tidy (host : Host) : Upheld .plain host Machine.Tidy Machine.Tended where
  refl h := h.tended_of_eq rfl (.refl _)
  trans := .trans
  after h := h.tidy
  basic {_ _ _ m} hb hm := by
    have hends := hb.frames_cases m
    refine hends.mono (fun _ m' h => ?_) fun _ m' h => ?_
    all_goals
      obtain ⟨hplace, hframes | ⟨g, name, value, hname, hg, hframes⟩⟩ := h
      · exact hm.tended_of_eq hframes hplace
      · have hfree : m.store.frames.own? g Run.thisName = none := by
          obtain rfl | hg := hg
          · exact hm.free
          · exact hm.apart.own?_eq_none hg hname
        refine hm.tended_of_apart ?_ hplace ?_ <;> rw [hframes]
        · exact .define _ _ hname _
        · exact hm.apart.define hfree hname _
  bindMethod _ _ m hm := hm.tended_of_apart (.bind _ _ _) (.refl m) (hm.apart.bind _ _)
  enterFrame hm := Machine.tidy_enterFrame hm.apart
  backIn hm h := hm.tended_of_apart ((Frames.Undisturbed.alloc _ _).trans h.frames)
    ⟨rfl, h.place.2⟩ h.tidy.apart
  enterCall _ hm := Machine.tidy_enterFrame hm.apart
  leaveCall hm h := by
    rw [h.place.leaveCall_eq]
    exact hm.tended_of_apart ((Frames.Undisturbed.alloc _ _).trans h.frames) ⟨rfl, rfl⟩ h.tidy.apart

/-! ### Where `this` comes from -/

/-- What one move of a session does to the frames that define `this`. -/
structure Machine.Moved (m m' : Machine) : Prop where
  /-- All that were there are undisturbed. -/
  frames : m.store.frames.Undisturbed m'.store.frames
  /-- They define no other name. -/
  apart : m.store.frames.ThisApart → m'.store.frames.ThisApart
  /-- A new one comes from the binding of a method. -/
  bound : ∀ f receiver, m'.store.frames.own? f Run.thisName = some receiver →
    m.store.frames.own? f Run.thisName = some receiver ∨
      ∃ method g, Run.bindMethod method receiver m = .done g m' ∧ g.scope = f

theorem Run.IsStep.own?_this {host : Host} {E : Effects} {α : Type} {r : Run α}
    (h : IsStep .plain host E r) (m : Machine) : (r m).Leaves fun m' =>
      ∀ f, m'.store.frames.own? f thisName = m.store.frames.own? f thisName := by
  induction h generalizing m with
  | basic hb =>
    have hends := hb.frames_cases m
    refine hends.mono (fun _ m' h f => ?_) fun _ m' h f => ?_
    all_goals
      obtain ⟨-, hframes | ⟨g, name, value, hname, -, hframes⟩⟩ := h <;> rw [hframes]
      exact Frames.own?_define_of_ne _ g (Ne.symm hname) value f
  | bind _ _ ihr ihf =>
    refine ends_bind.mpr ((ihr m).mono (fun value m₁ h₁ => ?_) fun _ _ h₁ => h₁)
    exact (ihf value m₁).mono (fun _ _ h₂ f => (h₂ f).trans (h₁ f))
      fun _ _ h₂ f => (h₂ f).trans (h₁ f)

/-- The steps of plans make no frame that defines `this` but for the binding of methods. -/
theorem Run.IsAct.own?_this {host : Host} {E : Effects} {α : Type} {r : Run α}
    (h : IsAct .plain host E r) (m : Machine) : (r m).Leaves fun m' =>
      (∀ f, m'.store.frames.own? f thisName = m.store.frames.own? f thisName) ∨
        ∃ method id g, Run.bindMethod method (.object id) m = .done g m' := by
  induction h with
  | step h => exact (h.own?_this m).mono (fun _ _ h => .inl h) fun _ _ h => .inl h
  | bindMethod method id => exact .inr ⟨method, id, _, rfl⟩
  | look f _ ih => exact ih _
  | map _ f ih => exact ends_bind.mpr ih

variable {host : Host} {output : Channel}

/-- **Every move of a session leaves each `this` alone**, and only the binding of a method adds
one. -/
theorem Session.Moves.moved {m m' : Machine} (h : Session.Moves host output m m') : m.Moved m' := by
  have hupheld := Machine.upheld_tidy host
  refine hupheld.moves Session.plain_program (Machine.Tidy.initial output) (S := Machine.Moved)
    ?_ ?_ ?_ h
  · intro E α r m m' hr hm hstops
    have htended := (hupheld.act hr hm).of_stops hstops
    refine ⟨htended.frames, fun _ => htended.tidy.apart, fun f receiver hthis => ?_⟩
    obtain hsame | ⟨method, id, g, hbind⟩ := (hr.own?_this m).of_stops hstops
    · exact .inl ((hsame f).symm.trans hthis)
    · obtain ⟨rfl, rfl⟩ := Outcome.done.inj hbind
      have hown : ((m.store.frames.alloc (some method.scope)).define m.store.frames.cells.size
        Run.thisName (.object id)).own? f Run.thisName = some receiver := hthis
      rw [Frames.own?_bind] at hown
      split at hown
      · rename_i hf
        obtain rfl := Option.some.inj hown
        exact .inr ⟨method, _, rfl, hf.1.symm⟩
      · exact .inl hown
  · intro m
    refine ⟨.alloc _ _, fun h => (Machine.tidy_enterFrame h).apart, fun f receiver hthis => .inl ?_⟩
    have hthis : (m.store.frames.alloc (some m.scope)).own? f Run.thisName = some receiver := hthis
    rwa [Frames.own?_alloc] at hthis
  · intro m m' hstore
    have hframes : m'.store.frames = m.store.frames := congrArg Store.frames hstore
    refine ⟨?_, ?_, ?_⟩ <;> rw [hframes]
    · exact .refl _
    · exact fun h => h
    · exact fun f receiver hthis => .inl hthis

theorem Session.Later.undisturbed {m m' : Machine} (h : Session.Later host output m m') :
    m.store.frames.Undisturbed m'.store.frames := by
  induction h with
  | refl => exact .refl _
  | tail _ hmoves ih => exact ih.trans hmoves.moved.frames

/-- In all machines of a session the frames that define `this` define nothing else. -/
theorem Session.Later.thisApart {m : Machine} (h : Session.Later host output (.initial output) m) :
    m.store.frames.ThisApart := by
  induction h with
  | refl => exact (Machine.Tidy.initial output).apart
  | tail _ hmoves ih => exact hmoves.moved.apart ih

/-- All frames that define `this` come from the binding of a method. -/
theorem Session.Later.exists_bindMethod {m : Machine}
    (h : Session.Later host output (.initial output) m) {f : FrameId} {receiver : Value}
    (hthis : m.store.frames.own? f Run.thisName = some receiver) :
    ∃ m₀ m₁ method g, Session.Later host output (.initial output) m₀ ∧
      Session.Moves host output m₀ m₁ ∧ Session.Later host output m₁ m ∧
      Run.bindMethod method receiver m₀ = .done g m₁ ∧ g.scope = f := by
  induction h with
  | refl => exact nomatch (Machine.Tidy.own?_initial output f).symm.trans hthis
  | @tail m m' hlater hmoves ih =>
    obtain hthis | ⟨method, g, hbind, hscope⟩ := hmoves.moved.bound f receiver hthis
    · obtain ⟨m₀, m₁, method, g, h₀, h₁, hrest, hbind⟩ := ih hthis
      exact ⟨m₀, m₁, method, g, h₀, h₁, hrest.tail hmoves, hbind⟩
    · exact ⟨m, m', method, g, hlater, hmoves, .refl, hbind, hscope⟩

/-! ### Bodies -/

/-- A task is started for the body of a call that is a moment: not for the body of another call that
is made on the way. -/
inductive Moment.InBody (host : Host) (a : Moment) : Moment → Prop where
  | start {b : Moment} (h : a.Starts host b) : InBody host a b
  | step {b c : Moment} (h : InBody host a b) (hb : ¬ b.task.IsInvoke) (hc : b.Starts host c) :
      InBody host a c

/-- What `this` means in the scope of a machine. -/
def Machine.this? (m : Machine) : Option Value :=
  m.store.frames.get? m.scope Run.thisName

theorem Machine.this?_enterFrame {m : Machine} (h : m.scope < m.store.frames.cells.size) :
    m.enterFrame.this? = m.this? :=
  Frames.get?_alloc_size h _

theorem Machine.Tended.this? {m m' : Machine} (h : m.Tended m') (hm : m.Tidy) :
    m'.this? = m.this? := by
  rw [Machine.this?, h.scope]
  exact h.frames.get? hm.inside

/-- Where a plan starts a task without a call, `this` means what it means where the plan begins. -/
theorem Plan.this?_of_starts {E : Effects} {α : Type} {p : Plan α}
    (hp : p.StepsOnly .plain host E) (hE : ¬ E.calls) {m m' : Machine} {t : Task} (hm : m.Tidy)
    {result : α → Machine → Prop} {error : RuntimeError → Machine → Prop}
    (hmeets : p.Meets Trait.plain.invariant.contract m result error)
    (hs : p.Starts host m t m') : m'.this? = m.this? := by
  have hupheld := Machine.upheld_tidy host
  induction hp generalizing m error with
  | act _ => exact hs.elim
  | part _ =>
    obtain ⟨rfl, rfl⟩ := hs
    rfl
  | andThen hp _ ihp ihnext =>
    obtain hs | ⟨n, value, m₁, hdone, hs⟩ := hs
    · exact ihp hE hm hmeets hs
    · have hends := hupheld.follow n hp hm hmeets
      rw [hdone] at hends
      exact (ihnext value hE hends.2.tidy hends.1 hs).trans (hends.2.this? hm)
  | inFrame _ ih =>
    exact (ih hE (hupheld.enterFrame hm) hmeets hs).trans (Machine.this?_enterFrame hm.inside)
  | inCall _ hcalls => exact absurd hcalls hE

namespace Session

/-- At every moment of a session no name that is given a value is `this`, in the task as in the
functions of the machine, and names may be given values in the scope. -/
theorem Happens.tidy {a : Moment} (h : Happens host output a) :
    (a.task.Has .plain ∧ a.machine.Has .plain) ∧ a.machine.Tidy :=
  (Machine.upheld_tidy host).happens plain_program (Machine.Tidy.initial output) h

theorem Happens.this?_of_starts {a b : Moment} (h : Happens host output a) (ha : ¬ a.task.IsInvoke)
    (hs : a.Starts host b) : b.machine.this? = a.machine.this? := by
  obtain ⟨hhas, hm⟩ := h.tidy
  have hmeets := Invariant.contract_kept (Trait.plain.invariant_kept host) a.task a.machine hhas
  exact Plan.this?_of_starts (Task.stepsOnly_plan host hhas.1) ha hm hmeets hs

/-- In the body of a call `this` means what it means in the scope of the function. -/
theorem Happens.this?_of_inBody {f : Closure} {paren : Token} {values : List Value} {m : Machine}
    {b : Moment} (h : Happens host output ⟨.invoke f paren values, m⟩)
    (hf : f.scope < m.store.frames.cells.size)
    (hb : Moment.InBody host ⟨.invoke f paren values, m⟩ b) :
    Happens host output b ∧ b.machine.this? = m.store.frames.get? f.scope Run.thisName := by
  induction hb with
  | start hs =>
    refine ⟨h.starts hs, ?_⟩
    obtain ⟨⟨⟨-, hroutine, -⟩, -⟩, hm⟩ := h.tidy
    obtain ⟨-, -, hdone⟩ := Plan.starts_ofInvoke.mp hs
    have hupheld := Machine.upheld_tidy host
    have hcall := hupheld.enterCall f.scope hm
    have hstep : Run.IsStep .plain host .all (Run.defineAll f.routine.parameters values) :=
      .defineAll trivial hroutine.parameters values
    have htended := (hupheld.step hstep hcall).of_stops (.inl ⟨(), hdone⟩)
    exact (htended.this? hcall).trans (Machine.this?_enterFrame hf)
  | step _ hnot hs ih => exact ⟨ih.1.starts hs, (ih.1.this?_of_starts hnot hs).trans ih.2⟩

/-- A function belongs to an object: on a machine of a session it is a method that was obtained by
an access to the object, or it was made in the body of a function that belongs to the object. -/
inductive Belongs (host : Host) (output : Channel) (id : ObjectId) : Closure → Machine → Prop where
  /-- The access `object.name`, on an object without a field of the name whose class has a method of
  the name. -/
  | access {object : Expr} {name : Token} {m m₁ m₂ : Machine} {n : Nat} {o : Object}
      {method f : Closure} (happens : Happens host output ⟨.evaluate (.get object name), m⟩)
      (target : Run.evaluate host n object m = .done (.object id) m₁)
      (found : m₁.store.objects[id]? = some o) (noField : o.fields.get? name.lexeme = none)
      (hasMethod : o.ofClass.methods.get? name.lexeme = some method)
      (yields : Run.evaluate host (n + 1) (.get object name) m = .done (.function f) m₂) :
      Belongs host output id f m₂
  /-- What belongs to an object does so ever after. -/
  | later {f : Closure} {m m' : Machine} (h : Belongs host output id f m)
      (hlater : Later host output m m') : Belongs host output id f m'
  /-- A new function, made in the scope of a moment of the body. -/
  | made {f g : Closure} {paren : Token} {values : List Value} {m m₁ m₂ : Machine} {b : Moment}
      {routine : Routine} {isInitializer : Bool} (h : Belongs host output id f m)
      (happens : Happens host output ⟨.invoke f paren values, m⟩)
      (inBody : Moment.InBody host ⟨.invoke f paren values, m⟩ b)
      (makes : Run.makeClosure routine isInitializer m₁ = .done g m₂)
      (place : m₁.scope = b.machine.scope) : Belongs host output id g b.machine

/-- In the scope of a function that belongs to an object `this` is the object. -/
theorem Belongs.get?_this {id : ObjectId} {f : Closure} {m : Machine}
    (h : Belongs host output id f m) : f.scope < m.store.frames.cells.size ∧
      m.store.frames.get? f.scope Run.thisName = some (.object id) := by
  induction h with
  | @access object name m m₁ m₂ n o method f _ target found noField hasMethod yields =>
    have hmember : Run.member (.object id) name m₁ = .done (.function f) m₂ := by
      rw [Run.evaluate] at yields
      have hbind : (Run.evaluate host n object).bind _ m = Outcome.done (Value.function f) m₂ :=
        yields
      rwa [Run.bind, target] at hbind
    rw [Run.member_method found noField hasMethod] at hmember
    obtain ⟨hf, rfl⟩ := Outcome.done.inj hmember
    obtain rfl := Value.function.inj hf
    have hsize : m₁.store.frames.cells.size < ((m₁.store.frames.alloc (some method.scope)).define
        m₁.store.frames.cells.size Run.thisName (.object id)).cells.size := by
      rw [Frames.size_define, Frames.size_alloc]
      exact Nat.lt_succ_self _
    exact ⟨hsize, m₁.store.frames.get?_bind (some method.scope) (.object id)⟩
  | later _ hlater ih =>
    have hframes := hlater.undisturbed
    exact ⟨Nat.lt_of_lt_of_le ih.1 hframes.size, (hframes.get? ih.1).trans ih.2⟩
  | made _ happens inBody makes place ih =>
    obtain ⟨hb, hthis⟩ := happens.this?_of_inBody ih.1 inBody
    obtain ⟨rfl, -⟩ := Outcome.done.inj makes
    have hscope := hb.tidy.2.inside
    rw [← place] at hscope
    refine ⟨hscope, ?_⟩
    rw [← ih.2, ← hthis, Machine.this?, ← place]

end Session

/-- **The receiver of a method is immutable.** In all machines of a session, between its runs as at
any point inside them, a frame that defines `this` was made by the binding of a method on the way
there, defines no other name, and defines the same `this` ever after. So wherever `this` is
evaluated in the body of a method that was obtained by an access to an object, or of a function that
was made there, however late it runs, it is that object. -/
theorem this_immutable (host : Host) (output : Channel) :
    (∀ m, Session.Later host output (.initial output) m →
      ∀ f receiver, m.store.frames.own? f Run.thisName = some receiver →
        (∃ m₀ m₁ method g, Session.Later host output (.initial output) m₀ ∧
          Session.Moves host output m₀ m₁ ∧ Session.Later host output m₁ m ∧
          Run.bindMethod method receiver m₀ = .done g m₁ ∧ g.scope = f) ∧
        (∀ name value, m.store.frames.own? f name = some value → name = Run.thisName) ∧
        ∀ m', Session.Later host output m m' →
          m'.store.frames.own? f Run.thisName = some receiver) ∧
    ∀ id f m, Session.Belongs host output id f m →
      ∀ paren values, Session.Happens host output ⟨.invoke f paren values, m⟩ →
        ∀ name m', Moment.InBody host ⟨.invoke f paren values, m⟩ ⟨.evaluate (.name name), m'⟩ →
          name.lexeme = Run.thisName →
            ∀ n, Run.evaluate host (n + 1) (.name name) m' = .done (.object id) m' := by
  constructor
  · intro m hm f receiver hown
    refine ⟨hm.exists_bindMethod hown, hm.thisApart f receiver hown, fun m' hlater => ?_⟩
    exact (hlater.undisturbed.this f (Frames.lt_of_own? hown)).trans hown
  · intro id f m hbelongs paren values happens name m' hbody hname n
    obtain ⟨hscope, hthis⟩ := hbelongs.get?_this
    have hvalue : m'.store.frames.get? m'.scope name.lexeme = some (.object id) := by
      rw [hname, ← hthis]
      exact (happens.this?_of_inBody hscope hbody).2
    rw [Run.evaluate]
    simp only [Run.lookUp, hvalue]

/-- Whether `a` is an object with a method `m` of its class that returns `this`, and a program is
the call `a.m()`. -/
def Session.callsGiver (s : Session) (program : List Stmt) : Bool :=
  match s.machine.store.frames.get? s.machine.scope "a", program with
  | some (.object id), [.expression (.call (.get (.name x) y) _ [])] =>
    match s.machine.store.objects[id]? with
    | some o =>
      match o.ofClass.methods.get? "m" with
      | some ⟨_, .mk [] (.block [.jump _ (some (.name name))]), _, _⟩ =>
        x.lexeme == "a" && y.lexeme == "m" && name.lexeme == Run.thisName &&
          (o.fields.get? "m").isNone && decide (s.machine.depth < maxDepth)
      | _ => false
    | none => false
  | _, _ => false

/-- A method that gives its receiver back, called by an access to an object of an earlier text. -/
theorem this_immutable_given_back :
    let host := Host.ofSeed 0 0
    let output := Channel.ofLimit none
    ∃ id f m paren name m', Session.Later host output (.initial output) m ∧
      m.store.frames.own? f.scope Run.thisName = some (.object id) ∧
      (∀ name value, m.store.frames.own? f.scope name = some value → name = Run.thisName) ∧
      Session.Belongs host output id f m ∧ Session.Happens host output ⟨.invoke f paren [], m⟩ ∧
      Moment.InBody host ⟨.invoke f paren [], m⟩ ⟨.evaluate (.name name), m'⟩ ∧
      name.lexeme = Run.thisName ∧
      Run.evaluate host 1 (.name name) m' = .done (.object id) m' := by
  intro host output
  -- The first text leaves an object in `a`, and the method of its class returns `this`.
  have hruns : ((Session.run host 30 "class A \x7b m() \x7b return this; \x7d \x7d var a = A();"
      (.initial output)).map fun ran => ran.2.callsGiver (Session.program "a.m();")) =
        some true := by decide +kernel
  obtain ⟨⟨reported, s⟩, hrun, hchecked⟩ := Option.map_eq_some_iff.mp hruns
  have hs : Session.Reaches host (.initial output) s := .single ⟨30, _, reported, hrun⟩
  unfold Session.callsGiver at hchecked
  split at hchecked
  case h_2 => cases hchecked
  case h_1 id x y paren hvariable hprogram =>
  split at hchecked
  case h_2 => cases hchecked
  case h_1 o hobject =>
  split at hchecked
  case h_2 => cases hchecked
  case h_1 serial keyword name scope isInitializer hmethod =>
  simp only [Bool.and_eq_true, beq_iff_eq, Option.isNone_iff_eq_none, decide_eq_true_eq] at hchecked
  obtain ⟨⟨⟨⟨hx, hy⟩, hname⟩, hfield⟩, hdepth⟩ := hchecked
  rw [← hx] at hvariable
  rw [← hy] at hfield hmethod
  -- The access yields the method, bound to the object.
  let body : Stmt := .block [.jump keyword (some (.name name))]
  let f : Closure := ⟨s.machine.store.serial, .mk [] body, s.machine.store.nextFrame, isInitializer⟩
  obtain ⟨m, hbind⟩ : ∃ m, Run.bindMethod ⟨serial, .mk [] body, scope, isInitializer⟩ (.object id)
    s.machine = .done f m := ⟨_, rfl⟩
  let access : Expr := .get (.name x) y
  have htarget : Run.evaluate host 1 (.name x) s.machine = .done (.object id) s.machine := by
    rw [Run.evaluate]
    simp only [Run.lookUp, hvariable]
  have hyields : Run.evaluate host 2 access s.machine = .done (.function f) m := by
    rw [Run.evaluate]
    show (Run.evaluate host 1 (.name x)).bind _ s.machine = _
    rw [Run.bind, htarget]
    show Run.member (.object id) y s.machine = _
    rw [Run.member_method hobject hfield hmethod]
    show (Run.bindMethod _ (.object id)).bind _ s.machine = _
    rw [Run.bind, hbind]
    rfl
  -- From the statement to the access and to the call of the method.
  let call : Expr := .call access paren []
  have hexec : s.Executes host "a.m();" (.expression call) s.machine :=
    ⟨by decide +kernel, [], [], 0, hprogram, rfl⟩
  have hstmt : Session.Happens host output ⟨.execute (.expression call), s.machine⟩ :=
    ⟨s, _, _, _, hs, hexec, .refl⟩
  have hcall : Session.Happens host output ⟨.evaluate call, s.machine⟩ :=
    hstmt.starts (.inl ⟨rfl, rfl⟩)
  have haccess : Session.Happens host output ⟨.evaluate access, s.machine⟩ :=
    hcall.starts (.inl ⟨rfl, rfl⟩)
  have hfunction : Session.Happens host output ⟨.call (.function f) paren [], m⟩ :=
    hcall.starts (.inr ⟨2, .function f, m, hyields, .inr ⟨1, [], m, rfl, rfl, rfl⟩⟩)
  have hinvoke : Session.Happens host output ⟨.invoke f paren [], m⟩ :=
    hfunction.starts ⟨rfl, rfl⟩
  -- In the body, two frames further in, `this` is evaluated.
  have hdepth : m.depth < maxDepth := by
    obtain ⟨-, rfl⟩ := Outcome.done.inj hbind
    exact hdepth
  let frame : Machine := (m.enterCall f.scope).enterFrame
  let inside : Machine := frame.enterFrame
  have hblock : Moment.InBody host ⟨.invoke f paren [], m⟩ ⟨.execute body, frame⟩ :=
    .start (Plan.starts_ofInvoke.mpr ⟨hdepth, rfl, rfl⟩)
  have hjumps : Moment.InBody host ⟨.invoke f paren [], m⟩
      ⟨.executeAll [.jump keyword (some (.name name))], inside⟩ := hblock.step not_false ⟨rfl, rfl⟩
  have hjump : Moment.InBody host ⟨.invoke f paren [], m⟩
      ⟨.execute (.jump keyword (some (.name name))), inside⟩ := hjumps.step not_false (.inl ⟨rfl, rfl⟩)
  have hbody : Moment.InBody host ⟨.invoke f paren [], m⟩ ⟨.evaluate (.name name), inside⟩ :=
    hjump.step not_false (.inl ⟨rfl, rfl⟩)
  have hbelongs : Session.Belongs host output id f m :=
    .access haccess htarget hobject hfield hmethod hyields
  have hlater : Session.Later host output (.initial output) m := hinvoke.later
  have hown : m.store.frames.own? f.scope Run.thisName = some (.object id) := by
    obtain ⟨-, rfl⟩ := Outcome.done.inj hbind
    exact (Frames.own?_bind s.machine.store.frames (some scope) (.object id) _ _).trans
      (if_pos ⟨rfl, rfl⟩)
  obtain ⟨hframes, hevaluates⟩ := this_immutable host output
  exact ⟨id, f, m, paren, name, inside, hlater, hown, (hframes m hlater f.scope _ hown).2.1,
    hbelongs, hinvoke, hbody, hname, hevaluates id f m hbelongs paren [] hinvoke name inside hbody
      hname 0⟩

/-- **A method of a class is not bound to the object through which it is obtained.** Here `k`
belongs to the class and was made in a body of another object, which is what `this` is in it. -/
theorem not_this_of_classMethod :
    ((Session.run (.ofSeed 0 0) 40 ("class B \x7b m() \x7b " ++
      "class A \x7b class k() \x7b return this; \x7d \x7d var a = A(); print a.k() == a; " ++
      "\x7d \x7d B().m();") (.initial (.ofLimit none))).map fun (reported, s) =>
        (reported.isEmpty, s.machine.output.delivered)) = some (true, "false\n".toUTF8) := by
  decide +kernel

end Lox
