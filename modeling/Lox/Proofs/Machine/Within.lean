import Lox.Proofs.Machine.Scope
import Lox.Proofs.Machine.Varied

/-!
# Machines that refer to frames that exist

A machine refers to frames: its scope, the scopes of its callers, and the scopes of the functions
that it carries. It is sound if all of these frames exist. A machine is sound exactly if it matches
itself (`Machine.Sound.match_same`, `Machine.Match.sound`), so programs, which take machines that
match to machines that match, keep machines sound (`Machine.Sound.interpret`). The machine before
the first program is sound, and so is every machine that a session comes to
(`Session.sound_of_reaches`).
-/

namespace Lox

/-! ### Sound machines -/

section

variable (P : FrameId → Prop)

/-- The frame in which a function is run is as `P` demands. -/
def Closure.Within (f : Closure) : Prop :=
  P f.scope

/-- The frames in which the methods of a class are run are as `P` demands. -/
structure Class.Within (c : Class) : Prop where
  /-- The frames of the methods are. -/
  methods : ∀ e ∈ c.methods.entries, e.2.Within P
  /-- The frames of the class methods are. -/
  classMethods : ∀ e ∈ c.classMethods.entries, e.2.Within P

/-- The frames in which the functions in a value are run are as `P` demands. -/
def Value.Within : Value → Prop
  | .function f => f.Within P
  | .klass c => c.Within P
  | _ => True

/-- The frames that an object refers to are as `P` demands. -/
structure Object.Within (o : Object) : Prop where
  /-- The frames of its class are. -/
  ofClass : o.ofClass.Within P
  /-- The frames of the values of its fields are. -/
  fields : ∀ e ∈ o.fields.entries, e.2.Within P

/-- All frames that a machine refers to are as `P` demands. -/
structure Machine.Within (m : Machine) : Prop where
  /-- The scope of the machine is. -/
  scope : P m.scope
  /-- The scopes of the callers are. -/
  callers : ∀ f ∈ m.callers, P f
  /-- The frames of the values of names are. -/
  frames (f : FrameId) (name : String) (v : Value) :
    m.store.frames.own? f name = some v → v.Within P
  /-- The frames that objects refer to are. -/
  objects (id : ObjectId) (o : Object) : m.store.objects[id]? = some o → o.Within P
  /-- The frames of the value of the last `return` are. -/
  returned : m.returned.Within P

end

/-- All frames that a machine refers to exist. -/
abbrev Machine.Sound (m : Machine) : Prop :=
  m.Within (· < m.store.nextFrame)

/-! ### No demands -/

variable {N : Naming} {cs : List Revision} {w : World N} {P : FrameId → Prop}

/-! ### What matches itself -/

section

variable (hr : ∀ r : Routine, r.Revised cs r) (hP : ∀ f, P f → w.Stands f f)
include hr hP

theorem Closure.Within.match_self {f : Closure} (h : f.Within P) : f.Match cs w f :=
  ⟨rfl, hr f.routine, hP _ h, rfl⟩

theorem Class.Within.match_self {c : Class} (h : c.Within P) : c.Match cs w c :=
  ⟨rfl, rfl, Table.like_self fun e he => (h.methods e he).match_self hr hP,
    Table.like_self fun e he => (h.classMethods e he).match_self hr hP⟩

theorem Value.Within.match_self {v : Value} (h : v.Within P) : v.Match cs w v := by
  cases v with
  | nil => exact .nil
  | bool value => exact .bool value
  | number value => exact .number value
  | text value => exact .text value
  | builtin b => exact .builtin b
  | function f => exact .function (Closure.Within.match_self hr hP h)
  | klass c => exact .klass (Class.Within.match_self hr hP h)
  | object id => exact .object id

theorem Object.Within.match_self {o : Object} (h : o.Within P) : o.Match cs w o :=
  ⟨h.ofClass.match_self hr hP, Table.like_self fun e he => (h.fields e he).match_self hr hP⟩

theorem Machine.Within.match_self {m : Machine} (h : m.Within P)
    (hframes : m.store.frames.Match w (Value.Match cs w) m.store.frames) :
    m.Match cs w m.scopes m.scopes m where
  store := {
    frames := hframes
    objects := fun id => by
      cases ho : m.store.objects[id]? with
      | none => exact .none
      | some o => exact .some ((h.objects id o ho).match_self hr hP)
    serial := rfl }
  scopes := rfl
  scopes' := rfl
  stands := ⟨hP _ h.scope, List.forall₂_same.mpr fun f hf => hP f (h.callers f hf)⟩
  returned := h.returned.match_self hr hP
  output := rfl
  readings := rfl

end

/-- A sound machine matches itself, in the world in which each frame stands for itself. -/
theorem Machine.Sound.match_same (hr : ∀ r : Routine, r.Revised cs r) {m : Machine}
    (h : m.Sound) : m.Match cs (.same m.store.nextFrame) m.scopes m.scopes m := by
  have hself (f : FrameId) (hf : f < m.store.nextFrame) :
      (World.same m.store.nextFrame).Stands f f := World.stands_same.mpr ⟨rfl, hf⟩
  exact Within.match_self hr hself h
    (Frames.match_same fun f name v hv => (h.frames f name v hv).match_self hr hself)

/-! ### What matches is sound -/

section

variable (hP : ∀ f f', w.Stands f f' → P f')
include hP

theorem Closure.Match.within {f f' : Closure} (h : f.Match cs w f') : f'.Within P :=
  hP _ _ h.scope

theorem Class.Match.within {c c' : Class} (h : c.Match cs w c') : c'.Within P :=
  ⟨h.methods.forall_right fun _ _ hf => hf.within hP,
    h.classMethods.forall_right fun _ _ hf => hf.within hP⟩

theorem Value.Match.within {v v' : Value} (h : v.Match cs w v') : v'.Within P := by
  cases h with
  | function h => exact h.within hP
  | klass h => exact h.within hP
  | _ => trivial

theorem Object.Match.within {o o' : Object} (h : o.Match cs w o') : o'.Within P :=
  ⟨h.ofClass.within hP, h.fields.forall_right fun _ _ hv => hv.within hP⟩

end

/-- A machine that matches another one is sound, if each of its frames stands for a frame. -/
theorem Machine.Match.sound {w : World .renamed} {a a' : Scopes} {m m' : Machine}
    (h : m.Match cs w a a' m') : m'.Sound := by
  have hfits : w.Fits m.store.nextFrame m'.store.nextFrame := h.store.frames.fits
  have hlt (f f' : FrameId) (hf : w.Stands f f') : f' < m'.store.nextFrame :=
    (hfits.lt_iff hf).mp (hfits.lt hf)
  constructor
  case scope =>
    rw [h.scope']
    exact hlt _ _ h.stands.scope
  case callers =>
    have hcallers := h.stands.callers
    rw [h.callers']
    generalize a.callers = callers, a'.callers = callers' at hcallers
    induction hcallers with
    | nil => exact List.forall_mem_nil _
    | cons hf _ ih => exact List.forall_mem_cons.mpr ⟨hlt _ _ hf, ih⟩
  case frames =>
    intro f' name v' hv
    obtain ⟨f, hf⟩ := hfits.exists_stands (Frames.lt_of_own? hv)
    by_cases hmain : w.Main f f'
    · have hown := h.store.frames.own? name hmain
      rw [hv] at hown
      generalize m.store.frames.own? f name = v at hown
      cases hown with
      | some hmatch => exact hmatch.within hlt
    · rw [(h.store.frames.idle hf hmain).own? name] at hv
      exact absurd hv (by simp)
  case objects =>
    intro id o' ho
    have hobject := h.store.objects id
    rw [ho] at hobject
    generalize m.store.objects[id]? = o at hobject
    cases hobject with
    | some hmatch => exact hmatch.within hlt
  case returned => exact h.returned.within hlt

/-! ### Runs keep machines sound -/

/-- Neither of two runs may reach its bound alone. -/
def Slack.none : Slack := ⟨False, False⟩

theorem Slack.allows_none (hcs : ¬ Revision.Boxes cs) (n : Nat) : Slack.none.Allows N cs n n :=
  ⟨.inr (Nat.le_refl n), .inr (.inr ⟨hcs, Nat.le_refl n⟩), fun h => absurd h hcs⟩

namespace Machine.Sound

variable {m : Machine} {host : Host}

/-- Programs keep machines sound. -/
theorem interpret (h : m.Sound) (host : Host) (n : Nat) (ss : List Stmt) :
    (Run.interpret host n ss m).Leaves Machine.Sound := by
  have hallows : Slack.none.Allows .renamed Variation.lines.throughout n n :=
    Slack.allows_none (Revision.not_boxes_throughout id) n
  have hself := Run.sim_interpret host hallows (Variation.mem_throughout _) (Stmt.allHave_any ss)
    (Stmt.forall₂_varies_refl ss) (World.main_same h.scope) m m
    (Sound.match_same Routine.revised_self h)
  generalize Run.interpret host n ss m = o at hself
  cases hself with
  | done _ _ hm => exact hm.sound
  | failed _ _ hm => exact hm.sound
  | unfinished => trivial
  | first hfalse _ => exact hfalse.elim
  | second hfalse _ => exact hfalse.elim

end Machine.Sound

/-- The machine before the first program is sound. -/
theorem Machine.sound_initial (output : Channel) : (Machine.initial output).Sound where
  scope := by simp [Machine.initial, Store.nextFrame, Store.define, Store.allocFrame]
  callers := List.forall_mem_nil _
  frames f name v hv := by
    have hempty : (Store.empty.allocFrame none).frames.own? f name = none := by
      rw [Store.allocFrame, Frames.own?_alloc, Frames.own?_of_le (Nat.zero_le f)]
    rw [Machine.initial, Store.define, Store.define, Frames.own?_define, Frames.own?_define,
      hempty] at hv
    split at hv
    · obtain rfl := Option.some.inj hv
      trivial
    · split at hv
      · obtain rfl := Option.some.inj hv
        trivial
      · exact absurd hv (by simp)
  objects id o ho := by
    simp [Machine.initial, Store.define, Store.allocFrame, Store.empty] at ho
  returned := trivial

namespace Session

variable {host : Host} {s s₁ : Session}

/-- A session keeps its machine sound. -/
theorem sound_of_run {n : Nat} {p : String} {reported : List Diagnostic} (hs : s.machine.Sound)
    (h : run host n p s = some (reported, s₁)) : s₁.machine.Sound := by
  have hleaves := hs.interpret host n (program p)
  rcases run_eq_some h with hm | ⟨-, u, hi⟩ | ⟨-, e, hi⟩
  · rwa [hm]
  · rwa [hi] at hleaves
  · rwa [hi] at hleaves

/-- **Every machine that a session comes to is sound.** -/
theorem sound_of_reaches {output : Channel} (h : Reaches host (.initial output) s) :
    s.machine.Sound := by
  induction h with
  | refl => exact Machine.sound_initial output
  | tail _ hstep ih =>
    obtain ⟨n, p, reported, hrun⟩ := hstep
    exact sound_of_run ih hrun

end Session

end Lox
