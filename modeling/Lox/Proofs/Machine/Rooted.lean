import Lox.Proofs.Machine.Lawful
import Lox.Proofs.Store.Rooted

/-!
# All scopes lie in the global frame

A machine refers to frames: its scope, its callers, the scopes of the functions that are values of
names and fields, that stand in the tables of classes, or that were returned last, and the frames
around all of these (`Machine.Refers`). At every moment of a session, also in the middle of a run,
all of them exist and the way outward from each of them ends in frame 0, which is the global one
(`Session.scopes_rooted`). That is a law of the functions of a session (`Law.rooted`); the callers
are scopes that were left by a call, so they are covered because every scope is.
-/

namespace Lox

/-! ### References to frames -/

/-- A value refers to the frame in which a function is run: itself, or one of a class. -/
inductive Value.Refers : Value → FrameId → Prop where
  | function (f : Closure) : Refers (.function f) f.scope
  | method {c : Class} {name : String} {f : Closure} (h : c.methods.get? name = some f) :
    Refers (.klass c) f.scope
  | classMethod {c : Class} {name : String} {f : Closure}
    (h : c.classMethods.get? name = some f) : Refers (.klass c) f.scope

/-- A machine refers to a frame. -/
inductive Machine.Refers (m : Machine) : FrameId → Prop where
  | scope : Refers m m.scope
  | caller {f : FrameId} (h : f ∈ m.callers) : Refers m f
  | ofName {f g : FrameId} {name : String} {v : Value}
    (h : m.store.frames.own? g name = some v) (hv : v.Refers f) : Refers m f
  | ofField {f : FrameId} {id : ObjectId} {o : Object} {name : String} {v : Value}
    (ho : m.store.objects[id]? = some o) (h : o.fields.get? name = some v) (hv : v.Refers f) :
    Refers m f
  | ofClass {f : FrameId} {id : ObjectId} {o : Object} (ho : m.store.objects[id]? = some o)
    (hc : (Value.klass o.ofClass).Refers f) : Refers m f
  | returned {f : FrameId} (h : m.returned.Refers f) : Refers m f
  | parent {f g : FrameId} (h : Refers m g) (hp : m.store.frames.parent? g = some f) : Refers m f

/-- The values that a task is given. -/
def Task.values : Task → List Value
  | call target _ values => target :: values
  | invoke f _ values => .function f :: values
  | _ => []

/-- The values that a task yields. -/
def Task.yielded : (t : Task) → t.Result → List Value
  | evaluate _, v | call .., v | invoke .., v => [v]
  | evaluateAll _, vs => vs
  | execute _, _ | executeAll _, _ | loop .., _ => []

/-! ### Functions are run inside the global frame -/

variable {host : Host} {output : Channel} {m m' : Machine} {fs fs' : Frames Value}

theorem Frames.Undisturbed.rooted (h : fs.Undisturbed fs') {f : FrameId} (hf : fs.Rooted f) :
    fs'.Rooted f :=
  hf.mono h.size h.parent

/-- All functions are run in scopes from which the way outward leads to frame 0. -/
def Law.rooted (host : Host) (output : Channel) : Law host output where
  place := Frames.Rooted
  callable fs f := fs.Rooted f.scope
  method fs f := fs.Rooted f.scope
  place_mono hfs hf := hfs.rooted hf
  callable_mono hfs hf := hfs.rooted hf
  method_mono hfs hf := hfs.rooted hf
  initial := Frames.rooted_zero (Machine.Tidy.initial output).inside
  enter hp := hp.alloc
  scope hf := hf
  closure _ _ hp := hp
  classDef _ hp := ⟨fun _ _ _ => hp, fun _ _ _ => hp⟩
  bind _ _ hf := hf.alloc.define _ _ _

theorem Value.Obeys.rooted {v : Value} (h : v.Obeys (Law.rooted host output) fs) {f : FrameId}
    (hf : v.Refers f) : fs.Rooted f := by
  cases hf with
  | function f => exact h.2
  | method hget => exact (h.methods _ _ hget).2
  | classMethod hget => exact (h.classMethods _ _ hget).2

/-! ### Callers -/

namespace Plan

variable {α : Type} {E : Effects} {p : Plan α} {m₁ m₂ : Machine}

/-- A move of a plan leaves the callers alone, or the scope becomes the innermost caller, or the
innermost caller is gone. -/
theorem StepsOnly.callers_of_passes (hp : p.StepsOnly .any host E)
    (h : p.Passes host m m₁ m₂) : m₂.callers = m₁.callers ∨ m₂.callers = m₁.scope :: m₁.callers ∨
      m₂.callers = m₁.callers.tail := by
  have hsame := Machine.respected_samePlace host
  induction hp generalizing m with
  | act hr =>
    obtain ⟨rfl, hstops⟩ := h
    exact .inl ((hsame.upheld.act hr trivial).of_stops hstops).2
  | part _ => exact h.elim
  | andThen _ _ ihp ihnext =>
    obtain h | ⟨n, value, m', -, h⟩ := h
    · exact ihp h
    · exact ihnext value h
  | inFrame hp ih =>
    obtain ⟨rfl, rfl⟩ | h | ⟨-, rfl⟩ := h
    · exact .inl rfl
    · exact ih h
    · exact .inl rfl
  | inCall scope _ hp ih =>
    obtain ⟨rfl, rfl⟩ | h | ⟨⟨n, hstops⟩, rfl⟩ := h
    · exact .inr (.inl rfl)
    · obtain ⟨rfl, rfl⟩ | h | ⟨-, rfl⟩ := h
      · exact .inl rfl
      · exact ih h
      · exact .inl rfl
    · exact .inr (.inr rfl)

end Plan

namespace Session

theorem Moves.callers (h : Moves host output m m') : m'.callers = m.callers ∨
    m'.callers = m.scope :: m.callers ∨ m'.callers = m.callers.tail := by
  obtain ⟨a, -, hpasses⟩ := h
  exact (a.task.stepsOnly_any host).callers_of_passes hpasses

/-- The callers of every machine of a session are places. -/
theorem Later.place_of_mem_callers (law : Law host output)
    (h : Later host output (.initial output) m) {f : FrameId} (hf : f ∈ m.callers) :
    law.place m.store.frames f := by
  induction h generalizing f with
  | refl => cases hf
  | @tail m m' hlater hmoves ih =>
    refine law.place_mono hmoves.moved.frames ?_
    obtain hsame | hscope | hback := hmoves.callers
    · exact ih (hsame ▸ hf)
    · rw [hscope] at hf
      obtain rfl | hf := List.mem_cons.mp hf
      · exact (law.later hlater).place
      · exact ih hf
    · rw [hback] at hf
      exact ih (List.mem_of_mem_tail hf)

/-- **All frames that a machine of a session refers to** exist, and lie in frame 0. -/
theorem Later.rooted (h : Later host output (.initial output) m) {f : FrameId} (hf : m.Refers f) :
    m.store.frames.Rooted f := by
  have hcomplies := (Law.rooted host output).later h
  induction hf with
  | scope => exact hcomplies.place
  | caller hf => exact h.place_of_mem_callers (Law.rooted host output) hf
  | @ofName f g name v hown hv =>
    obtain ⟨frame, hframe, hget⟩ := Option.bind_eq_some_iff.mp hown
    exact (hcomplies.store.frames g frame hframe name v hget).rooted hv
  | ofField ho hget hv => exact (hcomplies.store.fields _ _ ho _ _ hget).rooted hv
  | ofClass ho hc =>
    exact Value.Obeys.rooted (v := .klass _) (hcomplies.store.classes _ _ ho) hc
  | returned hv => exact hcomplies.returned.rooted hv
  | parent _ hp ih => exact ih.parent hp

/-- The frames to which the values refer that a task is given lie in frame 0. -/
theorem Happens.rooted_of_mem_values {t : Task} (h : Happens host output ⟨t, m⟩) {v : Value}
    (hv : v ∈ t.values) {f : FrameId} (hf : v.Refers f) : m.store.frames.Rooted f := by
  have htask := ((Law.rooted host output).happens h).1
  cases t with
  | call target paren values =>
    obtain rfl | hv := List.mem_cons.mp hv
    · exact htask.1.rooted hf
    · exact (htask.2 v hv).rooted hf
  | invoke g paren values =>
    obtain rfl | hv := List.mem_cons.mp hv
    · exact Value.Obeys.rooted (v := .function g) htask.1 hf
    · exact (htask.2 v hv).rooted hf
  | _ => cases hv

/-- So do those to which the values refer that it yields. -/
theorem Happens.rooted_of_mem_yielded {t : Task} (h : Happens host output ⟨t, m⟩) {n : Nat}
    {value : t.Result} (hdone : t.run host n m = .done value m') {v : Value}
    (hv : v ∈ t.yielded value) {f : FrameId} (hf : v.Refers f) : m'.store.frames.Rooted f := by
  have hends := (Law.rooted host output).ends h n
  rw [hdone] at hends
  have hresult := hends.2.2
  cases t with
  | evaluate e =>
    obtain rfl := List.mem_singleton.mp hv
    exact Value.Obeys.rooted hresult hf
  | call target paren values =>
    obtain rfl := List.mem_singleton.mp hv
    exact Value.Obeys.rooted hresult hf
  | invoke g paren values =>
    obtain rfl := List.mem_singleton.mp hv
    exact Value.Obeys.rooted hresult hf
  | evaluateAll es => exact (hresult v hv).rooted hf
  | _ => cases hv

end Session

/-! ### Global names -/

namespace Machine

/-- A name that a frame defines stays defined there. -/
def KeepsNames (m m' : Machine) : Prop :=
  ∀ f name, (m.store.frames.own? f name).isSome → (m'.store.frames.own? f name).isSome

theorem keepsNames_enterFrame (m : Machine) : m.KeepsNames m.enterFrame := by
  intro f name hsome
  have hown := Frames.own?_alloc m.store.frames (some m.scope) f name
  exact (congrArg Option.isSome hown).trans hsome

/-- **No program removes a name from a frame.** -/
theorem respected_keepsNames (host : Host) : Respected host KeepsNames where
  refl _ _ _ h := h
  trans h₁ h₂ f name h := h₂ f name (h₁ f name h)
  basic hb m := by
    have hends := hb.frames_cases m
    refine hends.mono (fun _ m' h f name' hsome => ?_) fun _ m' h f name' hsome => ?_
    all_goals
      obtain ⟨-, hframes | ⟨g, name, value, -, -, hframes⟩⟩ := h <;> rw [hframes]
      · exact hsome
      · rw [Frames.own?_define]
        split
        · rfl
        · exact hsome
  bindMethod method id m f name hsome := by
    have hown := Frames.own?_bind m.store.frames (some method.scope) (.object id) f name
    refine (congrArg Option.isSome hown).trans ?_
    split
    · rfl
    · exact hsome
  inFrame {m m'} h f name hsome := h f name (m.keepsNames_enterFrame f name hsome)
  inCall h f name hsome := h f name hsome

end Machine

namespace Session

theorem Later.keepsNames (h : Later host output m m') : m.KeepsNames m' := by
  have hupheld := (Machine.respected_keepsNames host).upheld
  induction h with
  | refl => exact hupheld.refl trivial
  | tail _ hmoves ih =>
    refine hupheld.trans ih (hupheld.moves (fun source _ => Stmt.allHave_any (program source))
      trivial (fun hr _ hstops => (hupheld.act hr trivial).of_stops hstops)
      Machine.keepsNames_enterFrame (fun m m' hstore f name hsome => ?_) hmoves)
    rw [hstore]
    exact hsome

/-! ### All machines of a session -/

/-- **Every scope chain ends in the global frame.** At every moment of a session, between its texts
and in the middle of a run (`Reaches.later`, `Happens.later`),

* every frame that the machine refers to exists, and the way outward from it is finite, comes by no
  frame twice, and ends in frame 0, which lies in no other;
* the frame around any frame exists and is an older one;
* a look-up goes along this way, so it ends;
* a name that frame 0 defines is found from every frame that the machine refers to at any later
  moment, and it means what frame 0 says unless a nearer frame defines it too.

The same holds, from then on, of the frames to which values refer that are on their way: those that
a task is given, such as arguments, and those that it yields. -/
theorem scopes_rooted (host : Host) (output : Channel) :
    (∀ m, Later host output (.initial output) m →
      (∀ f, m.Refers f → m.store.frames.Rooted f) ∧
      (∀ g p, m.store.frames.parent? g = some p → p < g ∧ g < m.store.frames.cells.size) ∧
      (∀ f name, m.store.frames.get? f name =
        (m.store.frames.chain f).findSome? fun g => m.store.frames.own? g name) ∧
      ∀ name m', (m.store.frames.own? 0 name).isSome → Later host output m m' →
        ∀ f, m'.Refers f → (m'.store.frames.get? f name).isSome ∧
          ((∀ g ∈ m'.store.frames.chain f, g ≠ 0 → m'.store.frames.own? g name = none) →
            m'.store.frames.get? f name = m'.store.frames.own? 0 name)) ∧
    ∀ t m, Happens host output ⟨t, m⟩ →
      (∀ v ∈ t.values, ∀ f, v.Refers f → ∀ m', Later host output m m' →
        m'.store.frames.Rooted f) ∧
      ∀ n value m', t.run host n m = .done value m' → ∀ v ∈ t.yielded value, ∀ f, v.Refers f →
        ∀ m'', Later host output m' m'' → m''.store.frames.Rooted f := by
  constructor
  · intro m h
    refine ⟨fun f hf => h.rooted hf, fun g p hp => ⟨Frames.lt_of_parent? hp, ?_⟩,
      fun f name => Frames.get?_eq_findSome? m.store.frames f name, ?_⟩
    · exact Frames.lt_size_of_parent? hp
    · intro name m' hsome hlater f hf
      have hafter : Later host output (.initial output) m' := h.trans hlater
      exact (hafter.rooted hf).get? (hlater.keepsNames 0 name hsome)
  · intro t m h
    constructor
    · intro v hv f hf m' hlater
      exact hlater.undisturbed.rooted (h.rooted_of_mem_values hv hf)
    · intro n value m' hdone v hv f hf m'' hlater
      exact hlater.undisturbed.rooted (h.rooted_of_mem_yielded hdone hv hf)

end Session

/-- The scope of a function that is the value of a name. -/
def Machine.functionScope? (m : Machine) (name : String) : Option FrameId :=
  match m.store.frames.get? m.scope name with
  | some (.function f) => some f.scope
  | _ => none

theorem Machine.refers_of_functionScope? {m : Machine} {name : String} {f : FrameId}
    (h : m.functionScope? name = some f) : m.Refers f := by
  unfold functionScope? at h
  split at h
  case h_2 => cases h
  case h_1 g hget =>
  rw [Frames.get?_eq_nearest?] at hget
  obtain ⟨frame, -, hown⟩ := Option.bind_eq_some_iff.mp hget
  obtain rfl := Option.some.inj h
  exact .ofName hown (.function g)

/-- A function that was made in the body of a method lies in the block of the body, the frame of its
call, the frame of `this`, and the global frame. -/
theorem Session.scopes_rooted_closure :
    let host := Host.ofSeed 0 0
    let output := Channel.ofLimit none
    ∃ m f, Later host output (.initial output) m ∧ m.Refers f ∧
      m.store.frames.chain f = [3, 2, 1, 0] ∧ m.store.frames.Rooted f ∧
      (m.store.frames.get? f Builtin.clock.name).isSome := by
  intro host output
  have hruns : ((run host 40 ("class A \x7b m() \x7b fun g() \x7b return this; \x7d return g; " ++
      "\x7d \x7d var g = A().m();") (.initial output)).bind fun ran =>
        (ran.2.machine.functionScope? "g").map fun f =>
          (f, ran.2.machine.store.frames.chain f,
            (ran.2.machine.store.frames.own? 0 Builtin.clock.name).isSome)) =
        some (3, [3, 2, 1, 0], true) := by decide +kernel
  obtain ⟨ran, hrun, hscope⟩ := Option.bind_eq_some_iff.mp hruns
  obtain ⟨f, hf, hchain⟩ := Option.map_eq_some_iff.mp hscope
  simp only [Prod.mk.injEq] at hchain
  have hs : Reaches host (.initial output) ran.2 := .single ⟨40, _, ran.1, hrun⟩
  have hrefers := Machine.refers_of_functionScope? hf
  obtain ⟨hrooted, -, -, hglobal⟩ := (scopes_rooted host output).1 ran.2.machine hs.later
  exact ⟨ran.2.machine, f, hs.later, hrefers, hchain.2.1, hrooted f hrefers,
    (hglobal _ _ hchain.2.2 .refl f hrefers).1⟩

end Lox
