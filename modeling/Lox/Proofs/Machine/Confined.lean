import Lox.Proofs.Machine.Scope
import Lox.Proofs.Store.Chain

/-!
# What expressions leave as it was

Only declarations give names to frames, and they give them to the frame that is the scope. The
statements of a block, of the header of a `for` and of the body of a function are executed in frames
of their own, so whatever they declare stays there. What is left is that an expression may change
the value of a name and may add fields to objects: after the evaluation of an expression, as after a
block or a `for` loop, each old frame lies where it lay and has the names it had
(`evaluation_confined`). The frame that an assignment has found before it evaluates its right side
is therefore still the one that the value is written to.

Main definitions:

* `Store.Confined` — a change of the store that is confined to new frames;
* `Machine.Inside` — the scope of a machine is one of the frames that are new.
-/

namespace Lox

/-! ### Confined changes of the store -/

/-- An object is of the class it was of and has at least the fields it had. -/
structure Object.Grows (o o' : Object) : Prop where
  /-- The class is the same. -/
  ofClass : o'.ofClass = o.ofClass
  /-- No field was lost. -/
  fields : ∀ name, o.fields.contains name = true → o'.fields.contains name = true

/-- Each frame of the first store lies in the second store where it lay and has the names it had,
and the objects have grown. -/
structure Store.Confined (s s' : Store) : Prop where
  /-- No frame was removed. -/
  size : s.frames.cells.size ≤ s'.frames.cells.size
  /-- The frames around frames are the same. -/
  parent : ∀ f < s.frames.cells.size, s'.frames.parent? f = s.frames.parent? f
  /-- A frame defines the names that it defined. -/
  names : ∀ f < s.frames.cells.size, ∀ name,
    (s'.frames.own? f name).isSome = (s.frames.own? f name).isSome
  /-- Objects keep their classes and lose no field. -/
  objects : ∀ (id : ObjectId) (o : Object), s.objects[id]? = some o →
    ∃ o', s'.objects[id]? = some o' ∧ o.Grows o'

namespace Store

variable {s s' s'' : Store}

namespace Confined

theorem refl (s : Store) : s.Confined s where
  size := Nat.le_refl _
  parent _ _ := rfl
  names _ _ _ := rfl
  objects _ o ho := ⟨o, ho, rfl, fun _ h => h⟩

theorem trans (h : s.Confined s') (h' : s'.Confined s'') : s.Confined s'' where
  size := Nat.le_trans h.size h'.size
  parent f hf := (h'.parent f (Nat.lt_of_lt_of_le hf h.size)).trans (h.parent f hf)
  names f hf name := (h'.names f (Nat.lt_of_lt_of_le hf h.size) name).trans (h.names f hf name)
  objects id o ho := by
    obtain ⟨o', ho', h₁⟩ := h.objects id o ho
    obtain ⟨o'', ho'', h₂⟩ := h'.objects id o' ho'
    exact ⟨o'', ho'', h₂.ofClass.trans h₁.ofClass, fun name hname =>
      h₂.fields name (h₁.fields name hname)⟩

/-- A change of frames only. -/
theorem of_frames {fs : Frames Value} (size : s.frames.cells.size ≤ fs.cells.size)
    (parent : ∀ f < s.frames.cells.size, fs.parent? f = s.frames.parent? f)
    (names : ∀ f < s.frames.cells.size, ∀ name,
      (fs.own? f name).isSome = (s.frames.own? f name).isSome) :
    s.Confined { s with frames := fs } :=
  ⟨size, parent, names, (refl s).objects⟩

/-- A change of objects only. -/
theorem of_objects {objects : Array Object}
    (h : ∀ (id : ObjectId) (o : Object), s.objects[id]? = some o →
      ∃ o', objects[id]? = some o' ∧ o.Grows o') : s.Confined { s with objects := objects } :=
  ⟨(refl s).size, (refl s).parent, (refl s).names, h⟩

/-- A frame that is new may be given names. -/
theorem define (h : s.Confined s') {f : FrameId} (hf : s.nextFrame ≤ f) (name : String)
    (value : Value) : s.Confined (s'.define f name value) where
  size := Nat.le_trans h.size (Nat.le_of_eq (Frames.size_define ..).symm)
  parent g hg := (Frames.parent?_define ..).trans (h.parent g hg)
  names g hg name' := by
    rw [← h.names g hg name']
    refine congrArg Option.isSome ((Frames.own?_define ..).trans (if_neg ?_))
    rintro ⟨rfl, -⟩
    exact absurd hf (Nat.not_le_of_lt hg)
  objects := h.objects

/-- The nearest frame that defines a name is the same, seen from an old frame. -/
theorem nearest?_eq (h : s.Confined s') {f : FrameId} (hf : f < s.frames.cells.size)
    (name : String) : s'.frames.nearest? f name = s.frames.nearest? f name :=
  Frames.nearest?_congr_of_lt (Nat.le_refl _) h.size h.parent (fun g hg => h.names g hg name) hf

end Confined

theorem confined_allocFrame (s : Store) (parent : Option FrameId) :
    s.Confined (s.allocFrame parent) := by
  refine .of_frames ?_ (fun f hf => Frames.parent?_alloc _ _ hf) fun f _ name => ?_
  · rw [Frames.size_alloc]
    exact Nat.le_succ _
  · rw [Frames.own?_alloc]

/-- An assignment gives a value to a name that has one. -/
theorem confined_assign (s : Store) (f : FrameId) (name : String) (value : Value) :
    s.Confined (s.assign f name value) := by
  obtain h | ⟨g, hg, h⟩ := s.frames.assign_cases f name value
  · rw [assign, h]
    exact .refl s
  · rw [assign, h]
    refine .of_frames (Nat.le_of_eq (Frames.size_define ..).symm)
      (fun f' _ => Frames.parent?_define ..) fun f' _ name' => ?_
    rw [Frames.own?_define]
    split
    · rename_i hf
      obtain ⟨rfl, -, rfl⟩ := hf
      exact hg.symm
    · rfl

theorem confined_takeSerial (s : Store) : s.Confined s.takeSerial :=
  ⟨(Confined.refl s).size, (Confined.refl s).parent, (Confined.refl s).names,
    (Confined.refl s).objects⟩

theorem confined_allocObject (s : Store) (c : Class) : s.Confined (s.allocObject c) := by
  refine .of_objects fun id o ho => ⟨o, ?_, rfl, fun _ h => h⟩
  rw [Array.getElem?_push, if_neg, ho]
  exact Nat.ne_of_lt (Array.getElem?_eq_some_iff.mp ho).1

theorem confined_setField (s : Store) (id : ObjectId) (name : String) (value : Value) :
    s.Confined (s.setField id name value) := by
  refine .of_objects fun id' o ho => ?_
  rw [Array.getElem?_modify, ho]
  split
  · refine ⟨_, rfl, rfl, fun name' h => ?_⟩
    rw [Table.contains_insert, h, Bool.or_true]
  · exact ⟨o, rfl, rfl, fun _ h => h⟩

/-- The frame of a bound method is new. -/
theorem confined_bind (s : Store) (parent : Option FrameId) (name : String) (value : Value) :
    s.Confined (((s.allocFrame parent).define s.nextFrame name value).takeSerial) :=
  ((confined_allocFrame s parent).define (Nat.le_refl _) name value).trans (confined_takeSerial _)

end Store

/-! ### Confined runs -/

variable {α β : Type} {q : Trait} {host : Host} {E : Effects}

/-- However a run ends, its change of the store is confined to new frames. -/
def Run.Confined (r : Run α) : Prop :=
  ∀ m, (r m).Leaves fun m' => m.store.Confined m'.store

theorem Run.Confined.bind {r : Run α} {f : α → Run β} (hr : r.Confined)
    (hf : ∀ value, (f value).Confined) : (r.bind f).Confined := by
  intro m
  refine ends_bind.mpr ((hr m).mono (fun value m' h => ?_) fun _ _ h => h)
  exact (hf value m').mono (fun _ _ => h.trans) fun _ _ => h.trans

/-- A basic step that is not confined to new frames defines a name in the scope. -/
theorem Run.IsBasic.confined_cases {r : Run α} (h : IsBasic q host E r) (m : Machine) :
    (r m).Leaves fun m' => m.SamePlace m' ∧ (m.store.Confined m'.store ∨
      E.declares ∧ ∃ name value, m'.store = m.store.define m.scope name value) := by
  cases h with
  | @define name hE _ value => exact ⟨.refl m, .inr ⟨hE, name.lexeme, value, rfl⟩⟩
  | @assign name _ value =>
    exact ⟨.refl m, .inl (m.store.confined_assign m.scope name.lexeme value)⟩
  | setField id name value => exact ⟨.refl m, .inl (m.store.confined_setField id name value)⟩
  | takeSerial => exact ⟨.refl m, .inl m.store.confined_takeSerial⟩
  | allocObject c => exact ⟨.refl m, .inl (m.store.confined_allocObject c)⟩
  | printLine _ text =>
    unfold Run.printLine
    dsimp only
    split <;> exact ⟨.refl m, .inl (.refl m.store)⟩
  | _ => exact ⟨.refl m, .inl (.refl m.store)⟩

/-- Steps that declare nothing. -/
theorem Run.IsStep.confined {r : Run α} (h : IsStep q host E r) (hE : ¬ E.declares) :
    r.Confined := by
  induction h with
  | basic hb =>
    intro m
    exact (hb.confined_cases m).mono
      (fun _ _ h => h.2.resolve_right fun hdeclares => hE hdeclares.1)
      fun _ _ h => h.2.resolve_right fun hdeclares => hE hdeclares.1
  | bind _ _ ihr ihf => exact ihr.bind ihf

theorem Run.IsAct.confined {r : Run α} (h : IsAct q host E r) (hE : ¬ E.declares) :
    r.Confined := by
  induction h with
  | step h => exact h.confined hE
  | bindMethod method id => exact fun m => m.store.confined_bind (some method.scope) thisName _
  | look f _ ih => exact fun m => ih _ m
  | map _ f ih => exact ih.bind fun _ m => .refl m.store

/-! ### Frames of their own -/

/-- The scope of a machine is a frame that a store does not have, and so are all frames that were
given names since. -/
structure Machine.Inside (s : Store) (m : Machine) : Prop where
  /-- The store has changed in new frames only. -/
  confined : s.Confined m.store
  /-- The scope is a new frame. -/
  scope : s.nextFrame ≤ m.scope

/-- **What is done in a new frame stays in new frames.** -/
theorem Machine.upheld_inside (host : Host) (s : Store) :
    Upheld .any host (Inside s) fun m m' => m'.Inside s ∧ m.SamePlace m' where
  refl h := ⟨h, .refl _⟩
  trans h h' := ⟨h'.1, h.2.trans h'.2⟩
  after h := h.1
  basic {_ _ _ m} hb hm := by
    refine (hb.confined_cases m).mono (fun _ m' h => ?_) fun _ m' h => ?_
    all_goals
      obtain ⟨hplace, hconfined | ⟨-, name, value, hdefine⟩⟩ := h <;>
        refine ⟨⟨?_, hplace.1 ▸ hm.scope⟩, hplace⟩
      · exact hm.confined.trans hconfined
      · rw [hdefine]
        exact hm.confined.define hm.scope name value
  bindMethod method id {m} hm :=
    ⟨⟨hm.confined.trans (m.store.confined_bind _ _ _), hm.scope⟩, .refl m⟩
  enterFrame hm := ⟨hm.confined.trans (Store.confined_allocFrame _ _), hm.confined.size⟩
  backIn hm h := ⟨⟨h.1.confined, hm.scope⟩, rfl, h.2.2⟩
  enterCall _ hm := ⟨hm.confined.trans (Store.confined_allocFrame _ _), hm.confined.size⟩
  leaveCall hm h := by
    rw [h.2.leaveCall_eq]
    exact ⟨⟨h.1.confined, hm.scope⟩, rfl, rfl⟩

/-- Whatever is done in a new frame, the change is confined. -/
theorem Run.confined_inFrame (n : Nat) {p : Plan α} (hp : p.StepsOnly .any host E) :
    (inFrame (p.follow (Task.run host n))).Confined := by
  intro m
  have hinside : m.enterFrame.Inside m.store := ⟨m.store.confined_allocFrame _, Nat.le_refl _⟩
  have hends := (Machine.upheld_inside host m.store).follow_any n hp hinside
  exact ends_inFrame.mpr (hends.mono (fun _ _ h => h.1.confined) fun _ _ h => h.1.confined)

/-! ### Expressions -/

/-- A plan that declares nothing, and whose parts are confined. -/
theorem Plan.StepsOnly.confined {n : Nat} {p : Plan α} (hp : p.StepsOnly .any host E)
    (hE : ¬ E.declares) (hparts : ∀ t : Task, t.IsEvaluation → (t.run host n).Confined) :
    (p.follow (Task.run host n)).Confined := by
  induction hp with
  | act hr => exact hr.confined hE
  | part hpart => exact hparts _ (hpart.resolve_left hE)
  | andThen _ _ ihp ihnext => exact (ihp hE).bind fun value => ihnext value hE
  | inFrame hp _ => exact Run.confined_inFrame n hp
  | inCall scope _ hp _ =>
    exact fun m => Run.ends_inCall.mpr (Run.confined_inFrame n hp (m.enterCall scope))

/-- **The evaluation of an expression is confined to new frames.** -/
theorem Task.confined_run (host : Host) (n : Nat) {t : Task} (ht : t.IsEvaluation) :
    (t.run host n).Confined := by
  induction n generalizing t with
  | zero => rw [run_zero]; exact fun _ => trivial
  | succ n ih =>
    rw [run_succ]
    exact (t.stepsOnly_any host).confined (not_not_intro ht) fun _ => ih

/-! ### Blocks and assignments -/

namespace Run

/-- A statement that is executed in a new frame declares nothing outside it. -/
theorem confined_of_inFrame {s : Stmt} {p : Plan Completion} (h : Plan.ofStmt s = .inFrame p)
    (n : Nat) : (execute host n s).Confined := by
  cases n with
  | zero =>
    rw [execute]
    exact fun _ => trivial
  | succ n =>
    have hsteps : (Plan.ofStmt s).StepsOnly .any host _ := (Task.execute s).stepsOnly_any host
    rw [h] at hsteps
    rw [← Plan.follow_ofStmt, h]
    exact confined_inFrame n hsteps.of_inFrame

/-- An assignment to a name that is defined writes to the frame that defined it nearest before the
right side was evaluated. -/
theorem evaluate_assign {n : Nat} {name : Token} {value : Expr} {v : Value} {m m' : Machine}
    (hhas : m.store.frames.has m.scope name.lexeme = true)
    (hvalue : evaluate host n value m = .done v m') :
    ∃ g, m.store.frames.nearest? m.scope name.lexeme = some g ∧
      m'.store.frames.assign m'.scope name.lexeme v =
        (true, m'.store.frames.define g name.lexeme v) ∧
      (m'.store.frames.define g name.lexeme v).own? g name.lexeme = some v ∧
      evaluate host (n + 1) (.assign name value) m =
        .done v { m' with store := m'.store.define g name.lexeme v } := by
  have hconfined : m.store.Confined m'.store := by
    have hends := Task.confined_run host n (t := .evaluate value) trivial m
    rwa [Task.run, hvalue] at hends
  have hscope : m'.scope = m.scope := by
    have hplace := (Machine.respected_samePlace host).run n (.evaluate value) m
    rw [Task.run, hvalue] at hplace
    exact hplace.1
  -- The frame that the check finds is still the nearest one.
  rw [Frames.has_eq_nearest?] at hhas
  obtain ⟨g, hg⟩ := Option.isSome_iff_exists.mp hhas
  have hmem : g ∈ m.store.frames.chain m.scope := List.mem_of_find?_eq_some hg
  have hinside : m.scope < m.store.frames.cells.size := by
    refine Nat.lt_of_not_le fun hle => ?_
    rw [Frames.chain_of_le hle] at hmem
    cases hmem
  have hnearest : m'.store.frames.nearest? m'.scope name.lexeme = some g := by
    rw [hscope, hconfined.nearest?_eq hinside, hg]
  have hassign : m'.store.frames.assign m'.scope name.lexeme v =
      (true, m'.store.frames.define g name.lexeme v) := by
    rw [Frames.assign_eq_nearest?, hnearest]
    rfl
  have hold : g < m'.store.frames.cells.size :=
    Nat.lt_of_lt_of_le (Frames.lt_size_of_mem_chain hmem) hconfined.size
  refine ⟨g, hg, hassign, ?_, ?_⟩
  · rw [Frames.own?_define, if_pos ⟨rfl, hold, rfl⟩]
  · have hstore : m'.store.assign m'.scope name.lexeme v = m'.store.define g name.lexeme v := by
      rw [Store.assign, hassign, Store.define]
    rw [evaluate]
    show (look fun m => m.store.frames.has m.scope name.lexeme).bind _ m = _
    rw [Run.bind, look]
    dsimp only
    rw [Frames.has_eq_nearest?, if_pos hhas]
    show (evaluate host n value).bind _ m = _
    rw [Run.bind, hvalue, ← hstore]
    rfl

end Run

/-- **Expressions declare nothing.** However the evaluation of an expression ends, with a value or
with an error, every frame that was there lies in the frame it lay in and defines just the names it
defined, and every object that was there is of its class and has the fields it had. The same holds
of blocks and of `for` loops. So an assignment whose name is found to be defined before its right
side is evaluated is carried out, and in the very frame that was the nearest to define the name. -/
theorem evaluation_confined (host : Host) (n : Nat) :
    (∀ e, (Run.evaluate host n e).Confined) ∧
    (∀ body, (Run.execute host n (.block body)).Confined) ∧
    (∀ initial condition step body,
      (Run.execute host n (.forLoop initial condition step body)).Confined) ∧
    ∀ name value v m m', m.store.frames.has m.scope name.lexeme = true →
      Run.evaluate host n value m = .done v m' →
      ∃ g, m.store.frames.nearest? m.scope name.lexeme = some g ∧
        m'.store.frames.assign m'.scope name.lexeme v =
          (true, m'.store.frames.define g name.lexeme v) ∧
        (m'.store.frames.define g name.lexeme v).own? g name.lexeme = some v ∧
        Run.evaluate host (n + 1) (.assign name value) m =
          .done v { m' with store := m'.store.define g name.lexeme v } :=
  ⟨fun e => Task.confined_run host n (t := .evaluate e) trivial,
    fun _ => Run.confined_of_inFrame rfl n,
    fun _ _ _ _ => Run.confined_of_inFrame rfl n,
    fun _ _ _ _ _ hhas hvalue => Run.evaluate_assign hhas hvalue⟩

/-- The right side is a call of a function that declares the name that is assigned to. -/
theorem evaluation_confined_call :
    let host := Host.ofSeed 0 0
    ∃ m m' name value v g, m.store.frames.has m.scope name.lexeme = true ∧
      Run.evaluate host 20 value m = .done v m' ∧ m.store.nextFrame < m'.store.nextFrame ∧
      m.store.frames.nearest? m.scope name.lexeme = some g ∧
      Run.evaluate host 21 (.assign name value) m =
        .done v { m' with store := m'.store.define g name.lexeme v } := by
  intro host
  let name : Token := ⟨.identifier, "x", 1⟩
  let value : Expr := .call (.name ⟨.identifier, "f", 1⟩) ⟨.symbol .rightParen, ")", 1⟩ []
  have hruns : ((Session.run host 30 "var x = 1; fun f() \x7b var x = 2; return x; \x7d"
      (.initial (.ofLimit none))).bind fun ran =>
        (Run.evaluate host 20 value ran.2.machine).done?.map fun found =>
          ran.2.machine.store.frames.has ran.2.machine.scope name.lexeme &&
            decide (ran.2.machine.store.nextFrame < found.2.store.nextFrame)) = some true := by
    decide +kernel
  obtain ⟨⟨reported, s⟩, -, hvalue⟩ := Option.bind_eq_some_iff.mp hruns
  obtain ⟨⟨v, m'⟩, hvalue, hchecked⟩ := Option.map_eq_some_iff.mp hvalue
  rw [Outcome.done?_eq_some] at hvalue
  obtain ⟨hhas, hlt⟩ := (Bool.and_eq_true _ _).mp hchecked
  obtain ⟨g, hg, -, -, hassigned⟩ :=
    (evaluation_confined host 20).2.2.2 name value v s.machine m' hhas hvalue
  exact ⟨s.machine, m', name, value, v, g, hhas, hvalue, of_decide_eq_true hlt, hg, hassigned⟩

end Lox
