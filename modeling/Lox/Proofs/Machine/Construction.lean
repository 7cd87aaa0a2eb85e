import Lox.Proofs.Machine.Confined
import Lox.Proofs.Machine.Initializer

/-!
# What the call of a class yields

The call of a class makes an object, and runs the initializer of the class, if there is one, bound to
this object. Whatever the initializer does and returns, the call yields the object: it is new, it is
of the class, and `this` means it in the whole body of the initializer (`construction_yields_new`).
A class without an initializer yields an object without fields, and with a wrong number of arguments
nothing is run. What a call makes on its way into a body leaves all frames and objects that there are
just as they are (`Store.Untouched`).
-/

namespace Lox

variable {host : Host} {output : Channel}

/-! ### What is made -/

/-- All frames and objects of the first store are in the second one just as they were. -/
structure Store.Untouched (s s' : Store) : Prop where
  /-- The frames are the same. -/
  frames : ∀ (f : FrameId) (frame : Frame Value), s.frames.cells[f]? = some frame →
    s'.frames.cells[f]? = some frame
  /-- The objects are the same. -/
  objects : ∀ (id : ObjectId) (o : Object), s.objects[id]? = some o → s'.objects[id]? = some o

/-- Nothing was done to a machine but that frames and objects were made. -/
structure Machine.Untouched (m m' : Machine) : Prop where
  /-- The frames and objects that there were are the same. -/
  store : m.store.Untouched m'.store
  /-- The scope is the same. -/
  scope : m'.scope = m.scope
  /-- The callers are the same. -/
  callers : m'.callers = m.callers
  /-- The value of the last `return` is the same. -/
  returned : m'.returned = m.returned
  /-- Nothing was written. -/
  output : m'.output = m.output
  /-- No reading was taken. -/
  readings : m'.readings = m.readings

namespace Machine

/-- The machine with a new object of a class. -/
def withObject (m : Machine) (c : Class) : Machine :=
  { m with store := m.store.allocObject c }

/-- The machine with a new frame in which a method is bound to an object. -/
def withBound (m : Machine) (method : Closure) (id : ObjectId) : Machine :=
  { m with store := ((m.store.allocFrame (some method.scope)).define m.store.nextFrame Run.thisName
      (.object id)).takeSerial }

/-- The function that a method becomes when it is bound on a machine. -/
def bound (m : Machine) (method : Closure) : Closure :=
  { method with serial := m.store.serial, scope := m.store.nextFrame }

variable {m m' m'' : Machine}

theorem Untouched.refl (m : Machine) : m.Untouched m :=
  ⟨⟨fun _ _ h => h, fun _ _ h => h⟩, rfl, rfl, rfl, rfl, rfl⟩

theorem Untouched.trans (h : m.Untouched m') (h' : m'.Untouched m'') : m.Untouched m'' where
  store := ⟨fun f frame hf => h'.store.frames f frame (h.store.frames f frame hf),
    fun id o ho => h'.store.objects id o (h.store.objects id o ho)⟩
  scope := h'.scope.trans h.scope
  callers := h'.callers.trans h.callers
  returned := h'.returned.trans h.returned
  output := h'.output.trans h.output
  readings := h'.readings.trans h.readings

theorem untouched_withObject (m : Machine) (c : Class) : m.Untouched (m.withObject c) := by
  refine ⟨⟨fun _ _ h => h, fun id o ho => ?_⟩, rfl, rfl, rfl, rfl, rfl⟩
  show (m.store.objects.push _)[id]? = some o
  rw [Array.getElem?_push, if_neg, ho]
  exact Nat.ne_of_lt (Array.getElem?_eq_some_iff.mp ho).1

theorem untouched_withBound (m : Machine) (method : Closure) (id : ObjectId) :
    m.Untouched (m.withBound method id) := by
  refine ⟨⟨fun f frame hf => ?_, fun _ _ h => h⟩, rfl, rfl, rfl, rfl, rfl⟩
  have hne : f ≠ m.store.frames.cells.size := Nat.ne_of_lt (Array.getElem?_eq_some_iff.mp hf).1
  show ((m.store.frames.cells.push _).modify m.store.frames.cells.size _)[f]? = some frame
  rw [Array.getElem?_modify, if_neg hne.symm, Array.getElem?_push, if_neg hne, hf]

/-- The new object is of the class and has no fields. -/
theorem objects_withObject (m : Machine) (c : Class) :
    (m.withObject c).store.objects[m.store.nextObject]? = some ⟨c, .empty⟩ :=
  Array.getElem?_push_size

end Machine

/-! ### Calls of classes -/

namespace Run

variable {n : Nat} {c : Class} {method : Closure} {paren : Token} {values : List Value}
  {m m' : Machine} {v : Value}

/-- A class without an initializer yields an object without fields. -/
theorem call_klass_of_none (h : c.methods.get? initializerName = none) :
    call host (n + 1) (.klass c) paren values m =
      .done (.object m.store.nextObject) (m.withObject c) := by
  rw [call]
  simp only [h]
  rfl

/-- A wrong number of arguments is a fault. -/
theorem call_klass_of_ne (h : c.methods.get? initializerName = some method)
    (harity : values.length ≠ method.arity) : call host (n + 1) (.klass c) paren values m =
      .failed (.fault paren.line (.constructorArity method.arity values.length))
        (m.withObject c) := by
  rw [call]
  simp only [h, if_neg harity]
  rfl

/-- Otherwise the initializer is run, bound to the new object, and the object is the value. -/
theorem call_klass (h : c.methods.get? initializerName = some method)
    (harity : values.length = method.arity) : call host (n + 1) (.klass c) paren values m =
      (invoke host n ((m.withObject c).bound method) paren values >>= fun _ =>
        pure (.object m.store.nextObject))
      ((m.withObject c).withBound method m.store.nextObject) := by
  rw [call]
  simp only [h, if_pos harity]
  rfl

/-- A call that comes to a value under some bound is a call of a class without an initializer, or
of one whose initializer came to its end. -/
theorem call_klass_cases (h : call host n (.klass c) paren values m = .done v m') :
    v = .object m.store.nextObject ∧ (c.methods.get? initializerName = none ∧ m' = m.withObject c ∨
      ∃ method k w, c.methods.get? initializerName = some method ∧ values.length = method.arity ∧
        invoke host k ((m.withObject c).bound method) paren values
          ((m.withObject c).withBound method m.store.nextObject) = .done w m') := by
  cases n with
  | zero =>
    rw [call] at h
    cases h
  | succ n =>
    cases hmethod : c.methods.get? initializerName with
    | none =>
      rw [call_klass_of_none hmethod] at h
      obtain ⟨rfl, rfl⟩ := Outcome.done.inj h
      exact ⟨rfl, .inl ⟨rfl, rfl⟩⟩
    | some method =>
      by_cases harity : values.length = method.arity
      · rw [call_klass hmethod harity] at h
        obtain ⟨w, m₁, hinvoke, h⟩ := bind_eq_done.mp h
        obtain ⟨rfl, rfl⟩ := Outcome.done.inj h
        exact ⟨rfl, .inr ⟨method, n, w, rfl, harity, hinvoke⟩⟩
      · rw [call_klass_of_ne hmethod harity] at h
        cases h

end Run

/-- What the call of a class starts is the run of its initializer, bound to the new object. -/
theorem Plan.starts_ofCall_klass {c : Class} {paren : Token} {values : List Value}
    {m m' : Machine} {t : Task} : (ofCall host (.klass c) paren values).Starts host m t m' ↔
      ∃ method, c.methods.get? Run.initializerName = some method ∧
        values.length = method.arity ∧
        t = .invoke ((m.withObject c).bound method) paren values ∧
        m' = (m.withObject c).withBound method m.store.nextObject := by
  constructor
  · intro h
    obtain h | ⟨n, id, m₁, hdone, h⟩ := h
    · exact h.elim
    obtain ⟨rfl, rfl⟩ := Outcome.done.inj hdone
    cases hmethod : c.methods.get? Run.initializerName with
    | none =>
      rw [hmethod] at h
      exact h.elim
    | some method =>
      rw [hmethod] at h
      dsimp only at h
      split at h
      · rename_i harity
        obtain h | ⟨n, f, m₁, hdone, h⟩ := h
        · exact h.elim
        obtain ⟨rfl, rfl⟩ := Outcome.done.inj hdone
        obtain ⟨rfl, rfl⟩ | ⟨_, _, _, _, h⟩ := h
        · exact ⟨method, rfl, harity, rfl, rfl⟩
        · exact h.elim
      · exact h.elim
  · rintro ⟨method, hmethod, harity, rfl, rfl⟩
    refine .inr ⟨0, m.store.nextObject, m.withObject c, rfl, ?_⟩
    rw [hmethod]
    dsimp only
    rw [if_pos harity]
    exact .inr ⟨0, (m.withObject c).bound method, _, rfl, .inl ⟨rfl, rfl⟩⟩

/-! ### The object -/

/-- In a frame that was made to bind a method, `this` is the object. -/
theorem Machine.boundTo_bound (m : Machine) (method : Closure) (id : ObjectId) :
    (m.bound method).BoundTo (m.withBound method id).store.frames id :=
  (Frames.own?_bind m.store.frames _ _ _ _).trans (if_pos ⟨rfl, rfl⟩)

/-- Objects that there are stay of their classes while a function runs. -/
theorem Run.ofClass_of_invoke {n : Nat} {f : Closure} {paren : Token} {values : List Value}
    {m m' : Machine} {v : Value} (h : invoke host n f paren values m = .done v m') {id : ObjectId}
    {o : Object} (ho : m.store.objects[id]? = some o) :
    ∃ o', m'.store.objects[id]? = some o' ∧ o'.ofClass = o.ofClass := by
  have hconfined := Task.confined_run host n (t := .invoke f paren values) trivial m
  rw [Task.run, h] at hconfined
  obtain ⟨o', ho', hgrows⟩ := hconfined.objects id o ho
  exact ⟨o', ho', hgrows.ofClass⟩

/-- In the body of a function that is bound to an object `this` is the object. -/
theorem Session.Happens.evaluate_this {f : Closure} {paren : Token} {values : List Value}
    {m m' : Machine} (h : Happens host output ⟨.invoke f paren values, m⟩) {id : ObjectId}
    (hbound : f.BoundTo m.store.frames id) {name : Token} (hname : name.lexeme = Run.thisName)
    (hbody : Moment.InBody host ⟨.invoke f paren values, m⟩ ⟨.evaluate (.name name), m'⟩)
    (n : Nat) : Run.evaluate host (n + 1) (.name name) m' = .done (.object id) m' := by
  have hthis := (h.this?_of_inBody (Frames.lt_of_own? hbound) hbody).2
  rw [Machine.this?, Frames.get?_eq m.store.frames, hbound, Option.some_or, ← hname] at hthis
  rw [Run.evaluate]
  simp only [Run.lookUp, hthis]

/-- **Construction yields a new instance.** Let a class be called in a session. If the call comes to
a value, this is an object of the class that did not exist before. An initializer that takes as many
arguments is run bound to this object, so `this` is the object wherever it is evaluated in the body,
and the call yields the object whenever the body comes to its end, whatever it returns. A class
without an initializer yields an object without fields, whatever the arguments are. If the
initializer takes another number of arguments, nothing is run, the call fails on the line of the
parenthesis, and all frames and objects are left as they are. -/
theorem construction_yields_new {c : Class} {paren : Token} {values : List Value} {m : Machine}
    (h : Session.Happens host output ⟨.call (.klass c) paren values, m⟩) :
    (∀ n v m', Run.call host n (.klass c) paren values m = .done v m' →
      v = .object m.store.nextObject ∧
      (∀ id o, m.store.objects[id]? = some o → v ≠ .object id) ∧
      ∃ o, m'.store.objects[m.store.nextObject]? = some o ∧ o.ofClass = c) ∧
    (∀ method, c.methods.get? Run.initializerName = some method → values.length = method.arity →
      ∃ f m₀, Moment.Starts host ⟨.call (.klass c) paren values, m⟩ ⟨.invoke f paren values, m₀⟩ ∧
        f.routine = method.routine ∧ f.BoundTo m₀.store.frames m.store.nextObject ∧
        (∀ name m₁, name.lexeme = Run.thisName →
          Moment.InBody host ⟨.invoke f paren values, m₀⟩ ⟨.evaluate (.name name), m₁⟩ →
          ∀ n, Run.evaluate host (n + 1) (.name name) m₁ =
            .done (.object m.store.nextObject) m₁) ∧
        ∀ n v m', Run.invoke host n f paren values m₀ = .done v m' →
          Run.call host (n + 1) (.klass c) paren values m =
            .done (.object m.store.nextObject) m') ∧
    (c.methods.get? Run.initializerName = none →
      ∀ n, ∃ m', Run.call host (n + 1) (.klass c) paren values m =
          .done (.object m.store.nextObject) m' ∧
        m'.store.objects[m.store.nextObject]? = some ⟨c, .empty⟩) ∧
    ∀ method, c.methods.get? Run.initializerName = some method → values.length ≠ method.arity →
      (∀ b, ¬ Moment.Starts host ⟨.call (.klass c) paren values, m⟩ b) ∧
      ∀ n, ∃ m', Run.call host (n + 1) (.klass c) paren values m =
          .failed (.fault paren.line (.constructorArity method.arity values.length)) m' ∧
        m.Untouched m' := by
  refine ⟨fun n v m' hdone => ?_, fun method hmethod harity => ?_, fun hnone n => ?_,
    fun method hmethod harity => ⟨fun b hb => ?_, fun n => ?_⟩⟩
  · obtain ⟨rfl, hcases⟩ := Run.call_klass_cases hdone
    refine ⟨rfl, fun id o ho heq => ?_, ?_⟩
    · obtain rfl := Value.object.inj heq
      exact Nat.lt_irrefl _ (Array.getElem?_eq_some_iff.mp ho).1
    · obtain ⟨-, rfl⟩ | ⟨method, k, w, -, -, hinvoke⟩ := hcases
      · exact ⟨_, m.objects_withObject c, rfl⟩
      · exact Run.ofClass_of_invoke hinvoke (m.objects_withObject c)
  · have hs : Moment.Starts host ⟨.call (.klass c) paren values, m⟩
        ⟨.invoke ((m.withObject c).bound method) paren values,
          (m.withObject c).withBound method m.store.nextObject⟩ :=
      Plan.starts_ofCall_klass.mpr ⟨method, hmethod, harity, rfl, rfl⟩
    have hbound := (m.withObject c).boundTo_bound method m.store.nextObject
    refine ⟨_, _, hs, rfl, hbound, fun name m₁ hname hbody n => ?_, fun n v m' hdone => ?_⟩
    · exact (h.starts hs).evaluate_this hbound hname hbody n
    · rw [Run.call_klass hmethod harity]
      exact Run.bind_eq_done.mpr ⟨v, m', hdone, rfl⟩
  · exact ⟨_, Run.call_klass_of_none hnone, m.objects_withObject c⟩
  · obtain ⟨method', hmethod', harity', -, -⟩ := Plan.starts_ofCall_klass.mp hb
    obtain rfl := Option.some.inj (hmethod.symm.trans hmethod')
    exact harity harity'
  · exact ⟨_, Run.call_klass_of_ne hmethod harity, m.untouched_withObject c⟩

/-- A call that is a text of its own, and the moment at which the value is called. -/
theorem Session.Reaches.happens_call {s : Session} (hs : Reaches host (.initial output) s)
    {source : String} (hr : rejections source = []) {x paren : Token}
    (hprogram : program source = [.expression (.call (.name x) paren [])]) {target : Value}
    (hx : s.machine.store.frames.get? s.machine.scope x.lexeme = some target) :
    Happens host output ⟨.call target paren [], s.machine⟩ := by
  have hexec : s.Executes host source (.expression (.call (.name x) paren [])) s.machine :=
    ⟨hr, [], [], 0, hprogram, rfl⟩
  have hstmt : Happens host output
      ⟨.execute (.expression (.call (.name x) paren [])), s.machine⟩ :=
    ⟨s, _, _, _, hs, hexec, .refl⟩
  have hcall : Happens host output ⟨.evaluate (.call (.name x) paren []), s.machine⟩ :=
    hstmt.starts (.inl ⟨rfl, rfl⟩)
  have htarget : Run.evaluate host 1 (.name x) s.machine = .done target s.machine := by
    rw [Run.evaluate]
    simp only [Run.lookUp, hx]
  exact hcall.starts (.inr ⟨1, target, _, htarget, .inr ⟨1, [], _, rfl, rfl, rfl⟩⟩)

/-- What such a text comes to, the call has come to. -/
theorem Run.call_of_interpret {n : Nat} {x paren : Token} {m m' : Machine} {target : Value}
    (hx : m.store.frames.get? m.scope x.lexeme = some target)
    (h : interpret host (n + 3) [.expression (.call (.name x) paren [])] m = .done () m') :
    ∃ v, call host (n + 1) target paren [] m = .done v m' := by
  rw [interpret] at h
  obtain ⟨completion, m₁, hexec, h⟩ := bind_eq_done.mp h
  obtain ⟨-, rfl⟩ := Outcome.done.inj h
  rw [execute] at hexec
  obtain ⟨v, m₂, hvalue, hexec⟩ := bind_eq_done.mp hexec
  obtain ⟨-, rfl⟩ := Outcome.done.inj hexec
  rw [evaluate] at hvalue
  obtain ⟨target', m₃, htarget, hvalue⟩ := bind_eq_done.mp hvalue
  rw [evaluate] at htarget
  simp only [lookUp, hx] at htarget
  obtain ⟨rfl, rfl⟩ := Outcome.done.inj htarget
  obtain ⟨values, m₄, hvalues, hcall⟩ := bind_eq_done.mp hvalue
  rw [evaluateAll] at hvalues
  obtain ⟨rfl, rfl⟩ := Outcome.done.inj hvalues
  exact ⟨v, hcall⟩

/-- An initializer that keeps the object elsewhere and returns early. -/
theorem construction_yields_new_kept :
    let host := Host.ofSeed 0 0
    ∃ c paren m n v m' o, Session.Happens host (.ofLimit none) ⟨.call (.klass c) paren [], m⟩ ∧
      (c.methods.get? Run.initializerName).isSome ∧
      Run.call host n (.klass c) paren [] m = .done v m' ∧ v = .object m.store.nextObject ∧
      m'.store.objects[m.store.nextObject]? = some o ∧ o.ofClass = c := by
  intro host
  have hruns : ((Session.run host 30
      "var kept; class A \x7b init() \x7b kept = this; return; \x7d \x7d"
      (.initial (.ofLimit none))).map fun ran =>
        ran.2.machine.constructs (Session.program "A();") &&
          (Run.interpret host 30 (Session.program "A();") ran.2.machine).done?.isSome) =
        some true := by decide +kernel
  obtain ⟨ran, hrun, hchecked⟩ := Option.map_eq_some_iff.mp hruns
  obtain ⟨hconstructs, hdone⟩ := (Bool.and_eq_true _ _).mp hchecked
  obtain ⟨x, paren, c, method, hprogram, hx, hmethod, -, -⟩ :=
    Machine.constructs_eq_true hconstructs
  obtain ⟨⟨u, m'⟩, hdone⟩ := Option.isSome_iff_exists.mp hdone
  rw [Outcome.done?_eq_some, hprogram] at hdone
  obtain ⟨v, hcall⟩ := Run.call_of_interpret hx hdone
  have hs : Session.Reaches host (.initial (.ofLimit none)) ran.2 := .single ⟨30, _, ran.1, hrun⟩
  have hhappens := hs.happens_call (by decide +kernel : Session.rejections "A();" = [])
    hprogram hx
  obtain ⟨hv, -, o, ho, hclass⟩ := (construction_yields_new hhappens).1 28 v m' hcall
  exact ⟨c, paren, _, 28, v, m', o, hhappens, by rw [hmethod]; rfl, hcall, hv, ho, hclass⟩

end Lox
