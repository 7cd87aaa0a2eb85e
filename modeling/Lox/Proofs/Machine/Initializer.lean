import Lox.Proofs.Machine.Lawful

/-!
# What initializers yield

A function is marked as an initializer for its name alone: the method `init` of the objects of a
class, and also the method `init` of the class itself. The first one is bound to an object before it
can be called, and then every call of it that ends with a value yields this object, whatever its
body returns. The second one is never bound, and yields whatever `this` means where the class was
defined, or `nil`. There are no other initializers (`initializer_yields_receiver`).
-/

namespace Lox

/-- A function was bound to an object. -/
def Closure.BoundTo (fs : Frames Value) (id : ObjectId) (f : Closure) : Prop :=
  fs.own? f.scope Run.thisName = some (.object id)

variable {host : Host} {output : Channel}

/-- A function was made as a method `init` of a class itself, when the class was defined in the
session. -/
def Session.MadeForClass (host : Host) (output : Channel) (f : Closure) : Prop :=
  ∃ name methods classMethods m, ∃ d ∈ classMethods,
    Happens host output ⟨.execute (.classDef name methods classMethods), m⟩ ∧
      d.name.lexeme = Run.initializerName ∧ f.routine = d.routine ∧ f.scope = m.scope

/-- An initializer that can be called was bound to an object, or it was made for a class. -/
def Law.initializers (host : Host) (output : Channel) : Law host output where
  place fs f := f < fs.cells.size
  callable fs f := f.scope < fs.cells.size ∧ (f.isInitializer = true →
    (∃ id, f.BoundTo fs id) ∨
      fs.own? f.scope Run.thisName = none ∧ Session.MadeForClass host output f)
  method _ _ := True
  place_mono hfs hf := Nat.lt_of_lt_of_le hf hfs.size
  callable_mono hfs hf := by
    refine ⟨Nat.lt_of_lt_of_le hf.1 hfs.size, fun hinit => ?_⟩
    rw [hfs.this _ hf.1]
    exact (hf.2 hinit).imp (fun ⟨id, hid⟩ => ⟨id, (hfs.this _ hf.1).trans hid⟩) id
  method_mono _ _ := trivial
  initial := (Machine.Tidy.initial output).inside
  enter _ := by rw [Frames.size_alloc]; exact Nat.lt_succ_self _
  scope hf := hf.1
  closure _ _ hp := ⟨hp, fun hinit => nomatch hinit⟩
  classDef {name methods classMethods m} hhappens hp := by
    refine ⟨fun _ _ _ => trivial, fun d hd serial => ⟨hp, fun hinit => .inr ?_⟩⟩
    exact ⟨hhappens.tidy.2.free, name, methods, classMethods, m, d, hd, hhappens,
      eq_of_beq hinit, rfl, rfl⟩
  bind {fs f} serial id _ := by
    refine ⟨?_, fun _ => .inl ⟨id, (Frames.own?_bind fs _ _ _ _).trans (if_pos ⟨rfl, rfl⟩)⟩⟩
    rw [Frames.size_define, Frames.size_alloc]
    exact Nat.lt_succ_self _

/-! ### The result of an initializer -/

/-- An initializer that comes to its end yields what `this` means in its scope then. -/
theorem Run.ends_invoke_initializer (host : Host) {f : Closure} (hf : f.isInitializer = true)
    (n : Nat) (paren : Token) (values : List Value) (m : Machine) :
    (Run.invoke host n f paren values m).Ends
      (fun v m' => v = (m'.store.frames.get? f.scope thisName).getD .nil) fun _ _ => True := by
  cases n with
  | zero => rw [Run.invoke]; trivial
  | succ n =>
    rw [Run.invoke]
    refine ends_bind.mpr ?_
    show Outcome.Ends _ _ ((if maxDepth ≤ m.depth then _ else _ : Run Value) m)
    split
    · trivial
    · refine ends_bind.mpr ?_
      generalize inCall f.scope _ m = o
      cases o with
      | done completion m' => exact rfl
      | failed e m' => trivial
      | unfinished => trivial

/-- A function that is called is run for the call. -/
theorem Run.invoke_of_call {n : Nat} {f : Closure} {paren : Token} {values : List Value}
    {m m' : Machine} {v : Value} (h : Run.call host n (.function f) paren values m = .done v m') :
    ∃ k, Run.invoke host k f paren values m = .done v m' := by
  cases n with
  | zero =>
    rw [Run.call] at h
    change Outcome.unfinished = _ at h
    cases h
  | succ n =>
    rw [Run.call] at h
    change (if values.length = f.arity then Run.invoke host n f paren values
      else Run.fault paren (.functionArity f.arity values.length) : Run Value) m = _ at h
    split at h
    · exact ⟨n, h⟩
    · change Outcome.failed _ _ = _ at h
      cases h

namespace Session

/-- Nothing that an initializer does in a session changes what `this` means in its scope. -/
theorem Happens.eq_this_of_call {f : Closure} {paren : Token} {values : List Value} {m : Machine}
    (h : Happens host output ⟨.invoke f paren values, m⟩) (hf : f.isInitializer = true)
    (hscope : f.scope < m.store.frames.cells.size) {n : Nat} {paren' : Token} {args : List Value}
    (hargs : ∀ a ∈ args, a.Has .plain) {v : Value} {m' : Machine}
    (hdone : Run.call host n (.function f) paren' args m = .done v m') :
    v = (m.store.frames.get? f.scope Run.thisName).getD .nil := by
  obtain ⟨k, hdone⟩ := Run.invoke_of_call hdone
  obtain ⟨⟨⟨-, hroutine, -⟩, hhas⟩, htidy⟩ := h.tidy
  have htask : Task.Has .plain (.invoke f paren' args) := ⟨trivial, hroutine, hargs⟩
  have hends := (Machine.upheld_tidy host).kept.run k (.invoke f paren' args) m
    ⟨⟨htask, hhas⟩, htidy⟩
  have hresult := Run.ends_invoke_initializer host hf k paren' args m
  change (Run.invoke host k f paren' args m).Ends _ _ at hends
  rw [hdone] at hends hresult
  rw [← hends.2.frames.get? hscope]
  exact hresult

/-- When a class is called that has an initializer which takes as many arguments, an object is made
and the initializer is run, bound to it. -/
theorem Happens.invoke_of_class {c : Class} {paren : Token} {values : List Value} {m : Machine}
    (h : Happens host output ⟨.call (.klass c) paren values, m⟩) {method : Closure}
    (hmethod : c.methods.get? Run.initializerName = some method)
    (harity : values.length = method.arity) :
    ∃ id m₁ f m₂, Run.makeObject c m = .done id m₁ ∧
      Run.bindMethod method (.object id) m₁ = .done f m₂ ∧
      Happens host output ⟨.invoke f paren values, m₂⟩ := by
  obtain ⟨id, m₁, hobject⟩ : ∃ id m₁, Run.makeObject c m = .done id m₁ := ⟨_, _, rfl⟩
  obtain ⟨f, m₂, hbind⟩ : ∃ f m₂, Run.bindMethod method (.object id) m₁ = .done f m₂ :=
    ⟨_, _, rfl⟩
  refine ⟨id, m₁, f, m₂, hobject, hbind, h.starts (.inr ⟨0, id, m₁, hobject, ?_⟩)⟩
  rw [hmethod]
  dsimp only
  rw [if_pos harity]
  exact .inr ⟨0, f, m₂, hbind, .inl ⟨rfl, rfl⟩⟩

end Session

/-- **What initializers yield.** Whenever an initializer is run in a session, it was bound to an
object, or it was made for a class and never bound. In the first case the object is what every call
of it yields that comes to a value, whatever the arguments are and whatever its body does; in the
second case every such call yields what `this` means in its scope, or `nil` if that is nothing. -/
theorem initializer_yields_receiver (host : Host) (output : Channel) {f : Closure} {paren : Token}
    {values : List Value} {m : Machine}
    (h : Session.Happens host output ⟨.invoke f paren values, m⟩) (hf : f.isInitializer = true) :
    (∃ id, f.BoundTo m.store.frames id ∧
      ∀ n paren' args, (∀ a ∈ args, a.Has .plain) → ∀ v m',
        Run.call host n (.function f) paren' args m = .done v m' → v = .object id) ∨
    ((∀ id, ¬ f.BoundTo m.store.frames id) ∧ Session.MadeForClass host output f ∧
      ∀ n paren' args, (∀ a ∈ args, a.Has .plain) → ∀ v m',
        Run.call host n (.function f) paren' args m = .done v m' →
          v = (m.store.frames.get? f.scope Run.thisName).getD .nil) := by
  obtain ⟨⟨⟨-, hscope, hinit⟩, -⟩, -⟩ := (Law.initializers host output).happens h
  obtain ⟨id, hbound⟩ | ⟨hfree, hclass⟩ := hinit hf
  · refine .inl ⟨id, hbound, fun n paren' args hargs v m' hdone => ?_⟩
    rw [h.eq_this_of_call hf hscope hargs hdone, Frames.get?_eq, hbound]
    rfl
  · refine .inr ⟨fun id hbound => ?_, hclass, fun n paren' args hargs v m' hdone => ?_⟩
    · have hnone := hfree.symm.trans hbound
      cases hnone
    · exact h.eq_this_of_call hf hscope hargs hdone

/-- Whether statements are the call, by its name, of a class whose initializer takes no
arguments. -/
def Machine.constructs (m : Machine) : List Stmt → Bool
  | [.expression (.call (.name x) _ [])] =>
    match m.store.frames.get? m.scope x.lexeme with
    | some (.klass c) =>
      match c.methods.get? Run.initializerName with
      | some ⟨_, .mk [] _, _, true⟩ => true
      | _ => false
    | _ => false
  | _ => false

theorem Machine.constructs_eq_true {m : Machine} {ss : List Stmt} (h : m.constructs ss = true) :
    ∃ x paren c method, ss = [.expression (.call (.name x) paren [])] ∧
      m.store.frames.get? m.scope x.lexeme = some (.klass c) ∧
      c.methods.get? Run.initializerName = some method ∧ method.arity = 0 ∧
      method.isInitializer = true := by
  unfold constructs at h
  split at h
  case h_2 => cases h
  case h_1 x paren =>
  split at h
  case h_2 => cases h
  case h_1 c hc =>
  split at h
  case h_2 => cases h
  case h_1 method hmethod =>
  exact ⟨x, paren, c, _, rfl, hc, hmethod, rfl, rfl⟩

/-- A class whose initializer returns early is called in a second text. -/
theorem initializer_yields_receiver_construction :
    let host := Host.ofSeed 0 0
    let output := Channel.ofLimit none
    ∃ f paren m, Session.Happens host output ⟨.invoke f paren [], m⟩ ∧ f.isInitializer = true ∧
      ((∃ id, f.BoundTo m.store.frames id ∧
        ∀ n paren' args, (∀ a ∈ args, a.Has .plain) → ∀ v m',
          Run.call host n (.function f) paren' args m = .done v m' → v = .object id) ∨
      ((∀ id, ¬ f.BoundTo m.store.frames id) ∧ Session.MadeForClass host output f ∧
        ∀ n paren' args, (∀ a ∈ args, a.Has .plain) → ∀ v m',
          Run.call host n (.function f) paren' args m = .done v m' →
            v = (m.store.frames.get? f.scope Run.thisName).getD .nil)) := by
  intro host output
  have hruns : ((Session.run host 30 "class A \x7b init() \x7b return; \x7d \x7d"
      (.initial output)).map fun ran => ran.2.machine.constructs (Session.program "A();")) =
        some true := by decide +kernel
  obtain ⟨ran, hrun, hconstructs⟩ := Option.map_eq_some_iff.mp hruns
  obtain ⟨x, paren, c, method, hprogram, hvariable, hmethod, harity, hflag⟩ :=
    Machine.constructs_eq_true hconstructs
  have hs : Session.Reaches host (.initial output) ran.2 := .single ⟨30, _, ran.1, hrun⟩
  -- From the statement to the call of the class.
  have hexec : ran.2.Executes host "A();" (.expression (.call (.name x) paren [])) ran.2.machine :=
    ⟨by decide +kernel, [], [], 0, hprogram, rfl⟩
  have hstmt : Session.Happens host output
      ⟨.execute (.expression (.call (.name x) paren [])), ran.2.machine⟩ :=
    ⟨ran.2, _, _, _, hs, hexec, .refl⟩
  have hcall := hstmt.starts (b := ⟨.evaluate (.call (.name x) paren []), ran.2.machine⟩)
    (.inl ⟨rfl, rfl⟩)
  have htarget : Run.evaluate host 1 (.name x) ran.2.machine = .done (.klass c) ran.2.machine := by
    rw [Run.evaluate]
    simp only [Run.lookUp, hvariable]
  have hclass := hcall.starts (b := ⟨.call (.klass c) paren [], ran.2.machine⟩)
    (.inr ⟨1, .klass c, _, htarget, .inr ⟨1, [], _, rfl, rfl, rfl⟩⟩)
  obtain ⟨id, m₁, f, m₂, -, hbind, hinvoke⟩ := hclass.invoke_of_class hmethod harity.symm
  obtain ⟨rfl, -⟩ := Outcome.done.inj hbind
  exact ⟨_, paren, m₂, hinvoke, hflag, initializer_yields_receiver host output hinvoke hflag⟩

/-- **The `init` of a class yields no object.** It is an initializer, but it is bound to nothing. -/
theorem initializer_of_class_yields_nil :
    ((Session.run (.ofSeed 0 0) 40 ("class A \x7b class init() \x7b return 5; \x7d \x7d " ++
      "print A.init() == nil;") (.initial (.ofLimit none))).map fun (reported, s) =>
        (reported.isEmpty, s.machine.output.delivered)) = some (true, "true\n".toUTF8) := by
  decide +kernel

end Lox
