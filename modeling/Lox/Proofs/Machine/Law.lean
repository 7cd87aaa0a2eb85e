import Lox.Proofs.Machine.This

/-!
# Laws of functions

A **law** says what holds of the functions that a program can call, given the frames: of those that
are values and of the methods of classes as they are, and of the methods of objects once they are
bound to one. What it demands is not lost while frames are undisturbed, it holds of a function that
is made, and it comes to hold of a method that is bound. Then all values of a session keep it, in
frames, in fields and in classes, on their way through a run and behind it (`Law.happens`,
`Law.ends`).

There is one lemma for each step and one for each plan. They speak of one machine, since values that
are on their way have to stay lawful while other parts of the plan are followed.
-/

namespace Lox

/-! ### Laws -/

/-- What is demanded in a session of scopes and functions. -/
structure Law (host : Host) (output : Channel) where
  /-- Of the scopes in which names are looked up. -/
  place : Frames Value → FrameId → Prop
  /-- Of the functions that can be called. -/
  callable : Frames Value → Closure → Prop
  /-- Of the methods of objects, which are bound before they can be called. -/
  method : Frames Value → Closure → Prop
  /-- What was a place is a place. -/
  place_mono {fs fs' : Frames Value} {f : FrameId} : fs.Undisturbed fs' → place fs f → place fs' f
  /-- What could be called can be called. -/
  callable_mono {fs fs' : Frames Value} {f : Closure} :
    fs.Undisturbed fs' → callable fs f → callable fs' f
  /-- What was a method is a method. -/
  method_mono {fs fs' : Frames Value} {f : Closure} :
    fs.Undisturbed fs' → method fs f → method fs' f
  /-- The first frame is a place. -/
  initial : place (Machine.initial output).store.frames 0
  /-- A new frame inside a place is a place. -/
  enter {fs : Frames Value} {p : FrameId} : place fs p → place (fs.alloc (some p)) fs.cells.size
  /-- Functions are run in places. -/
  scope {fs : Frames Value} {f : Closure} : callable fs f → place fs f.scope
  /-- A function that is no method can be called. -/
  closure {fs : Frames Value} {p : FrameId} (serial : Nat) (routine : Routine) :
    place fs p → callable fs ⟨serial, routine, p, false⟩
  /-- The functions of a class that is defined in the session are methods, and those of the class
  itself can be called. -/
  classDef {name : Token} {methods classMethods : List Definition} {m : Machine} :
    Session.Happens host output ⟨.execute (.classDef name methods classMethods), m⟩ →
      place m.store.frames m.scope →
      (∀ d ∈ methods, ∀ serial, method m.store.frames
        ⟨serial, d.routine, m.scope, d.name.lexeme == Run.initializerName⟩) ∧
      ∀ d ∈ classMethods, ∀ serial, callable m.store.frames
        ⟨serial, d.routine, m.scope, d.name.lexeme == Run.initializerName⟩
  /-- A method that is bound to an object can be called. -/
  bind {fs : Frames Value} {f : Closure} (serial : Nat) (id : ObjectId) : method fs f → callable
    ((fs.alloc (some f.scope)).define fs.cells.size Run.thisName (.object id))
    { f with serial := serial, scope := fs.cells.size }

variable {host : Host} {output : Channel}

section

variable (law : Law host output) (fs : Frames Value)

/-- A function that can be called, with code that gives no value to `this`. -/
def Law.Callable (f : Closure) : Prop :=
  f.routine.Has .plain ∧ law.callable fs f

/-- A method of objects, with code that gives no value to `this`. -/
def Law.Method (f : Closure) : Prop :=
  f.routine.Has .plain ∧ law.method fs f

/-- The functions of a class are lawful. -/
structure Class.Obeys (c : Class) : Prop where
  /-- The methods of its objects can be bound. -/
  methods : c.methods.All (law.Method fs)
  /-- The methods of the class can be called. -/
  classMethods : c.classMethods.All (law.Callable fs)

/-- The functions in a value are lawful. -/
def Value.Obeys : Value → Prop
  | .function f => law.Callable fs f
  | .klass c => c.Obeys law fs
  | _ => True

/-- A task has code that gives no value to `this`, and the functions that it is about are lawful. -/
def Task.Obeys : Task → Prop
  | evaluate e => e.Has .plain
  | evaluateAll es => Expr.AllHave .plain es
  | call target _ values => target.Obeys law fs ∧ ∀ v ∈ values, v.Obeys law fs
  | invoke f _ values => law.Callable fs f ∧ ∀ v ∈ values, v.Obeys law fs
  | execute s => s.Has .plain
  | executeAll ss => Stmt.AllHave .plain ss
  | loop condition step body =>
    Expr.OptionHas .plain condition ∧ Expr.OptionHas .plain step ∧ body.Has .plain

/-- The functions in the result of a task are lawful. -/
def Task.Returns : (t : Task) → t.Result → Prop
  | evaluate _, v | call .., v | invoke .., v => v.Obeys law fs
  | evaluateAll _, vs => ∀ v ∈ vs, v.Obeys law fs
  | execute _, _ | executeAll _, _ | loop .., _ => True

end

/-- The scope of a machine and the functions in it are lawful. -/
structure Machine.Obeys (law : Law host output) (m : Machine) : Prop where
  /-- Names may be given values. -/
  tidy : m.Tidy
  /-- The scope is a place. -/
  place : law.place m.store.frames m.scope
  /-- The values in the store are lawful. -/
  store : m.store.All (Value.Obeys law m.store.frames) (Class.Obeys law m.store.frames)
  /-- The value of the last `return` is lawful. -/
  returned : m.returned.Obeys law m.store.frames

/-- Tasks are started with lawful values on lawful machines, and what they come to is lawful. -/
def Law.contract (law : Law host output) : Contract where
  before t m := t.Obeys law m.store.frames ∧ m.Obeys law
  result t m value m' := m.Tended m' ∧ m'.Obeys law ∧ t.Returns law m'.store.frames value
  error _ m _ m' := m.Tended m' ∧ m'.Obeys law

variable {law : Law host output} {fs fs' : Frames Value} {m m' : Machine}

/-! ### While frames are undisturbed -/

theorem Table.All.imp {α : Type} {Q Q' : α → Prop} {t : Table α} (h : t.All Q)
    (hQ : ∀ value, Q value → Q' value) : t.All Q' :=
  fun name value hvalue => hQ value (h name value hvalue)

theorem Law.Callable.mono {f : Closure} (h : law.Callable fs f) (hfs : fs.Undisturbed fs') :
    law.Callable fs' f :=
  ⟨h.1, law.callable_mono hfs h.2⟩

theorem Law.Method.mono {f : Closure} (h : law.Method fs f) (hfs : fs.Undisturbed fs') :
    law.Method fs' f :=
  ⟨h.1, law.method_mono hfs h.2⟩

theorem Class.Obeys.mono {c : Class} (h : c.Obeys law fs) (hfs : fs.Undisturbed fs') :
    c.Obeys law fs' :=
  ⟨h.methods.imp fun _ hf => hf.mono hfs, h.classMethods.imp fun _ hf => hf.mono hfs⟩

theorem Value.Obeys.mono {v : Value} (h : v.Obeys law fs) (hfs : fs.Undisturbed fs') :
    v.Obeys law fs' := by
  cases v with
  | function f => exact Law.Callable.mono h hfs
  | klass c => exact Class.Obeys.mono h hfs
  | _ => trivial

theorem Store.All.mono {s : Store} (h : s.All (Value.Obeys law fs) (Class.Obeys law fs))
    (hfs : fs.Undisturbed fs') : s.All (Value.Obeys law fs') (Class.Obeys law fs') :=
  h.imp (fun _ hv => hv.mono hfs) fun _ hc => hc.mono hfs

namespace Machine.Obeys

/-- A machine in the same scope, with undisturbed frames and lawful values, is lawful. -/
theorem of_tended (h : m.Obeys law) (ht : m.Tended m')
    (hstore : m'.store.All (Value.Obeys law m'.store.frames) (Class.Obeys law m'.store.frames))
    (hreturned : m'.returned.Obeys law m'.store.frames) : m'.Obeys law :=
  ⟨ht.tidy, by rw [ht.scope]; exact law.place_mono ht.frames h.place, hstore, hreturned⟩

/-- A new frame in a place is a scope for a lawful machine. -/
theorem enterFrame_of_place (h : m.Obeys law) {scope : FrameId}
    (hscope : law.place m.store.frames scope) : (m.enterCall scope).enterFrame.Obeys law where
  tidy := Machine.tidy_enterFrame h.tidy.apart
  place := law.enter hscope
  store := (h.store.mono (.alloc _ _)).allocFrame _
  returned := h.returned.mono (.alloc _ _)

theorem enterFrame (h : m.Obeys law) : m.enterFrame.Obeys law where
  tidy := Machine.tidy_enterFrame h.tidy.apart
  place := law.enter h.place
  store := (h.store.mono (.alloc _ _)).allocFrame _
  returned := h.returned.mono (.alloc _ _)

end Machine.Obeys

/-! ### Steps -/

namespace Run

variable {α β : Type} {Q : Frames Value → α → Prop} {Q' : Frames Value → β → Prop}

/-- A step that is taken on the machine leaves a lawful one, with undisturbed frames and in the same
scope, and `Q` holds of its value. -/
def Heeds (law : Law host output) (r : Run α) (m : Machine) (Q : Frames Value → α → Prop) : Prop :=
  (r m).Ends (fun value m' => m.Tended m' ∧ m'.Obeys law ∧ Q m'.store.frames value)
    fun _ m' => m.Tended m' ∧ m'.Obeys law

theorem Heeds.bind {r : Run α} {f : α → Run β} (hr : r.Heeds law m Q)
    (hf : ∀ value m', m.Tended m' → m'.Obeys law → Q m'.store.frames value →
      (f value).Heeds law m' Q') : (r >>= f).Heeds law m Q' := by
  refine ends_bind.mpr (hr.mono (fun value m₁ h => ?_) fun _ _ h => h)
  exact (hf value m₁ h.1 h.2.1 h.2.2).mono
    (fun _ _ h' => ⟨h.1.trans h'.1, h'.2⟩) fun _ _ h' => ⟨h.1.trans h'.1, h'.2⟩

/-- A step that leaves the machine alone. -/
theorem heeds_of_same (hm : m.Obeys law) {r : Run α}
    (h : (r m).Ends (fun value m' => m' = m ∧ Q m.store.frames value) fun _ m' => m' = m) :
    r.Heeds law m Q := by
  have hsame : m.Tended m := hm.tidy.tended_of_eq rfl (.refl m)
  refine Outcome.Ends.mono h (fun value m' h' => ?_) fun _ m' h' => ?_
  · obtain ⟨rfl, hQ⟩ := h'
    exact ⟨hsame, hm, hQ⟩
  · rw [h']
    exact ⟨hsame, hm⟩

theorem heeds_pure (hm : m.Obeys law) {value : α} (h : Q m.store.frames value) :
    (pure value : Run α).Heeds law m Q :=
  heeds_of_same hm ⟨rfl, h⟩

theorem heeds_fault (hm : m.Obeys law) (t : Token) (cause : RuntimeFault) :
    (fault t cause : Run α).Heeds law m Q :=
  heeds_of_same hm rfl

theorem heeds_look (hm : m.Obeys law) {f : Machine → α} (h : Q m.store.frames (f m)) :
    (look f).Heeds law m Q :=
  heeds_of_same hm ⟨rfl, h⟩

theorem heeds_lookUp (hm : m.Obeys law) (name : Token) :
    (lookUp name).Heeds law m (Value.Obeys law) := by
  refine heeds_of_same hm ?_
  rw [lookUp]
  split
  case h_1 value hget => exact ⟨rfl, hm.store.frames.get? hget⟩
  case h_2 => rfl

/-- A basic step that changes the store in a lawful way, or the value of the last `return`. -/
theorem heeds_of_basic (hm : m.Obeys law) {r : Run α} (hr : IsBasic .plain host .all r)
    (h : (r m).Ends (fun value m' => m.store.frames.Undisturbed m'.store.frames →
        m'.store.All (Value.Obeys law m'.store.frames) (Class.Obeys law m'.store.frames) ∧
          m'.returned.Obeys law m'.store.frames ∧ Q m'.store.frames value)
      fun _ m' => m.store.frames.Undisturbed m'.store.frames →
        m'.store.All (Value.Obeys law m'.store.frames) (Class.Obeys law m'.store.frames) ∧
          m'.returned.Obeys law m'.store.frames) : r.Heeds law m Q := by
  have ht := (Machine.upheld_tidy host).basic hr hm.tidy
  refine (Outcome.Ends.and ht h).mono (fun value m' h' => ?_) fun _ m' h' => ?_
  · obtain ⟨hstore, hreturned, hQ⟩ := h'.2 h'.1.frames
    exact ⟨h'.1, hm.of_tended h'.1 hstore hreturned, hQ⟩
  · obtain ⟨hstore, hreturned⟩ := h'.2 h'.1.frames
    exact ⟨h'.1, hm.of_tended h'.1 hstore hreturned⟩

theorem heeds_define (hm : m.Obeys law) {name : Token} (hname : Trait.plain.name name)
    {value : Value} (hv : value.Obeys law m.store.frames) :
    (define name.lexeme value).Heeds law m fun _ _ => True :=
  heeds_of_basic hm (.define trivial hname value) fun hfs =>
    ⟨(hm.store.mono hfs).define _ _ (hv.mono hfs), hm.returned.mono hfs, trivial⟩

theorem heeds_assign (hm : m.Obeys law) {name : Token} (hname : Trait.plain.name name)
    {value : Value} (hv : value.Obeys law m.store.frames) :
    (assign name.lexeme value).Heeds law m fun _ _ => True :=
  heeds_of_basic hm (.assign hname value) fun hfs =>
    ⟨(hm.store.mono hfs).assign _ _ (hv.mono hfs), hm.returned.mono hfs, trivial⟩

theorem heeds_defineAll {names : List Token} (hnames : ∀ p ∈ names, Trait.plain.name p)
    {values : List Value} (hm : m.Obeys law) (hvs : ∀ v ∈ values, v.Obeys law m.store.frames) :
    (defineAll names values).Heeds law m fun _ _ => True := by
  induction names generalizing values m with
  | nil => exact heeds_pure hm trivial
  | cons name names ih =>
    cases values with
    | nil => exact heeds_pure hm trivial
    | cons v vs =>
      obtain ⟨hname, hnames⟩ := List.forall_mem_cons.mp hnames
      obtain ⟨hv, hvs⟩ := List.forall_mem_cons.mp hvs
      exact (heeds_define hm hname hv).bind fun _ m' ht hm' _ =>
        ih hnames hm' fun w hw => (hvs w hw).mono ht.frames

theorem heeds_setField (hm : m.Obeys law) (id : ObjectId) (name : String) {value : Value}
    (hv : value.Obeys law m.store.frames) :
    (change fun store => store.setField id name value).Heeds law m fun _ _ => True :=
  heeds_of_basic hm (.setField id name value) fun _ =>
    ⟨hm.store.setField id name hv, hm.returned, trivial⟩

theorem heeds_takeSerial (hm : m.Obeys law) : takeSerial.Heeds law m fun _ _ => True :=
  (heeds_look hm trivial).bind (Q := fun _ _ => True) fun _ _ _ hm' _ =>
    (heeds_of_basic hm' .takeSerial fun _ => ⟨hm'.store.takeSerial, hm'.returned, trivial⟩).bind
      (Q := fun _ _ => True) fun _ _ _ hm'' _ => heeds_pure hm'' trivial

/-- A new function is run in the present scope. -/
theorem heeds_makeClosure (hm : m.Obeys law) (routine : Routine) (isInitializer : Bool) :
    (makeClosure routine isInitializer).Heeds law m fun _ f =>
      ∃ serial, f = ⟨serial, routine, m.scope, isInitializer⟩ :=
  (heeds_takeSerial hm).bind fun serial _ ht hm' _ =>
    (heeds_look hm' (Q := fun _ scope => scope = m.scope) ht.scope).bind fun scope _ _ hm'' hscope =>
      heeds_pure hm'' ⟨serial, by rw [hscope]⟩

/-- New functions for the definitions of a class are run in the present scope. -/
theorem heeds_makeMethods (hm : m.Obeys law) {ds : List Definition} {P : Closure → Prop}
    (h : ∀ d ∈ ds, ∀ serial, P ⟨serial, d.routine, m.scope, d.name.lexeme == initializerName⟩) :
    (makeMethods ds).Heeds law m fun _ t => t.All P := by
  suffices hgo : ∀ methods : Table Closure, methods.All P →
      (makeMethods.go methods ds).Heeds law m fun _ t => t.All P from hgo .empty Table.all_empty
  induction ds generalizing m with
  | nil => exact fun methods hmethods => heeds_pure hm hmethods
  | cons d ds ih =>
    intro methods hmethods
    obtain ⟨hd, hds⟩ := List.forall_mem_cons.mp h
    refine (heeds_makeClosure hm _ _).bind fun f m' ht hm' hf => ?_
    obtain ⟨serial, rfl⟩ := hf
    exact ih hm' (fun d' hd' serial => by rw [ht.scope]; exact hds d' hd' serial) _
      (hmethods.insert _ (hd serial))

theorem heeds_makeClass (hm : m.Obeys law) (name : String) {methods classMethods : Table Closure}
    (hmethods : methods.All (law.Method m.store.frames))
    (hclassMethods : classMethods.All (law.Callable m.store.frames)) :
    (makeClass name methods classMethods).Heeds law m (Class.Obeys law) :=
  (heeds_takeSerial hm).bind fun _ _ ht hm' _ => heeds_pure hm'
    (Class.Obeys.mono ⟨hmethods, hclassMethods⟩ ht.frames)

theorem heeds_makeObject (hm : m.Obeys law) {c : Class} (hc : c.Obeys law m.store.frames) :
    (makeObject c).Heeds law m fun _ _ => True :=
  (heeds_look hm trivial).bind (Q := fun _ _ => True) fun _ _ ht hm' _ =>
    (heeds_of_basic hm' (.allocObject c) fun _ =>
      ⟨hm'.store.allocObject (hc.mono ht.frames), hm'.returned, trivial⟩).bind
        (Q := fun _ _ => True) fun _ _ _ hm'' _ => heeds_pure hm'' trivial

/-- The new frame holds the receiver alone. -/
theorem heeds_bindMethod (hm : m.Obeys law) {method : Closure}
    (h : law.Method m.store.frames method) (id : ObjectId) :
    (bindMethod method (.object id)).Heeds law m law.Callable := by
  have ht := (Machine.upheld_tidy host).bindMethod method id hm.tidy
  have hid (fs : Frames Value) : (Value.object id).Obeys law fs := trivial
  refine ⟨ht, hm.of_tended ht ?_ (hm.returned.mono ht.frames), h.1, law.bind _ id h.2⟩
  exact (((hm.store.mono ht.frames).allocFrame _).define _ _ (hid _)).takeSerial

theorem heeds_member (hm : m.Obeys law) {target : Value}
    (htarget : target.Obeys law m.store.frames) (name : Token) :
    (member target name).Heeds law m (Value.Obeys law) := by
  cases target with
  | klass c =>
    rw [member]
    split
    case h_1 method hget => exact heeds_pure hm (htarget.classMethods _ _ hget)
    case h_2 => exact heeds_fault hm _ _
  | object id =>
    refine (heeds_look hm (Q := fun _ found => found = m.store.objects[id]?) rfl).bind
      fun found m' ht hm' hfound => ?_
    cases found with
    | none => exact heeds_fault hm' _ _
    | some o =>
      have hclass := (hm.store.classes id o hfound.symm).mono ht.frames
      dsimp only
      split
      case h_1 value hget =>
        exact heeds_pure hm' ((hm.store.fields id o hfound.symm _ _ hget).mono ht.frames)
      case h_2 =>
        split
        case h_1 method hget =>
          exact (heeds_bindMethod hm' (hclass.methods _ _ hget) id).bind fun f _ _ hm'' hf =>
            heeds_pure hm'' hf
        case h_2 =>
          split
          case h_1 method hget => exact heeds_pure hm' (hclass.classMethods _ _ hget)
          case h_2 => exact heeds_fault hm' _ _
  | _ => exact heeds_fault hm _ _

theorem heeds_binary (hm : m.Obeys law) (operator : Token) (left : Value) {right : Value}
    (hr : right.Obeys law m.store.frames) :
    (binary operator left right).Heeds law m (Value.Obeys law) := by
  refine heeds_of_same hm ?_
  unfold binary
  dsimp only
  split
  case h_1 value hresult =>
    refine ⟨rfl, ?_⟩
    split at hresult
    · obtain rfl | ⟨hfunction, hklass⟩ := applied?_cases hresult
      · exact hr
      · cases value with
        | function f => exact absurd rfl (hfunction f)
        | klass c => exact absurd rfl (hklass c)
        | _ => trivial
    · exact nomatch hresult
  case h_2 => rfl

theorem heeds_unary (hm : m.Obeys law) (operator : Token) (right : Value) :
    (unary operator right).Heeds law m (Value.Obeys law) := by
  unfold unary
  split
  · exact heeds_pure hm trivial
  · split
    · exact heeds_pure hm trivial
    · exact heeds_fault hm _ _

theorem heeds_printLine (hm : m.Obeys law) (text : String) :
    (printLine text).Heeds law m fun _ _ => True := by
  refine heeds_of_basic hm (.printLine trivial text) ?_
  unfold printLine
  dsimp only
  split
  · exact fun _ => ⟨hm.store, hm.returned, trivial⟩
  · exact fun _ => ⟨hm.store, hm.returned⟩

theorem heeds_setReturned (hm : m.Obeys law) {value : Value}
    (hv : value.Obeys law m.store.frames) : (setReturned value).Heeds law m fun _ _ => True :=
  heeds_of_basic hm (.setReturned trivial value) fun _ => ⟨hm.store, hv, trivial⟩

theorem heeds_takeReturned (hm : m.Obeys law) : takeReturned.Heeds law m (Value.Obeys law) :=
  heeds_of_basic hm (.takeReturned trivial) fun _ => ⟨hm.store, trivial, hm.returned⟩

theorem heeds_reading (hm : m.Obeys law) (b : Builtin) :
    (reading host b).Heeds law m (Value.Obeys law) :=
  heeds_of_basic hm (.reading b) fun _ => ⟨hm.store, hm.returned, trivial⟩

end Run

end Lox
