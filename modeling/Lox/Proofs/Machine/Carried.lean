import Lox.Proofs.Machine.Invariant
import Lox.Proofs.Store.Chain

/-!
# The routines that a machine carries

Functions and classes are values, so the routines of a program end up in frames, in fields, in the
tables of classes and in the value of the last `return`. What holds of every routine that a value
holds is kept by all basic steps: they move values about, and a bound method has the routine of the
method.

Main definitions: `Value.Carries`, `Store.Carries`, `Machine.Carries` — all routines within have a
property. There is one lemma for each step.
-/

namespace Lox

/-- All values of a table have a property. -/
def Table.All {α : Type} (Q : α → Prop) (t : Table α) : Prop :=
  ∀ name value, t.get? name = some value → Q value

/-- All values in a collection of frames have a property. -/
def Frames.All {α : Type} (Q : α → Prop) (fs : Frames α) : Prop :=
  ∀ (f : FrameId) (frame : Frame α), fs.cells[f]? = some frame → frame.table.All Q

/-- The routines of all methods of a class have a property. -/
def Class.Carries (P : Routine → Prop) (c : Class) : Prop :=
  (c.methods.All fun f => P f.routine) ∧ c.classMethods.All fun f => P f.routine

/-- The routines that a value carries have a property. -/
def Value.Carries (P : Routine → Prop) : Value → Prop
  | .function f => P f.routine
  | .klass c => c.Carries P
  | _ => True

/-- The routines in a store have a property. -/
structure Store.Carries (P : Routine → Prop) (s : Store) : Prop where
  /-- Those in the frames. -/
  frames : s.frames.All (Value.Carries P)
  /-- Those of the classes of objects. -/
  classes : ∀ (id : ObjectId) (o : Object), s.objects[id]? = some o → o.ofClass.Carries P
  /-- Those in the fields of objects. -/
  fields : ∀ (id : ObjectId) (o : Object), s.objects[id]? = some o → o.fields.All (Value.Carries P)

/-- The routines that a machine carries have a property. -/
structure Machine.Carries (P : Routine → Prop) (m : Machine) : Prop where
  /-- Those in the store. -/
  store : m.store.Carries P
  /-- Those in the value of the last `return`. -/
  returned : m.returned.Carries P

/-! ### Tables and frames -/

section
variable {α : Type} {Q : α → Prop}

theorem Table.all_empty : (Table.empty : Table α).All Q :=
  fun _ _ h => nomatch h

theorem Table.All.insert {t : Table α} (h : t.All Q) (name : String) {value : α} (hv : Q value) :
    (t.insert name value).All Q := by
  intro name' value' hget
  rw [Table.get?_insert] at hget
  split at hget
  · obtain rfl := Option.some.inj hget
    exact hv
  · exact h name' value' hget

theorem Frames.All.alloc {fs : Frames α} (h : fs.All Q) (parent : Option FrameId) :
    (fs.alloc parent).All Q := by
  intro f frame hf
  have hf : (fs.cells.push ⟨_, .empty⟩)[f]? = some frame := hf
  rw [Array.getElem?_push] at hf
  split at hf
  · obtain rfl := Option.some.inj hf
    exact Table.all_empty
  · exact h f frame hf

theorem Frames.All.define {fs : Frames α} (h : fs.All Q) (g : FrameId) (name : String) {value : α}
    (hv : Q value) : (fs.define g name value).All Q := by
  intro f frame hf
  have hf : (fs.cells.modify g _)[f]? = some frame := hf
  rw [Array.getElem?_modify] at hf
  split at hf
  · obtain ⟨frame', hframe, rfl⟩ := Option.map_eq_some_iff.mp hf
    exact (h f frame' hframe).insert name hv
  · exact h f frame hf

theorem Frames.All.assign {fs : Frames α} (h : fs.All Q) (g : FrameId) (name : String) {value : α}
    (hv : Q value) : (fs.assign g name value).2.All Q := by
  obtain hsame | ⟨f, -, hdefine⟩ := fs.assign_cases g name value
  · rwa [hsame]
  · rw [hdefine]
    exact h.define f name hv

theorem Frames.All.get? {fs : Frames α} (h : fs.All Q) {g : FrameId} {name : String} {value : α}
    (hget : fs.get? g name = some value) : Q value := by
  rw [Frames.get?_eq_nearest?] at hget
  obtain ⟨f, -, hown⟩ := Option.bind_eq_some_iff.mp hget
  obtain ⟨frame, hframe, hvalue⟩ := Option.bind_eq_some_iff.mp hown
  exact h f frame hframe name value hvalue

end

/-! ### Stores -/

/-- All values in a store have a property, and all classes of objects have another one. -/
structure Store.All (Q : Value → Prop) (K : Class → Prop) (s : Store) : Prop where
  /-- The values in the frames. -/
  frames : s.frames.All Q
  /-- The classes of objects. -/
  classes : ∀ (id : ObjectId) (o : Object), s.objects[id]? = some o → K o.ofClass
  /-- The values in the fields of objects. -/
  fields : ∀ (id : ObjectId) (o : Object), s.objects[id]? = some o → o.fields.All Q

namespace Store.All

variable {Q : Value → Prop} {K : Class → Prop} {s : Store}

theorem imp (h : s.All Q K) {Q' : Value → Prop} {K' : Class → Prop} (hQ : ∀ v, Q v → Q' v)
    (hK : ∀ c, K c → K' c) : s.All Q' K' where
  frames f frame hf name value hv := hQ _ (h.frames f frame hf name value hv)
  classes id o ho := hK _ (h.classes id o ho)
  fields id o ho name value hv := hQ _ (h.fields id o ho name value hv)

theorem allocFrame (h : s.All Q K) (parent : Option FrameId) : (s.allocFrame parent).All Q K :=
  ⟨h.frames.alloc parent, h.classes, h.fields⟩

theorem define (h : s.All Q K) (f : FrameId) (name : String) {value : Value} (hv : Q value) :
    (s.define f name value).All Q K :=
  ⟨h.frames.define f name hv, h.classes, h.fields⟩

theorem assign (h : s.All Q K) (f : FrameId) (name : String) {value : Value} (hv : Q value) :
    (s.assign f name value).All Q K :=
  ⟨h.frames.assign f name hv, h.classes, h.fields⟩

theorem takeSerial (h : s.All Q K) : s.takeSerial.All Q K :=
  ⟨h.frames, h.classes, h.fields⟩

/-- What holds of all objects holds of them and of a new one. -/
theorem objects_push {objects : Array Object} {o : Object} {P : Object → Prop}
    (h : ∀ (id : ObjectId) (o : Object), objects[id]? = some o → P o) (ho : P o) :
    ∀ (id : ObjectId) (o' : Object), (objects.push o)[id]? = some o' → P o' := by
  intro id o' ho'
  rw [Array.getElem?_push] at ho'
  split at ho'
  · obtain rfl := Option.some.inj ho'
    exact ho
  · exact h id o' ho'

theorem allocObject (h : s.All Q K) {c : Class} (hc : K c) : (s.allocObject c).All Q K :=
  ⟨h.frames, objects_push h.classes hc, objects_push h.fields Table.all_empty⟩

theorem setField (h : s.All Q K) (id : ObjectId) (name : String) {value : Value} (hv : Q value) :
    (s.setField id name value).All Q K := by
  -- One object changes, and of it only a field: its class stays the same.
  have hobjects : ∀ (id' : ObjectId) (o' : Object),
      (s.setField id name value).objects[id']? = some o' → K o'.ofClass ∧ o'.fields.All Q := by
    intro id' o' ho
    have ho : (s.objects.modify id _)[id']? = some o' := ho
    rw [Array.getElem?_modify] at ho
    split at ho
    · obtain ⟨o, hget, rfl⟩ := Option.map_eq_some_iff.mp ho
      exact ⟨h.classes id' o hget, (h.fields id' o hget).insert name hv⟩
    · exact ⟨h.classes id' o' ho, h.fields id' o' ho⟩
  exact ⟨h.frames, fun id' o' ho => (hobjects id' o' ho).1, fun id' o' ho => (hobjects id' o' ho).2⟩

end Store.All

variable {P : Routine → Prop}

theorem Store.carries_iff {s : Store} :
    s.Carries P ↔ s.All (Value.Carries P) (Class.Carries P) :=
  ⟨fun h => ⟨h.frames, h.classes, h.fields⟩, fun h => ⟨h.frames, h.classes, h.fields⟩⟩

namespace Store.Carries

variable {s : Store}

theorem allocFrame (h : s.Carries P) (parent : Option FrameId) : (s.allocFrame parent).Carries P :=
  carries_iff.mpr ((carries_iff.mp h).allocFrame parent)

theorem define (h : s.Carries P) (f : FrameId) (name : String) {value : Value}
    (hv : value.Carries P) : (s.define f name value).Carries P :=
  carries_iff.mpr ((carries_iff.mp h).define f name hv)

theorem assign (h : s.Carries P) (f : FrameId) (name : String) {value : Value}
    (hv : value.Carries P) : (s.assign f name value).Carries P :=
  carries_iff.mpr ((carries_iff.mp h).assign f name hv)

theorem takeSerial (h : s.Carries P) : s.takeSerial.Carries P :=
  carries_iff.mpr (carries_iff.mp h).takeSerial

theorem allocObject (h : s.Carries P) {c : Class} (hc : c.Carries P) :
    (s.allocObject c).Carries P :=
  carries_iff.mpr ((carries_iff.mp h).allocObject hc)

theorem setField (h : s.Carries P) (id : ObjectId) (name : String) {value : Value}
    (hv : value.Carries P) : (s.setField id name value).Carries P :=
  carries_iff.mpr ((carries_iff.mp h).setField id name hv)

end Store.Carries

theorem Machine.carries_initial (output : Channel) : (Machine.initial output).Carries P := by
  have hempty : Store.empty.Carries P := ⟨nofun, nofun, nofun⟩
  have hbuiltin (b : Builtin) : (Value.builtin b).Carries P := trivial
  exact ⟨((hempty.allocFrame none).define 0 _ (hbuiltin .clock)).define 0 _ (hbuiltin .random),
    trivial⟩

/-! ### Steps -/

namespace Run

theorem keeps_lookUp (name : Token) :
    (lookUp name).Keeps (Machine.Carries P) (Value.Carries P) := by
  intro m hm
  rw [lookUp]
  split
  case h_1 value hget => exact ⟨hm.store.frames.get? hget, hm⟩
  case h_2 => exact hm

theorem keeps_change {f : Store → Store} (h : ∀ s : Store, s.Carries P → (f s).Carries P) :
    (change f).Keeps (Machine.Carries P) fun _ => True :=
  fun _ hm => ⟨trivial, h _ hm.store, hm.returned⟩

theorem keeps_define (name : String) {value : Value} (hv : value.Carries P) :
    (define name value).Keeps (Machine.Carries P) fun _ => True :=
  fun _ hm => ⟨trivial, hm.store.define _ name hv, hm.returned⟩

theorem keeps_assign (name : String) {value : Value} (hv : value.Carries P) :
    (assign name value).Keeps (Machine.Carries P) fun _ => True :=
  fun _ hm => ⟨trivial, hm.store.assign _ name hv, hm.returned⟩

theorem keeps_defineAll (names : List Token) {values : List Value}
    (hvs : ∀ v ∈ values, v.Carries P) :
    (defineAll names values).Keeps (Machine.Carries P) fun _ => True := by
  induction names generalizing values with
  | nil => exact keeps_pure trivial
  | cons name names ih =>
    cases values with
    | nil => exact keeps_pure trivial
    | cons v vs =>
      obtain ⟨hv, hvs⟩ := List.forall_mem_cons.mp hvs
      exact (keeps_define _ hv).bind fun _ _ => ih hvs

theorem keeps_takeSerial : takeSerial.Keeps (Machine.Carries P) fun _ => True :=
  (keeps_see _).bind fun _ _ =>
    (keeps_change fun _ h => h.takeSerial).bind fun _ _ => keeps_pure trivial

theorem keeps_makeClosure {routine : Routine} (h : P routine) (isInitializer : Bool) :
    (makeClosure routine isInitializer).Keeps (Machine.Carries P) fun f => P f.routine :=
  keeps_takeSerial.bind fun _ _ => (keeps_see _).bind fun _ _ => keeps_pure h

theorem keeps_makeMethods {ds : List Definition} (h : ∀ d ∈ ds, P d.routine) :
    (makeMethods ds).Keeps (Machine.Carries P) fun t => t.All fun f => P f.routine := by
  suffices hgo : ∀ methods : Table Closure, (methods.All fun f => P f.routine) →
      (makeMethods.go methods ds).Keeps (Machine.Carries P) fun t => t.All fun f => P f.routine from
    hgo .empty Table.all_empty
  induction ds with
  | nil => exact fun methods hmethods => keeps_pure hmethods
  | cons d ds ih =>
    intro methods hmethods
    obtain ⟨hd, hds⟩ := List.forall_mem_cons.mp h
    exact (keeps_makeClosure hd _).bind fun f hf => ih hds _ (hmethods.insert _ hf)

theorem keeps_makeClass (name : String) {methods classMethods : Table Closure}
    (hm : methods.All fun f => P f.routine) (hc : classMethods.All fun f => P f.routine) :
    (makeClass name methods classMethods).Keeps (Machine.Carries P) (Class.Carries P) :=
  keeps_takeSerial.bind fun _ _ => keeps_pure ⟨hm, hc⟩

theorem keeps_makeObject {c : Class} (hc : c.Carries P) :
    (makeObject c).Keeps (Machine.Carries P) fun _ => True :=
  (keeps_see _).bind fun _ _ =>
    (keeps_change fun _ h => h.allocObject hc).bind fun _ _ => keeps_pure trivial

theorem keeps_bindMethod {method : Closure} (h : P method.routine) {this : Value}
    (hthis : this.Carries P) :
    (bindMethod method this).Keeps (Machine.Carries P) fun f => P f.routine :=
  -- The new frame holds the receiver alone.
  (keeps_see _).bind fun _ _ =>
    (keeps_change fun _ hs => (hs.allocFrame _).define _ _ hthis).bind fun _ _ =>
      keeps_takeSerial.bind fun _ _ => keeps_pure h

theorem keeps_member {target : Value} (ht : target.Carries P) (name : Token) :
    (member target name).Keeps (Machine.Carries P) (Value.Carries P) := by
  cases target with
  | klass c =>
    rw [member]
    split
    case h_1 method hget => exact keeps_pure (ht.2 _ _ hget)
    case h_2 => exact keeps_fault _ _
  | object id =>
    have hlook : (look fun m => m.store.objects[id]?).Keeps (Machine.Carries P) fun found =>
        ∀ o, found = some o → o.ofClass.Carries P ∧ o.fields.All (Value.Carries P) :=
      keeps_look fun m hm o ho => ⟨hm.store.classes id o ho, hm.store.fields id o ho⟩
    refine hlook.bind fun found hfound => ?_
    cases found with
    | none => exact keeps_fault _ _
    | some o =>
      obtain ⟨hclass, hfields⟩ := hfound o rfl
      dsimp only
      split
      case h_1 value hget => exact keeps_pure (hfields _ _ hget)
      case h_2 =>
        split
        case h_1 method hget =>
          have hthis : (Value.object id).Carries P := trivial
          exact (keeps_bindMethod (hclass.1 _ _ hget) hthis).bind fun f hf => keeps_pure hf
        case h_2 =>
          split
          case h_1 method hget => exact keeps_pure (hclass.2 _ _ hget)
          case h_2 => exact keeps_fault _ _
  | _ => exact keeps_fault _ _

/-- What an operator makes of two values is the right one, or it is neither a function nor a
class. -/
theorem applied?_cases {store : Store} {operator : Symbol} {left right value : Value}
    (h : applied? store operator left right = some value) :
    value = right ∨ (∀ f, value ≠ .function f) ∧ ∀ c, value ≠ .klass c := by
  unfold applied? at h
  split at h
  -- The comma yields its right operand; all other operators yield plain data.
  case h_1 => exact .inl (Option.some.inj h).symm
  case h_4 =>
    unfold arithmetic at h
    split at h <;>
      first | (obtain rfl := Option.some.inj h; exact .inr ⟨nofun, nofun⟩) | exact nomatch h
  case h_6 => exact nomatch h
  all_goals
    obtain rfl := Option.some.inj h
    exact .inr ⟨nofun, nofun⟩

theorem carries_applied {store : Store} {operator : Symbol} {left right value : Value}
    (hr : right.Carries P) (h : applied? store operator left right = some value) :
    value.Carries P := by
  obtain rfl | ⟨hfunction, hklass⟩ := applied?_cases h
  · exact hr
  · cases value with
    | function f => exact absurd rfl (hfunction f)
    | klass c => exact absurd rfl (hklass c)
    | _ => trivial

theorem keeps_binary (operator : Token) (left : Value) {right : Value} (hr : right.Carries P) :
    (binary operator left right).Keeps (Machine.Carries P) (Value.Carries P) := by
  intro m hm
  unfold binary
  dsimp only
  split
  case h_1 value hresult =>
    split at hresult
    · exact ⟨carries_applied hr hresult, hm⟩
    · exact nomatch hresult
  case h_2 => exact hm

theorem keeps_unary (operator : Token) (right : Value) :
    (unary operator right).Keeps (Machine.Carries P) (Value.Carries P) := by
  unfold unary
  split
  · exact keeps_pure trivial
  · split
    · exact keeps_pure trivial
    · exact keeps_fault _ _

theorem keeps_printLine (text : String) :
    (printLine text).Keeps (Machine.Carries P) fun _ => True := by
  intro m hm
  unfold printLine
  dsimp only
  split
  · exact ⟨trivial, hm.store, hm.returned⟩
  · exact ⟨hm.store, hm.returned⟩

theorem keeps_setReturned {value : Value} (hv : value.Carries P) :
    (setReturned value).Keeps (Machine.Carries P) fun _ => True :=
  fun _ hm => ⟨trivial, hm.store, hv⟩

theorem keeps_takeReturned : takeReturned.Keeps (Machine.Carries P) (Value.Carries P) :=
  fun _ hm => ⟨hm.returned, hm.store, trivial⟩

theorem keeps_reading (host : Host) (b : Builtin) :
    (reading host b).Keeps (Machine.Carries P) (Value.Carries P) :=
  fun _ hm => ⟨trivial, hm.store, hm.returned⟩

end Run

end Lox
