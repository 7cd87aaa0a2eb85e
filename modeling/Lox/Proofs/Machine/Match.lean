import Lox.Proofs.Machine.Contract
import Lox.Proofs.Machine.Trait
import Lox.Proofs.Program.Down
import Lox.Proofs.Store.World

/-!
# Machines that do the same for code that varies

Functions carry the code they were made from. Two machines that run programs that vary carry code
that varies, and need not have the same frames. `Machine.Match` says that in a world, which tells
for each frame of the second machine what it stands for, nothing else is different: objects and
serial numbers are the same, names mean the same, and the same was written.

Not all code has to vary in the same way: a `Revision` says how the code of a trait does, and there
may be several. What the second machine carries is the code of the first one, each routine as one of
the revisions says.

There is one lemma for each operation of a store. What matches in a world matches in every larger
one.
-/

namespace Lox

/-! ### Revisions -/

/-- How the code of a trait varies. -/
structure Revision where
  /-- The trait of the code. -/
  code : Trait
  /-- What may differ. -/
  change : Variation

/-- All code varies in the same way. -/
def Variation.throughout (V : Variation) : List Revision :=
  [⟨.any, V⟩]

/-- The bodies of some functions may stand in blocks. -/
def Revision.Boxes (cs : List Revision) : Prop :=
  ∃ c ∈ cs, c.change.boxed

/-- A token at which code may fail, and the one in its place. -/
def Token.Revised (cs : List Revision) (t t' : Token) : Prop :=
  ∃ c ∈ cs, c.code.token t ∧ c.change.token t t'

/-- A routine, and the one in its place. -/
def Routine.Revised (cs : List Revision) (r r' : Routine) : Prop :=
  ∃ c ∈ cs, r.Has c.code ∧ r.Varies c.change r'

/-- A definition, and the one in its place: it has the same name. -/
structure Definition.Revised (cs : List Revision) (d d' : Definition) : Prop where
  /-- They have the same name. -/
  name : d'.name.lexeme = d.name.lexeme
  /-- The routine is revised. -/
  routine : d.routine.Revised cs d'.routine

section

variable {cs : List Revision} {V : Variation}

theorem Variation.mem_throughout (V : Variation) : ⟨.any, V⟩ ∈ V.throughout :=
  List.mem_singleton_self _

theorem Revision.boxes_throughout : Boxes V.throughout ↔ V.boxed := by
  simp [Boxes, Variation.throughout]

theorem Revision.not_boxes_throughout (hV : ¬ V.boxed) : ¬ Boxes V.throughout :=
  mt boxes_throughout.mp hV

theorem Token.revised_throughout {t t' : Token} : t.Revised V.throughout t' ↔ V.token t t' := by
  simp [Revised, Variation.throughout, Trait.any]

theorem Routine.revised_throughout {r r' : Routine} (h : r.Varies V r') :
    r.Revised V.throughout r' :=
  ⟨_, V.mem_throughout, r.has_any, h⟩

theorem Routine.revised_self [Std.Refl V.token] (r : Routine) : r.Revised V.throughout r :=
  revised_throughout r.varies_refl

namespace Token.Revised

variable {t t' : Token}

theorem kind (h : t.Revised cs t') : t'.kind = t.kind := by
  obtain ⟨c, -, -, ht⟩ := h
  exact c.change.kind ht

theorem lexeme (h : t.Revised cs t') : t'.lexeme = t.lexeme := by
  obtain ⟨c, -, -, ht⟩ := h
  exact c.change.lexeme ht

theorem is (h : t.Revised cs t') (s : Symbol) : t'.is s = t.is s := by
  obtain ⟨c, -, -, ht⟩ := h
  exact Variation.is ht s

end Token.Revised

theorem Routine.Revised.arity {r r' : Routine} (h : r.Revised cs r') : r'.arity = r.arity := by
  obtain ⟨c, -, -, hr⟩ := h
  exact hr.arity

end

/-! ### Scopes -/

/-- The scopes in which a machine is: its own, and those of the callers. -/
structure Scopes where
  /-- The scope of the machine. -/
  scope : FrameId
  /-- The scopes of the callers, the innermost one first. -/
  callers : List FrameId

/-- The same callers in another scope. -/
def Scopes.inside (a : Scopes) (scope : FrameId) : Scopes :=
  ⟨scope, a.callers⟩

/-- The scopes in a call that is run in a scope: the one that was left is that of the caller. -/
def Scopes.called (a : Scopes) (scope : FrameId) : Scopes :=
  ⟨scope, a.scope :: a.callers⟩

/-- The scopes of a machine. -/
def Machine.scopes (m : Machine) : Scopes :=
  ⟨m.scope, m.callers⟩

variable {N : Naming}

/-- The scopes stand for each other, and those of the callers. -/
structure Scopes.Stands (w : World N) (a a' : Scopes) : Prop where
  /-- The scopes stand for each other. -/
  scope : w.Stands a.scope a'.scope
  /-- The scopes of the callers stand for each other. -/
  callers : List.Forall₂ w.Stands a.callers a'.callers

namespace Scopes.Stands

variable {w w₁ : World N} {a a' : Scopes} {f f' : FrameId}

theorem mono (h : a.Stands w a') (hw : w ≤ w₁) : a.Stands w₁ a' where
  scope := h.scope.mono hw
  callers := h.callers.imp fun _ _ hf => hf.mono hw

theorem inside (h : a.Stands w a') (hf : w.Stands f f') :
    (a.inside f).Stands w (a'.inside f') where
  scope := hf
  callers := h.callers

theorem called (h : a.Stands w a') (hf : w.Stands f f') :
    (a.called f).Stands w (a'.called f') where
  scope := hf
  callers := .cons h.scope h.callers

end Scopes.Stands

/-! ### Machines that match -/

section

variable (cs : List Revision) (w : World N)

/-- The same function, with a routine that is revised, in a frame that stands for the other's. -/
structure Closure.Match (f f' : Closure) : Prop where
  /-- They are the same function. -/
  serial : f'.serial = f.serial
  /-- The routine is revised. -/
  routine : f.routine.Revised cs f'.routine
  /-- They are run in scopes that stand for each other. -/
  scope : w.Stands f.scope f'.scope
  /-- Both are initializers, or neither. -/
  isInitializer : f'.isInitializer = f.isInitializer

/-- The same class, with methods that match. -/
structure Class.Match (c c' : Class) : Prop where
  /-- They are the same class. -/
  serial : c'.serial = c.serial
  /-- They have the same name. -/
  name : c'.name = c.name
  /-- Their methods match. -/
  methods : c.methods.Like (Closure.Match cs w) c'.methods
  /-- Their class methods match. -/
  classMethods : c.classMethods.Like (Closure.Match cs w) c'.classMethods

/-- The same value, with functions that match. -/
inductive Value.Match : Value → Value → Prop where
  | nil : Match .nil .nil
  | bool (value : Bool) : Match (.bool value) (.bool value)
  | number (value : Float) : Match (.number value) (.number value)
  | text (value : String) : Match (.text value) (.text value)
  | builtin (b : Builtin) : Match (.builtin b) (.builtin b)
  | function {f f' : Closure} (h : f.Match cs w f') : Match (.function f) (.function f')
  | klass {c c' : Class} (h : c.Match cs w c') : Match (.klass c) (.klass c')
  | object (id : ObjectId) : Match (.object id) (.object id)

/-- Objects of the same class with fields that match. -/
structure Object.Match (o o' : Object) : Prop where
  /-- They have the same class. -/
  ofClass : o.ofClass.Match cs w o'.ofClass
  /-- The values of their fields match. -/
  fields : o.fields.Like (Value.Match cs w) o'.fields

/-- Stores with the same objects and with frames that mean the same. -/
structure Store.Match (s s' : Store) : Prop where
  /-- Names mean the same. -/
  frames : s.frames.Match w (Value.Match cs w) s'.frames
  /-- Their objects match. -/
  objects (id : ObjectId) : Option.Rel (Object.Match cs w) s.objects[id]? s'.objects[id]?
  /-- The same serial number comes next. -/
  serial : s'.serial = s.serial

/-- Machines that match, the first in the scopes `a` and the second in the scopes `a'`. -/
structure Machine.Match (a a' : Scopes) (m m' : Machine) : Prop where
  /-- Their stores match. -/
  store : m.store.Match cs w m'.store
  /-- The first machine is in its scopes. -/
  scopes : m.scopes = a
  /-- The second machine is in its scopes. -/
  scopes' : m'.scopes = a'
  /-- They stand for each other. -/
  stands : a.Stands w a'
  /-- The values of the last `return` match. -/
  returned : m.returned.Match cs w m'.returned
  /-- They wrote the same. -/
  output : m'.output = m.output
  /-- They took as many readings. -/
  readings : m'.readings = m.readings

/-- The same error, at a token that is revised. -/
inductive RuntimeError.Revised : RuntimeError → RuntimeError → Prop where
  | fault {t t' : Token} (h : t.Revised cs t') (cause : RuntimeFault) :
    Revised (.fault t.line cause) (.fault t'.line cause)
  | outputClosed : Revised .outputClosed .outputClosed

end

variable {cs : List Revision} {w w₁ : World N}

/-! ### Larger worlds -/

theorem Closure.Match.mono {f f' : Closure} (h : f.Match cs w f') (hw : w ≤ w₁) :
    f.Match cs w₁ f' :=
  { h with scope := h.scope.mono hw }

theorem Class.Match.mono {c c' : Class} (h : c.Match cs w c') (hw : w ≤ w₁) :
    c.Match cs w₁ c' where
  serial := h.serial
  name := h.name
  methods := h.methods.imp fun _ _ hf => hf.mono hw
  classMethods := h.classMethods.imp fun _ _ hf => hf.mono hw

theorem Value.Match.mono {v v' : Value} (h : v.Match cs w v') (hw : w ≤ w₁) :
    v.Match cs w₁ v' := by
  cases h with
  | nil => exact .nil
  | bool value => exact .bool value
  | number value => exact .number value
  | text value => exact .text value
  | builtin b => exact .builtin b
  | function h => exact .function (h.mono hw)
  | klass h => exact .klass (h.mono hw)
  | object id => exact .object id

theorem forall₂_mono {vs vs' : List Value} (h : List.Forall₂ (Value.Match cs w) vs vs')
    (hw : w ≤ w₁) : List.Forall₂ (Value.Match cs w₁) vs vs' :=
  h.imp fun _ _ hv => hv.mono hw

theorem Object.Match.mono {o o' : Object} (h : o.Match cs w o') (hw : w ≤ w₁) :
    o.Match cs w₁ o' where
  ofClass := h.ofClass.mono hw
  fields := h.fields.imp fun _ _ hv => hv.mono hw

/-- If tokens stay as they are, the errors are the same. -/
theorem RuntimeError.Revised.eq {V : Variation} (hV : ∀ t t', V.token t t' → t = t')
    {e e' : RuntimeError} (h : e.Revised V.throughout e') : e = e' := by
  cases h with
  | fault ht cause => rw [hV _ _ (Token.revised_throughout.mp ht)]
  | outputClosed => rfl

theorem Closure.Match.arity {f f' : Closure} (h : f.Match cs w f') : f'.arity = f.arity :=
  h.routine.arity

/-! ### Values -/

namespace Value.Match

variable {v v' u u' : Value}

theorem isTruthy (h : v.Match cs w v') : v'.isTruthy = v.isTruthy := by
  cases h <;> rfl

theorem same (hv : v.Match cs w v') (hu : u.Match cs w u') : v'.same u' = v.same u := by
  cases hv <;> cases hu
  case function.function _ _ hf _ _ hg => rw [Value.same, Value.same, hf.serial, hg.serial]
  case klass.klass _ _ hc _ _ hd => rw [Value.same, Value.same, hc.serial, hd.serial]
  all_goals rfl

theorem ofLiteral (value : Literal) : (Value.ofLiteral value).Match cs w (.ofLiteral value) := by
  cases value
  case number value => exact .number value
  case text value => exact .text value
  case bool value => exact .bool value
  case nil => exact .nil

end Value.Match

/-! ### Stores -/

namespace Store.Match

variable {s s' : Store} {f f' : FrameId} {v v' : Value}

theorem nextObject (h : s.Match cs w s') : s'.nextObject = s.nextObject :=
  size_eq_of_rel h.objects

/-- The next frames, once they are made, stand for each other. -/
theorem main_nextFrame (h : s.Match cs w s') :
    (w.extend s.nextFrame).Main s.nextFrame s'.nextFrame :=
  h.frames.fits.main_extend

theorem allocFrame (h : s.Match cs w s') (hf : w.Stands f f') :
    (s.allocFrame (some f)).Match cs (w.extend s.nextFrame) (s'.allocFrame (some f')) where
  frames := (h.frames.alloc hf).mono fun _ _ hv => hv.mono (w.le_extend _)
  objects id := optionRel_mono (fun _ _ ho => ho.mono (w.le_extend _)) (h.objects id)
  serial := h.serial

theorem allocIdle {w : World .renamed} (h : s.Match cs w s') (hf : w.Stands f f') :
    s.Match cs (w.extend f) (s'.allocFrame (some f')) where
  frames := (h.frames.allocIdle hf).mono fun _ _ hv => hv.mono (w.le_extend _)
  objects id := optionRel_mono (fun _ _ ho => ho.mono (w.le_extend _)) (h.objects id)
  serial := h.serial

theorem define (h : s.Match cs w s') (hf : w.Main f f') (name : String) (hv : v.Match cs w v') :
    (s.define f name v).Match cs w (s'.define f' name v') :=
  { h with frames := h.frames.define hf name hv }

theorem assign (h : s.Match cs w s') (hf : w.Stands f f') (name : String) (hv : v.Match cs w v') :
    (s.assign f name v).Match cs w (s'.assign f' name v') :=
  { h with frames := h.frames.assign hf name hv }

theorem takeSerial (h : s.Match cs w s') : s.takeSerial.Match cs w s'.takeSerial :=
  { h with serial := congrArg (· + 1) h.serial }

theorem allocObject (h : s.Match cs w s') {c c' : Class} (hc : c.Match cs w c') :
    (s.allocObject c).Match cs w (s'.allocObject c') where
  frames := h.frames
  objects := by
    have hobject : (⟨c, .empty⟩ : Object).Match cs w ⟨c', .empty⟩ := ⟨hc, .empty⟩
    exact rel_push h.objects hobject
  serial := h.serial

theorem setField (h : s.Match cs w s') (id : ObjectId) (name : String) (hv : v.Match cs w v') :
    (s.setField id name v).Match cs w (s'.setField id name v') where
  frames := h.frames
  objects := by
    have hinsert (o o' : Object) (ho : o.Match cs w o') :
        ({ o with fields := o.fields.insert name v } : Object).Match cs w
          { o' with fields := o'.fields.insert name v' } :=
      ⟨ho.ofClass, ho.fields.insert name hv⟩
    exact rel_modify h.objects hinsert id
  serial := h.serial

theorem display (h : s.Match cs w s') (hv : v.Match cs w v') : s'.display v' = s.display v := by
  cases hv with
  | bool value => cases value <;> rfl
  | klass hc => rw [Store.display, Store.display, hc.name]
  | object id =>
    rw [Store.display, Store.display]
    obtain ⟨ho, ho'⟩ | ⟨o, o', ho, ho', hobject⟩ := eq_none_or_exists_of_rel (h.objects id) <;>
      rw [ho, ho']
    dsimp only
    rw [hobject.ofClass.name]
  | _ => rfl

end Store.Match

/-! ### Machines -/

namespace Machine.Match

variable {a a' b b' : Scopes} {f f' : FrameId} {m m' : Machine}

theorem scope (h : m.Match cs w a a' m') : m.scope = a.scope :=
  congrArg Scopes.scope h.scopes

theorem scope' (h : m.Match cs w a a' m') : m'.scope = a'.scope :=
  congrArg Scopes.scope h.scopes'

theorem callers (h : m.Match cs w a a' m') : m.callers = a.callers :=
  congrArg Scopes.callers h.scopes

theorem callers' (h : m.Match cs w a a' m') : m'.callers = a'.callers :=
  congrArg Scopes.callers h.scopes'

theorem depth (h : m.Match cs w a a' m') : m'.depth = m.depth := by
  rw [Machine.depth, Machine.depth, h.callers, h.callers']
  exact h.stands.callers.length_eq.symm

/-- Both machines enter new frames. -/
theorem enterFrame (h : m.Match cs w a a' m') :
    m.enterFrame.Match cs (w.extend m.store.nextFrame) (a.inside m.store.nextFrame)
      (a'.inside m'.store.nextFrame) m'.enterFrame where
  store := by
    refine h.store.allocFrame ?_
    rw [h.scope, h.scope']
    exact h.stands.scope
  scopes := congrArg (Scopes.mk m.store.nextFrame) h.callers
  scopes' := congrArg (Scopes.mk m'.store.nextFrame) h.callers'
  stands := (h.stands.mono (w.le_extend _)).inside h.store.main_nextFrame.stands
  returned := h.returned.mono (w.le_extend _)
  output := h.output
  readings := h.readings

/-- The second machine enters a new frame, and the first one stays where it is. -/
theorem enterIdle {w : World .renamed} (h : m.Match cs w a a' m') :
    m.Match cs (w.extend a.scope) a (a'.inside m'.store.nextFrame) m'.enterFrame where
  store := by
    refine h.store.allocIdle ?_
    rw [h.scope']
    exact h.stands.scope
  scopes := h.scopes
  scopes' := congrArg (Scopes.mk m'.store.nextFrame) h.callers'
  stands := (h.stands.mono (w.le_extend _)).inside (h.store.frames.fits.stands_extend _)
  returned := h.returned.mono (w.le_extend _)
  output := h.output
  readings := h.readings

/-- Both machines are put into other scopes. -/
theorem backIn (h : m.Match cs w b b' m') (hf : w.Stands f f') :
    (m.backIn f).Match cs w (b.inside f) (b'.inside f') (m'.backIn f') :=
  { h with
    scopes := congrArg (Scopes.mk f) h.callers
    scopes' := congrArg (Scopes.mk f') h.callers'
    stands := h.stands.inside hf }

/-- The second machine is put into another scope. -/
theorem backInIdle (h : m.Match cs w a b' m') (hf : w.Stands a.scope f') :
    m.Match cs w a (b'.inside f') (m'.backIn f') :=
  { h with scopes' := congrArg (Scopes.mk f') h.callers', stands := h.stands.inside hf }

theorem enterCall (h : m.Match cs w a a' m') (hf : w.Stands f f') :
    (m.enterCall f).Match cs w (a.called f) (a'.called f') (m'.enterCall f') :=
  { h with
    scopes := by
      obtain rfl := h.scopes
      rfl
    scopes' := by
      obtain rfl := h.scopes'
      rfl
    stands := h.stands.called hf }

/-- Both machines leave a call, and are in the scopes where it was entered. -/
theorem leaveCall (h : m.Match cs w (a.called f) (a'.called f') m') (ha : a.Stands w a') :
    m.leaveCall.Match cs w a a' m'.leaveCall :=
  { h with
    store := h.store
    scopes := by
      rw [Machine.leaveCall, h.callers]
      rfl
    scopes' := by
      rw [Machine.leaveCall, h.callers']
      rfl
    stands := ha }

/-- Stores that match may come in the place of the others. -/
theorem withStore (h : m.Match cs w a a' m') (hw : w ≤ w₁) {s s' : Store}
    (hs : s.Match cs w₁ s') :
    Machine.Match cs w₁ a a' { m with store := s } { m' with store := s' } :=
  { h with store := hs, stands := h.stands.mono hw, returned := h.returned.mono hw }

end Machine.Match

end Lox
