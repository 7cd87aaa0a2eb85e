import Lox.Proofs.Machine.Trait

/-!
# Steps

The plans of the tasks are put together from the twelve basic steps of `Run.IsBasic` and from the
binding of methods. They are gone through once: `Task.typed_plan` says of the plan of a task which
steps it is made of, which **effects** these may have, and what is known of the values that are
handed on from one step to the next. So what is to be shown of the steps of all programs needs no
look at the plans.

Two readings of it are used. `Plan.StepsOnly` forgets the values, and `Trait.invariant_kept` forgets
the steps: what has a trait comes only to what has it.
-/

namespace Lox

/-! ### Effects -/

/-- What may be done in the course of a plan, other than to compute values and to change what there
is. -/
structure Effects where
  /-- Functions may be called, and the value of the last `return` taken. -/
  calls : Prop
  /-- The output may be written to. -/
  prints : Prop
  /-- The value of the last `return` may be set. -/
  returns : Prop
  /-- Names may be defined in the scope, and statements executed in it. -/
  declares : Prop

/-- Everything may be done. -/
def Effects.all : Effects :=
  ⟨True, True, True, True⟩

/-- In a frame of its own, a plan may declare names. -/
def Effects.inside (E : Effects) : Effects :=
  { E with declares := True }

namespace Task

/-- The task belongs to the evaluation of an expression. -/
def IsEvaluation : Task → Prop
  | evaluate _ | evaluateAll _ | call .. | invoke .. => True
  | execute _ | executeAll _ | loop .. => False

/-- A function is invoked. -/
def IsInvoke : Task → Prop
  | invoke .. => True
  | _ => False

/-- A `print` statement is executed. -/
def IsPrint : Task → Prop
  | execute (.print _) => True
  | _ => False

theorem IsPrint.exists_eq {t : Task} (h : t.IsPrint) : ∃ e, t = execute (.print e) := by
  unfold IsPrint at h
  split at h
  · exact ⟨_, rfl⟩
  · exact h.elim

/-- What the plan of a task may do. -/
def effects (t : Task) : Effects where
  calls := t.IsInvoke
  prints := t.IsPrint
  returns := ¬ t.IsEvaluation
  declares := ¬ t.IsEvaluation

end Task

/-! ### Kinds of steps -/

/-- The basic steps of programs with a trait, as far as effects allow them. What is looked at
depends on the store, the scope and the number of calls in progress. -/
inductive Run.IsBasic (q : Trait) (host : Host) (E : Effects) : {α : Type} → Run α → Prop where
  | pure {α : Type} (value : α) : IsBasic q host E (pure value : Run α)
  | look {α : Type} (f : Store → FrameId → Nat → α) :
      IsBasic q host E (look fun m => f m.store m.scope m.depth)
  | fault {α : Type} {t : Token} (h : q.token t) (cause : RuntimeFault) :
      IsBasic q host E (fault t cause : Run α)
  | define {name : Token} (hE : E.declares) (h : q.name name) (value : Value) :
      IsBasic q host E (define name.lexeme value)
  | assign {name : Token} (h : q.name name) (value : Value) :
      IsBasic q host E (assign name.lexeme value)
  | setField (id : ObjectId) (name : String) (value : Value) :
      IsBasic q host E (change fun store => store.setField id name value)
  | takeSerial : IsBasic q host E (change Store.takeSerial)
  | allocObject (c : Class) : IsBasic q host E (change fun store => store.allocObject c)
  | printLine (hE : E.prints) (text : String) : IsBasic q host E (printLine text)
  | setReturned (hE : E.returns) (value : Value) : IsBasic q host E (setReturned value)
  | takeReturned (hE : E.calls) : IsBasic q host E takeReturned
  | reading (b : Builtin) : IsBasic q host E (reading host b)

/-- Basic steps, and several of them one after another. -/
inductive Run.IsStep (q : Trait) (host : Host) (E : Effects) : {α : Type} → Run α → Prop where
  | basic {α : Type} {r : Run α} : IsBasic q host E r → IsStep q host E r
  | bind {α β : Type} {r : Run α} {f : α → Run β} :
      IsStep q host E r → (∀ value, IsStep q host E (f value)) → IsStep q host E (r >>= f)

/-- The steps that plans are made of: basic ones, and those that bind a method to an object, perhaps
after a look at the machine. -/
inductive Run.IsAct (q : Trait) (host : Host) (E : Effects) : {α : Type} → Run α → Prop where
  | step {α : Type} {r : Run α} : IsStep q host E r → IsAct q host E r
  | bindMethod (method : Closure) (id : ObjectId) : IsAct q host E (bindMethod method (.object id))
  | look {α β : Type} (f : Store → FrameId → Nat → α) {next : α → Run β}
      (h : ∀ value, IsAct q host E (next value)) :
      IsAct q host E (Run.look (fun m => f m.store m.scope m.depth) >>= next)
  | map {α β : Type} {r : Run α} (h : IsAct q host E r) (f : α → β) :
      IsAct q host E (r >>= fun value => Pure.pure (f value))

variable {q : Trait} {host : Host} {E : Effects}

namespace Run

/-- To look up a name is to read the store, and a fault if nothing is found. -/
theorem lookUp_eq (name : Token) : lookUp name =
    (look fun m => m.store.frames.get? m.scope name.lexeme) >>= fun found =>
      found.elim (fault name (.undefinedVariable name.lexeme)) pure := by
  funext m
  simp only [lookUp, Bind.bind, Run.bind, look]
  cases m.store.frames.get? m.scope name.lexeme <;> rfl

/-- To apply an operator is to read the store, which tells equal values from others, and a fault if
the operator does not apply. -/
theorem binary_eq (s : Symbol) (lexeme : String) (line : Nat) (left right : Value) :
    binary ⟨.symbol s, lexeme, line⟩ left right =
      (look fun m => applied? m.store s left right) >>= fun found =>
        found.elim (fault ⟨.symbol s, lexeme, line⟩ (.invalidOperands lexeme)) pure := by
  funext m
  simp only [binary, Bind.bind, Run.bind, look]
  cases applied? m.store s left right <;> rfl

end Run

namespace Run.IsStep

theorem pure {α : Type} (value : α) : IsStep q host E (Pure.pure value : Run α) :=
  .basic (.pure value)

theorem look {α : Type} (f : Store → FrameId → Nat → α) :
    IsStep q host E (Run.look fun m => f m.store m.scope m.depth) :=
  .basic (.look f)

theorem fault {α : Type} {t : Token} (h : q.token t) (cause : RuntimeFault) :
    IsStep q host E (Run.fault t cause : Run α) :=
  .basic (.fault h cause)

theorem lookUp {name : Token} (hname : q.token name) : IsStep q host E (Run.lookUp name) := by
  rw [Run.lookUp_eq]
  refine .bind (.look fun store scope _ => store.frames.get? scope name.lexeme) fun found => ?_
  cases found with
  | some value => exact .pure _
  | none => exact .fault hname _

theorem defineAll (hE : E.declares) {names : List Token} (h : ∀ p ∈ names, q.name p)
    (values : List Value) : IsStep q host E (Run.defineAll names values) := by
  induction names generalizing values with
  | nil => exact .pure _
  | cons p ps ih =>
    obtain ⟨hp, hps⟩ := List.forall_mem_cons.mp h
    cases values with
    | nil => exact .pure _
    | cons v vs => exact .bind (.basic (.define hE hp _)) fun _ => ih hps vs

theorem takeSerial : IsStep q host E Run.takeSerial :=
  .bind (.look fun store _ _ => store.serial) fun _ => .bind (.basic .takeSerial) fun _ => .pure _

theorem makeClosure (routine : Routine) (isInitializer : Bool) :
    IsStep q host E (Run.makeClosure routine isInitializer) :=
  .bind .takeSerial fun _ => .bind (.look fun _ scope _ => scope) fun _ => .pure _

theorem makeMethods (ds : List Definition) : IsStep q host E (Run.makeMethods ds) := by
  suffices h : ∀ methods, IsStep q host E (Run.makeMethods.go methods ds) from h .empty
  induction ds with
  | nil => exact fun _ => .pure _
  | cons d ds ih => exact fun methods => .bind (makeClosure _ _) fun method => ih _

theorem makeClass (name : String) (methods classMethods : Table Closure) :
    IsStep q host E (Run.makeClass name methods classMethods) :=
  .bind .takeSerial fun _ => .pure _

theorem makeObject (c : Class) : IsStep q host E (Run.makeObject c) :=
  .bind (.look fun store _ _ => store.nextObject) fun _ =>
    .bind (.basic (.allocObject c)) fun _ => .pure _

theorem binary {operator : Token} (hop : q.token operator) (left right : Value) :
    IsStep q host E (Run.binary operator left right) := by
  obtain ⟨kind, lexeme, line⟩ := operator
  cases kind
  case symbol s =>
    rw [Run.binary_eq]
    refine .bind (.look fun store _ _ => applied? store s left right) fun found => ?_
    cases found with
    | some value => exact .pure _
    | none => exact .fault hop _
  -- Tokens of the other kinds are no operators.
  all_goals exact .fault hop (.invalidOperands lexeme)

theorem unary {operator : Token} (hop : q.token operator) (right : Value) :
    IsStep q host E (Run.unary operator right) := by
  unfold Run.unary
  split
  · exact .pure _
  · split
    · exact .pure _
    · exact .fault hop _

end Run.IsStep

namespace Run

theorem member_object (id : ObjectId) (name : Token) (m : Machine) :
    member (.object id) name m = (match m.store.objects[id]? with
      | none => fault name (.uninitializedField name.lexeme)
      | some o =>
        match o.fields.get? name.lexeme with
        | some value => pure value
        | none =>
          match o.ofClass.methods.get? name.lexeme with
          | some method => bindMethod method (.object id) >>= fun f => pure (.function f)
          | none =>
            match o.ofClass.classMethods.get? name.lexeme with
            | some method => pure (.function method)
            | none => fault name (.uninitializedField name.lexeme) : Run Value) m :=
  rfl

/-- A method of the object's class is bound to the object, if no field hides it. -/
theorem member_method {id : ObjectId} {name : Token} {m : Machine} {o : Object} {method : Closure}
    (found : m.store.objects[id]? = some o) (noField : o.fields.get? name.lexeme = none)
    (hasMethod : o.ofClass.methods.get? name.lexeme = some method) :
    member (.object id) name m =
      (bindMethod method (.object id) >>= fun f => pure (.function f)) m := by
  rw [member_object, found]
  dsimp only
  rw [noField, hasMethod]

end Run

namespace Run.IsAct

theorem fault {α : Type} {t : Token} (h : q.token t) (cause : RuntimeFault) :
    IsAct q host E (Run.fault t cause : Run α) :=
  .step (.fault h cause)

theorem pure {α : Type} (value : α) : IsAct q host E (Pure.pure value : Run α) :=
  .step (.pure value)

/-- To read a member is to look at the object and then to yield a value, to bind a method of the
object's class to the object, or to stop. -/
theorem member (target : Value) {name : Token} (h : q.token name) :
    IsAct q host E (Run.member target name) := by
  cases target
  case klass c =>
    rw [Run.member]
    cases c.classMethods.get? name.lexeme with
    | some method => exact .pure _
    | none => exact .fault h _
  case object id =>
    refine .look (fun store _ _ => store.objects[id]?) fun found => ?_
    cases found with
    | none => exact .fault h _
    | some o =>
      dsimp only
      cases o.fields.get? name.lexeme with
      | some value => exact .pure _
      | none =>
        cases o.ofClass.methods.get? name.lexeme with
        | some method => exact .map (.bindMethod method id) _
        | none =>
          cases o.ofClass.classMethods.get? name.lexeme with
          | some method => exact .pure _
          | none => exact .fault h _
  all_goals exact .fault h _

end Run.IsAct

/-! ### Plans -/

/-- All steps of a plan are of the kinds listed and have no more than the effects `E`. In a frame of
its own a plan may declare names; calls are there only if there may be, and the body of each is
followed in a frame of its own. -/
inductive Plan.StepsOnly (q : Trait) (host : Host) : Effects → {α : Type} → Plan α → Prop where
  | act {E : Effects} {α : Type} {r : Run α} (hr : Run.IsAct q host E r) :
      StepsOnly q host E (act r)
  | part {E : Effects} {t : Task} (hE : E.declares ∨ t.IsEvaluation) : StepsOnly q host E (part t)
  | andThen {E : Effects} {α β : Type} {p : Plan α} {next : α → Plan β}
      (hp : StepsOnly q host E p) (hnext : ∀ value, StepsOnly q host E (next value)) :
      StepsOnly q host E (andThen p next)
  | inFrame {E : Effects} {α : Type} {p : Plan α} (hp : StepsOnly q host E.inside p) :
      StepsOnly q host E (inFrame p)
  | inCall {E : Effects} {α : Type} {p : Plan α} (scope : FrameId) (hcalls : E.calls)
      (hp : StepsOnly q host E.inside p) : StepsOnly q host E (inCall scope (inFrame p))

theorem Plan.StepsOnly.of_inFrame {α : Type} {p : Plan α}
    (h : (Plan.inFrame p).StepsOnly q host E) : p.StepsOnly q host E.inside := by
  cases h with
  | inFrame hp => exact hp

/-- A plan is made of the steps listed, and under the assumption `Γ` it starts tasks with a trait
only and comes to a value of which `Q` holds, on machines that have the trait. What comes behind a
part of the plan may assume what is known of the value of the part. -/
inductive Plan.Typed (q : Trait) (host : Host) :
    Effects → Prop → {α : Type} → Plan α → (α → Prop) → Prop where
  | act {E : Effects} {Γ : Prop} {α : Type} {r : Run α} {Q : α → Prop} (hr : Run.IsAct q host E r)
      (hQ : Γ → r.Keeps (Machine.Has q) Q) : Typed q host E Γ (act r) Q
  | part {E : Effects} {Γ : Prop} {t : Task} (hE : E.declares ∨ t.IsEvaluation) (ht : Γ → t.Has q) :
      Typed q host E Γ (part t) (t.Yields q)
  | andThen {E : Effects} {Γ : Prop} {α β : Type} {p : Plan α} {next : α → Plan β} {Q : α → Prop}
      {Q' : β → Prop} (hp : Typed q host E Γ p Q)
      (hnext : ∀ value, Typed q host E (Γ ∧ Q value) (next value) Q') :
      Typed q host E Γ (andThen p next) Q'
  | inFrame {E : Effects} {Γ : Prop} {α : Type} {p : Plan α} {Q : α → Prop}
      (hp : Typed q host E.inside Γ p Q) : Typed q host E Γ (inFrame p) Q
  | inCall {E : Effects} {Γ : Prop} {α : Type} {p : Plan α} {Q : α → Prop} (scope : FrameId)
      (hcalls : E.calls) (hp : Typed q host E.inside Γ p Q) :
      Typed q host E Γ (inCall scope (inFrame p)) Q

namespace Plan.Typed

variable {Γ : Prop} {α : Type} {p : Plan α} {Q : α → Prop}

/-- The steps of such a plan. -/
theorem stepsOnly (h : p.Typed q host E Γ Q) : p.StepsOnly q host E := by
  induction h with
  | act hr _ => exact .act hr
  | part hE _ => exact .part hE
  | andThen _ _ ihp ihnext => exact .andThen ihp ihnext
  | inFrame _ ih => exact .inFrame ih
  | inCall scope hcalls _ ih => exact .inCall scope hcalls ih

/-- Such a plan keeps the trait. -/
theorem keeps (h : p.Typed q host E Γ Q) (hΓ : Γ) : p.Keeps q.invariant Q := by
  induction h with
  | act _ hQ => exact keeps_act (hQ hΓ)
  | part _ ht => exact keeps_part (I := q.invariant) (ht hΓ)
  | andThen _ _ ihp ihnext => exact (ihp hΓ).andThen fun value hvalue => ihnext value ⟨hΓ, hvalue⟩
  | inFrame _ ih => exact (ih hΓ).inFrame
  | inCall scope _ _ ih => exact (ih hΓ).inFrame.inCall

/-- A step. -/
theorem step {r : Run α} (hr : Run.IsStep q host E r) (hQ : Γ → r.Keeps (Machine.Has q) Q) :
    (Plan.act r).Typed q host E Γ Q :=
  .act (.step hr) hQ

/-- A value. -/
theorem pure {value : α} (h : Γ → Q value) : (return value : Plan α).Typed q host E Γ Q :=
  .step (.pure value) fun hΓ => Run.keeps_pure (h hΓ)

theorem fault {t : Token} (h : q.token t) (cause : RuntimeFault) :
    (Plan.fault t cause : Plan α).Typed q host E Γ Q :=
  .step (.fault h cause) fun _ => Run.keeps_fault t cause

/-- Whatever the machine shows. -/
theorem see (f : Store → FrameId → Nat → α) :
    (Plan.look fun m => f m.store m.scope m.depth).Typed q host E Γ fun _ => True :=
  .step (.look f) fun _ => Run.keeps_see _

theorem evaluate {e : Expr} (h : e.Has q) : (Plan.evaluate e).Typed q host E Γ (Value.Has q) :=
  .part (.inr trivial) fun _ => h

theorem evaluateAll {es : List Expr} (h : Expr.AllHave q es) :
    (Plan.evaluateAll es).Typed q host E Γ fun vs => ∀ v ∈ vs, v.Has q :=
  .part (.inr trivial) fun _ => h

theorem execute (hE : E.declares) {s : Stmt} (h : s.Has q) :
    (Plan.execute s).Typed q host E Γ fun _ => True :=
  .part (.inl hE) fun _ => h

theorem executeAll (hE : E.declares) {ss : List Stmt} (h : Stmt.AllHave q ss) :
    (Plan.part (.executeAll ss)).Typed q host E Γ fun _ => True :=
  .part (.inl hE) fun _ => h

theorem loop (hE : E.declares) {condition step : Option Expr} {body : Stmt}
    (h : (Task.loop condition step body).Has q) :
    (Plan.loop condition step body).Typed q host E Γ fun _ => True :=
  .part (.inl hE) fun _ => h

end Plan.Typed

namespace Plan

variable {Γ : Prop}

theorem typed_ofExpr {e : Expr} (h : e.Has q) : (ofExpr e).Typed q host E Γ (Value.Has q) := by
  cases e with
  | literal value => exact .pure fun _ => by cases value <;> trivial
  | name token => exact .step (.lookUp h) fun _ => Run.keeps_lookUp token
  | assign name value =>
    refine .andThen (.see fun store scope _ => store.frames.has scope name.lexeme) fun found => ?_
    cases found with
    | false => exact .fault h.1.1 _
    | true =>
      refine .andThen (.evaluate h.2) fun v => ?_
      refine .andThen (.step (.basic (.assign h.1.2 v)) fun hv => Run.keeps_assign _ hv.2)
        fun _ => ?_
      exact .pure fun hv => hv.1.2
  | get object name =>
    refine .andThen (.evaluate h.1) fun target => ?_
    exact .act (.member target h.2) fun ht => Run.keeps_member ht.2 name
  | set object name value =>
    refine .andThen (.evaluate h.1) fun target => ?_
    cases target with
    | object id =>
      refine .andThen (.evaluate h.2.2) fun v => ?_
      refine .andThen (.step (.basic (.setField id name.lexeme v)) fun hv =>
        Run.keeps_change fun s hs => hs.setField id name.lexeme hv.2) fun _ => ?_
      exact .pure fun hv => hv.1.2
    | _ => exact .fault h.2.1 _
  | conditional condition whenTrue whenFalse =>
    refine .andThen (.evaluate h.1) fun v => ?_
    split
    · exact .evaluate h.2.1
    · exact .evaluate h.2.2
  | logical left operator right =>
    refine .andThen (.evaluate h.1) fun v => ?_
    split
    · exact .pure fun hv => hv.2
    · exact .evaluate h.2
  | binary left operator right =>
    refine .andThen (.evaluate h.1) fun a => .andThen (.evaluate h.2.2) fun b => ?_
    exact .step (.binary h.2.1 a b) fun hb => Run.keeps_binary operator a hb.2
  | unary operator right =>
    refine .andThen (.evaluate h.2) fun v => ?_
    exact .step (.unary h.1 v) fun _ => Run.keeps_unary operator v
  | call callee paren arguments =>
    exact .andThen (.evaluate h.1) fun target => .andThen (.evaluateAll h.2.2) fun vs =>
      .part (.inr trivial) fun known => ⟨h.2.1, known.1.2, known.2⟩
  | lambda routine =>
    have hroutine : routine.Has q := h
    refine .andThen (.step (.makeClosure _ _) fun _ => Run.keeps_makeClosure hroutine false)
      fun f => ?_
    exact .pure fun hf => hf.2

theorem typed_ofExprs {es : List Expr} (h : Expr.AllHave q es) :
    (ofExprs es).Typed q host E Γ fun vs => ∀ v ∈ vs, v.Has q := by
  cases es with
  | nil => exact .pure fun _ => nofun
  | cons e es =>
    refine .andThen (.evaluate h.1) fun v => .andThen (.evaluateAll h.2) fun vs => ?_
    exact .pure fun known => List.forall_mem_cons.mpr ⟨known.1.2, known.2⟩

theorem typed_ofCall {target : Value} {paren : Token} {values : List Value}
    (h : (Task.call target paren values).Has q) :
    (ofCall host target paren values).Typed q host E Γ (Value.Has q) := by
  obtain ⟨hparen, ht, hvs⟩ := h
  cases target with
  | builtin b => exact .step (.basic (.reading b)) fun _ => Run.keeps_reading host b
  | function f =>
    simp only [ofCall]
    split
    · exact .part (.inr trivial) fun _ => ⟨hparen, ht, hvs⟩
    · exact .fault hparen _
  | klass c =>
    refine .andThen (.step (.makeObject c) fun _ => Run.keeps_makeObject ht) fun id => ?_
    have hid : (Value.object id).Has q := trivial
    split
    case h_1 => exact .pure fun _ => hid
    case h_2 init hinit =>
      split
      · refine .andThen (.act (.bindMethod init id) fun _ =>
          Run.keeps_bindMethod (ht.1 _ _ hinit) hid) fun f => ?_
        exact .andThen (.part (.inr trivial) fun hf => ⟨hparen, hf.2, hvs⟩) fun _ =>
          .pure fun _ => hid
      · exact .fault hparen _
  | _ => exact .fault hparen _

/-- The body of a function, in the frame of the call. -/
theorem typed_ofBody (hE : E.declares) {f : Closure} (hf : f.routine.Has q) {values : List Value}
    (hvs : ∀ v ∈ values, v.Has q) : (do
      Run.defineAll f.routine.parameters values
      execute f.routine.body : Plan Completion).Typed q host E Γ fun _ => True := by
  refine .andThen (.step (.defineAll hE hf.parameters values) fun _ => Run.keeps_defineAll _ hvs)
    fun _ => ?_
  exact .execute hE hf.body

theorem typed_ofInvoke (hE : E.calls) {f : Closure} {paren : Token} {values : List Value}
    (h : (Task.invoke f paren values).Has q) :
    (ofInvoke f paren values).Typed q host E Γ (Value.Has q) := by
  obtain ⟨hparen, hf, hvs⟩ := h
  refine .andThen (.see fun _ _ depth => depth) fun depth => ?_
  split
  · exact .fault hparen _
  · refine .andThen (.inCall f.scope hE (typed_ofBody trivial hf hvs)) fun completion => ?_
    split
    -- An initializer yields its receiver, which the frame of a bound method holds.
    · refine .step (.look fun store _ _ => (store.frames.get? f.scope Run.thisName).getD .nil)
        fun _ => Run.keeps_look fun m hm => ?_
      cases hthis : m.store.frames.get? f.scope Run.thisName with
      | none => trivial
      | some v => exact hm.store.frames.get? hthis
    · split
      · exact .step (.basic (.takeReturned hE)) fun _ => Run.keeps_takeReturned
      · exact .pure fun _ => trivial

theorem typed_ofDefine (hE : E.declares) {name : Token} (hname : q.name name) {value : Value}
    (hvalue : Γ → value.Has q) : (do
      Run.define name.lexeme value
      return none : Plan Completion).Typed q host E Γ fun _ => True := by
  refine .andThen (.step (.basic (.define hE hname value)) fun known =>
    Run.keeps_define _ (hvalue known)) fun _ => ?_
  exact .pure fun _ => trivial

theorem typed_ofReturned (hE : E.returns) (jump : Jump) {value : Value}
    (hvalue : Γ → value.Has q) : (do
      Run.setReturned value
      return some jump : Plan Completion).Typed q host E Γ fun _ => True := by
  refine .andThen (.step (.basic (.setReturned hE value)) fun known =>
    Run.keeps_setReturned (hvalue known)) fun _ => ?_
  exact .pure fun _ => trivial

theorem typed_ofMethods {ds : List Definition} (h : Definition.AllHave q ds) :
    (act (Run.makeMethods ds)).Typed q host E Γ fun t => t.All fun f => f.routine.Has q :=
  .step (.makeMethods ds) fun _ => Run.keeps_makeMethods (Definition.allHave_iff.mp h)

theorem typed_ofStmt (hdeclares : E.declares) (hreturns : E.returns) {s : Stmt}
    (hprints : (Task.execute s).IsPrint → E.prints) (h : s.Has q) :
    (ofStmt s).Typed q host E Γ fun _ => True := by
  cases s with
  | block body => exact .inFrame (.executeAll trivial h)
  | declare name initial =>
    cases initial with
    | none => exact typed_ofDefine hdeclares h.1 fun _ => trivial
    | some initial =>
      refine .andThen (.evaluate h.2) fun v => ?_
      exact typed_ofDefine hdeclares h.1 fun hv => hv.2
  | function d =>
    have hroutine := h.2.routine
    refine .andThen (.step (.makeClosure _ _) fun _ => Run.keeps_makeClosure hroutine false)
      fun f => ?_
    exact typed_ofDefine hdeclares h.1 fun hf => hf.2
  | classDef name methods classMethods =>
    obtain ⟨hname, hmethods, hclassMethods⟩ := h
    refine .andThen (typed_ofMethods hmethods) fun t =>
      .andThen (typed_ofMethods hclassMethods) fun t' => ?_
    refine .andThen (.step (.makeClass _ t t') fun ht => Run.keeps_makeClass _ ht.1.2 ht.2)
      fun c => ?_
    exact typed_ofDefine hdeclares hname fun hc => hc.2
  | expression value => exact .andThen (.evaluate h) fun _ => .pure fun _ => trivial
  | print value =>
    refine .andThen (.evaluate h) fun v => .andThen (.see fun store _ _ => store.display v)
      fun text => ?_
    refine .andThen (.step (.basic (.printLine (hprints trivial) text)) fun _ =>
      Run.keeps_printLine text) fun _ => ?_
    exact .pure fun _ => trivial
  | branch condition whenTrue whenFalse =>
    obtain ⟨hcondition, hwhenTrue, hwhenFalse⟩ := h
    refine .andThen (.evaluate hcondition) fun v => ?_
    split
    · exact .execute hdeclares hwhenTrue
    · cases whenFalse with
      | none => exact .pure fun _ => trivial
      | some whenFalse => exact .execute hdeclares hwhenFalse
  | whileLoop condition body => exact .loop hdeclares ⟨h.1, h.2.1, trivial, h.2.2⟩
  | forLoop initial condition step body =>
    obtain ⟨hloops, hinitial, hrest⟩ := h
    refine .inFrame ?_
    cases initial with
    | none => exact .loop trivial ⟨hloops, hrest⟩
    | some initial =>
      exact .andThen (.execute trivial hinitial) fun _ => .loop trivial ⟨hloops, hrest⟩
  | jump keyword value =>
    cases value with
    | none => exact typed_ofReturned hreturns _ fun _ => trivial
    | some value =>
      have hvalue : value.Has q := h
      refine .andThen (.evaluate hvalue) fun v => ?_
      exact typed_ofReturned hreturns _ fun hv => hv.2
  | empty => exact .pure fun _ => trivial

theorem typed_ofStmts (hE : E.declares) {ss : List Stmt} (h : Stmt.AllHave q ss) :
    (ofStmts ss).Typed q host E Γ fun _ => True := by
  cases ss with
  | nil => exact .pure fun _ => trivial
  | cons s ss =>
    refine .andThen (.execute hE h.1) fun completion => ?_
    cases completion with
    | none => exact .executeAll hE h.2
    | some jump => exact .pure fun _ => trivial

theorem typed_ofRound (hE : E.declares) {condition step : Option Expr} {body : Stmt}
    (h : (Task.loop condition step body).Has q) :
    (ofRound condition step body).Typed q host E Γ fun _ => True := by
  have hstep := h.2.2.1
  refine .andThen (.execute hE h.2.2.2) fun completion => ?_
  rcases completion with _ | _ | _ | _
  case some.breakLoop => exact .pure fun _ => trivial
  case some.returnCall => exact .pure fun _ => trivial
  -- After the body, or a `continue` in it, the loop goes on with its step.
  all_goals
    cases step with
    | none => exact .loop hE h
    | some e => exact .andThen (.evaluate hstep) fun _ => .loop hE h

theorem typed_ofLoop (hE : E.declares) {condition step : Option Expr} {body : Stmt}
    (h : (Task.loop condition step body).Has q) :
    (ofLoop condition step body).Typed q host E Γ fun _ => True := by
  cases condition with
  | none => exact typed_ofRound hE h
  | some e =>
    have he : e.Has q := h.2.1
    refine .andThen (.evaluate he) fun v => ?_
    split
    · exact typed_ofRound hE h
    · exact .pure fun _ => trivial

end Plan

/-- **The plans of all tasks are made of the steps listed**, they do no more than the effects of the
task allow, and tasks with a trait start only such tasks and yield what has the trait. -/
theorem Task.typed_plan (host : Host) {t : Task} (h : t.Has q) :
    (t.plan host).Typed q host t.effects True (t.Yields q) := by
  cases t with
  | evaluate e => exact Plan.typed_ofExpr h
  | evaluateAll es => exact Plan.typed_ofExprs h
  | call target paren values => exact Plan.typed_ofCall h
  | invoke f paren values => exact Plan.typed_ofInvoke trivial h
  | execute s => exact Plan.typed_ofStmt id id id h
  | executeAll ss => exact Plan.typed_ofStmts id h
  | loop condition step body => exact Plan.typed_ofLoop id h

theorem Task.stepsOnly_plan (host : Host) {t : Task} (h : t.Has q) :
    (t.plan host).StepsOnly q host t.effects :=
  (typed_plan host h).stepsOnly

/-- Demands of a trait apart, the plans of all tasks are made of the steps listed. -/
theorem Task.stepsOnly_any (host : Host) (t : Task) :
    (t.plan host).StepsOnly .any host t.effects :=
  stepsOnly_plan host t.has_any

/-- **What has a trait comes only to what has it.** -/
theorem Trait.invariant_kept (q : Trait) (host : Host) : q.invariant.Kept host :=
  fun _ h => (Task.typed_plan host h).keeps trivial

/-- A call starts the body of the function only, in the frame in which the parameters were defined,
and it does so only if there may be one more call. -/
theorem Plan.starts_ofInvoke {f : Closure} {paren : Token} {values : List Value} {t : Task}
    {m m' : Machine} : (ofInvoke f paren values).Starts host m t m' ↔
      m.depth < maxDepth ∧ t = .execute f.routine.body ∧
        Run.defineAll f.routine.parameters values (m.enterCall f.scope).enterFrame =
          .done () m' := by
  constructor
  · intro h
    obtain h | ⟨n, depth, m₁, hdone, h⟩ := h
    · exact h.elim
    obtain ⟨rfl, rfl⟩ := Outcome.done.inj hdone
    dsimp only at h
    split at h
    · exact h.elim
    · rename_i hdepth
      obtain h | ⟨n, completion, m₂, -, h⟩ := h
      · obtain h | ⟨n, u, m₂, hdone, rfl, rfl⟩ := h
        · exact h.elim
        · exact ⟨Nat.lt_of_not_le hdepth, rfl, hdone⟩
      -- Behind the body no more tasks are started.
      · dsimp only at h
        split at h
        · exact h.elim
        · split at h <;> exact h.elim
  · rintro ⟨hdepth, rfl, hdone⟩
    refine .inr ⟨0, m.depth, m, rfl, ?_⟩
    dsimp only
    rw [if_neg (Nat.not_le_of_gt hdepth)]
    exact .inl (.inr ⟨0, (), m', hdone, rfl, rfl⟩)

end Lox
