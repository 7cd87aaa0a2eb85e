import Lox.Proofs.Machine.Law
import Lox.Proofs.Machine.Throughout

/-!
# Sessions are lawful

The plans of all tasks keep to a law (`Law.kept`): a task that is started in a session with lawful
values on a lawful machine comes to a lawful result. So the machines, the tasks and the results of a
session are lawful (`Law.happens`, `Law.ends`), and so are the machines between its texts
(`Law.reaches`). The machines in between, behind any move, comply with the law as well, although
names need not be given values in their scopes (`Law.moves`).
-/

namespace Lox

variable {host : Host} {output : Channel} {law : Law host output} {m m' : Machine}

/-- The scope of a machine is a place, and the functions in it are lawful. -/
structure Machine.Complies (law : Law host output) (m : Machine) : Prop where
  /-- The scope is a place. -/
  place : law.place m.store.frames m.scope
  /-- The values in the store are lawful. -/
  store : m.store.All (Value.Obeys law m.store.frames) (Class.Obeys law m.store.frames)
  /-- The value of the last `return` is lawful. -/
  returned : m.returned.Obeys law m.store.frames

theorem Machine.Obeys.complies (h : m.Obeys law) : m.Complies law :=
  ⟨h.place, h.store, h.returned⟩

/-- The scope of a machine does not matter to the functions in it. -/
theorem Machine.Complies.enterCall (h : m.Complies law) {scope : FrameId}
    (hscope : law.place m.store.frames scope) : (m.enterCall scope).Complies law :=
  ⟨hscope, h.store, h.returned⟩

theorem Run.Heeds.leaves {α : Type} {r : Run α} {Q : Frames Value → α → Prop}
    (h : r.Heeds law m Q) : (r m).Leaves (Machine.Complies law) :=
  h.mono (fun _ _ h => h.2.1.complies) fun _ _ h => h.2.complies

namespace Plan

variable {α β : Type} {Q : Frames Value → α → Prop} {Q' : Frames Value → β → Prop}

/-- A plan that is followed on the machine leaves a lawful one, with undisturbed frames and in the
same scope, and `Q` holds of its value; and the machine complies with the law throughout. -/
structure Heeds (law : Law host output) (p : Plan α) (m : Machine)
    (Q : Frames Value → α → Prop) : Prop where
  /-- The machine at the end is lawful. -/
  meets : p.Meets law.contract m
    (fun value m' => m.Tended m' ∧ m'.Obeys law ∧ Q m'.store.frames value)
    fun _ m' => m.Tended m' ∧ m'.Obeys law
  /-- The machines in between comply with the law. -/
  throughout : p.Throughout law.contract (Machine.Complies law) m

theorem heeds_act {r : Run α} (h : r.Heeds law m Q) : (act r).Heeds law m Q :=
  ⟨h, h.leaves⟩

theorem heeds_return (hm : m.Obeys law) {value : α} (h : Q m.store.frames value) :
    (return value : Plan α).Heeds law m Q :=
  heeds_act (Run.heeds_pure hm h)

theorem heeds_fault (hm : m.Obeys law) (t : Token) (cause : RuntimeFault) :
    (fault t cause : Plan α).Heeds law m Q :=
  heeds_act (Run.heeds_fault hm t cause)

theorem heeds_part (hm : m.Obeys law) {t : Task} (ht : t.Obeys law m.store.frames) :
    (part t).Heeds law m (t.Returns law) :=
  ⟨⟨⟨ht, hm⟩, fun _ _ h => h, fun _ _ h => h⟩, trivial⟩

/-- Less may be said of the value. -/
theorem Heeds.imp {p : Plan α} {Q₁ : Frames Value → α → Prop} (h : p.Heeds law m Q)
    (hQ : ∀ fs value, Q fs value → Q₁ fs value) : p.Heeds law m Q₁ :=
  ⟨h.meets.mono (fun _ _ h => ⟨h.1, h.2.1, hQ _ _ h.2.2⟩) fun _ _ h => h, h.throughout⟩

/-- A part that yields no value of the program. -/
theorem heeds_completion (hm : m.Obeys law) {t : Task} (ht : t.Obeys law m.store.frames) :
    (part t).Heeds law m fun _ _ => True :=
  (heeds_part hm ht).imp fun _ _ _ => trivial

theorem heeds_evaluate (hm : m.Obeys law) {e : Expr} (he : e.Has .plain) :
    (evaluate e).Heeds law m (Value.Obeys law) := by
  have ht : Task.Obeys law m.store.frames (.evaluate e) := he
  exact heeds_part hm ht

theorem heeds_evaluateAll (hm : m.Obeys law) {es : List Expr} (hes : Expr.AllHave .plain es) :
    (evaluateAll es).Heeds law m fun fs vs => ∀ v ∈ vs, v.Obeys law fs := by
  have ht : Task.Obeys law m.store.frames (.evaluateAll es) := hes
  exact heeds_part hm ht

theorem Heeds.andThen {p : Plan α} {next : α → Plan β} (hp : p.Heeds law m Q)
    (hnext : ∀ value m', m.Tended m' → m'.Obeys law → Q m'.store.frames value →
      (next value).Heeds law m' Q') : Heeds law (p >>= next) m Q' where
  meets := by
    refine Meets.mono (p := p) hp.meets (fun value m₁ h => ?_) fun _ _ h => h
    exact (hnext value m₁ h.1 h.2.1 h.2.2).meets.mono
      (fun _ _ h' => ⟨h.1.trans h'.1, h'.2⟩) fun _ _ h' => ⟨h.1.trans h'.1, h'.2⟩
  throughout := by
    refine ⟨hp.throughout, hp.meets.mono (fun value m₁ h => ?_) fun _ _ _ => trivial⟩
    exact (hnext value m₁ h.1 h.2.1 h.2.2).throughout

theorem heeds_inFrame (hm : m.Obeys law) {p : Plan α} (h : p.Heeds law m.enterFrame Q) :
    (inFrame p).Heeds law m Q := by
  have hback (m' : Machine) (ht : m.enterFrame.Tended m') (hm' : m'.Obeys law) :
      m.Tended (m'.backIn m.scope) ∧ (m'.backIn m.scope).Obeys law := by
    have hback := (Machine.upheld_tidy host).backIn hm.tidy ht
    exact ⟨hback, hm.of_tended hback hm'.store hm'.returned⟩
  constructor
  case meets =>
    refine Meets.mono (p := p) h.meets (fun value m' h' => ?_) fun _ m' h' => hback m' h'.1 h'.2
    have hboth := hback m' h'.1 h'.2.1
    exact ⟨hboth.1, hboth.2, h'.2.2⟩
  case throughout =>
    refine ⟨hm.enterFrame.complies, h.throughout, h.meets.mono (fun _ m' h' => ?_) fun _ m' h' => ?_⟩
    · exact (hback m' h'.1 h'.2.1).2.complies
    · exact (hback m' h'.1 h'.2).2.complies

/-- The body of a call is followed in a new frame inside a place. -/
theorem heeds_inCall (hm : m.Obeys law) {scope : FrameId} (hscope : law.place m.store.frames scope)
    {p : Plan α} (h : (m.enterCall scope).enterFrame.Obeys law →
      p.Heeds law (m.enterCall scope).enterFrame Q) :
    (inCall scope (inFrame p)).Heeds law m Q := by
  have hback (m' : Machine) (ht : (m.enterCall scope).enterFrame.Tended m') (hm' : m'.Obeys law) :
      m.Tended (m'.backIn scope).leaveCall ∧ (m'.backIn scope).leaveCall.Obeys law := by
    have hback := (Machine.upheld_tidy host).leaveCall hm.tidy ht
    exact ⟨hback, hm.of_tended hback hm'.store hm'.returned⟩
  have hbody := h (hm.enterFrame_of_place hscope)
  constructor
  case meets =>
    refine Meets.mono (p := p) hbody.meets (fun value m' h' => ?_) fun _ m' h' => hback m' h'.1 h'.2
    have hboth := hback m' h'.1 h'.2.1
    exact ⟨hboth.1, hboth.2, h'.2.2⟩
  case throughout =>
    -- Behind the frame of the body the machine is in the scope of the function again.
    have hleft (m' : Machine) (ht : (m.enterCall scope).enterFrame.Tended m')
        (hm' : m'.Obeys law) : (m'.backIn scope).Complies law :=
      ⟨law.place_mono ((Frames.Undisturbed.alloc _ _).trans ht.frames) hscope, hm'.store,
        hm'.returned⟩
    refine ⟨hm.complies.enterCall hscope, ⟨(hm.enterFrame_of_place hscope).complies,
      hbody.throughout, hbody.meets.mono (fun _ m' h' => ?_) fun _ m' h' => ?_⟩,
      hbody.meets.mono (fun _ m' h' => ?_) fun _ m' h' => ?_⟩
    · exact hleft m' h'.1 h'.2.1
    · exact hleft m' h'.1 h'.2
    · exact (hback m' h'.1 h'.2.1).2.complies
    · exact (hback m' h'.1 h'.2).2.complies

/-! ### The plans of the tasks -/

theorem heeds_ofExpr (hm : m.Obeys law) {e : Expr} (h : e.Has .plain) :
    (ofExpr e).Heeds law m (Value.Obeys law) := by
  cases e with
  | literal value =>
    have hvalue : (Value.ofLiteral value).Obeys law m.store.frames := by cases value <;> trivial
    exact heeds_return hm hvalue
  | name token => exact heeds_act (Run.heeds_lookUp hm token)
  | assign name value =>
    refine (heeds_act (Run.heeds_look hm (Q := fun _ _ => True) trivial)).andThen
      fun found _ _ hm _ => ?_
    cases found with
    | false => exact heeds_fault hm _ _
    | true =>
      refine (heeds_evaluate hm h.2).andThen fun v _ _ hm hv => ?_
      exact (heeds_act (Run.heeds_assign hm h.1.2 hv)).andThen fun _ _ ht hm _ =>
        heeds_return hm (hv.mono ht.frames)
  | get object name =>
    exact (heeds_evaluate hm h.1).andThen fun target _ _ hm htarget =>
      heeds_act (Run.heeds_member hm htarget name)
  | set object name value =>
    refine (heeds_evaluate hm h.1).andThen fun target _ _ hm _ => ?_
    cases target with
    | object id =>
      refine (heeds_evaluate hm h.2.2).andThen fun v _ _ hm hv => ?_
      exact (heeds_act (Run.heeds_setField hm id name.lexeme hv)).andThen fun _ _ ht hm _ =>
        heeds_return hm (hv.mono ht.frames)
    | _ => exact heeds_fault hm _ _
  | conditional condition whenTrue whenFalse =>
    refine (heeds_evaluate hm h.1).andThen fun v _ _ hm _ => ?_
    split
    · exact heeds_evaluate hm h.2.1
    · exact heeds_evaluate hm h.2.2
  | logical left operator right =>
    refine (heeds_evaluate hm h.1).andThen fun v _ _ hm hv => ?_
    split
    · exact heeds_return hm hv
    · exact heeds_evaluate hm h.2
  | binary left operator right =>
    refine (heeds_evaluate hm h.1).andThen fun a _ _ hm _ => ?_
    exact (heeds_evaluate hm h.2.2).andThen fun b _ _ hm hb =>
      heeds_act (Run.heeds_binary hm operator a hb)
  | unary operator right =>
    exact (heeds_evaluate hm h.2).andThen fun v _ _ hm _ =>
      heeds_act (Run.heeds_unary hm operator v)
  | call callee paren arguments =>
    refine (heeds_evaluate hm h.1).andThen fun target _ _ hm htarget => ?_
    refine (heeds_evaluateAll hm h.2.2).andThen fun vs m' ht hm hvs => ?_
    have hcall : Task.Obeys law m'.store.frames (.call target paren vs) :=
      ⟨htarget.mono ht.frames, hvs⟩
    exact heeds_part hm hcall
  | lambda routine =>
    refine (heeds_act (Run.heeds_makeClosure hm routine false)).andThen fun f _ ht hm' hf => ?_
    obtain ⟨serial, rfl⟩ := hf
    exact heeds_return hm' ⟨h, law.closure serial routine (law.place_mono ht.frames hm.place)⟩

theorem heeds_ofExprs (hm : m.Obeys law) {es : List Expr} (h : Expr.AllHave .plain es) :
    (ofExprs es).Heeds law m fun fs vs => ∀ v ∈ vs, v.Obeys law fs := by
  cases es with
  | nil => exact heeds_return hm (List.forall_mem_nil _)
  | cons e es =>
    refine (heeds_evaluate hm h.1).andThen fun v _ _ hm hv => ?_
    refine (heeds_evaluateAll hm h.2).andThen fun vs _ ht hm hvs => ?_
    exact heeds_return hm (List.forall_mem_cons.mpr ⟨hv.mono ht.frames, hvs⟩)

theorem heeds_ofCall (hm : m.Obeys law) {target : Value} (paren : Token) {values : List Value}
    (htarget : target.Obeys law m.store.frames) (hvs : ∀ v ∈ values, v.Obeys law m.store.frames) :
    (ofCall host target paren values).Heeds law m (Value.Obeys law) := by
  cases target with
  | builtin b => exact heeds_act (Run.heeds_reading hm b)
  | function f =>
    simp only [ofCall]
    split
    · have hinvoke : Task.Obeys law m.store.frames (.invoke f paren values) := ⟨htarget, hvs⟩
      exact heeds_part hm hinvoke
    · exact heeds_fault hm _ _
  | klass c =>
    have hid (id : ObjectId) (fs : Frames Value) : (Value.object id).Obeys law fs := trivial
    refine (heeds_act (Run.heeds_makeObject hm htarget)).andThen fun id m₁ ht₁ hm₁ _ => ?_
    split
    case h_1 => exact heeds_return hm₁ (hid id _)
    case h_2 init hinit =>
      split
      · have hmethod := (htarget.methods _ _ hinit).mono ht₁.frames
        refine (heeds_act (Run.heeds_bindMethod hm₁ hmethod id)).andThen fun f m₂ ht₂ hm₂ hf => ?_
        have hinvoke : Task.Obeys law m₂.store.frames (.invoke f paren values) :=
          ⟨hf, fun v hv => (hvs v hv).mono (ht₁.trans ht₂).frames⟩
        exact (heeds_part hm₂ hinvoke).andThen fun _ _ _ hm _ => heeds_return hm (hid id _)
      · exact heeds_fault hm₁ _ _
  | _ => exact heeds_fault hm _ _

theorem heeds_ofInvoke (hm : m.Obeys law) {f : Closure} (paren : Token) {values : List Value}
    (hf : law.Callable m.store.frames f) (hvs : ∀ v ∈ values, v.Obeys law m.store.frames) :
    (ofInvoke f paren values).Heeds law m (Value.Obeys law) := by
  -- The depth is read off the machine, which stays the same.
  refine (heeds_act (Run.heeds_look hm (Q := fun _ _ => True) trivial)).andThen
    fun depth m₁ ht hm₁ _ => ?_
  have hplace := law.scope (hf.mono ht.frames).2
  have hnil (fs : Frames Value) : Value.nil.Obeys law fs := trivial
  split
  · exact heeds_fault hm₁ _ _
  · refine (heeds_inCall hm₁ hplace (Q := fun _ _ => True) fun hcall => ?_).andThen
      fun completion m₂ _ hm₂ _ => ?_
    · have henter := ht.frames.trans (.alloc m₁.store.frames (some f.scope))
      refine (heeds_act (Run.heeds_defineAll hf.1.parameters hcall fun v hv =>
        (hvs v hv).mono henter)).andThen fun _ m₃ _ hm₃ _ => ?_
      have hbody : Task.Obeys law m₃.store.frames (.execute f.routine.body) := hf.1.body
      exact heeds_completion hm₃ hbody
    · split
      · refine heeds_act (Run.heeds_look hm₂ ?_)
        cases hget : m₂.store.frames.get? f.scope Run.thisName with
        | none => exact hnil _
        | some receiver => exact hm₂.store.frames.get? hget
      · split
        · exact heeds_act (Run.heeds_takeReturned hm₂)
        · exact heeds_return hm₂ (hnil _)

theorem heeds_define (hm : m.Obeys law) {name : Token} (hname : Trait.plain.name name)
    {value : Value} (hv : value.Obeys law m.store.frames) : (do
      Run.define name.lexeme value
      return none : Plan Completion).Heeds law m fun _ _ => True :=
  (heeds_act (Run.heeds_define hm hname hv)).andThen fun _ _ _ hm _ => heeds_return hm trivial

theorem heeds_setReturned (hm : m.Obeys law) {value : Value}
    (hv : value.Obeys law m.store.frames) (completion : Completion) : (do
      Run.setReturned value
      return completion : Plan Completion).Heeds law m fun _ _ => True :=
  (heeds_act (Run.heeds_setReturned hm hv)).andThen fun _ _ _ hm _ => heeds_return hm trivial

/-- A class is defined with functions that the law allows at this moment. -/
theorem heeds_classDef {name : Token} {methods classMethods : List Definition}
    (hhappens : Session.Happens host output ⟨.execute (.classDef name methods classMethods), m⟩)
    (hm : m.Obeys law) (h : (Stmt.classDef name methods classMethods).Has .plain) :
    (ofStmt (.classDef name methods classMethods)).Heeds law m fun _ _ => True := by
  obtain ⟨hname, hmethods, hclassMethods⟩ := h
  obtain ⟨hmethod, hcallable⟩ := law.classDef hhappens hm.place
  have hmade : ∀ d ∈ methods, ∀ serial, law.Method m.store.frames
      ⟨serial, d.routine, m.scope, d.name.lexeme == Run.initializerName⟩ := fun d hd serial =>
    ⟨Definition.allHave_iff.mp hmethods d hd, hmethod d hd serial⟩
  refine (heeds_act (Run.heeds_makeMethods hm hmade)).andThen fun ms m₁ ht₁ hm₁ hms => ?_
  have hmade' : ∀ d ∈ classMethods, ∀ serial, law.Callable m.store.frames
      ⟨serial, d.routine, m₁.scope, d.name.lexeme == Run.initializerName⟩ := fun d hd serial =>
    ⟨Definition.allHave_iff.mp hclassMethods d hd, by rw [ht₁.scope]; exact hcallable d hd serial⟩
  refine (heeds_act (Run.heeds_makeMethods hm₁ hmade')).andThen fun cs m₂ ht₂ hm₂ hcs => ?_
  have hfs := (ht₁.trans ht₂).frames
  refine (heeds_act (Run.heeds_makeClass hm₂ name.lexeme (hms.imp fun _ hf => hf.mono hfs)
    (hcs.imp fun _ hf => hf.mono hfs))).andThen fun c _ _ hm₃ hc => ?_
  exact heeds_define hm₃ hname hc

theorem heeds_ofStmt {s : Stmt} (hhappens : Session.Happens host output ⟨.execute s, m⟩)
    (hm : m.Obeys law) (h : s.Has .plain) : (ofStmt s).Heeds law m fun _ _ => True := by
  cases s with
  | block body =>
    have hbody : Task.Obeys law m.enterFrame.store.frames (.executeAll body) := h
    exact heeds_inFrame hm (heeds_completion hm.enterFrame hbody)
  | declare name initial =>
    cases initial with
    | none =>
      have hnil : Value.nil.Obeys law m.store.frames := trivial
      exact heeds_define hm h.1 hnil
    | some initial =>
      exact (heeds_evaluate hm h.2).andThen fun v _ _ hm hv => heeds_define hm h.1 hv
  | function d =>
    refine (heeds_act (Run.heeds_makeClosure hm d.routine false)).andThen fun f _ ht hm' hf => ?_
    obtain ⟨serial, rfl⟩ := hf
    exact heeds_define hm' h.1
      ⟨h.2.routine, law.closure serial d.routine (law.place_mono ht.frames hm.place)⟩
  | classDef name methods classMethods => exact heeds_classDef hhappens hm h
  | expression value =>
    exact (heeds_evaluate hm h).andThen fun _ _ _ hm _ => heeds_return hm trivial
  | print value =>
    refine (heeds_evaluate hm h).andThen fun v _ _ hm _ => ?_
    refine (heeds_act (Run.heeds_look hm (Q := fun _ _ => True) trivial)).andThen
      fun text _ _ hm _ => ?_
    exact (heeds_act (Run.heeds_printLine hm text)).andThen fun _ _ _ hm _ =>
      heeds_return hm trivial
  | branch condition whenTrue whenFalse =>
    obtain ⟨hcondition, hwhenTrue, hwhenFalse⟩ := h
    refine (heeds_evaluate hm hcondition).andThen fun v m' _ hm _ => ?_
    split
    · have ht : Task.Obeys law m'.store.frames (.execute whenTrue) := hwhenTrue
      exact heeds_completion hm ht
    · cases whenFalse with
      | none => exact heeds_return hm trivial
      | some whenFalse =>
        have ht : Task.Obeys law m'.store.frames (.execute whenFalse) := hwhenFalse
        exact heeds_completion hm ht
  | whileLoop condition body =>
    have ht : Task.Obeys law m.store.frames (.loop (some condition) none body) :=
      ⟨h.2.1, trivial, h.2.2⟩
    exact heeds_completion hm ht
  | forLoop initial condition step body =>
    obtain ⟨-, hinitial, hrest⟩ := h
    have hloop (fs : Frames Value) : Task.Obeys law fs (.loop condition step body) := hrest
    refine heeds_inFrame hm ?_
    cases initial with
    | none => exact heeds_completion hm.enterFrame (hloop _)
    | some initial =>
      have ht : Task.Obeys law m.enterFrame.store.frames (.execute initial) := hinitial
      exact (heeds_completion hm.enterFrame ht).andThen fun _ _ _ hm _ =>
        heeds_completion hm (hloop _)
  | jump keyword value =>
    cases value with
    | none =>
      have hnil : Value.nil.Obeys law m.store.frames := trivial
      exact heeds_setReturned hm hnil _
    | some value =>
      have hvalue : value.Has .plain := h
      exact (heeds_evaluate hm hvalue).andThen fun v _ _ hm hv => heeds_setReturned hm hv _
  | empty => exact heeds_return hm trivial

theorem heeds_ofStmts (hm : m.Obeys law) {ss : List Stmt} (h : Stmt.AllHave .plain ss) :
    (ofStmts ss).Heeds law m fun _ _ => True := by
  cases ss with
  | nil => exact heeds_return hm trivial
  | cons s ss =>
    have hs : Task.Obeys law m.store.frames (.execute s) := h.1
    refine (heeds_completion hm hs).andThen
      fun completion m' _ hm _ => ?_
    have hss : Task.Obeys law m'.store.frames (.executeAll ss) := h.2
    cases completion with
    | none => exact heeds_completion hm hss
    | some jump => exact heeds_return hm trivial

theorem heeds_ofRound (hm : m.Obeys law) {condition step : Option Expr} {body : Stmt}
    (h : ∀ fs, Task.Obeys law fs (.loop condition step body)) :
    (ofRound condition step body).Heeds law m fun _ _ => True := by
  have hbody : Task.Obeys law m.store.frames (.execute body) := (h m.store.frames).2.2
  have hloop {m' : Machine} (hm : m'.Obeys law) :
      (loop condition step body).Heeds law m' fun _ _ => True :=
    heeds_completion hm (h _)
  refine (heeds_completion hm hbody).andThen
    fun completion _ _ hm _ => ?_
  rcases completion with _ | _ | _ | _
  case some.breakLoop => exact heeds_return hm trivial
  case some.returnCall => exact heeds_return hm trivial
  -- After the body, or a `continue` in it, the loop goes on with its step.
  all_goals
    cases step with
    | none => exact hloop hm
    | some e =>
      have he : e.Has .plain := (h m.store.frames).2.1
      exact (heeds_evaluate hm he).andThen fun _ _ _ hm _ => hloop hm

theorem heeds_ofLoop (hm : m.Obeys law) {condition step : Option Expr} {body : Stmt}
    (h : ∀ fs, Task.Obeys law fs (.loop condition step body)) :
    (ofLoop condition step body).Heeds law m fun _ _ => True := by
  cases condition with
  | none => exact heeds_ofRound hm h
  | some e =>
    have he : e.Has .plain := (h m.store.frames).1
    refine (heeds_evaluate hm he).andThen fun v _ _ hm _ => ?_
    split
    · exact heeds_ofRound hm h
    · exact heeds_return hm trivial

end Plan

/-! ### Sessions -/

theorem Machine.obeys_initial (law : Law host output) : (Machine.initial output).Obeys law where
  tidy := .initial output
  place := law.initial
  store := by
    have hempty : Store.empty.All (Value.Obeys law (Machine.initial output).store.frames)
      (Class.Obeys law (Machine.initial output).store.frames) := ⟨nofun, nofun, nofun⟩
    have hbuiltin (b : Builtin) :
      (Value.builtin b).Obeys law (Machine.initial output).store.frames := trivial
    exact ((hempty.allocFrame none).define 0 _ (hbuiltin .clock)).define 0 _ (hbuiltin .random)
  returned := trivial

namespace Law

open Session

variable (law)

theorem heeds_plan {t : Task} (hhappens : Happens host output ⟨t, m⟩)
    (ht : t.Obeys law m.store.frames) (hm : m.Obeys law) :
    (t.plan host).Heeds law m (t.Returns law) := by
  cases t with
  | evaluate e => exact Plan.heeds_ofExpr hm ht
  | evaluateAll es => exact Plan.heeds_ofExprs hm ht
  | call target paren values => exact Plan.heeds_ofCall hm paren ht.1 ht.2
  | invoke f paren values => exact Plan.heeds_ofInvoke hm paren ht.1 ht.2
  | execute s => exact Plan.heeds_ofStmt hhappens hm ht
  | executeAll ss => exact Plan.heeds_ofStmts hm ht
  | loop condition step body => exact Plan.heeds_ofLoop hm fun _ => ht

/-- **The plans of all tasks of a session keep to a law.** -/
theorem kept : law.contract.KeptAt host (Happens host output) :=
  fun _ _ hhappens hb => (law.heeds_plan hhappens hb.1 hb.2).meets

theorem obeys_of_execute (stmt : Stmt) (m : Machine) (n : Nat) (m' : Machine)
    (h : Happens host output ⟨.execute stmt, m⟩) (hm : m.Obeys law)
    (hstops : (Run.execute host n stmt m).Stops m') : m'.Obeys law := by
  have hends := law.kept.run (fun _ _ => Happens.starts) n (.execute stmt) m h ⟨h.tidy.1.1, hm⟩
  have hleaves : (Run.execute host n stmt m).Leaves (Machine.Obeys law) :=
    hends.mono (fun _ _ h' => h'.2.1) fun _ _ h' => h'.2
  exact hleaves.of_stops hstops

/-- **Between the texts of a session the machine is lawful.** -/
theorem reaches {s : Session} (h : Reaches host (.initial output) s) : s.machine.Obeys law :=
  h.preserves law.obeys_of_execute (Machine.obeys_initial law)

/-- **At every moment of a session the task and the machine are lawful.** -/
theorem happens {a : Moment} (h : Happens host output a) :
    a.task.Obeys law a.machine.store.frames ∧ a.machine.Obeys law := by
  obtain ⟨s, source, stmt, m, hs, hexec, hwithin⟩ := h
  have hstmt : Happens host output ⟨.execute stmt, m⟩ := ⟨s, source, stmt, m, hs, hexec, .refl⟩
  have hm : m.Obeys law := hexec.preserves law.obeys_of_execute (Machine.obeys_initial law) hs
  exact law.kept.before (fun _ _ => Happens.starts) hwithin hstmt ⟨hstmt.tidy.1.1, hm⟩

/-- **What comes of a task in a session is lawful.** -/
theorem ends {t : Task} {m : Machine} (h : Happens host output ⟨t, m⟩) (n : Nat) :
    (t.run host n m).Ends (law.contract.result t m) (law.contract.error t m) :=
  law.kept.run (fun _ _ => Happens.starts) n t m h (law.happens h)

/-- **Behind every move of a session the machine complies with the law.** -/
theorem moves (h : Moves host output m m') : m'.Complies law :=
  law.kept.moves (fun _ _ hhappens =>
    (law.heeds_plan hhappens (law.happens hhappens).1 (law.happens hhappens).2).throughout) h

/-- **Every machine of a session complies with the law.** -/
theorem later (h : Later host output (.initial output) m) : m.Complies law := by
  cases h with
  | refl => exact (Machine.obeys_initial law).complies
  | tail _ hmoves => exact law.moves hmoves

end Law

end Lox
