import Lox.Proofs.Machine.Aloof
import Lox.Proofs.Machine.Jump

/-!
# The value of the last return

Every jump puts a value into one place of the machine, and a call that ends with a `return` takes it
from there. Nothing is done between these two steps but to leave loops, blocks and scopes, so the
value that is taken is the one that was put there last. What a run finds in the place when it starts
has no effect on it.

Main definitions:

* `Run.Renews` — a run does not see the value of the last `return` that it finds, and sets it anew
  if it ends with certain results: for a statement, with a jump;
* `Task.EndedByReturn` — a task is ended by a `return` statement with a value.

Main statement: `returned_never_leaks`.
-/

namespace Lox

variable {α β : Type} {q : Trait} {host : Host} {E : Effects}

/-- The machine with another value of the last `return`. -/
def Machine.withReturned (m : Machine) (v : Value) : Machine :=
  { m with returned := v }

/-! ### Two runs that find different values -/

/-- A run does the same whatever the value of the last `return` is that it finds; and if it ends
with a result of which `P` holds, the value that it leaves is the same as well. -/
def Run.Renews (P : α → Prop) (r : Run α) : Prop :=
  ∀ m v, ∃ u, r (m.withReturned v) = (r m).onMachine (·.withReturned u) ∧
    ∀ value m', r m = .done value m' → P value → m'.returned = u

/-- The value of the last `return` that an outcome leaves. -/
theorem Outcome.exists_withReturned (o : Outcome α) :
    ∃ u, o = o.onMachine (·.withReturned u) ∧ ∀ value m', o = .done value m' → m'.returned = u := by
  cases o with
  | done value m =>
    refine ⟨m.returned, rfl, fun value' m' h => ?_⟩
    rw [(Outcome.done.inj h).2]
  | failed e m => exact ⟨m.returned, rfl, nofun⟩
  | unfinished => exact ⟨.nil, rfl, nofun⟩

namespace Run

variable {P : α → Prop} {Q : β → Prop}

theorem renews_pure {value : α} (h : ¬P value) : (pure value : Run α).Renews P := by
  refine fun m v => ⟨v, rfl, fun value' m' hdone hP => ?_⟩
  obtain ⟨rfl, -⟩ := Outcome.done.inj hdone
  exact absurd hP h

/-- Steps that neither set nor take the value. -/
theorem IsAct.renews {r : Run α} (h : IsAct q host E r) (hE : ¬ (E.calls ∨ E.returns)) :
    r.Renews fun _ => False := by
  intro m v
  have hspare : E.Spare (.ofReturned v) := ⟨fun _ => rfl, fun hset => absurd hset hE⟩
  exact ⟨v, h.aloof hspare m, fun _ _ _ hfalse => hfalse.elim⟩

theorem Renews.mono {P' : α → Prop} {r : Run α} (h : r.Renews P)
    (hP : ∀ value, P' value → P value) : r.Renews P' := by
  intro m v
  obtain ⟨u, hu, hnew⟩ := h m v
  exact ⟨u, hu, fun value m' hdone hvalue => hnew value m' hdone (hP value hvalue)⟩

theorem renews_setReturned (value : Value) : (setReturned value).Renews fun _ => True := by
  refine fun m v => ⟨value, rfl, fun u m' hdone _ => ?_⟩
  obtain ⟨-, rfl⟩ := Outcome.done.inj hdone
  rfl

/-- Once the value was set anew, both runs are the same. -/
theorem Renews.bind {r : Run α} {f : α → Run β} (hr : r.Renews P)
    (hf : ∀ value, ¬P value → (f value).Renews Q) : (r >>= f).Renews Q := by
  intro m v
  obtain ⟨u, hu, hnew⟩ := hr m v
  show ∃ u, r.bind f (m.withReturned v) = (r.bind f m).onMachine _ ∧ ∀ value m', r.bind f m = _ → _
  unfold Run.bind
  rw [hu]
  cases hm : r m with
  | done value m' =>
    by_cases hP : P value
    · obtain rfl := hnew value m' hm hP
      obtain ⟨u, hu, hnew⟩ := (f value m').exists_withReturned
      exact ⟨u, hu, fun value' m'' hdone _ => hnew value' m'' hdone⟩
    · exact hf value hP m' u
  | failed e m' => exact ⟨u, rfl, nofun⟩
  | unfinished => exact ⟨u, rfl, nofun⟩

/-- What takes place on another machine renews as well, if going there and coming back have to do
with other parts of the machine. -/
theorem Renews.onMachine {r r' : Run α} {enter : Machine → Machine}
    {back : Machine → Machine → Machine} (h : r.Renews P)
    (heq : ∀ m, r' m = (r (enter m)).onMachine (back m))
    (henter : ∀ m v, enter (m.withReturned v) = (enter m).withReturned v)
    (hback : ∀ m v m' u, back (m.withReturned v) (m'.withReturned u) = (back m m').withReturned u)
    (hreturned : ∀ m m', (back m m').returned = m'.returned) : r'.Renews P := by
  intro m v
  obtain ⟨u, hu, hnew⟩ := h (enter m) v
  refine ⟨u, ?_, ?_⟩
  · rw [heq, heq, henter, hu, Outcome.onMachine_onMachine, Outcome.onMachine_onMachine]
    simp only [hback]
  · rw [heq]
    cases hm : r (enter m) with
    | done value m₁ =>
      intro value' m' hdone hP
      obtain ⟨rfl, rfl⟩ := Outcome.done.inj hdone
      rw [hreturned]
      exact hnew _ _ hm hP
    | failed e m₁ => exact nofun
    | unfinished => exact nofun

theorem Renews.inFrame {r : Run α} (h : r.Renews P) : (inFrame r).Renews P :=
  h.onMachine (inFrame_eq r) (fun _ _ => rfl) (fun _ _ _ _ => rfl) fun _ _ => rfl

theorem Renews.inCall {r : Run α} (closure : FrameId) (h : r.Renews P) :
    (inCall closure r).Renews P :=
  h.onMachine (inCall_eq closure r) (fun _ _ => rfl) (fun _ _ _ _ => rfl) fun _ _ => rfl

end Run

/-- Whatever is done by steps that neither set nor take the value of the last `return`. -/
def Effects.quiet : Effects where
  calls := False
  prints := True
  returns := False
  declares := True

/-- The results with which a task sets the value of the last `return` anew: the pending jumps. -/
def Task.Renewed : (t : Task) → t.Result → Prop
  | execute _, completion | executeAll _, completion | loop .., completion => completion ≠ none
  | _, _ => False

namespace Plan

variable {P : α → Prop} {Q : β → Prop}

/-- The run by which the plan is followed renews, if the answers to its parts do. -/
def Renews (P : α → Prop) (p : Plan α) : Prop :=
  ∀ answer : (t : Task) → Run t.Result, (∀ t, (answer t).Renews t.Renewed) →
    (p.follow answer).Renews P

theorem renews_act {r : Run α} (h : r.Renews P) : (act r).Renews P :=
  fun _ _ => h

theorem renews_part (t : Task) : (part t).Renews t.Renewed :=
  fun _ hanswer => hanswer t

theorem Renews.andThen {p : Plan α} {next : α → Plan β} (hp : p.Renews P)
    (hnext : ∀ value, ¬P value → (next value).Renews Q) : (p >>= next).Renews Q :=
  fun answer hanswer => (hp answer hanswer).bind fun value hP => hnext value hP answer hanswer

theorem Renews.inFrame {p : Plan α} (h : p.Renews P) : (Plan.inFrame p).Renews P :=
  fun answer hanswer => (h answer hanswer).inFrame

theorem Renews.inCall {p : Plan α} (scope : FrameId) (h : p.Renews P) :
    (Plan.inCall scope p).Renews P :=
  fun answer hanswer => (h answer hanswer).inCall scope

/-- A plan of tasks and of steps that neither set nor take the value. -/
theorem StepsOnly.renews {p : Plan α} (h : p.StepsOnly q host E) (hE : ¬ (E.calls ∨ E.returns)) :
    p.Renews fun _ => False := by
  induction h with
  | act hr => exact renews_act (hr.renews hE)
  | part _ => exact fun answer hanswer => (hanswer _).mono fun _ hfalse => hfalse.elim
  | andThen _ _ ihp ihnext => exact (ihp hE).andThen fun value _ => ihnext value hE
  | inFrame _ ih => exact (ih hE).inFrame
  | inCall scope hcalls => exact absurd (.inl hcalls) hE

theorem renews_step {r : Run α} (h : Run.IsStep .any host .quiet r) :
    (act r).Renews fun _ => False :=
  renews_act (Run.IsAct.renews (.step h) (not_or.mpr ⟨id, id⟩))

theorem renews_none : (pure none : Plan Completion).Renews (· ≠ none) :=
  renews_act (Run.renews_pure fun h => h rfl)

theorem renews_evaluate (e : Expr) : (evaluate e).Renews fun _ => False :=
  renews_part (.evaluate e)

theorem renews_execute (s : Stmt) : (execute s).Renews (· ≠ none) :=
  renews_part (.execute s)

theorem renews_loop (condition step : Option Expr) (body : Stmt) :
    (loop condition step body).Renews (· ≠ none) :=
  renews_part (.loop condition step body)

theorem renews_define (host : Host) (name : Token) (value : Value) :
    (do Run.define name.lexeme value; return none : Plan Completion).Renews (· ≠ none) := by
  have hdefine : Run.IsStep .any host .quiet (Run.define name.lexeme value) :=
    .basic (.define trivial trivial value)
  exact (renews_step hdefine).andThen fun _ _ => renews_none

/-- A jump sets the value. -/
theorem renews_jump (value : Value) (jump : Jump) : (do
    Run.setReturned value
    return some jump : Plan Completion).Renews (· ≠ none) :=
  (renews_act (Run.renews_setReturned value)).andThen fun _ h => absurd trivial h

theorem renews_ofInvoke (host : Host) (f : Closure) (paren : Token) (values : List Value) :
    (ofInvoke f paren values).Renews fun _ => False := by
  have hlook {γ : Type} (k : Store → FrameId → Nat → γ) :
      (look fun m => k m.store m.scope m.depth).Renews fun _ => False :=
    renews_step (.look k : Run.IsStep .any host .quiet _)
  refine (hlook fun _ _ depth => depth).andThen fun depth _ => ?_
  split
  · exact renews_step (.fault trivial _ : Run.IsStep .any host .quiet _)
  · have hdefine : Run.IsStep .any host .quiet (Run.defineAll f.routine.parameters values) :=
      .defineAll trivial (fun _ _ => trivial) values
    have hbody := ((renews_step hdefine).andThen fun _ _ => renews_execute f.routine.body).inFrame
    refine (hbody.inCall f.scope).andThen fun completion h => ?_
    -- The value is not taken unless the body ended with a jump.
    obtain rfl : completion = none := not_not.mp h
    split
    · exact hlook fun store _ _ => (store.frames.get? f.scope Run.thisName).getD .nil
    · exact renews_step (.pure Value.nil : Run.IsStep .any host .quiet _)

theorem renews_ofStmt (host : Host) (s : Stmt) : (ofStmt s).Renews (· ≠ none) := by
  cases s with
  | block body => exact (renews_part (.executeAll body)).inFrame
  | declare name initial =>
    cases initial with
    | none => exact renews_define host name .nil
    | some initial =>
      exact (renews_evaluate initial).andThen fun value _ => renews_define host name value
  | function d =>
    have hclosure : Run.IsStep .any host .quiet (Run.makeClosure d.routine false) :=
      .makeClosure _ _
    exact (renews_step hclosure).andThen fun _ _ => renews_define host d.name _
  | classDef name methods classMethods =>
    have hmethods (ds : List Definition) : Run.IsStep .any host .quiet (Run.makeMethods ds) :=
      .makeMethods ds
    refine (renews_step (hmethods methods)).andThen fun methods _ => ?_
    refine (renews_step (hmethods classMethods)).andThen fun classMethods _ => ?_
    have hclass : Run.IsStep .any host .quiet (Run.makeClass name.lexeme methods classMethods) :=
      .makeClass _ _ _
    exact (renews_step hclass).andThen fun c _ => renews_define host name (.klass c)
  | expression value => exact (renews_evaluate value).andThen fun _ _ => renews_none
  | print value =>
    refine (renews_evaluate value).andThen fun value _ => ?_
    have htext : Run.IsStep .any host .quiet (Run.look fun m => m.store.display value) :=
      .look fun store _ _ => store.display value
    refine (renews_step htext).andThen fun text _ => ?_
    have hprint : Run.IsStep .any host .quiet (Run.printLine text) :=
      .basic (.printLine trivial text)
    exact (renews_step hprint).andThen fun _ _ => renews_none
  | branch condition whenTrue whenFalse =>
    refine (renews_evaluate condition).andThen fun value _ => ?_
    split
    · exact renews_execute whenTrue
    · cases whenFalse with
      | none => exact renews_none
      | some whenFalse => exact renews_execute whenFalse
  | whileLoop condition body => exact renews_loop _ _ _
  | forLoop initial condition step body =>
    refine Renews.inFrame ?_
    have hloop := renews_loop condition step body
    cases initial with
    | none => exact hloop
    | some initial => exact (renews_execute initial).andThen fun _ _ => hloop
  | jump keyword value =>
    cases value with
    | none => exact renews_jump _ _
    | some value => exact (renews_evaluate value).andThen fun value _ => renews_jump value _
  | empty => exact renews_none

theorem renews_ofStmts (ss : List Stmt) : (ofStmts ss).Renews (· ≠ none) := by
  cases ss with
  | nil => exact renews_none
  | cons s ss =>
    refine (renews_execute s).andThen fun completion h => ?_
    obtain rfl : completion = none := not_not.mp h
    exact renews_part (.executeAll ss)

/-- If the body ends with a jump, the jump has set the value, whether the loop goes on or not. -/
theorem renews_ofRound (condition step : Option Expr) (body : Stmt) :
    (ofRound condition step body).Renews (· ≠ none) := by
  refine (renews_execute body).andThen fun completion h => ?_
  obtain rfl : completion = none := not_not.mp h
  have hloop := renews_loop condition step body
  cases step with
  | none => exact hloop
  | some e => exact (renews_evaluate e).andThen fun _ _ => hloop

theorem renews_ofLoop (condition step : Option Expr) (body : Stmt) :
    (ofLoop condition step body).Renews (· ≠ none) := by
  have hround := renews_ofRound condition step body
  cases condition with
  | none => exact hround
  | some e =>
    refine (renews_evaluate e).andThen fun value _ => ?_
    split
    · exact hround
    · exact renews_none

end Plan

/-- **No task sees the value of the last `return` that it finds**, and each pending jump has set it
anew. -/
theorem Task.renews (host : Host) (n : Nat) (t : Task) : (t.run host n).Renews t.Renewed := by
  -- The tasks that the plans start are run under a lower bound.
  induction n generalizing t with
  | zero =>
    rw [run_zero]
    exact fun m v => ⟨v, rfl, nofun⟩
  | succ n ih =>
    have hevaluation (ht : t.IsEvaluation) (hinvoke : ¬ t.IsInvoke) :
        (t.plan host).Renews fun _ => False :=
      (t.stepsOnly_any host).renews (not_or.mpr ⟨hinvoke, not_not_intro ht⟩)
    have hplan : (t.plan host).Renews t.Renewed := by
      cases t with
      | evaluate e => exact hevaluation trivial id
      | evaluateAll es => exact hevaluation trivial id
      | call target paren values => exact hevaluation trivial id
      | invoke f paren values => exact Plan.renews_ofInvoke host f paren values
      | execute s => exact Plan.renews_ofStmt host s
      | executeAll ss => exact Plan.renews_ofStmts ss
      | loop condition step body => exact Plan.renews_ofLoop condition step body
    rw [run_succ]
    exact hplan (Task.run host n) ih

/-! ### The statement that ends a call -/

/-- The part of a `for` statement in front of the loop was run, if there is one. -/
def Run.Prepares (host : Host) : Option Stmt → Machine → Machine → Prop
  | none, m, m' => m' = m
  | some s, m, m' => ∃ n completion, execute host n s m = .done completion m'

/-- The condition of a loop was found to hold; an absent condition always holds. -/
def Run.GoesOn (host : Host) : Option Expr → Machine → Machine → Prop
  | none, m, m' => m' = m
  | some e, m, m' => ∃ n value, evaluate host n e m = .done value m' ∧ value.isTruthy = true

/-- The step of a loop was taken, if there is one. -/
def Run.Advances (host : Host) : Option Expr → Machine → Machine → Prop
  | none, m, m' => m' = m
  | some e, m, m' => ∃ n value, evaluate host n e m = .done value m'

/-- A task that is started on a machine is ended by a `return` statement in it, with the value that
this statement has where it is executed. -/
inductive Task.EndedByReturn (host : Host) : Task → Machine → Value → Prop where
  /-- A `return` without a value. -/
  | bare {keyword : Token} {m : Machine} (hreturn : Jump.ofKeyword keyword = .returnCall) :
    EndedByReturn host (.execute (.jump keyword none)) m .nil
  /-- A `return` with a value. -/
  | value {keyword : Token} {e : Expr} {n : Nat} {m m' : Machine} {v : Value}
      (hreturn : Jump.ofKeyword keyword = .returnCall)
      (hvalue : Run.evaluate host n e m = .done v m') :
    EndedByReturn host (.execute (.jump keyword (some e))) m v
  | block {body : List Stmt} {m : Machine} {v : Value}
      (h : EndedByReturn host (.executeAll body) m.enterFrame v) :
    EndedByReturn host (.execute (.block body)) m v
  | whenTrue {condition : Expr} {whenTrue : Stmt} {whenFalse : Option Stmt} {m m' : Machine}
      {v : Value} (hcondition : Run.GoesOn host (some condition) m m')
      (h : EndedByReturn host (.execute whenTrue) m' v) :
    EndedByReturn host (.execute (.branch condition whenTrue whenFalse)) m v
  | whenFalse {condition : Expr} {whenTrue whenFalse : Stmt} {n : Nat} {c : Value} {m m' : Machine}
      {v : Value} (hcondition : Run.evaluate host n condition m = .done c m')
      (hfalse : c.isTruthy = false) (h : EndedByReturn host (.execute whenFalse) m' v) :
    EndedByReturn host (.execute (.branch condition whenTrue (some whenFalse))) m v
  | whileLoop {condition : Expr} {body : Stmt} {m : Machine} {v : Value}
      (h : EndedByReturn host (.loop (some condition) none body) m v) :
    EndedByReturn host (.execute (.whileLoop condition body)) m v
  | forLoop {initial : Option Stmt} {condition step : Option Expr} {body : Stmt} {m m' : Machine}
      {v : Value} (hinitial : Run.Prepares host initial m.enterFrame m')
      (h : EndedByReturn host (.loop condition step body) m' v) :
    EndedByReturn host (.execute (.forLoop initial condition step body)) m v
  /-- The first of several statements returns. -/
  | first {s : Stmt} {ss : List Stmt} {m : Machine} {v : Value}
      (h : EndedByReturn host (.execute s) m v) : EndedByReturn host (.executeAll (s :: ss)) m v
  /-- One of the statements behind the first one returns. -/
  | later {s : Stmt} {ss : List Stmt} {n : Nat} {m m' : Machine} {v : Value}
      (hfirst : Run.execute host n s m = .done none m')
      (h : EndedByReturn host (.executeAll ss) m' v) :
    EndedByReturn host (.executeAll (s :: ss)) m v
  /-- The body of a loop returns in this round. -/
  | round {condition step : Option Expr} {body : Stmt} {m m' : Machine} {v : Value}
      (hcondition : Run.GoesOn host condition m m') (h : EndedByReturn host (.execute body) m' v) :
    EndedByReturn host (.loop condition step body) m v
  /-- It returns in a round behind this one. -/
  | nextRound {condition step : Option Expr} {body : Stmt} {n : Nat} {completion : Completion}
      {m m₁ m₂ m₃ : Machine} {v : Value} (hcondition : Run.GoesOn host condition m m₁)
      (hbody : Run.execute host n body m₁ = .done completion m₂)
      (hgoesOn : completion = none ∨ completion = some .continueLoop)
      (hstep : Run.Advances host step m₂ m₃)
      (h : EndedByReturn host (.loop condition step body) m₃ v) :
    EndedByReturn host (.loop condition step body) m v

/-- What ends with nothing after all is no jump. -/
theorem Run.bind_none_ne_jump {r : Run α} {m m' : Machine} {jump : Jump} :
    (r >>= fun _ => pure none : Run Completion) m ≠ .done (some jump) m' := by
  intro h
  obtain ⟨x, m₁, -, h⟩ := bind_eq_done.mp h
  cases (Outcome.done.inj h).1

/-- The result of a task is a pending `return`. -/
def Task.Pending : (t : Task) → t.Result → Prop
  | execute _, completion | executeAll _, completion | loop .., completion =>
    completion = some .returnCall
  | _, _ => False

/-- Whatever task ends with a pending `return` under a bound, the value of the last `return` is the
one of the statement that ended it. -/
def Task.Explained (host : Host) (n : Nat) : Prop :=
  ∀ (t : Task) (m : Machine) (value : t.Result) (m' : Machine), t.run host n m = .done value m' →
    t.Pending value → t.EndedByReturn host m m'.returned

section

variable {host : Host} {n : Nat} {m m' : Machine}

theorem Task.endedByReturn_of_ofStmt (ih : Task.Explained host n) {s : Stmt}
    (h : (Plan.ofStmt s).follow (Task.run host n) m = .done (some .returnCall) m') :
    EndedByReturn host (.execute s) m m'.returned := by
  cases s with
  | block body =>
    obtain ⟨m₁, hbody, rfl⟩ := Run.inFrame_eq_done.mp h
    exact .block (ih (.executeAll body) _ _ m₁ hbody rfl)
  | declare name initial =>
    cases initial with
    | none => exact absurd h Run.bind_none_ne_jump
    | some initial =>
      obtain ⟨value, m₁, -, h⟩ := Run.bind_eq_done.mp h
      exact absurd h Run.bind_none_ne_jump
  | function d =>
    obtain ⟨closure, m₁, -, h⟩ := Run.bind_eq_done.mp h
    exact absurd h Run.bind_none_ne_jump
  | classDef name methods classMethods =>
    obtain ⟨methods, m₁, -, h⟩ := Run.bind_eq_done.mp h
    obtain ⟨classMethods, m₂, -, h⟩ := Run.bind_eq_done.mp h
    obtain ⟨c, m₃, -, h⟩ := Run.bind_eq_done.mp h
    exact absurd h Run.bind_none_ne_jump
  | expression value => exact absurd h Run.bind_none_ne_jump
  | print value =>
    obtain ⟨value, m₁, -, h⟩ := Run.bind_eq_done.mp h
    obtain ⟨text, m₂, -, h⟩ := Run.bind_eq_done.mp h
    exact absurd h Run.bind_none_ne_jump
  | branch condition whenTrue whenFalse =>
    obtain ⟨value, m₁, hcondition, h⟩ := Run.bind_eq_done.mp h
    dsimp only at h
    by_cases htrue : value.isTruthy = true
    · rw [if_pos htrue] at h
      exact .whenTrue ⟨n, value, hcondition, htrue⟩ (ih (.execute whenTrue) _ _ m' h rfl)
    · rw [if_neg htrue] at h
      cases whenFalse with
      | none => cases (Outcome.done.inj h).1
      | some whenFalse =>
        exact .whenFalse hcondition (Bool.eq_false_iff.mpr htrue)
          (ih (.execute whenFalse) _ _ m' h rfl)
  | whileLoop condition body =>
    exact .whileLoop (ih (.loop (some condition) none body) _ _ m' h rfl)
  | forLoop initial condition step body =>
    obtain ⟨m₁, hinside, rfl⟩ := Run.inFrame_eq_done.mp h
    have hloop := fun m₀ => ih (.loop condition step body) m₀ (some .returnCall) m₁
    cases initial with
    | none => exact .forLoop (rfl : Run.Prepares host none _ _) (hloop _ hinside rfl)
    | some initial =>
      obtain ⟨completion, m₂, hinitial, hinside⟩ := Run.bind_eq_done.mp hinside
      exact .forLoop ⟨n, completion, hinitial⟩ (hloop _ hinside rfl)
  | jump keyword value =>
    cases value with
    | none =>
      obtain ⟨u, m₁, hset, h⟩ := Run.bind_eq_done.mp h
      obtain ⟨-, rfl⟩ := Outcome.done.inj hset
      obtain ⟨hreturn, rfl⟩ := Outcome.done.inj h
      exact .bare (Option.some.inj hreturn)
    | some e =>
      obtain ⟨value, m₁, hvalue, h⟩ := Run.bind_eq_done.mp h
      obtain ⟨u, m₂, hset, h⟩ := Run.bind_eq_done.mp h
      obtain ⟨-, rfl⟩ := Outcome.done.inj hset
      obtain ⟨hreturn, rfl⟩ := Outcome.done.inj h
      exact .value (Option.some.inj hreturn) hvalue
  | empty => cases (Outcome.done.inj h).1

theorem Task.endedByReturn_of_ofStmts (ih : Task.Explained host n) {ss : List Stmt}
    (h : (Plan.ofStmts ss).follow (Task.run host n) m = .done (some .returnCall) m') :
    EndedByReturn host (.executeAll ss) m m'.returned := by
  cases ss with
  | nil => cases (Outcome.done.inj h).1
  | cons s ss =>
    obtain ⟨completion, m₁, hfirst, h⟩ := Run.bind_eq_done.mp h
    cases completion with
    | none => exact .later hfirst (ih (.executeAll ss) _ _ m' h rfl)
    | some jump =>
      obtain ⟨hjump, rfl⟩ := Outcome.done.inj h
      exact .first (ih (.execute s) _ _ m₁ hfirst hjump)

theorem Task.endedByReturn_of_ofRound (ih : Task.Explained host n) {condition step : Option Expr}
    {body : Stmt} {m₁ : Machine} (hcondition : Run.GoesOn host condition m m₁)
    (h : (Plan.ofRound condition step body).follow (Task.run host n) m₁ =
      .done (some .returnCall) m') :
    EndedByReturn host (.loop condition step body) m m'.returned := by
  obtain ⟨completion, m₂, hbody, h⟩ := Run.bind_eq_done.mp h
  rcases completion with _ | _ | _ | _
  case some.breakLoop => cases (Outcome.done.inj h).1
  case some.returnCall =>
    obtain ⟨-, rfl⟩ := Outcome.done.inj h
    exact .round hcondition (ih (.execute body) _ _ m₂ hbody rfl)
  -- After the body, or a `continue` in it, the loop goes on with its step.
  all_goals
    have hloop := fun m₀ => ih (.loop condition step body) m₀ (some .returnCall) m'
    cases step with
    | none =>
      exact .nextRound hcondition hbody (by decide) (rfl : Run.Advances host none _ _)
        (hloop _ h rfl)
    | some e =>
      obtain ⟨value, m₃, hstep, h⟩ := Run.bind_eq_done.mp h
      exact .nextRound hcondition hbody (by decide) ⟨n, value, hstep⟩ (hloop _ h rfl)

theorem Task.endedByReturn_of_ofLoop (ih : Task.Explained host n) {condition step : Option Expr}
    {body : Stmt} (h : (Plan.ofLoop condition step body).follow (Task.run host n) m =
      .done (some .returnCall) m') :
    EndedByReturn host (.loop condition step body) m m'.returned := by
  cases condition with
  | none => exact endedByReturn_of_ofRound ih (rfl : Run.GoesOn host none _ _) h
  | some e =>
    obtain ⟨value, m₁, hcondition, h⟩ := Run.bind_eq_done.mp h
    dsimp only at h
    by_cases htrue : value.isTruthy = true
    · rw [if_pos htrue] at h
      exact endedByReturn_of_ofRound ih ⟨n, value, hcondition, htrue⟩ h
    · rw [if_neg htrue] at h
      cases (Outcome.done.inj h).1

end

/-- **A pending `return` is explained** by the statement that ended the task. -/
theorem Task.explained (host : Host) (n : Nat) : Task.Explained host n := by
  induction n with
  | zero =>
    intro t m value m' h
    rw [run_zero] at h
    cases h
  | succ n ih =>
    intro t m value m' h hpending
    rw [run_succ] at h
    cases t with
    | execute s =>
      obtain rfl : value = some .returnCall := hpending
      exact endedByReturn_of_ofStmt ih h
    | executeAll ss =>
      obtain rfl : value = some .returnCall := hpending
      exact endedByReturn_of_ofStmts ih h
    | loop condition step body =>
      obtain rfl : value = some .returnCall := hpending
      exact endedByReturn_of_ofLoop ih h
    | _ => exact hpending.elim

/-- A call of a function that is no initializer yields what its body returned, or `nil`. -/
theorem Run.value_of_invoke {host : Host} {n : Nat} {f : Closure} {paren : Token}
    {values : List Value} {m m' : Machine} {v : Value} (hf : f.isInitializer = false)
    (h : Run.invoke host n f paren values m = .done v m') :
    ∃ m₁ k completion m₂,
      Moment.Starts host ⟨.invoke f paren values, m⟩ ⟨.execute f.routine.body, m₁⟩ ∧
      Run.execute host k f.routine.body m₁ = .done completion m₂ ∧
      (completion = some .returnCall ∧ v = m₂.returned ∨
        completion ≠ some .returnCall ∧ v = .nil) := by
  cases n with
  | zero =>
    rw [Run.invoke] at h
    cases h
  | succ n =>
    rw [← Plan.follow_ofInvoke] at h
    obtain ⟨depth, m₀, hlook, h⟩ := bind_eq_done.mp h
    obtain ⟨rfl, rfl⟩ := Outcome.done.inj hlook
    dsimp only at h
    by_cases hdepth : maxDepth ≤ m.depth
    · rw [if_pos hdepth] at h
      cases h
    · rw [if_neg hdepth] at h
      obtain ⟨completion, m₁, hcall, h⟩ := bind_eq_done.mp h
      obtain ⟨_, hframe, rfl⟩ := inCall_eq_done.mp hcall
      obtain ⟨m₂, hbody, rfl⟩ := inFrame_eq_done.mp hframe
      obtain ⟨u, m₁, hdefine, hbody⟩ := bind_eq_done.mp hbody
      have hstarts : (Plan.ofInvoke f paren values).Starts host m (.execute f.routine.body) m₁ :=
        Plan.starts_ofInvoke.mpr ⟨Nat.lt_of_not_le hdepth, rfl, hdefine⟩
      refine ⟨m₁, n, completion, m₂, hstarts, hbody, ?_⟩
      dsimp only at h
      rw [hf, if_neg Bool.false_ne_true] at h
      by_cases hreturn : completion = some .returnCall
      · rw [if_pos hreturn] at h
        exact .inl ⟨hreturn, (Outcome.done.inj h).1.symm⟩
      · rw [if_neg hreturn] at h
        exact .inr ⟨hreturn, (Outcome.done.inj h).1.symm⟩

/-- **The value of the last `return` never leaks.** A statement does the same whatever this value is
when it starts, and if it ends with a jump, it leaves the same value; an expression does the same as
well. And the value of a call that comes to its end, unless the function is an initializer, is the
one of the `return` statement that ended its body, or `nil` if none did. -/
theorem returned_never_leaks (host : Host) :
    (∀ n s m v, ∃ u, Run.execute host n s (m.withReturned v) =
        (Run.execute host n s m).onMachine (·.withReturned u) ∧
      ∀ jump m', Run.execute host n s m = .done (some jump) m' → m'.returned = u) ∧
    (∀ n e m v, ∃ u, Run.evaluate host n e (m.withReturned v) =
      (Run.evaluate host n e m).onMachine (·.withReturned u)) ∧
    ∀ n f paren values m v m', f.isInitializer = false →
      Run.invoke host n f paren values m = .done v m' →
      ∃ m₁ k completion m₂,
        Moment.Starts host ⟨.invoke f paren values, m⟩ ⟨.execute f.routine.body, m₁⟩ ∧
        Run.execute host k f.routine.body m₁ = .done completion m₂ ∧
        (completion = some .returnCall ∧ Task.EndedByReturn host (.execute f.routine.body) m₁ v ∨
          completion ≠ some .returnCall ∧ v = .nil) := by
  refine ⟨fun n s m v => ?_, fun n e m v => ?_, fun n f paren values m v m' hf h => ?_⟩
  · obtain ⟨u, hu, hnew⟩ := Task.renews host n (.execute s) m v
    exact ⟨u, hu, fun jump m' hdone => hnew (some jump) m' hdone nofun⟩
  · obtain ⟨u, hu, -⟩ := Task.renews host n (.evaluate e) m v
    exact ⟨u, hu⟩
  · obtain ⟨m₁, k, completion, m₂, hstarts, hbody, hvalue⟩ := Run.value_of_invoke hf h
    refine ⟨m₁, k, completion, m₂, hstarts, hbody, hvalue.imp_left ?_⟩
    rintro ⟨hreturn, rfl⟩
    have hended := Task.explained host k (.execute f.routine.body) m₁ completion m₂ hbody hreturn
    exact ⟨hreturn, hended⟩

/-- A function that returns from a loop, called where another value was left behind. -/
theorem returned_never_leaks_left_behind :
    let word : Token := ⟨.symbol .returnWord, "return", 1⟩
    let body : Stmt := .block [.whileLoop (.literal (.bool true))
      (.block [.jump word (some (.literal (.text "returned")))])]
    let f : Closure := ⟨0, .mk [] body, 0, false⟩
    let m : Machine := { Machine.initial (.ofLimit none) with returned := .text "left behind" }
    ∃ m', f.isInitializer = false ∧
      Run.invoke (.ofSeed 0 0) 9 f word [] m = .done (.text "returned") m' ∧
      ∃ m₁, Moment.Starts (.ofSeed 0 0) ⟨.invoke f word [], m⟩ ⟨.execute body, m₁⟩ ∧
        Task.EndedByReturn (.ofSeed 0 0) (.execute body) m₁ (.text "returned") := by
  intro word body f m
  have hf : f.isInitializer = false := rfl
  obtain ⟨m', h⟩ : ∃ m', Run.invoke (.ofSeed 0 0) 9 f word [] m = .done (.text "returned") m' :=
    ⟨_, rfl⟩
  obtain ⟨m₁, k, completion, m₂, hstarts, -, hvalue⟩ :=
    (returned_never_leaks (.ofSeed 0 0)).2.2 9 f word [] m (.text "returned") m' hf h
  obtain ⟨-, hreturns⟩ | ⟨-, hnil⟩ := hvalue
  · exact ⟨m', hf, h, m₁, hstarts, hreturns⟩
  · cases hnil

end Lox
