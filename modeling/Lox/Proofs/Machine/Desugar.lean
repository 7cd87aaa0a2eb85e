import Lox.Proofs.Machine.Ending
import Lox.Proofs.Machine.Within
import Lox.Proofs.Program.Nested

/-!
# `for` loops as `while` loops

A `for` loop does the same as a block with its first part and a `while` loop whose body is a block
with the body and the step of the `for` loop (`for_as_while`), if no `continue` leads out of the
body: the `while` loop would leave out the step with it. The block around the body is one frame more
in each round, in which the body and the step are run, so the machines agree up to frames that are
empty.

Both loops are followed round by round (`Run.sim_loop`). A round of the `while` loop takes four
levels more of the bound than one of the `for` loop (`Slack.AllowsRounds`).
-/

namespace Lox

/-- The body of the `while` loop that stands for a `for` loop. -/
def Stmt.whileBody (step : Option Expr) (body : Stmt) : Stmt :=
  .block (body :: (step.map Stmt.expression).toList)

/-- A `for` loop written with `while`. A condition that is absent always holds. -/
def Stmt.forAsWhile (initial : Option Stmt) (condition step : Option Expr) (body : Stmt) : Stmt :=
  .block (initial.toList ++
    [.whileLoop (condition.getD (.literal (.bool true))) (.whileBody step body)])

/-- Whether a statement is a `for` loop. -/
def Stmt.isFor : Stmt → Bool
  | .forLoop .. => true
  | _ => false

/-! ### Statements of loops -/

theorem Stmt.eq_forLoop_of_isFor {s : Stmt} (h : s.isFor = true) :
    ∃ initial condition step body, s = .forLoop initial condition step body := by
  cases s with
  | forLoop initial condition step body => exact ⟨_, _, _, _, rfl⟩
  | _ => exact absurd h Bool.false_ne_true

/-- What may stand as the body of a loop or as a branch declares nothing in the scope around it. -/
theorem Stmt.Legal.declaresNothing {c : Context} :
    {s : Stmt} → s.Legal c → s.isDeclaration = false → s.DeclaresNothing
  | .branch _ _ none, h, _ => h.2.1.declaresNothing h.2.2
  | .branch _ _ (some _), h, _ =>
    ⟨h.2.1.1.declaresNothing h.2.1.2.1, h.2.2.1.declaresNothing h.2.2.2⟩
  | .whileLoop _ _, h, _ => h.2.1.declaresNothing h.2.2
  | .block _, _, _ | .expression _, _, _ | .print _, _, _ | .forLoop .., _, _ | .jump _ _, _, _
  | .empty, _, _ => trivial

/-- No jump leads out of the first part of a loop. -/
theorem Stmt.leadsOut_of_isInitial {s : Stmt} (h : s.isInitial = true) (jump : Jump) :
    s.leadsOut jump = false := by
  cases s with
  | declare | expression => rfl
  | _ => exact absurd h Bool.false_ne_true

namespace Run

variable {α β γ : Type}

theorem bind_assoc (r : Run α) (f : α → Run β) (g : β → Run γ) :
    r >>= f >>= g = r >>= fun value => f value >>= g := by
  funext m
  show (r.bind f).bind g m = r.bind (fun value => (f value).bind g) m
  unfold Run.bind
  cases r m <;> rfl

/-! ### Rounds -/

section

variable (host : Host) (n : Nat)

/-- Whether a loop goes on: its condition holds, or is absent. -/
def goesOn : Option Expr → Run Bool
  | none => pure true
  | some e => do
    let value ← evaluate host n e
    return value.isTruthy

/-- The step of a loop, if it has one. -/
def stepOn : Option Expr → Run Completion
  | none => pure none
  | some e => do
    let _ ← evaluate host n e
    return none

/-- What is done with the completion of a round: the loop ends, or goes on with `again`. -/
def afterRound (again : Run Completion) : Completion → Run Completion
  | some .breakLoop => pure none
  | some .returnCall => pure (some .returnCall)
  | _ => again

/-- One round of a loop: its body, and its step if the loop is not left. -/
def round (step : Option Expr) (body : Stmt) : Run Completion := do
  match ← execute host n body with
  | some .breakLoop => return some .breakLoop
  | some .returnCall => return some .returnCall
  | _ => stepOn host n step

theorem follow_ofRound (condition step : Option Expr) (body : Stmt) :
    (Plan.ofRound condition step body).follow (Task.run host n) =
      round host n step body >>= afterRound (loop host n condition step body) := by
  rw [round, bind_assoc]
  refine bind_congr fun completion => ?_
  rcases completion with _ | _ | _ | _
  case some.breakLoop | some.returnCall => rfl
  -- After the body, or a `continue` in it, the loop goes on with its step.
  all_goals
    cases step with
    | none => rfl
    | some e =>
      have hstep := bind_assoc (evaluate host n e) (fun _ => pure none)
        (afterRound (loop host n condition (some e) body))
      exact hstep.symm

/-- A loop is gone through round by round. -/
theorem loop_succ (condition step : Option Expr) (body : Stmt) :
    loop host (n + 1) condition step body = (do
      if ← goesOn host n condition then
        let completion ← round host n step body
        afterRound (loop host n condition step body) completion
      else return none) := by
  have hround := follow_ofRound host n condition step body
  have hloop : loop host (n + 1) condition step body =
      (Plan.ofLoop condition step body).follow (Task.run host n) :=
    Task.run_succ host n (.loop condition step body)
  rw [hloop]
  cases condition with
  | none => exact hround
  | some e =>
    rw [goesOn, bind_assoc]
    refine bind_congr fun value => ?_
    dsimp only
    cases value.isTruthy with
    | false => rfl
    | true => exact hround

/-- A loop without a step goes through its body alone. -/
theorem round_none (body : Stmt) (again : Run Completion) :
    round host n none body >>= afterRound again = execute host n body >>= afterRound again := by
  rw [round, bind_assoc]
  refine bind_congr fun completion => ?_
  rcases completion with _ | _ | _ | _ <;> rfl

/-- What is done with the completion of a statement in front of others: they are left out if it is a
jump. -/
def andNext (next : Run Completion) : Completion → Run Completion
  | none => next
  | some jump => pure (some jump)

theorem executeAll_cons (s : Stmt) (ss : List Stmt) :
    executeAll host (n + 1) (s :: ss) = execute host n s >>= andNext (executeAll host n ss) := by
  rw [executeAll]
  refine bind_congr fun completion => ?_
  cases completion <;> rfl

/-- The body of the `while` loop is a round of the `for` loop in a new frame. -/
theorem execute_whileBody (step : Option Expr) (body : Stmt) :
    execute host (n + 4) (.whileBody step body) =
      inFrame (execute host (n + 2) body >>= andNext (stepOn host n step)) := by
  have hstep : Task.run host (n + 2) (.executeAll (step.map Stmt.expression).toList) =
      stepOn host n step := by
    cases step with
    | none =>
      rw [Task.run_succ]
      rfl
    | some e =>
      rw [Option.map_some, Option.toList_some, Task.run_executeAll_singleton, Task.run_succ]
      rfl
  have hblock : execute host (n + 4) (.whileBody step body) =
      inFrame (executeAll host (n + 3) (body :: (step.map Stmt.expression).toList)) := by
    rw [execute.eq_def]
    rfl
  rw [hblock, executeAll_cons]
  exact congrArg (fun rest => inFrame (execute host (n + 2) body >>= andNext rest)) hstep

theorem executeAll_whileLoop (condition : Expr) (body : Stmt) :
    executeAll host (n + 2) [.whileLoop condition body] =
      loop host n (some condition) none body := by
  have hwhile := Task.run_executeAll_singleton host n (.whileLoop condition body)
  rw [Task.run_succ host n] at hwhile
  exact hwhile

/-- The block that stands for a `for` loop without a first part. -/
theorem execute_forAsWhile_none (condition step : Option Expr) (body : Stmt) :
    execute host (n + 3) (.forAsWhile none condition step body) =
      inFrame (loop host n (some (condition.getD (.literal (.bool true)))) none
        (.whileBody step body)) := by
  rw [← executeAll_whileLoop, Stmt.forAsWhile, execute.eq_def]
  rfl

/-- The block that stands for a `for` loop with a first part. -/
theorem execute_forAsWhile_some (initial : Stmt) (condition step : Option Expr) (body : Stmt) :
    execute host (n + 4) (.forAsWhile (some initial) condition step body) =
      inFrame (execute host (n + 2) initial >>= andNext (loop host n
        (some (condition.getD (.literal (.bool true)))) none (.whileBody step body))) := by
  have hblock : execute host (n + 4) (.forAsWhile (some initial) condition step body) =
      inFrame (executeAll host (n + 3) [initial,
        .whileLoop (condition.getD (.literal (.bool true))) (.whileBody step body)]) := by
    rw [Stmt.forAsWhile, execute.eq_def]
    rfl
  rw [hblock, executeAll_cons, executeAll_whileLoop]

end

end Run

/-! ### Rounds that agree -/

/-- The code of both loops is the same. -/
abbrev unrevised : List Revision :=
  Variation.none.throughout

/-- Bounds under which a `for` loop and its `while` loop come to the same end: a run may have the
lower bound only if it may reach its bound alone. -/
structure Slack.AllowsRounds (S : Slack) (n k : Nat) : Prop where
  /-- The bound of the `for` loop is not lower. -/
  first : S.first ∨ k + 4 ≤ n
  /-- The bound of the `while` loop is not lower. -/
  second : S.second ∨ n + 4 ≤ k

variable {S : Slack} {w : World .renamed} {a a' : Scopes} {host : Host} {n k : Nat}

theorem Slack.Allows.unrevised (hfirst : S.first ∨ k ≤ n) (hsecond : S.second ∨ n ≤ k) :
    S.Allows .renamed unrevised n k :=
  ⟨hfirst, hsecond.imp_right fun hle => .inr ⟨Revision.not_boxes_throughout id, hle⟩, fun _ => rfl⟩

theorem Slack.AllowsRounds.allows (h : S.AllowsRounds n k) : S.Allows .renamed unrevised n k :=
  .unrevised (h.first.imp_right (by omega)) (h.second.imp_right (by omega))

theorem Task.revised_evaluate (e : Expr) :
    (Task.evaluate e).Revised unrevised w a a' (.evaluate e) :=
  .evaluate (Variation.mem_throughout _) e.has_any e.varies_refl

theorem Task.revised_execute (s : Stmt) (hplace : s.FitsIn w a.scope a'.scope) :
    (Task.execute s).Revised unrevised w a a' (.execute s) :=
  .execute (Variation.mem_throughout _) s.has_any s.varies_refl hplace

namespace Run

variable {α α' : Type} {cs : List Revision} {R : World .renamed → α → α' → Prop} {r : Run α}
  {r' : Run α'}

/-- What holds of all values of the first run holds of the values that are related. -/
theorem Sim.and_ends {P : α → Prop} (h : Sim cs S w a a' R r r')
    (hP : ∀ m, (r m).Ends (fun value _ => P value) fun _ _ => True) :
    Sim cs S w a a' (fun w₁ value value' => R w₁ value value' ∧ P value) r r' := by
  intro m m' hm
  have hsim := h m m' hm
  have hends := hP m
  generalize r m = o, r' m' = o' at hsim hends
  cases hsim with
  | done hw hvalue hm₁ => exact .done hw ⟨hvalue, hends⟩ hm₁
  | failed hw he hm₁ => exact .failed hw he hm₁
  | unfinished => exact .unfinished
  | first h o' => exact .first h o'
  | second h o => exact .second h o

/-- If the second run may reach its bound alone, its bound may be lower. -/
theorem Sim.of_finished {r'' : Run α'} (hS : S.second) (h : Sim cs S w a a' R r r'')
    (hr : ∀ m, (r' m).Finished → r'' m = r' m) : Sim cs S w a a' R r r' := by
  intro m m' hm
  by_cases hfinished : (r' m').Finished
  · rw [← hr m' hfinished]
    exact h m m' hm
  · rw [not_not.mp hfinished]
    exact .second hS _

theorem sim_goesOn (h : S.AllowsRounds n k) (condition : Option Expr) :
    Sim unrevised S w a a' Same (goesOn host n condition)
      (goesOn host k (some (condition.getD (.literal (.bool true))))) := by
  cases condition with
  | some e =>
    have he := Task.sim_run host h.allows w a a' _ _ (Task.revised_evaluate e)
    exact he.bind fun _ _ _ _ hv => sim_pure hv.isTruthy.symm
  | none =>
    rw [Option.getD_none, goesOn, goesOn]
    cases k with
    | zero =>
      intro m m' _
      rw [evaluate.eq_def]
      exact .second (h.second.resolve_right (by omega)) _
    | succ k =>
      rw [evaluate]
      exact sim_pure rfl

theorem sim_stepOn (h : S.Allows .renamed unrevised n k) (step : Option Expr) :
    Sim unrevised S w a a' Same (stepOn host n step) (stepOn host k step) := by
  cases step with
  | none => exact sim_pure rfl
  | some e =>
    have he := Task.sim_run host h w a a' _ _ (Task.revised_evaluate e)
    exact he.bind fun _ _ _ _ _ => sim_pure rfl

section

variable {body : Stmt} (hplace : body.DeclaresNothing)
  (hcontinue : body.leadsOut .continueLoop = false)
include hplace hcontinue

/-- A round of a `for` loop and the body of its `while` loop agree, for bounds that are high
enough. -/
theorem sim_whileBody (hbody : S.Allows .renamed unrevised n (k + 2))
    (hstep : S.Allows .renamed unrevised n k) (step : Option Expr) :
    Sim unrevised S w a a' Same (round host n step body)
      (execute host (k + 4) (.whileBody step body)) := by
  rw [execute_whileBody]
  refine .inFrameIdle fun w₁ f' _ _ => ?_
  have hsame := Task.sim_run host hbody w₁ a (a'.inside f') _ _
    (Task.revised_execute body (.inr hplace))
  refine (hsame.and_ends (execute_ends host n body)).bind fun w₂ _ completion completion' h => ?_
  obtain ⟨hcompletion, hends⟩ := h
  subst hcompletion
  rcases completion with _ | _ | _ | _
  case none => exact sim_stepOn hstep step
  case some.breakLoop => exact sim_pure rfl
  case some.returnCall => exact sim_pure rfl
  case some.continueLoop => exact absurd (hends _ rfl) (by simp [hcontinue])

theorem sim_round (h : S.AllowsRounds n k) (step : Option Expr) :
    Sim unrevised S w a a' Same (round host n step body)
      (execute host k (.whileBody step body)) := by
  obtain ⟨hfirst, hS | hle⟩ := h
  -- Under a bound that is too low for a whole round, the `while` loop may stop.
  · have hallows (k' : Nat) (hk : k' ≤ k + 2) : S.Allows .renamed unrevised n k' :=
      .unrevised (hfirst.imp_right (by omega)) (.inl hS)
    refine Sim.of_finished hS (sim_whileBody hplace hcontinue (hallows (k + 2) (by omega))
      (hallows k (by omega)) step) fun m hm => ?_
    exact Task.run_eq_of_le (Nat.le_add_right k 4) (.execute (.whileBody step body)) m hm
  · obtain ⟨k, rfl⟩ := Nat.exists_eq_add_of_le' (Nat.le_trans (Nat.le_add_left 4 n) hle)
    have hallows (k' : Nat) (hk : k ≤ k') (hk' : k' ≤ k + 4) : S.Allows .renamed unrevised n k' :=
      .unrevised (hfirst.imp_right (by omega)) (.inr (by omega))
    exact sim_whileBody hplace hcontinue (hallows _ (by omega) (by omega))
      (hallows _ (by omega) (by omega)) step

/-- **The loops agree**, however many rounds they go through and whatever they are left by. -/
theorem sim_loop (h : S.AllowsRounds n k) (condition step : Option Expr) :
    Sim unrevised S w a a' Same (loop host n condition step body)
      (loop host k (some (condition.getD (.literal (.bool true)))) none
        (.whileBody step body)) := by
  -- The rounds that are left are run under lower bounds.
  induction n generalizing k w with
  | zero =>
    intro m m' _
    rw [loop.eq_def]
    exact .first (h.first.resolve_right (by omega)) _
  | succ n ih =>
    cases k with
    | zero =>
      intro m m' _
      rw [loop.eq_def host 0]
      exact .second (h.second.resolve_right (by omega)) _
    | succ k =>
      have hrest : S.AllowsRounds n k :=
        ⟨h.first.imp_right (by omega), h.second.imp_right (by omega)⟩
      rw [loop_succ, loop_succ]
      refine (sim_goesOn hrest condition).bind fun w₁ _ goes goes' hgoes => ?_
      subst hgoes
      cases goes with
      | false => exact sim_pure rfl
      | true =>
        rw [if_pos rfl, if_pos rfl, round_none]
        refine (sim_round hplace hcontinue hrest step).bind fun w₂ _ completion completion' h => ?_
        subst h
        rcases completion with _ | _ | _ | _
        case some.breakLoop => exact sim_pure rfl
        case some.returnCall => exact sim_pure rfl
        all_goals exact ih hrest

/-- A `for` loop and the block that stands for it agree, in whatever scopes they are executed. -/
theorem sim_forLoop {c : Context} {initial : Option Stmt} (hinitial : Stmt.InitialLegal c initial)
    (h : S.AllowsRounds n k) (h' : S.AllowsRounds n (k + 1)) (condition step : Option Expr) :
    Sim unrevised S w a a' Same (execute host (n + 1) (.forLoop initial condition step body))
      (execute host (k + 4) (.forAsWhile initial condition step body)) := by
  cases initial with
  | none =>
    rw [execute_forAsWhile_none, execute.eq_def]
    exact .inFrame fun _ _ _ _ _ => sim_loop hplace hcontinue h' condition step
  | some s =>
    rw [execute_forAsWhile_some, execute.eq_def]
    refine .inFrame fun w₁ f f' _ hmain => ?_
    have hallows : S.Allows .renamed unrevised n (k + 2) :=
      .unrevised (h.first.imp_right (by omega)) (h.second.imp_right (by omega))
    have hsame := Task.sim_run host hallows w₁ (a.inside f) (a'.inside f') _ _
      (Task.revised_execute s (.inl hmain))
    refine (hsame.and_ends (execute_ends host n s)).bind fun w₂ _ completion completion' h₂ => ?_
    obtain ⟨hcompletion, hends⟩ := h₂
    subst hcompletion
    cases completion with
    | none => exact sim_loop hplace hcontinue h condition step
    | some jump => exact absurd (hends jump rfl) (by simp [Stmt.leadsOut_of_isInitial hinitial.2])

end

end Run

/-! ### The loops agree -/

/-- Machines that agree up to frames made since the machine `m`: both are in the scope of `m` again
and have its callers, in a world in which the frames of `m` stand for themselves. -/
def Machine.AgreeSince (m m₁ m₁' : Machine) : Prop :=
  ∃ w, .same m.store.nextFrame ≤ w ∧ m₁.Match Variation.none.throughout w m.scopes m.scopes m₁'

/-- The same value or the same error, on machines that agree up to frames made since `m`. -/
inductive Outcome.AgreeSince {α : Type} (m : Machine) : Outcome α → Outcome α → Prop where
  | done {value : α} {m₁ m₁' : Machine} (h : m.AgreeSince m₁ m₁') :
    AgreeSince m (.done value m₁) (.done value m₁')
  | failed {e : RuntimeError} {m₁ m₁' : Machine} (h : m.AgreeSince m₁ m₁') :
    AgreeSince m (.failed e m₁) (.failed e m₁')

/-- Outcomes that match agree, unless one of the runs reached its bound. -/
theorem Outcome.Sim.agreeSince {α : Type} {m : Machine} {o o' : Outcome α}
    (h : o.Sim unrevised S (.same m.store.nextFrame) m.scopes m.scopes Run.Same o')
    (hfinished : o.Finished ∨ o'.Finished) (ho : S.first → o.Finished)
    (ho' : S.second → o'.Finished) : o.AgreeSince m o' := by
  cases h with
  | done hw hvalue hm₁ =>
    subst hvalue
    exact .done ⟨_, hw, hm₁⟩
  | failed hw he hm₁ =>
    obtain rfl := he.eq fun _ _ ht => ht
    exact .failed ⟨_, hw, hm₁⟩
  | unfinished => exact absurd rfl (hfinished.elim id id)
  | first h _ => exact absurd rfl (ho h)
  | second h _ => exact absurd rfl (ho' h)

/-- **A `for` loop does the same as its `while` loop**, on whatever machine: if one of them ends,
the other one does too, with the same completion or the same error, and the machines that they leave
agree. The loop may stand anywhere in a program that is read without a mistake, but no `continue`
may lead out of its body. -/
theorem for_as_while {source : String} (hr : Session.rejections source = [])
    {initial : Option Stmt} {condition step : Option Expr} {body : Stmt}
    (hfor : .forLoop initial condition step body ∈ Stmt.allStatements (Session.program source))
    (hcontinue : body.leadsOut .continueLoop = false) (host : Host) {m : Machine} (hm : m.Sound) :
    (∀ n, (Run.execute host n (.forLoop initial condition step body) m).Finished →
      ∃ k, (Run.execute host n (.forLoop initial condition step body) m).AgreeSince m
        (Run.execute host k (.forAsWhile initial condition step body) m)) ∧
    ∀ k, (Run.execute host k (.forAsWhile initial condition step body) m).Finished →
      ∃ n, (Run.execute host n (.forLoop initial condition step body) m).AgreeSince m
        (Run.execute host k (.forAsWhile initial condition step body) m) := by
  obtain ⟨c, hinitial, -, -, hbody, hdeclaration⟩ := Session.isLegal_of_mem hr hfor
  have hplace := hbody.declaresNothing hdeclaration
  have hsim {S : Slack} {n k : Nat} (h : S.AllowsRounds n k) (h' : S.AllowsRounds n (k + 1)) :
      Outcome.Sim unrevised S (.same m.store.nextFrame) m.scopes m.scopes Run.Same
        (Run.execute host (n + 1) (.forLoop initial condition step body) m)
        (Run.execute host (k + 4) (.forAsWhile initial condition step body) m) :=
    Run.sim_forLoop hplace hcontinue hinitial h h' condition step m m
      (Machine.Sound.match_same Routine.revised_self hm)
  constructor
  · intro n hn
    have hallows (k : Nat) (hk : n + 4 ≤ k) : Slack.AllowsRounds ⟨True, False⟩ n k :=
      ⟨.inl trivial, .inr hk⟩
    have houtcome := hsim (hallows (n + 4) (by omega)) (hallows (n + 5) (by omega))
    have hnext : Run.execute host (n + 1) (.forLoop initial condition step body) m =
        Run.execute host n (.forLoop initial condition step body) m :=
      Task.run_eq_of_le (Nat.le_succ n) (.execute _) m hn
    rw [hnext] at houtcome
    exact ⟨n + 8, houtcome.agreeSince (.inl hn) (fun _ => hn) False.elim⟩
  · intro k hk
    have hallows (k' : Nat) (hk' : k' ≤ k + 1) : Slack.AllowsRounds ⟨False, True⟩ (k + 5) k' :=
      ⟨.inr (by omega), .inl trivial⟩
    have houtcome := hsim (hallows k (by omega)) (hallows (k + 1) (by omega))
    have hnext : Run.execute host (k + 4) (.forAsWhile initial condition step body) m =
        Run.execute host k (.forAsWhile initial condition step body) m :=
      Task.run_eq_of_le (Nat.le_add_right k 4) (.execute _) m hk
    rw [hnext] at houtcome
    exact ⟨k + 6, houtcome.agreeSince (.inr hk) False.elim fun _ => hk⟩

/-- A loop with all four parts, which goes through one round and is left by its condition. -/
theorem for_as_while_left_by_condition :
    let source := "for (var go = true; go; go = false) print go;"
    let host := Host.ofSeed 0 0
    let m := Machine.initial (.ofLimit none)
    ∃ initial condition step body, Session.rejections source = [] ∧
      .forLoop initial condition step body ∈ Stmt.allStatements (Session.program source) ∧
      body.leadsOut .continueLoop = false ∧ m.Sound ∧
      ∃ m₁ k, Run.execute host 10 (.forLoop initial condition step body) m = .done none m₁ ∧
        Outcome.AgreeSince m (.done none m₁)
          (Run.execute host k (.forAsWhile initial condition step body) m) := by
  intro source host m
  have hm : m.Sound := Machine.sound_initial _
  have hr : Session.rejections source = [] := by decide +kernel
  have hloop : (Session.program source).any (fun s => s.isFor &&
      (s.statements.all fun s' => !s'.leadsOut .continueLoop) &&
      (Run.execute host 10 s m).done?.any fun ended => ended.1 == none) = true := by decide +kernel
  obtain ⟨s, hs, hchecks⟩ := List.any_eq_true.mp hloop
  simp only [Bool.and_eq_true] at hchecks
  obtain ⟨⟨hfor, hinside⟩, hdone⟩ := hchecks
  obtain ⟨initial, condition, step, body, rfl⟩ := Stmt.eq_forLoop_of_isFor hfor
  have hcontinue : body.leadsOut .continueLoop = false := by
    have hbody := List.all_eq_true.mp hinside body (by simp [Stmt.statements])
    simpa using hbody
  obtain ⟨⟨completion, m₁⟩, hended, hnone⟩ := (Option.any_eq_true _ _).mp hdone
  obtain rfl : completion = none := by simpa using hnone
  have hrun : Run.execute host 10 (.forLoop initial condition step body) m = .done none m₁ :=
    Outcome.done?_eq_some.mp hended
  have hfinished : (Run.execute host 10 (.forLoop initial condition step body) m).Finished := by
    intro hunfinished
    cases hrun.symm.trans hunfinished
  have hmem := Stmt.mem_allStatements hs
  obtain ⟨k, hagree⟩ := (for_as_while hr hmem hcontinue host hm).1 10 hfinished
  rw [hrun] at hagree
  exact ⟨initial, condition, step, body, hr, hmem, hcontinue, hm, m₁, k, hrun, hagree⟩

end Lox
