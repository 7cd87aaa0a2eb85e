import Lox.Proofs.Machine.Invariant

/-!
# The jumps that statements end with

A statement ends with a jump only if the jump stands in it: not in a function, which is another
matter, and if it is a `break` or a `continue` not in a loop inside either, which takes it up
(`Run.execute_ends`).
-/

namespace Lox

/-! ### Jumps in statements -/

mutual

/-- Whether a jump stands in a statement and leads out of it. -/
def Stmt.leadsOut (jump : Jump) : Stmt → Bool
  | .block body => Stmt.anyLeadsOut jump body
  | .branch _ whenTrue none => whenTrue.leadsOut jump
  | .branch _ whenTrue (some whenFalse) => whenTrue.leadsOut jump || whenFalse.leadsOut jump
  -- A loop takes up the jumps of its body, but not a `return`.
  | .whileLoop _ body => jump == .returnCall && body.leadsOut jump
  | .forLoop _ _ _ body => jump == .returnCall && body.leadsOut jump
  | .jump keyword _ => Jump.ofKeyword keyword == jump
  | _ => false

/-- Whether a jump leads out of one of some statements. -/
def Stmt.anyLeadsOut (jump : Jump) : List Stmt → Bool
  | [] => false
  | s :: ss => s.leadsOut jump || Stmt.anyLeadsOut jump ss

end

/-- A statement ended normally or with a jump of which `P` holds. -/
def Completion.Of (P : Jump → Prop) (completion : Completion) : Prop :=
  ∀ jump, completion = some jump → P jump

variable {P Q : Jump → Prop} {completion : Completion}

theorem Completion.Of.none : Completion.Of P none :=
  nofun

theorem Completion.Of.some {jump : Jump} (h : P jump) : Completion.Of P (some jump) := by
  rintro _ ⟨⟩
  exact h

theorem Completion.Of.mono (h : completion.Of P) (hPQ : ∀ jump, P jump → Q jump) :
    completion.Of Q :=
  fun jump hjump => hPQ jump (h jump hjump)

/-! ### The invariant -/

/-- Statements end with jumps that lead out of them, and loops with a `return` in their bodies. -/
def Invariant.leading : Invariant where
  holds _ := True
  starts _ := True
  yields
    | .execute s, completion => completion.Of fun jump => s.leadsOut jump = true
    | .executeAll ss, completion => completion.Of fun jump => Stmt.anyLeadsOut jump ss = true
    | .loop _ _ body, completion =>
      completion.Of fun jump => (jump == .returnCall && body.leadsOut jump) = true
    | _, _ => True
  enterFrame _ := trivial
  backIn _ _ := trivial
  enterCall _ _ := trivial
  leaveCall _ := trivial

namespace Plan

/-- The plan ends normally or with a jump of which `P` holds. -/
abbrev EndsWith (p : Plan Completion) (P : Jump → Prop) : Prop :=
  p.Keeps .leading (Completion.Of P)

/-- A part of a plan that is no statement may come to any value. -/
theorem keeps_leading {α : Type} (p : Plan α) : p.Keeps .leading fun _ => True := by
  induction p with
  | act r =>
    intro m _
    show (r m).Ends _ _
    cases r m <;> trivial
  | part t =>
    exact (keeps_part (I := .leading) (t := t) trivial).mono fun _ _ => trivial
  | andThen p next ihp ihnext => exact ihp.andThen fun value _ => ihnext value
  | inFrame p ih => exact ih.inFrame
  | inCall scope p ih => exact ih.inCall

theorem endsWith_return {completion : Completion} (h : completion.Of P) :
    (pure completion : Plan Completion).EndsWith P :=
  keeps_act (Run.keeps_pure h)

theorem endsWith_none : (pure none : Plan Completion).EndsWith P :=
  endsWith_return .none

theorem endsWith_execute (s : Stmt) : (execute s).EndsWith fun jump => s.leadsOut jump = true :=
  keeps_part trivial

theorem endsWith_executeAll (ss : List Stmt) :
    (part (.executeAll ss)).EndsWith fun jump => Stmt.anyLeadsOut jump ss = true :=
  keeps_part trivial

theorem endsWith_loop (condition step : Option Expr) (body : Stmt) :
    (loop condition step body).EndsWith
      fun jump => (jump == .returnCall && body.leadsOut jump) = true :=
  keeps_part trivial

theorem endsWith_ofStmt (s : Stmt) : (ofStmt s).EndsWith fun jump => s.leadsOut jump = true := by
  cases s with
  | block body => exact (endsWith_executeAll body).inFrame
  | declare name initial =>
    cases initial with
    | none => exact (keeps_leading _).andThen fun _ _ => endsWith_none
    | some e =>
      exact (keeps_leading _).andThen fun _ _ => (keeps_leading _).andThen fun _ _ => endsWith_none
  | function d =>
    exact (keeps_leading _).andThen fun _ _ => (keeps_leading _).andThen fun _ _ => endsWith_none
  | classDef name methods classMethods =>
    exact (keeps_leading _).andThen fun _ _ => (keeps_leading _).andThen fun _ _ =>
      (keeps_leading _).andThen fun _ _ => (keeps_leading _).andThen fun _ _ => endsWith_none
  | expression e => exact (keeps_leading _).andThen fun _ _ => endsWith_none
  | print e =>
    exact (keeps_leading _).andThen fun _ _ => (keeps_leading _).andThen fun _ _ =>
      (keeps_leading _).andThen fun _ _ => endsWith_none
  | branch condition whenTrue whenFalse =>
    cases whenFalse with
    | none =>
      refine (keeps_leading _).andThen fun v _ => ?_
      split
      · exact endsWith_execute whenTrue
      · exact endsWith_none
    | some whenFalse =>
      refine (keeps_leading _).andThen fun v _ => ?_
      split
      · exact (endsWith_execute whenTrue).mono fun _ h => h.mono fun _ hjump =>
          Bool.or_eq_true_iff.mpr (.inl hjump)
      · exact (endsWith_execute whenFalse).mono fun _ h => h.mono fun _ hjump =>
          Bool.or_eq_true_iff.mpr (.inr hjump)
  | whileLoop condition body => exact endsWith_loop _ _ body
  | forLoop initial condition step body =>
    refine Keeps.inFrame ?_
    cases initial with
    | none => exact endsWith_loop _ _ body
    | some initial => exact (keeps_leading _).andThen fun _ _ => endsWith_loop _ _ body
  | jump keyword value =>
    have hjump : Completion.Of (fun jump => (Stmt.jump keyword value).leadsOut jump = true)
        (some (.ofKeyword keyword)) := .some (beq_self_eq_true _)
    cases value with
    | none => exact (keeps_leading _).andThen fun _ _ => endsWith_return hjump
    | some e =>
      exact (keeps_leading _).andThen fun _ _ => (keeps_leading _).andThen fun _ _ =>
        endsWith_return hjump
  | empty => exact endsWith_none

theorem endsWith_ofStmts (ss : List Stmt) :
    (ofStmts ss).EndsWith fun jump => Stmt.anyLeadsOut jump ss = true := by
  cases ss with
  | nil => exact endsWith_none
  | cons s ss =>
    refine (endsWith_execute s).andThen fun completion h => ?_
    cases completion with
    | none => exact (endsWith_executeAll ss).mono fun _ h => h.mono fun _ hjump =>
          Bool.or_eq_true_iff.mpr (.inr hjump)
    | some jump => exact endsWith_return (h.mono fun _ hjump => Bool.or_eq_true_iff.mpr (.inl hjump))

theorem endsWith_ofLoop (condition step : Option Expr) (body : Stmt) :
    (ofLoop condition step body).EndsWith
      fun jump => (jump == .returnCall && body.leadsOut jump) = true := by
  have hround : (ofRound condition step body).EndsWith
      fun jump => (jump == .returnCall && body.leadsOut jump) = true := by
    refine (endsWith_execute body).andThen fun completion h => ?_
    rcases completion with _ | _ | _ | _
    case some.breakLoop => exact endsWith_none
    case some.returnCall =>
      exact endsWith_return (.some (Bool.and_eq_true_iff.mpr ⟨rfl, h _ rfl⟩))
    all_goals
      cases step with
      | none => exact endsWith_loop _ _ body
      | some e => exact (keeps_leading _).andThen fun _ _ => endsWith_loop _ _ body
  cases condition with
  | none => exact hround
  | some e =>
    refine (keeps_leading _).andThen fun v _ => ?_
    split
    · exact hround
    · exact endsWith_none

end Plan

/-- **The jumps of statements are their own.** -/
theorem Invariant.leading_kept (host : Host) : Invariant.leading.Kept host := by
  intro t _
  cases t with
  | execute s => exact Plan.endsWith_ofStmt s
  | executeAll ss => exact Plan.endsWith_ofStmts ss
  | loop condition step body => exact Plan.endsWith_ofLoop condition step body
  | _ => exact Plan.keeps_leading _

/-- **A statement ends with a jump that leads out of it**, if it ends with one. -/
theorem Run.execute_ends (host : Host) (n : Nat) (s : Stmt) (m : Machine) :
    (execute host n s m).Ends
      (fun completion _ => completion.Of fun jump => s.leadsOut jump = true) fun _ _ => True :=
  ((Invariant.leading_kept host).run (t := .execute s) n trivial m trivial).mono
    (fun _ _ h => h.1) fun _ _ h => h

end Lox
