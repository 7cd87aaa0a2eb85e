import Lox.Proofs.Machine.Depth
import Lox.Proofs.Machine.Scope
import Lox.Proofs.Machine.Trait

/-!
# Programs without loops end

A program without loops can go on only by calls, and a function is found through a value, so its
body is no part of the program that calls it. Two numbers go down nevertheless: the calls that may
still be entered before there are too many, and, as long as no call is entered, the size of what is
executed (`Task.decreases_of_starts`). Hence every run of such a program ends, with a result or with
an error, whatever functions call each other in whatever way (`interpret_ends_of_loopFree`).
-/

namespace Lox

/-- There are no loops, neither outside functions nor in them. -/
def Trait.loopFree : Trait where
  token _ := True
  name _ := True
  loops := False
  routine _ := True

/-- The size of what a task executes. Values count for nothing, since what they hold is executed for
calls only. -/
noncomputable def Task.rank : Task → Nat
  | evaluate e => sizeOf e + 2
  | evaluateAll es => sizeOf es + 2
  | execute s => sizeOf s + 2
  | executeAll ss => sizeOf ss + 2
  | call .. => 1
  | invoke .. | loop .. => 0

namespace Plan

variable {α : Type} {host : Host}

/-- The tasks that a plan starts have ranks below a number, and the plan enters no call. -/
def PartsBelow (k : Nat) : {α : Type} → Plan α → Prop
  | _, act _ => True
  | _, part t => t.rank < k
  | _, andThen p next => p.PartsBelow k ∧ ∀ value, (next value).PartsBelow k
  | _, inFrame p => p.PartsBelow k
  | _, inCall _ _ => False

/-! ### Plans that enter no call -/

theorem partsBelow_ofExpr (e : Expr) : (ofExpr e).PartsBelow (Task.evaluate e).rank := by
  have hpart {e e' : Expr} (h : sizeOf e' < sizeOf e) :
      (evaluate e').PartsBelow (Task.evaluate e).rank := Nat.add_lt_add_right h 2
  cases e with
  | literal value => trivial
  | name token => trivial
  | lambda routine => exact ⟨trivial, fun _ => trivial⟩
  | assign name value =>
    refine ⟨trivial, fun found => ?_⟩
    cases found
    · trivial
    · exact ⟨hpart (by simp +arith), fun _ => ⟨trivial, fun _ => trivial⟩⟩
  | get object name => exact ⟨hpart (by simp +arith), fun _ => trivial⟩
  | set object name value =>
    refine ⟨hpart (by simp +arith), fun target => ?_⟩
    cases target
    case object id => exact ⟨hpart (by simp +arith), fun _ => ⟨trivial, fun _ => trivial⟩⟩
    all_goals trivial
  | conditional condition whenTrue whenFalse =>
    refine ⟨hpart (by simp +arith), fun value => ?_⟩
    dsimp only
    split <;> exact hpart (by simp +arith)
  | logical left operator right =>
    refine ⟨hpart (by simp +arith), fun value => ?_⟩
    dsimp only
    split
    · trivial
    · exact hpart (by simp +arith)
  | binary left operator right =>
    exact ⟨hpart (by simp +arith), fun _ => ⟨hpart (by simp +arith), fun _ => trivial⟩⟩
  | unary operator right => exact ⟨hpart (by simp +arith), fun _ => trivial⟩
  | call callee paren arguments =>
    have hargs : (evaluateAll arguments).PartsBelow
        (Task.evaluate (.call callee paren arguments)).rank := by
      simp +arith [evaluateAll, PartsBelow, Task.rank]
    have hcall (target : Value) (values : List Value) : (part (.call target paren values)).PartsBelow
        (Task.evaluate (.call callee paren arguments)).rank := by
      simp +arith [PartsBelow, Task.rank]
    exact ⟨hpart (by simp +arith), fun _ => ⟨hargs, fun _ => hcall _ _⟩⟩

theorem partsBelow_ofExprs (es : List Expr) :
    (ofExprs es).PartsBelow (Task.evaluateAll es).rank := by
  cases es with
  | nil => trivial
  | cons e es =>
    have hfirst : (evaluate e).PartsBelow (Task.evaluateAll (e :: es)).rank := by
      simp +arith [evaluate, PartsBelow, Task.rank]
    have hrest : (evaluateAll es).PartsBelow (Task.evaluateAll (e :: es)).rank := by
      simp +arith [evaluateAll, PartsBelow, Task.rank]
    exact ⟨hfirst, fun _ => ⟨hrest, fun _ => trivial⟩⟩

theorem partsBelow_ofCall (host : Host) (target : Value) (paren : Token) (values : List Value) :
    (ofCall host target paren values).PartsBelow (Task.call target paren values).rank := by
  have hinvoke (f : Closure) : (part (.invoke f paren values)).PartsBelow 1 := Nat.zero_lt_one
  cases target with
  | function f =>
    simp only [ofCall]
    split
    · exact hinvoke f
    · trivial
  | klass c =>
    refine ⟨trivial, fun id => ?_⟩
    dsimp only
    cases c.methods.get? Run.initializerName with
    | none => trivial
    | some init =>
      dsimp only
      split
      · exact ⟨trivial, fun bound => ⟨hinvoke bound, fun _ => trivial⟩⟩
      · trivial
  | _ => trivial

theorem partsBelow_ofStmt {s : Stmt} (h : s.Has .loopFree) :
    (ofStmt s).PartsBelow (Task.execute s).rank := by
  have hevaluate {e : Expr} (h : sizeOf e < sizeOf s) :
      (evaluate e).PartsBelow (Task.execute s).rank := Nat.add_lt_add_right h 2
  have hexecute {s' : Stmt} (h : sizeOf s' < sizeOf s) :
      (execute s').PartsBelow (Task.execute s).rank := Nat.add_lt_add_right h 2
  cases s with
  | block body =>
    have hbody : (part (.executeAll body)).PartsBelow (Task.execute (.block body)).rank := by
      simp +arith [PartsBelow, Task.rank]
    exact hbody
  | declare name initial =>
    cases initial with
    | none => exact ⟨trivial, fun _ => trivial⟩
    | some initial =>
      exact ⟨hevaluate (by simp +arith), fun _ => ⟨trivial, fun _ => trivial⟩⟩
  | function d => exact ⟨trivial, fun _ => ⟨trivial, fun _ => trivial⟩⟩
  | classDef name methods classMethods =>
    exact ⟨trivial, fun _ => ⟨trivial, fun _ => ⟨trivial, fun _ => ⟨trivial, fun _ => trivial⟩⟩⟩⟩
  | expression value => exact ⟨hevaluate (by simp +arith), fun _ => trivial⟩
  | print value =>
    exact ⟨hevaluate (by simp +arith), fun _ => ⟨trivial, fun _ => ⟨trivial, fun _ => trivial⟩⟩⟩
  | branch condition whenTrue whenFalse =>
    refine ⟨hevaluate (by simp +arith), fun value => ?_⟩
    dsimp only
    split
    · exact hexecute (by simp +arith)
    · cases whenFalse with
      | none => trivial
      | some whenFalse => exact hexecute (by simp +arith)
  | whileLoop condition body => exact h.1.elim
  | forLoop initial condition step body => exact h.1.elim
  | jump keyword value =>
    cases value with
    | none => exact ⟨trivial, fun _ => trivial⟩
    | some value => exact ⟨hevaluate (by simp +arith), fun _ => ⟨trivial, fun _ => trivial⟩⟩
  | empty => trivial

theorem partsBelow_ofStmts (ss : List Stmt) :
    (ofStmts ss).PartsBelow (Task.executeAll ss).rank := by
  cases ss with
  | nil => trivial
  | cons s ss =>
    have hfirst : (execute s).PartsBelow (Task.executeAll (s :: ss)).rank := by
      simp +arith [execute, PartsBelow, Task.rank]
    have hrest : (part (.executeAll ss)).PartsBelow (Task.executeAll (s :: ss)).rank := by
      simp +arith [PartsBelow, Task.rank]
    refine ⟨hfirst, fun completion => ?_⟩
    cases completion with
    | none => exact hrest
    | some jump => trivial

/-- What such a plan starts is smaller, and no call was entered for it. -/
theorem PartsBelow.of_starts {k : Nat} {E : Effects} {p : Plan α} (h : p.PartsBelow k)
    (hp : p.StepsOnly .any host E) {m m' : Machine} {t : Task} (hs : p.Starts host m t m') :
    t.rank < k ∧ m'.depth = m.depth := by
  induction hp generalizing m with
  | act _ => exact hs.elim
  | part _ =>
    obtain ⟨rfl, rfl⟩ := hs
    exact ⟨h, rfl⟩
  | andThen hp _ ihp ihnext =>
    rcases hs with hs | ⟨n, value, m₁, hdone, hs⟩
    · exact ihp h.1 hs
    -- The first part ended with the callers that it started with.
    · have hplace := (Machine.respected_samePlace host).follow n hp m
      rw [hdone] at hplace
      obtain ⟨hrank, hdepth⟩ := ihnext value (h.2 value) hs
      exact ⟨hrank, hdepth.trans (congrArg List.length hplace.2)⟩
  | inFrame _ ih =>
    have hbelow : t.rank < k ∧ m'.depth = _ := ih h hs
    exact hbelow
  | inCall scope _ _ => exact h.elim

/-- A body is executed only if there may be one more call, and that call is in progress then. -/
theorem depth_of_starts_ofInvoke {f : Closure} {paren : Token} {values : List Value} {t : Task}
    {m m' : Machine} (h : (ofInvoke f paren values).Starts host m t m') :
    m.depth < maxDepth ∧ m'.depth = m.depth + 1 := by
  obtain ⟨hdepth, -, hdone⟩ := starts_ofInvoke.mp h
  have hplace := (Machine.respected_samePlace host).step
    (.defineAll trivial (fun p _ => trivial) values : Run.IsStep .any host .all
      (Run.defineAll f.routine.parameters values)) (m.enterCall f.scope).enterFrame
  rw [hdone] at hplace
  exact ⟨hdepth, congrArg List.length hplace.2⟩

end Plan

/-! ### Every run ends -/

theorem Task.partsBelow_plan {t : Task} (ht : t.Has .loopFree) (host : Host)
    (hinvoke : ∀ f paren values, t ≠ .invoke f paren values) : (t.plan host).PartsBelow t.rank := by
  cases t with
  | evaluate e => exact Plan.partsBelow_ofExpr e
  | evaluateAll es => exact Plan.partsBelow_ofExprs es
  | call target paren values => exact Plan.partsBelow_ofCall host target paren values
  | invoke f paren values => exact absurd rfl (hinvoke f paren values)
  | execute s => exact Plan.partsBelow_ofStmt ht
  | executeAll ss => exact Plan.partsBelow_ofStmts ss
  | loop condition step body => exact ht.1.elim

/-- Where a task without loops starts another one, fewer calls may still be entered than before, or
as many, and what is executed is smaller. -/
theorem Task.decreases_of_starts {host : Host} {t t' : Task} {m m' : Machine}
    (ht : t.Has .loopFree) (hs : (t.plan host).Starts host m t' m') :
    Prod.Lex (· < ·) (· < ·) (maxDepth - m'.depth, t'.rank) (maxDepth - m.depth, t.rank) := by
  by_cases hinvoke : ∃ f paren values, t = .invoke f paren values
  · obtain ⟨f, paren, values, rfl⟩ := hinvoke
    obtain ⟨hlt, hdepth⟩ := Plan.depth_of_starts_ofInvoke hs
    exact .left _ _ (by omega)
  · have hbelow := Task.partsBelow_plan ht host fun f paren values h =>
      hinvoke ⟨f, paren, values, h⟩
    obtain ⟨hrank, hdepth⟩ := hbelow.of_starts (t.stepsOnly_any host) hs
    rw [hdepth]
    exact .right _ hrank

/-- A task without loops ends on a machine whose functions have none. -/
theorem Task.finishes_of_loopFree (host : Host) (t : Task) (m : Machine) (ht : t.Has .loopFree)
    (hm : m.Has .loopFree) : ∃ n, (t.run host n m).Finished := by
  obtain ⟨n, hn⟩ := Plan.finishes_of_starts (t.stepsOnly_any host) (m := m) fun t' m' hs => by
    have hkept := Invariant.contract_kept (Trait.invariant_kept .loopFree host)
    obtain ⟨ht', hm'⟩ := (hkept t m ⟨ht, hm⟩).before_of_starts hkept hs
    exact Task.finishes_of_loopFree host t' m' ht' hm'
  exact ⟨n + 1, by rw [Task.run_succ]; exact hn⟩
termination_by (maxDepth - m.depth, t.rank)
decreasing_by exact Task.decreases_of_starts ht hs

theorem Run.interpret_finishes_of_loopFree (host : Host) {ss : List Stmt} {m : Machine}
    (hss : Stmt.AllHave .loopFree ss) (hm : m.Has .loopFree) :
    ∃ n, (interpret host n ss m).Finished := by
  induction ss generalizing m with
  | nil => exact ⟨0, nofun⟩
  | cons s ss ih =>
    obtain ⟨n, hn⟩ := Task.finishes_of_loopFree host (.execute s) m hss.1 hm
    cases hfirst : execute host n s m with
    | done completion m₁ =>
      -- The machine that the statement leaves has no functions with loops either.
      have hkept := (Trait.invariant_kept .loopFree host).run n (t := .execute s) hss.1 m hm
      have hdone : Task.run host n (.execute s) m = .done completion m₁ := hfirst
      rw [hdone] at hkept
      obtain ⟨k, hk⟩ := ih hss.2 hkept.2
      have hboth : execute host (max n k) s m = .done completion m₁ :=
        (Task.run_eq_of_le (Nat.le_max_left n k) (.execute s) m hn).trans hfirst
      refine ⟨max n k, finished_bind.mpr ⟨by rw [hboth]; exact nofun, fun value m' hdone => ?_⟩⟩
      obtain ⟨rfl, rfl⟩ := Outcome.done.inj (hboth.symm.trans hdone)
      rw [interpret_eq_of_le (Nat.le_max_right n k) ss m₁ hk]
      exact hk
    | failed e m₁ =>
      refine ⟨n, finished_bind.mpr ⟨hn, fun value m' hdone => ?_⟩⟩
      exact nomatch hfirst.symm.trans hdone
    | unfinished => exact absurd hfirst hn

/-- **Programs without loops end.** A program that has no loops, not even in the bodies of its
functions, comes to its end or to an error on every machine that carries no function with a loop,
under every bound from some number on and each time in the same way. -/
theorem interpret_ends_of_loopFree (host : Host) {ss : List Stmt} {m : Machine}
    (hss : Stmt.AllHave .loopFree ss) (hm : m.Has .loopFree) :
    ∃ n, (∃ m', ∀ k, n ≤ k → Run.interpret host k ss m = .done () m') ∨
      ∃ e m', ∀ k, n ≤ k → Run.interpret host k ss m = .failed e m' := by
  obtain ⟨n, hn⟩ := Run.interpret_finishes_of_loopFree host hss hm
  have hle (k : Nat) (hk : n ≤ k) := Run.interpret_eq_of_le hk ss m hn
  refine ⟨n, ?_⟩
  cases h : Run.interpret host n ss m with
  | done u m' => exact .inl ⟨m', fun k hk => (hle k hk).trans h⟩
  | failed e m' => exact .inr ⟨e, m', fun k hk => (hle k hk).trans h⟩
  | unfinished => exact absurd h hn

/-- A function that an earlier text left behind and that does nothing but call itself. -/
theorem interpret_ends_of_loopFree_recursion :
    let f : Token := ⟨.identifier, "f", 1⟩
    let again : Stmt := .expression (.call (.name f) ⟨.symbol .leftParen, "(", 1⟩ [])
    let m : Machine := { Machine.initial (.ofLimit none) with
      store := (Machine.initial (.ofLimit none)).store.define 0 "f"
        (.function ⟨0, .mk [] (.block [again]), 0, false⟩) }
    Stmt.AllHave .loopFree [again] ∧ m.Has .loopFree ∧
      ∃ n, (∃ m', ∀ k, n ≤ k → Run.interpret (.ofSeed 0 0) k [again] m = .done () m') ∨
        ∃ e m', ∀ k, n ≤ k → Run.interpret (.ofSeed 0 0) k [again] m = .failed e m' := by
  intro f again m
  have hagain : again.Has .loopFree := ⟨trivial, trivial, trivial⟩
  have hroutine : Routine.Has .loopFree (.mk [] (.block [again])) :=
    ⟨nofun, trivial, hagain, trivial⟩
  have hinitial : (Machine.initial (.ofLimit none)).Has .loopFree := Machine.carries_initial _
  have hm : m.Has .loopFree := ⟨hinitial.store.define 0 "f" hroutine, hinitial.returned⟩
  exact ⟨⟨hagain, trivial⟩, hm, interpret_ends_of_loopFree _ ⟨hagain, trivial⟩ hm⟩

end Lox
