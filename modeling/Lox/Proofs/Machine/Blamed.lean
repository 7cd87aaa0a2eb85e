import Lox.Proofs.Machine.Upheld

/-!
# What a fault is blamed on

An expression fails at one of its names, operators or calls, and the fault is reported on the line
of that token. These tokens are the **sites** of a program; the functions that are made while it
runs have no others, so that a program that stops, however deep in calls, stops at a site or because
the output is closed (`Run.interpret_blames`).
-/

namespace Lox

variable {host : Host} {q : Trait}

/-! ### Sites -/

mutual

/-- The sites of an expression: the names that are looked up, members, operators, and the opening
parentheses of calls. -/
def Expr.sites : Expr → List Token
  | .literal _ => []
  | .name token => [token]
  | .assign name value => name :: value.sites
  | .get object name => object.sites ++ [name]
  | .set object name value => object.sites ++ name :: value.sites
  | .conditional condition whenTrue whenFalse =>
    condition.sites ++ (whenTrue.sites ++ whenFalse.sites)
  | .logical left _ right => left.sites ++ right.sites
  | .binary left operator right => left.sites ++ operator :: right.sites
  | .unary operator right => operator :: right.sites
  | .call callee paren arguments => callee.sites ++ paren :: Expr.allSites arguments
  | .lambda routine => routine.sites

/-- The sites of expressions. -/
def Expr.allSites : List Expr → List Token
  | [] => []
  | e :: es => e.sites ++ Expr.allSites es

/-- The sites of an expression, if there is one. -/
def Expr.optionSites : Option Expr → List Token
  | none => []
  | some e => e.sites

/-- The sites of a statement. -/
def Stmt.sites : Stmt → List Token
  | .block body => Stmt.allSites body
  | .declare _ initial => Expr.optionSites initial
  | .function definition => definition.sites
  | .classDef _ methods classMethods =>
    Definition.allSites methods ++ Definition.allSites classMethods
  | .expression value => value.sites
  | .print value => value.sites
  | .branch condition whenTrue whenFalse =>
    condition.sites ++ (whenTrue.sites ++ Stmt.optionSites whenFalse)
  | .whileLoop condition body => condition.sites ++ body.sites
  | .forLoop initial condition step body => Stmt.optionSites initial ++
      (Expr.optionSites condition ++ (Expr.optionSites step ++ body.sites))
  | .jump _ value => Expr.optionSites value
  | .empty => []

/-- The sites of statements. -/
def Stmt.allSites : List Stmt → List Token
  | [] => []
  | s :: ss => s.sites ++ Stmt.allSites ss

/-- The sites of a statement, if there is one. -/
def Stmt.optionSites : Option Stmt → List Token
  | none => []
  | some s => s.sites

/-- The sites of the body of a routine. -/
def Routine.sites : Routine → List Token
  | .mk _ body => body.sites

/-- The sites of the body of a definition. -/
def Definition.sites : Definition → List Token
  | .mk _ routine => routine.sites

/-- The sites of the bodies of definitions. -/
def Definition.allSites : List Definition → List Token
  | [] => []
  | d :: ds => d.sites ++ Definition.allSites ds

end

/-- Something is demanded of the sites, and of nothing else. -/
def Trait.atSites (P : Token → Prop) : Trait where
  token := P
  name _ := True
  loops := True
  routine _ := True

variable {P : Token → Prop}

@[simp]
theorem Trait.token_atSites {t : Token} : (atSites P).token t ↔ P t := Iff.rfl

@[simp]
theorem Trait.name_atSites {t : Token} : (atSites P).name t ↔ True := Iff.rfl

@[simp]
theorem Trait.loops_atSites : (atSites P).loops ↔ True := Iff.rfl

@[simp]
theorem Trait.routine_atSites {r : Routine} : (atSites P).routine r ↔ True := Iff.rfl

mutual

theorem Expr.has_atSites : (e : Expr) → (e.Has (.atSites P) ↔ ∀ t ∈ e.sites, P t)
  | .literal _ => by simp [Expr.Has, Expr.sites]
  | .name _ => by simp [Expr.Has, Expr.sites]
  | .assign _ value => by simp [Expr.Has, Expr.sites, value.has_atSites]
  | .get object _ => by simp [Expr.Has, Expr.sites, or_imp, forall_and, object.has_atSites]
  | .set object _ value => by
    simp [Expr.Has, Expr.sites, or_imp, forall_and, object.has_atSites, value.has_atSites]
  | .conditional condition whenTrue whenFalse => by
    simp [Expr.Has, Expr.sites, or_imp, forall_and, condition.has_atSites, whenTrue.has_atSites,
      whenFalse.has_atSites]
  | .logical left _ right => by
    simp [Expr.Has, Expr.sites, or_imp, forall_and, left.has_atSites, right.has_atSites]
  | .binary left _ right => by
    simp [Expr.Has, Expr.sites, or_imp, forall_and, left.has_atSites, right.has_atSites]
  | .unary _ right => by simp [Expr.Has, Expr.sites, right.has_atSites]
  | .call callee _ arguments => by
    simp [Expr.Has, Expr.sites, or_imp, forall_and, callee.has_atSites,
      Expr.allHave_atSites arguments]
  | .lambda routine => routine.has_atSites

theorem Expr.allHave_atSites :
    (es : List Expr) → (Expr.AllHave (.atSites P) es ↔ ∀ t ∈ Expr.allSites es, P t)
  | [] => by simp [Expr.AllHave, Expr.allSites]
  | e :: es => by
    simp [Expr.AllHave, Expr.allSites, or_imp, forall_and, e.has_atSites, Expr.allHave_atSites es]

theorem Expr.optionHas_atSites :
    (e : Option Expr) → (Expr.OptionHas (.atSites P) e ↔ ∀ t ∈ Expr.optionSites e, P t)
  | none => by simp [Expr.OptionHas, Expr.optionSites]
  | some e => e.has_atSites

theorem Stmt.has_atSites : (s : Stmt) → (s.Has (.atSites P) ↔ ∀ t ∈ s.sites, P t)
  | .block body => Stmt.allHave_atSites body
  | .declare _ initial => by simp [Stmt.Has, Stmt.sites, Expr.optionHas_atSites initial]
  | .function definition => by simp [Stmt.Has, Stmt.sites, definition.has_atSites]
  | .classDef _ methods classMethods => by
    simp [Stmt.Has, Stmt.sites, or_imp, forall_and, Definition.allHave_atSites methods,
      Definition.allHave_atSites classMethods]
  | .expression value => value.has_atSites
  | .print value => value.has_atSites
  | .branch condition whenTrue whenFalse => by
    simp [Stmt.Has, Stmt.sites, or_imp, forall_and, condition.has_atSites, whenTrue.has_atSites,
      Stmt.optionHas_atSites whenFalse]
  | .whileLoop condition body => by
    simp [Stmt.Has, Stmt.sites, or_imp, forall_and, condition.has_atSites, body.has_atSites]
  | .forLoop initial condition step body => by
    simp [Stmt.Has, Stmt.sites, or_imp, forall_and, Stmt.optionHas_atSites initial,
      Expr.optionHas_atSites condition, Expr.optionHas_atSites step, body.has_atSites]
  | .jump _ value => Expr.optionHas_atSites value
  | .empty => by simp [Stmt.Has, Stmt.sites]

theorem Stmt.allHave_atSites :
    (ss : List Stmt) → (Stmt.AllHave (.atSites P) ss ↔ ∀ t ∈ Stmt.allSites ss, P t)
  | [] => by simp [Stmt.AllHave, Stmt.allSites]
  | s :: ss => by
    simp [Stmt.AllHave, Stmt.allSites, or_imp, forall_and, s.has_atSites, Stmt.allHave_atSites ss]

theorem Stmt.optionHas_atSites :
    (s : Option Stmt) → (Stmt.OptionHas (.atSites P) s ↔ ∀ t ∈ Stmt.optionSites s, P t)
  | none => by simp [Stmt.OptionHas, Stmt.optionSites]
  | some s => s.has_atSites

theorem Routine.has_atSites : (r : Routine) → (r.Has (.atSites P) ↔ ∀ t ∈ r.sites, P t)
  | .mk _ body => by simp [Routine.Has, Routine.sites, body.has_atSites]

theorem Definition.has_atSites : (d : Definition) → (d.Has (.atSites P) ↔ ∀ t ∈ d.sites, P t)
  | .mk _ routine => routine.has_atSites

theorem Definition.allHave_atSites :
    (ds : List Definition) →
      (Definition.AllHave (.atSites P) ds ↔ ∀ t ∈ Definition.allSites ds, P t)
  | [] => by simp [Definition.AllHave, Definition.allSites]
  | d :: ds => by
    simp [Definition.AllHave, Definition.allSites, or_imp, forall_and, d.has_atSites,
      Definition.allHave_atSites ds]

end

/-! ### Errors -/

/-- An error is a fault on the line of a token as a trait demands it, or that the output is
closed. -/
def Trait.Blames (q : Trait) : RuntimeError → Prop
  | .fault line _ => ∃ t, q.token t ∧ line = t.line
  | .outputClosed => True

/-- A run stops only with errors that a trait allows for. -/
def Run.Blames {α : Type} (q : Trait) (r : Run α) : Prop :=
  ∀ m, (r m).Ends (fun _ _ => True) fun e _ => q.Blames e

namespace Run

variable {E : Effects} {α β : Type}

theorem Blames.bind {r : Run α} {f : α → Run β} (hr : r.Blames q)
    (hf : ∀ value, (f value).Blames q) :
    (r >>= f).Blames q :=
  fun m => ends_bind.mpr ((hr m).mono (fun value m' _ => hf value m') fun _ _ he => he)

theorem IsBasic.blames {r : Run α} (h : IsBasic q host E r) : r.Blames q := by
  intro m
  cases h with
  | fault ht cause => exact ⟨_, ht, rfl⟩
  | printLine _ text =>
    unfold Run.printLine
    dsimp only
    split <;> trivial
  | _ => trivial

theorem IsStep.blames {r : Run α} (h : IsStep q host E r) : r.Blames q := by
  induction h with
  | basic hr => exact hr.blames
  | bind _ _ ihr ihf => exact ihr.bind ihf

theorem IsAct.blames {r : Run α} (h : IsAct q host E r) : r.Blames q := by
  induction h with
  | step hr => exact hr.blames
  | bindMethod method id => exact fun m => trivial
  | look f _ ih => exact fun m => ih _ m
  | map _ f ih => exact ih.bind fun _ _ => trivial

end Run

/-- A contract, and that tasks stop only with errors that a trait allows for. -/
def Contract.blaming (C : Contract) (q : Trait) : Contract where
  before := C.before
  result := C.result
  error t m e m' := C.error t m e m' ∧ q.Blames e

/-- A plan made of the steps of programs with a trait stops only with errors that the trait allows
for, if the tasks that it starts do. -/
theorem Plan.StepsOnly.meets_blaming {C : Contract} {E : Effects} {α : Type} {p : Plan α}
    (hp : p.StepsOnly q host E) {m : Machine} {result : α → Machine → Prop}
    {error : RuntimeError → Machine → Prop} (hmeets : p.Meets C m result error) :
    p.Meets (C.blaming q) m result fun e m' => error e m' ∧ q.Blames e := by
  induction hp generalizing m error with
  | act hr =>
    exact (Outcome.Ends.and hmeets (hr.blames m)).mono (fun _ _ h => h.1) fun _ _ h => h
  | part _ =>
    obtain ⟨hb, hr, he⟩ := hmeets
    exact ⟨hb, hr, fun e m' h => ⟨he e m' h.1, h.2⟩⟩
  | andThen _ _ ihp ihnext =>
    exact (ihp hmeets).mono (fun value _ h => ihnext value h) fun _ _ h => h
  | inFrame _ ih => exact (ih hmeets).mono (fun _ _ h => h) fun _ _ h => h
  | inCall scope _ _ ih => exact (ih hmeets).mono (fun _ _ h => h) fun _ _ h => h

/-- Tasks with a trait, on machines with the trait, stop only with errors that it allows for. -/
theorem Trait.blaming_kept (q : Trait) (host : Host) :
    (q.invariant.contract.blaming q).Kept host := by
  intro t m hb
  have hmeets := Invariant.contract_kept (q.invariant_kept host) t m hb
  exact (Task.stepsOnly_plan host hb.1).meets_blaming hmeets

/-- **A program stops at one of its sites**, or because the output is closed, if it is run on a
machine without functions of other programs. -/
theorem Run.interpret_blames (host : Host) (n : Nat) {ss : List Stmt} (hss : Stmt.AllHave q ss)
    {m : Machine} (hm : m.Has q) :
    (Run.interpret host n ss m).Ends (fun _ _ => True) fun e _ => q.Blames e := by
  induction ss generalizing m with
  | nil => trivial
  | cons s ss ih =>
    have hends := (q.blaming_kept host).run n (.execute s) m ⟨hss.1, hm⟩
    exact ends_bind.mpr (hends.mono (fun _ m₁ h₁ => ih hss.2 h₁.2) fun _ _ h₁ => h₁.2)

end Lox
