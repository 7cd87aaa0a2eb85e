import Lox.Proofs.Machine.Carried
import Lox.Proofs.Machine.Scope
import Lox.Proofs.Program.Legal

/-!
# No jump escapes

A `break` or a `continue` that is read stands in a loop of the same function, and a `return` stands
in a function. So the jump that a statement ends with is one that its context admits: loops take up
the first two, calls the third, and none is left over at the end of a statement of a program. All
routines that a machine ever carries were read, in this run of the session or in an earlier one,
which is why it holds of their bodies as well (`no_jump_escapes`).
-/

namespace Lox

/-! ### What a context admits -/

/-- The jumps that a statement in a context may end with. -/
def Context.Admits (c : Context) : Completion → Prop
  | none => True
  | some .returnCall => c.inFunction = true
  | some _ => c.inLoop = true

/-- The body of a routine is a legal statement outside of all loops. -/
def Routine.Sealed (r : Routine) : Prop :=
  ∃ c : Context, c.inLoop = false ∧ r.body.Legal c

/-- The parts of a loop can be written in a context. -/
def Context.LegalLoop (c : Context) (condition step : Option Expr) (body : Stmt) : Prop :=
  Expr.OptionLegal c condition ∧ Expr.OptionLegal c step ∧ body.Legal c.enterLoop

variable {c c' : Context}

mutual

/-- Of the context of an expression it matters only whether it is in a class. -/
theorem Expr.Legal.congr (hc : c.inClass = c'.inClass) : {x : Expr} → x.Legal c → x.Legal c'
  | .literal _, _ => trivial
  | .name _, h => h.imp_right fun h => ⟨h.1, hc ▸ h.2⟩
  | .assign _ _, h => ⟨h.1, h.2.congr hc⟩
  | .get _ _, h => ⟨h.1.congr hc, h.2⟩
  | .set _ _ _, h => ⟨h.1.congr hc, h.2.1, h.2.2.congr hc⟩
  | .conditional _ _ _, h => ⟨h.1.congr hc, h.2.1.congr hc, h.2.2.congr hc⟩
  | .logical _ _ _, h => ⟨h.1, h.2.1.congr hc, h.2.2.congr hc⟩
  | .binary _ _ _, h => ⟨h.1, h.2.1.congr hc, h.2.2.congr hc⟩
  | .unary _ _, h => ⟨h.1, h.2.congr hc⟩
  | .call _ _ _, h => ⟨h.1.congr hc, h.2.1, Expr.AllLegal.congr hc h.2.2.1, h.2.2.2⟩
  | .lambda (.mk _ (.block _)), h => by
    have henter : c.enterFunction = c'.enterFunction := by
      rw [Context.enterFunction, Context.enterFunction, hc]
    exact ⟨h.1, henter ▸ h.2⟩
  | .lambda (.mk _ (.jump _ (some _))), h => ⟨h.1, h.2.1, h.2.2.1, h.2.2.2.congr hc⟩

theorem Expr.AllLegal.congr (hc : c.inClass = c'.inClass) :
    {xs : List Expr} → Expr.AllLegal c xs → Expr.AllLegal c' xs
  | [], _ => trivial
  | _ :: _, h => ⟨h.1.congr hc, Expr.AllLegal.congr hc h.2⟩

end

theorem Routine.Legal.sealed {r : Routine} (h : r.Legal c) : r.Sealed := by
  obtain ⟨names, body⟩ := r
  cases body with
  | block body => exact ⟨c.enterFunction, rfl, h.2⟩
  | jump keyword value =>
    cases value with
    | none => exact nomatch h
    | some value =>
      have hclass : c.inClass = c.enterFunction.inClass := rfl
      exact ⟨c.enterFunction, rfl, h.2.1, rfl, h.2.2.2.congr hclass⟩
  | _ => exact nomatch h

theorem Definition.Legal.sealed {d : Definition} (h : d.Legal c) : d.routine.Sealed := by
  obtain ⟨name, names, body⟩ := d
  cases body with
  | block body => exact ⟨c.enterFunction, rfl, h.2.2⟩
  | _ => exact nomatch h

/-- The routine of a closed-over body may end with a `return` at most. -/
theorem Routine.Sealed.admits {r : Routine} (h : r.Sealed) :
    ∃ c : Context, r.body.Legal c ∧ ∀ completion, c.Admits completion →
      completion = none ∨ completion = some .returnCall := by
  obtain ⟨c, hloop, hbody⟩ := h
  refine ⟨c, hbody, fun completion hc => ?_⟩
  rcases completion with _ | _ | _ | _
  · exact .inl rfl
  · exact absurd hc (by simp [Context.Admits, hloop])
  · exact absurd hc (by simp [Context.Admits, hloop])
  · exact .inr rfl

/-! ### The invariant -/

/-- All routines that a value carries are sealed. -/
abbrev Value.Sealed : Value → Prop :=
  Value.Carries Routine.Sealed

/-- All routines that a machine carries are sealed, what is executed is legal in some context, and
it ends with jumps that the context admits. -/
def Invariant.jumps : Invariant where
  holds := Machine.Carries Routine.Sealed
  starts
    | .evaluate e => ∃ c, e.Legal c
    | .evaluateAll es => ∃ c, Expr.AllLegal c es
    | .call target _ values => target.Sealed ∧ ∀ v ∈ values, v.Sealed
    | .invoke f _ values => f.routine.Sealed ∧ ∀ v ∈ values, v.Sealed
    | .execute s => ∃ c, s.Legal c
    | .executeAll ss => ∃ c, Stmt.AllLegal c ss
    | .loop condition step body => ∃ c : Context, c.LegalLoop condition step body
  yields
    | .evaluate _, v | .call .., v | .invoke .., v => v.Sealed
    | .evaluateAll _, vs => ∀ v ∈ vs, v.Sealed
    -- More than one context may allow the statement; each of them admits the jump.
    | .execute s, completion => ∀ c, s.Legal c → c.Admits completion
    | .executeAll ss, completion => ∀ c, Stmt.AllLegal c ss → c.Admits completion
    | .loop condition step body, completion =>
      ∀ c : Context, c.LegalLoop condition step body → c.Admits completion
  enterFrame h := ⟨h.store.allocFrame _, h.returned⟩
  backIn _ h := ⟨h.store, h.returned⟩
  enterCall _ h := ⟨h.store, h.returned⟩
  leaveCall h := ⟨h.store, h.returned⟩

namespace Plan

/-- The plan keeps the invariant, with a result of which `Q` holds. -/
abbrev Seals {α : Type} (p : Plan α) (Q : α → Prop) : Prop :=
  p.Keeps .jumps Q

theorem seals_return {α : Type} {value : α} {Q : α → Prop} (h : Q value) :
    (pure value : Plan α).Seals Q :=
  keeps_act (Run.keeps_pure h)

theorem seals_evaluate {e : Expr} (h : e.Legal c) : (evaluate e).Seals Value.Sealed :=
  keeps_part ⟨c, h⟩

theorem seals_execute {s : Stmt} (h : s.Legal c) : (execute s).Seals c.Admits := by
  have hstarts : Invariant.jumps.starts (.execute s) := ⟨c, h⟩
  exact (keeps_part hstarts).mono fun _ hadmits => hadmits c h

theorem seals_loop {condition step : Option Expr} {body : Stmt}
    (h : c.LegalLoop condition step body) : (loop condition step body).Seals c.Admits := by
  have hstarts : Invariant.jumps.starts (.loop condition step body) := ⟨c, h⟩
  exact (keeps_part hstarts).mono fun _ hadmits => hadmits c h

theorem seals_ofExpr {e : Expr} (h : e.Legal c) : (ofExpr e).Seals Value.Sealed := by
  cases e with
  | literal value =>
    have hvalue : (Value.ofLiteral value).Sealed := by cases value <;> trivial
    exact seals_return hvalue
  | name token => exact keeps_act (Run.keeps_lookUp token)
  | assign name value =>
    refine (keeps_act (Run.keeps_see _)).andThen fun found _ => ?_
    cases found with
    | false => exact keeps_act (Run.keeps_fault _ _)
    | true =>
      refine (seals_evaluate h.2).andThen fun v hv => ?_
      exact (keeps_act (Run.keeps_assign _ hv)).andThen fun _ _ => seals_return hv
  | get object name =>
    exact (seals_evaluate h.1).andThen fun target ht => keeps_act (Run.keeps_member ht name)
  | set object name value =>
    refine (seals_evaluate h.1).andThen fun target _ => ?_
    cases target with
    | object id =>
      refine (seals_evaluate h.2.2).andThen fun v hv => ?_
      exact (keeps_act (Run.keeps_change fun s hs => hs.setField id name.lexeme hv)).andThen
        fun _ _ => seals_return hv
    | _ => exact keeps_act (Run.keeps_fault _ _)
  | conditional condition whenTrue whenFalse =>
    refine (seals_evaluate h.1).andThen fun v _ => ?_
    split
    · exact seals_evaluate h.2.1
    · exact seals_evaluate h.2.2
  | logical left operator right =>
    refine (seals_evaluate h.2.1).andThen fun v hv => ?_
    split
    · exact seals_return hv
    · exact seals_evaluate h.2.2
  | binary left operator right =>
    refine (seals_evaluate h.2.1).andThen fun a _ => (seals_evaluate h.2.2).andThen fun b hb => ?_
    exact keeps_act (Run.keeps_binary operator a hb)
  | unary operator right =>
    exact (seals_evaluate h.2).andThen fun v _ => keeps_act (Run.keeps_unary operator v)
  | call callee paren arguments =>
    refine (seals_evaluate h.1).andThen fun target ht => ?_
    have harguments : (evaluateAll arguments).Seals fun vs => ∀ v ∈ vs, v.Sealed :=
      keeps_part ⟨c, h.2.2.1⟩
    exact harguments.andThen fun vs hvs => keeps_part ⟨ht, hvs⟩
  | lambda routine =>
    have hroutine : routine.Sealed := Routine.Legal.sealed h
    exact (keeps_act (Run.keeps_makeClosure hroutine false)).andThen fun f hf => seals_return hf

theorem seals_ofExprs {es : List Expr} (h : Expr.AllLegal c es) :
    (ofExprs es).Seals fun vs => ∀ v ∈ vs, v.Sealed := by
  cases es with
  | nil => exact seals_return nofun
  | cons e es =>
    refine (seals_evaluate h.1).andThen fun v hv => ?_
    have hes : (evaluateAll es).Seals fun vs => ∀ v ∈ vs, v.Sealed := keeps_part ⟨c, h.2⟩
    exact hes.andThen fun vs hvs => seals_return (List.forall_mem_cons.mpr ⟨hv, hvs⟩)

theorem seals_ofCall (host : Host) {target : Value} (ht : target.Sealed) (paren : Token)
    {values : List Value} (hvs : ∀ v ∈ values, v.Sealed) :
    (ofCall host target paren values).Seals Value.Sealed := by
  cases target with
  | builtin b => exact keeps_act (Run.keeps_reading host b)
  | function f =>
    simp only [ofCall]
    split
    · exact keeps_part ⟨ht, hvs⟩
    · exact keeps_act (Run.keeps_fault _ _)
  | klass k =>
    refine (keeps_act (Run.keeps_makeObject ht)).andThen fun id _ => ?_
    have hid : (Value.object id).Sealed := trivial
    split
    case h_1 => exact seals_return hid
    case h_2 init hinit =>
      split
      · refine (keeps_act (Run.keeps_bindMethod (ht.1 _ _ hinit) hid)).andThen fun f hf => ?_
        have hstarts : Invariant.jumps.starts (.invoke f paren values) := ⟨hf, hvs⟩
        exact (keeps_part hstarts).andThen fun _ _ => seals_return hid
      · exact keeps_act (Run.keeps_fault _ _)
  | _ => exact keeps_act (Run.keeps_fault _ _)

/-- How the body of a function is run for a call. -/
def body (f : Closure) (values : List Value) : Plan Completion :=
  inCall f.scope (inFrame (do
    Run.defineAll f.routine.parameters values
    execute f.routine.body))

/-- The body of a function ends without a jump or with a `return`. -/
theorem seals_body {f : Closure} (hf : f.routine.Sealed) {values : List Value}
    (hvs : ∀ v ∈ values, v.Sealed) :
    (body f values).Seals fun completion => completion = none ∨ completion = some .returnCall := by
  obtain ⟨c, hbody, hadmits⟩ := hf.admits
  refine Keeps.inCall (Keeps.inFrame ?_)
  refine (keeps_act (Run.keeps_defineAll _ hvs)).andThen fun _ _ => ?_
  exact (seals_execute hbody).mono hadmits

theorem seals_ofInvoke {f : Closure} (hf : f.routine.Sealed) (paren : Token) {values : List Value}
    (hvs : ∀ v ∈ values, v.Sealed) : (ofInvoke f paren values).Seals Value.Sealed := by
  refine (keeps_act (Run.keeps_see _)).andThen fun depth _ => ?_
  split
  · exact keeps_act (Run.keeps_fault _ _)
  · refine (seals_body hf hvs).andThen fun completion _ => ?_
    split
    -- An initializer yields its receiver, which the frame of a bound method holds.
    · refine keeps_act (Run.keeps_look fun m hm => ?_)
      cases hthis : m.store.frames.get? f.scope Run.thisName with
      | none => trivial
      | some v => exact hm.store.frames.get? hthis
    · split
      · exact keeps_act Run.keeps_takeReturned
      · have hnil : Value.nil.Sealed := trivial
        exact seals_return hnil

theorem seals_makeMethods {ds : List Definition} (h : Definition.AllLegal c ds) :
    (act (Run.makeMethods ds)).Seals fun t => t.All fun f => f.routine.Sealed := by
  have hds : ∀ d ∈ ds, d.routine.Sealed := fun d hd => (Definition.allLegal_iff.mp h d hd).sealed
  exact keeps_act (Run.keeps_makeMethods hds)

/-- The jump of a keyword is one that its context admits. -/
theorem admits_ofKeyword {keyword : Token} {value : Option Expr}
    (h : (Stmt.jump keyword value).Legal c) : c.Admits (some (.ofKeyword keyword)) := by
  rw [Jump.ofKeyword]
  cases value with
  | none =>
    obtain ⟨hword | hword, hc⟩ | ⟨hword, hc⟩ := h
    · rw [hword]; exact hc
    · rw [hword]; exact hc
    · rw [hword]; exact hc
  | some value =>
    rw [h.1]
    exact h.2.1

theorem seals_ofStmt {s : Stmt} (h : s.Legal c) : (ofStmt s).Seals c.Admits := by
  have hnone : c.Admits none := trivial
  cases s with
  | block body =>
    have hstarts : Invariant.jumps.starts (.executeAll body) := ⟨c, h⟩
    exact ((keeps_part hstarts).mono fun _ hadmits => hadmits c h).inFrame
  | declare name initial =>
    cases initial with
    | none =>
      have hnil : Value.nil.Sealed := trivial
      exact (keeps_act (Run.keeps_define _ hnil)).andThen fun _ _ => seals_return hnone
    | some initial =>
      refine (seals_evaluate h.2).andThen fun v hv => ?_
      exact (keeps_act (Run.keeps_define _ hv)).andThen fun _ _ => seals_return hnone
  | function d =>
    have hd : d.routine.Sealed := Definition.Legal.sealed h
    refine (keeps_act (Run.keeps_makeClosure hd false)).andThen fun f hf => ?_
    have hvalue : (Value.function f).Sealed := hf
    exact (keeps_act (Run.keeps_define _ hvalue)).andThen fun _ _ => seals_return hnone
  | classDef name methods classMethods =>
    obtain ⟨-, ⟨hmethods, -⟩, hclassMethods, -⟩ := h
    refine (seals_makeMethods hmethods).andThen fun t ht => ?_
    refine (seals_makeMethods hclassMethods).andThen fun t' ht' => ?_
    refine (keeps_act (Run.keeps_makeClass _ ht ht')).andThen fun k hk => ?_
    have hvalue : (Value.klass k).Sealed := hk
    exact (keeps_act (Run.keeps_define _ hvalue)).andThen fun _ _ => seals_return hnone
  | expression value => exact (seals_evaluate h).andThen fun _ _ => seals_return hnone
  | print value =>
    refine (seals_evaluate h).andThen fun v _ => ?_
    refine (keeps_act (Run.keeps_see _)).andThen fun text _ => ?_
    exact (keeps_act (Run.keeps_printLine text)).andThen fun _ _ => seals_return hnone
  | branch condition whenTrue whenFalse =>
    cases whenFalse with
    | none =>
      refine (seals_evaluate h.1).andThen fun v _ => ?_
      split
      · exact seals_execute h.2.1
      · exact seals_return hnone
    | some whenFalse =>
      refine (seals_evaluate h.1).andThen fun v _ => ?_
      split
      · exact seals_execute h.2.1.1
      · exact seals_execute h.2.2.1
  | whileLoop condition body =>
    exact seals_loop ⟨h.1, trivial, h.2.1⟩
  | forLoop initial condition step body =>
    obtain ⟨hinitial, hcondition, hstep, hbody, -⟩ := h
    have hloop := seals_loop ⟨hcondition, hstep, hbody⟩
    refine Keeps.inFrame ?_
    cases initial with
    | none => exact hloop
    | some initial => exact (seals_execute hinitial.1).andThen fun _ _ => hloop
  | jump keyword value =>
    have hadmits := admits_ofKeyword h
    cases value with
    | none =>
      have hnil : Value.nil.Sealed := trivial
      exact (keeps_act (Run.keeps_setReturned hnil)).andThen fun _ _ => seals_return hadmits
    | some value =>
      refine (seals_evaluate h.2.2).andThen fun v hv => ?_
      exact (keeps_act (Run.keeps_setReturned hv)).andThen fun _ _ => seals_return hadmits
  | empty => exact seals_return hnone

theorem seals_ofStmts {ss : List Stmt} (h : Stmt.AllLegal c ss) : (ofStmts ss).Seals c.Admits := by
  cases ss with
  | nil => exact seals_return trivial
  | cons s ss =>
    refine (seals_execute h.1).andThen fun completion hadmits => ?_
    cases completion with
    | none =>
      have hstarts : Invariant.jumps.starts (.executeAll ss) := ⟨c, h.2⟩
      exact (keeps_part hstarts).mono fun _ hrest => hrest c h.2
    | some jump => exact seals_return hadmits

/-- A round of a loop takes up a `break` and a `continue`. -/
theorem seals_ofRound {condition step : Option Expr} {body : Stmt}
    (h : c.LegalLoop condition step body) : (ofRound condition step body).Seals c.Admits := by
  have hloop := seals_loop h
  obtain ⟨-, hstep, hbody⟩ := h
  refine (seals_execute hbody).andThen fun completion hadmits => ?_
  rcases completion with _ | _ | _ | _
  case some.breakLoop => exact seals_return trivial
  case some.returnCall => exact seals_return hadmits
  -- After the body, or a `continue` in it, the loop goes on with its step.
  all_goals
    cases step with
    | none => exact hloop
    | some e => exact (seals_evaluate hstep).andThen fun _ _ => hloop

theorem seals_ofLoop {condition step : Option Expr} {body : Stmt}
    (h : c.LegalLoop condition step body) : (ofLoop condition step body).Seals c.Admits := by
  have hround := seals_ofRound h
  cases condition with
  | none => exact hround
  | some e =>
    refine (seals_evaluate h.1).andThen fun v _ => ?_
    split
    · exact hround
    · exact seals_return trivial

end Plan

/-- **The invariant of jumps is kept.** -/
theorem Invariant.jumps_kept (host : Host) : Invariant.jumps.Kept host := by
  intro t ht
  cases t with
  | evaluate e =>
    obtain ⟨c, h⟩ := ht
    exact Plan.seals_ofExpr h
  | evaluateAll es =>
    obtain ⟨c, h⟩ := ht
    exact Plan.seals_ofExprs h
  | call target paren values => exact Plan.seals_ofCall host ht.1 paren ht.2
  | invoke f paren values => exact Plan.seals_ofInvoke ht.1 paren ht.2
  | execute s => exact Plan.Keeps.forall ht fun c h => Plan.seals_ofStmt h
  | executeAll ss => exact Plan.Keeps.forall ht fun c h => Plan.seals_ofStmts h
  | loop condition step body => exact Plan.Keeps.forall ht fun c h => Plan.seals_ofLoop h

/-! ### Sessions -/

/-- A program that is executed is legal. -/
theorem Session.legal_program {source : String} (h : rejections source = []) :
    Stmt.AllLegal .outermost (program source) := by
  rw [rejections] at h
  split at h
  · exact legal_of_errors_eq_nil (List.map_eq_nil_iff.mp h)
  · exact absurd (List.map_eq_nil_iff.mp h) ‹_›

theorem Run.keeps_interpret (host : Host) (n : Nat) {ss : List Stmt}
    (h : Stmt.AllLegal .outermost ss) :
    (interpret host n ss).Keeps (Machine.Carries Routine.Sealed) fun _ => True := by
  induction ss with
  | nil => exact keeps_pure trivial
  | cons s ss ih =>
    have hs : Invariant.jumps.starts (.execute s) := ⟨_, h.1⟩
    exact ((Invariant.jumps_kept host).run n hs).bind fun _ _ => ih h.2

/-- In a session all routines are sealed, those of earlier runs and of failed ones included. -/
theorem Session.Reaches.carries_sealed {host : Host} {output : Channel} {s : Session}
    (h : Reaches host (.initial output) s) : s.machine.Carries Routine.Sealed := by
  induction h with
  | refl => exact Machine.carries_initial output
  | @tail a b _ hab ih =>
    obtain ⟨n, source, reported, hrun⟩ := hab
    have hends (hr : rejections source = []) :=
      Run.keeps_interpret host n (legal_program hr) a.machine ih
    obtain hm | ⟨hr, u, hdone⟩ | ⟨hr, e, hfailed⟩ := Session.run_eq_some hrun
    · rw [hm]
      exact ih
    · have hm := hends hr
      rw [hdone] at hm
      exact hm.2
    · have hm := hends hr
      rw [hfailed] at hm
      exact hm

/-- A run of a session on a source text comes to a statement of the program on a machine: the
statements in front of it have ended. -/
def Session.Executes (host : Host) (s : Session) (source : String) (stmt : Stmt) (m : Machine) :
    Prop :=
  rejections source = [] ∧ ∃ front rest n, program source = front ++ stmt :: rest ∧
    Run.interpret host n front s.machine = .done () m

/-- The body of a function, run for a call. -/
def Run.body (host : Host) (n : Nat) (f : Closure) (values : List Value) : Run Completion :=
  inCall f.scope (inFrame (do
    defineAll f.routine.parameters values
    execute host n f.routine.body))

/-- A call runs the body of the function, unless too many calls are in progress. -/
theorem Run.invoke_succ (host : Host) (n : Nat) (f : Closure) (paren : Token)
    (values : List Value) : invoke host (n + 1) f paren values = (do
      if maxDepth ≤ (← look Machine.depth) then fault paren .stackOverflow
      else
        let completion ← body host n f values
        if f.isInitializer then
          look fun m => (m.store.frames.get? f.scope thisName).getD .nil
        else if completion = some .returnCall then takeReturned
        else return .nil) := by
  rw [invoke]
  rfl

theorem Stmt.allLegal_append {ss ss' : List Stmt} :
    Stmt.AllLegal c (ss ++ ss') ↔ Stmt.AllLegal c ss ∧ Stmt.AllLegal c ss' := by
  induction ss with
  | nil => exact (and_iff_right trivial).symm
  | cons s ss ih =>
    rw [List.cons_append, Stmt.AllLegal, Stmt.AllLegal, ih, and_assoc]

/-- **No jump escapes.** Whatever a session has run before, a statement of a program that is
executed ends without a jump or with an error; and at every moment of its execution, a body that is
run for a call ends without a jump, with a `return`, or with an error. -/
theorem no_jump_escapes {host : Host} {output : Channel} {s : Session} {source : String}
    {stmt : Stmt} {m : Machine} (hs : Session.Reaches host (.initial output) s)
    (hexec : s.Executes host source stmt m) :
    (∀ n completion m', Run.execute host n stmt m = .done completion m' → completion = none) ∧
    ∀ f paren values m', Moment.Within host ⟨.execute stmt, m⟩ ⟨.invoke f paren values, m'⟩ →
      ∀ n completion m'', Run.body host n f values m' = .done completion m'' →
        completion = none ∨ completion = some .returnCall := by
  have hkept := Invariant.jumps_kept host
  obtain ⟨hr, front, rest, k, hprogram, hfront⟩ := hexec
  have hlegal := Session.legal_program hr
  rw [hprogram, Stmt.allLegal_append] at hlegal
  have hstmt : Invariant.jumps.starts (.execute stmt) := ⟨_, hlegal.2.1⟩
  have hm : m.Carries Routine.Sealed := by
    -- The statements in front ran on the machine of the session, and they are legal as well.
    have hends := Run.keeps_interpret host k hlegal.1 s.machine hs.carries_sealed
    rw [hfront] at hends
    exact hends.2
  constructor
  · intro n completion m' hdone
    have hends := hkept.run n hstmt m hm
    rw [Task.run, hdone] at hends
    have hadmits : Context.outermost.Admits completion := hends.1 _ hlegal.2.1
    rcases completion with _ | _ | _ | _
    · rfl
    -- Outside of all functions and loops no jump is admitted.
    all_goals exact absurd hadmits Bool.false_ne_true
  · intro f paren values m' hwithin n completion m'' hdone
    obtain ⟨⟨hf, hvs⟩, hm'⟩ := hkept.moment hwithin hstmt hm
    have hends := hkept.follow n (Plan.seals_body hf hvs) m' hm'
    have hbody : (Plan.body f values).follow (Task.run host n) = Run.body host n f values := rfl
    rw [hbody, hdone] at hends
    exact hends.1

/-- A function with a `break` in a loop and a `return` in another one, which is called in a later
run. -/
theorem no_jump_escapes_later_call :
    ∃ s stmt m, Session.Reaches (.ofSeed 0 0) (.initial (.ofLimit none)) s ∧
      s.Executes (.ofSeed 0 0) "f();" stmt m ∧
      ∃ n m', Run.execute (.ofSeed 0 0) n stmt m = .done none m' := by
  have hruns : ((Session.run (.ofSeed 0 0) 30
      "fun f() \x7b while (true) break; for (;;) return 1; \x7d" (.initial (.ofLimit none))).map
        fun ran => (Session.program "f();").map fun stmt =>
          (Run.execute (.ofSeed 0 0) 30 stmt ran.2.machine).done?.isSome) = some [true] := by
    decide +kernel
  obtain ⟨⟨reported, s⟩, hrun, hexec⟩ := Option.map_eq_some_iff.mp hruns
  obtain ⟨stmt, hprogram, hdone⟩ := List.map_eq_singleton_iff.mp hexec
  have hs : Session.Reaches (.ofSeed 0 0) (.initial (.ofLimit none)) s :=
    .single ⟨30, _, reported, hrun⟩
  have hexec : s.Executes (.ofSeed 0 0) "f();" stmt s.machine :=
    ⟨by decide +kernel, [], [], 0, hprogram, rfl⟩
  refine ⟨s, stmt, s.machine, hs, hexec, 30, ?_⟩
  obtain ⟨⟨completion, m'⟩, hended⟩ := Option.isSome_iff_exists.mp hdone
  have hend : Run.execute (.ofSeed 0 0) 30 stmt s.machine = .done completion m' :=
    Outcome.done?_eq_some.mp hended
  obtain rfl := (no_jump_escapes hs hexec).1 30 completion m' hend
  exact ⟨m', hend⟩

end Lox
