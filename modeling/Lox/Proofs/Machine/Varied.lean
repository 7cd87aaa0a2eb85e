import Lox.Proofs.Machine.Depth
import Lox.Proofs.Machine.Simulate

/-!
# Runs of programs that vary

Tasks that vary as one of the revisions says, on machines that match, come to the same end
(`Task.sim_run`): each of their plans takes the same steps and starts tasks that vary again. The one
exception is the body of a function that stands in a block of its own; it is run in a frame more,
and under a bound that is greater by two, so the bounds of the two runs may have to be different
(`Slack.Allows`).

A statement that declares something must be executed in frames of which the second is the oldest
that stands for the first; other statements may be executed in idle frames too.
-/

namespace Lox

/-- A statement that declares nothing in the scope where it is executed. -/
def Stmt.DeclaresNothing : Stmt → Prop
  | .declare _ _ | .function _ | .classDef _ _ _ => False
  | .branch _ whenTrue none => whenTrue.DeclaresNothing
  | .branch _ whenTrue (some whenFalse) => whenTrue.DeclaresNothing ∧ whenFalse.DeclaresNothing
  | .whileLoop _ body => body.DeclaresNothing
  | _ => True

variable {N : Naming} {cs : List Revision} {S : Slack} {w w₁ : World N} {a a' : Scopes}
  {f f' : FrameId}

/-! ### Tasks -/

/-- A statement may be executed in a frame and in one that stands for it. -/
def Stmt.FitsIn (w : World N) (f f' : FrameId) (s : Stmt) : Prop :=
  w.Main f f' ∨ s.DeclaresNothing

/-- Tasks that vary as a revision says, for machines in the scopes `a` and `a'`. -/
inductive Task.Revised (cs : List Revision) (w : World N) (a a' : Scopes) : Task → Task → Prop where
  | evaluate {c : Revision} (hc : c ∈ cs) {e e' : Expr} (h : e.Has c.code)
      (he : e.Varies c.change e') : Revised cs w a a' (.evaluate e) (.evaluate e')
  | evaluateAll {c : Revision} (hc : c ∈ cs) {es es' : List Expr} (h : Expr.AllHave c.code es)
      (hes : List.Forall₂ (Expr.Varies c.change) es es') :
    Revised cs w a a' (.evaluateAll es) (.evaluateAll es')
  | call {target target' : Value} (htarget : target.Match cs w target') {paren paren' : Token}
      (hparen : paren.Revised cs paren') {values values' : List Value}
      (hvalues : List.Forall₂ (Value.Match cs w) values values') :
    Revised cs w a a' (.call target paren values) (.call target' paren' values')
  | invoke {f f' : Closure} (hf : f.Match cs w f') {paren paren' : Token}
      (hparen : paren.Revised cs paren') {values values' : List Value}
      (hvalues : List.Forall₂ (Value.Match cs w) values values') :
    Revised cs w a a' (.invoke f paren values) (.invoke f' paren' values')
  | execute {c : Revision} (hc : c ∈ cs) {s s' : Stmt} (h : s.Has c.code)
      (hs : s.Varies c.change s') (hplace : s.FitsIn w a.scope a'.scope) :
    Revised cs w a a' (.execute s) (.execute s')
  | executeAll {c : Revision} (hc : c ∈ cs) {ss ss' : List Stmt} (h : Stmt.AllHave c.code ss)
      (hss : List.Forall₂ (Stmt.Varies c.change) ss ss') (hplace : w.Main a.scope a'.scope) :
    Revised cs w a a' (.executeAll ss) (.executeAll ss')
  | loop {c : Revision} (hc : c ∈ cs) {condition condition' step step' : Option Expr}
      {body body' : Stmt} (h : (Task.loop condition step body).Has c.code)
      (hcondition : Option.Rel (Expr.Varies c.change) condition condition')
      (hstep : Option.Rel (Expr.Varies c.change) step step') (hbody : body.Varies c.change body')
      (hplace : body.FitsIn w a.scope a'.scope) :
    Revised cs w a a' (.loop condition step body) (.loop condition' step' body')
  | boxed {c : Revision} (hc : c ∈ cs) (hV : c.change.boxed) {t t' : Token}
      (ht : c.change.token t t') {e e' : Expr} (h : e.Has c.code) (he : e.Varies c.change e') :
    Revised cs w a a' (.execute (.jump t (some e))) (.execute (.block [.jump t' (some e')]))

/-- Results of tasks that match. -/
def Task.ResultsMatch (cs : List Revision) (t t' : Task) (w : World N) :
    t.Result → t'.Result → Prop :=
  match t, t' with
  | evaluate _, evaluate _ => fun v v' => Value.Match cs w v v'
  | evaluateAll _, evaluateAll _ => fun vs vs' => List.Forall₂ (Value.Match cs w) vs vs'
  | call .., call .. => fun v v' => Value.Match cs w v v'
  | invoke .., invoke .. => fun v v' => Value.Match cs w v v'
  | execute _, execute _ => fun completion completion' => completion = completion'
  | executeAll _, executeAll _ => fun completion completion' => completion = completion'
  | loop .., loop .. => fun completion completion' => completion = completion'
  | _, _ => fun _ _ => False

/-- Tasks that vary are answered alike, where frames are numbered as `N` says. -/
def Answers (N : Naming) (cs : List Revision) (S : Slack)
    (answer answer' : (t : Task) → Run t.Result) : Prop :=
  ∀ (w : World N) a a' t t', t.Revised cs w a a' t' →
    Run.Sim cs S w a a' (t.ResultsMatch cs t') (answer t) (answer' t')

/-! ### Plans -/

namespace Plan

variable {α α' β β' : Type} {R : World N → α → α' → Prop} {T : World N → β → β' → Prop}

/-- Two plans that are followed alike if tasks that vary are answered alike. -/
def Sim (cs : List Revision) (S : Slack) (w : World N) (a a' : Scopes) (R : World N → α → α' → Prop)
    (p : Plan α) (p' : Plan α') : Prop :=
  ∀ answer answer', Answers N cs S answer answer' →
    Run.Sim cs S w a a' R (p.follow answer) (p'.follow answer')

theorem sim_act {r : Run α} {r' : Run α'} (h : Run.Sim cs S w a a' R r r') :
    Sim cs S w a a' R (.act r) (.act r') :=
  fun _ _ _ => h

theorem sim_return {value : α} {value' : α'} (h : R w value value') :
    Sim cs S w a a' R (pure value) (pure value') :=
  sim_act (Run.sim_pure h)

theorem sim_part {t t' : Task} (h : t.Revised cs w a a' t') :
    Sim cs S w a a' (t.ResultsMatch cs t') (.part t) (.part t') :=
  fun _ _ hanswer => hanswer _ _ _ _ _ h

theorem Sim.andThen {p : Plan α} {p' : Plan α'} {next : α → Plan β} {next' : α' → Plan β'}
    (hp : Sim cs S w a a' R p p')
    (hnext : ∀ w₁, w ≤ w₁ → ∀ value value', R w₁ value value' →
      Sim cs S w₁ a a' T (next value) (next' value')) :
    Sim cs S w a a' T (p >>= next) (p' >>= next') :=
  fun answer answer' hanswer => (hp answer answer' hanswer).bind fun w₁ hw value value' hvalue =>
    hnext w₁ hw value value' hvalue answer answer' hanswer

theorem Sim.inFrame {p : Plan α} {p' : Plan α'}
    (h : ∀ w₁ f f', w ≤ w₁ → w₁.Main f f' → Sim cs S w₁ (a.inside f) (a'.inside f') R p p') :
    Sim cs S w a a' R (.inFrame p) (.inFrame p') :=
  fun answer answer' hanswer => Run.Sim.inFrame fun w₁ f f' hw hf =>
    h w₁ f f' hw hf answer answer' hanswer

theorem Sim.inCall {p : Plan α} {p' : Plan α'} (hf : w.Stands f f')
    (h : Sim cs S w (a.called f) (a'.called f') R p p') :
    Sim cs S w a a' R (.inCall f p) (.inCall f' p') :=
  fun answer answer' hanswer => Run.Sim.inCall hf (h answer answer' hanswer)

theorem sim_fault {t t' : Token} (ht : t.Revised cs t') (cause : RuntimeFault) :
    Sim cs S w a a' R (fault t cause) (fault t' cause) :=
  sim_act (Run.sim_fault ht cause)

section

variable {c : Revision} (hc : c ∈ cs)
include hc

theorem sim_evaluate {e e' : Expr} (h : e.Has c.code) (he : e.Varies c.change e') :
    Sim cs S w a a' (Value.Match cs) (evaluate e) (evaluate e') :=
  sim_part (Task.Revised.evaluate hc h he)

theorem sim_evaluateAll {es es' : List Expr} (h : Expr.AllHave c.code es)
    (hes : List.Forall₂ (Expr.Varies c.change) es es') :
    Sim cs S w a a' (fun w₁ => List.Forall₂ (Value.Match cs w₁)) (evaluateAll es)
      (evaluateAll es') :=
  sim_part (Task.Revised.evaluateAll hc h hes)

theorem sim_execute {s s' : Stmt} (h : s.Has c.code) (hs : s.Varies c.change s')
    (hplace : s.FitsIn w a.scope a'.scope) :
    Sim cs S w a a' Run.Same (execute s) (execute s') :=
  sim_part (Task.Revised.execute hc h hs hplace)

theorem sim_executeAll {ss ss' : List Stmt} (h : Stmt.AllHave c.code ss)
    (hss : List.Forall₂ (Stmt.Varies c.change) ss ss') (hplace : w.Main a.scope a'.scope) :
    Sim cs S w a a' Run.Same (part (.executeAll ss)) (part (.executeAll ss')) :=
  sim_part (Task.Revised.executeAll hc h hss hplace)

theorem sim_loop {condition condition' step step' : Option Expr} {body body' : Stmt}
    (h : (Task.loop condition step body).Has c.code)
    (hcondition : Option.Rel (Expr.Varies c.change) condition condition')
    (hstep : Option.Rel (Expr.Varies c.change) step step') (hbody : body.Varies c.change body')
    (hplace : body.FitsIn w a.scope a'.scope) :
    Sim cs S w a a' Run.Same (loop condition step body) (loop condition' step' body') :=
  sim_part (Task.Revised.loop hc h hcondition hstep hbody hplace)

/-! ### The plans of the tasks -/

theorem sim_ofExpr {e e' : Expr} (h : e.Has c.code) (he : e.Varies c.change e') :
    Sim cs S w a a' (Value.Match cs) (ofExpr e) (ofExpr e') := by
  have htoken {t t' : Token} (h : c.code.token t) (ht : c.change.token t t') : t.Revised cs t' :=
    ⟨c, hc, h, ht⟩
  cases he with
  | literal value => exact sim_return (.ofLiteral value)
  | name ht => exact sim_act (Run.sim_lookUp (htoken h ht))
  | assign ht he =>
    obtain ⟨⟨hname, -⟩, h⟩ := h
    have hlexeme := c.change.lexeme ht
    refine (sim_act (Run.sim_has hlexeme)).andThen fun w₁ _ found found' hfound => ?_
    subst hfound
    cases found
    · rw [hlexeme]
      exact sim_fault (htoken hname ht) _
    · exact (sim_evaluate hc h he).andThen fun w₂ _ v v' hv =>
        (sim_act (Run.sim_assign hlexeme hv)).andThen fun w₃ hw _ _ _ => sim_return (hv.mono hw)
  | get he ht =>
    exact (sim_evaluate hc h.1 he).andThen fun w₁ _ v v' hv =>
      sim_act (Run.sim_member hv (htoken h.2 ht))
  | set he ht hvalue =>
    obtain ⟨htarget, hname, h⟩ := h
    refine (sim_evaluate hc htarget he).andThen fun w₁ _ target target' htarget => ?_
    cases htarget with
    | object id =>
      refine (sim_evaluate hc h hvalue).andThen fun w₂ _ v v' hv => ?_
      rw [c.change.lexeme ht]
      exact (sim_act (Run.sim_change fun _ _ hs => hs.setField id _ hv)).andThen
        fun w₃ hw _ _ _ => sim_return (hv.mono hw)
    | _ => exact sim_fault (htoken hname ht) _
  | conditional he htrue hfalse =>
    refine (sim_evaluate hc h.1 he).andThen fun w₁ _ v v' hv => ?_
    rw [hv.isTruthy]
    split
    · exact sim_evaluate hc h.2.1 htrue
    · exact sim_evaluate hc h.2.2 hfalse
  | logical hleft ht hright =>
    refine (sim_evaluate hc h.1 hleft).andThen fun w₁ _ v v' hv => ?_
    rw [hv.isTruthy, Variation.is ht]
    split
    · exact sim_return hv
    · exact sim_evaluate hc h.2 hright
  | binary hleft ht hright =>
    exact (sim_evaluate hc h.1 hleft).andThen fun w₁ _ v v' hv =>
      (sim_evaluate hc h.2.2 hright).andThen fun w₂ hw u u' hu =>
        sim_act (Run.sim_binary (htoken h.2.1 ht) (hv.mono hw) hu)
  | unary ht hright =>
    exact (sim_evaluate hc h.2 hright).andThen fun w₁ _ v v' hv =>
      sim_act (Run.sim_unary (htoken h.1 ht) hv)
  | call hcallee ht harguments =>
    exact (sim_evaluate hc h.1 hcallee).andThen fun w₁ _ v v' hv =>
      (sim_evaluateAll hc h.2.2 harguments).andThen fun w₂ hw vs vs' hvs =>
        sim_part (Task.Revised.call (hv.mono hw) (htoken h.2.1 ht) hvs)
  | lambda hr =>
    exact (sim_act (Run.sim_makeClosure ⟨c, hc, h, hr⟩ false)).andThen fun _ _ _ _ hf =>
      sim_return (.function hf)

theorem sim_ofExprs {es es' : List Expr} (h : Expr.AllHave c.code es)
    (hes : List.Forall₂ (Expr.Varies c.change) es es') :
    Sim cs S w a a' (fun w₁ => List.Forall₂ (Value.Match cs w₁)) (ofExprs es) (ofExprs es') := by
  cases hes with
  | nil => exact sim_return .nil
  | cons he hes =>
    exact (sim_evaluate hc h.1 he).andThen fun w₁ _ v v' hv =>
      (sim_evaluateAll hc h.2 hes).andThen fun w₂ hw vs vs' hvs =>
        sim_return (.cons (hv.mono hw) hvs)

/-- The bodies of routines that vary are tasks that vary, in frames of their own. -/
theorem revised_body {r r' : Routine} (h : r.Has c.code) (hr : r.Varies c.change r')
    (hplace : w.Main a.scope a'.scope) :
    (Task.execute r.body).Revised cs w a a' (.execute r'.body) := by
  cases hr with
  | mk hps hbody => exact .execute hc h.body hbody (.inl hplace)
  | boxed hV hps ht he => exact .boxed hc hV ht h.body he

/-- Definitions of a trait that vary are revised. -/
theorem revised_definitions {ds ds' : List Definition} (h : Definition.AllHave c.code ds)
    (hds : List.Forall₂ (Definition.Varies c.change) ds ds') :
    List.Forall₂ (Definition.Revised cs) ds ds' := by
  induction hds with
  | nil => exact .nil
  | cons hd _ ih =>
    exact .cons ⟨c.change.lexeme hd.name, c, hc, h.1.routine, hd.routine⟩ (ih h.2)

theorem sim_ofStmt {s s' : Stmt} (h : s.Has c.code) (hs : s.Varies c.change s')
    (hplace : s.FitsIn w a.scope a'.scope) :
    Sim cs S w a a' Run.Same (ofStmt s) (ofStmt s') := by
  cases hs with
  | block hbody => exact Sim.inFrame fun _ _ _ _ hf => sim_executeAll hc h hbody hf
  | declare ht hinitial =>
    have hmain : w.Main a.scope a'.scope := hplace.resolve_right id
    have hlexeme := c.change.lexeme ht
    cases hinitial with
    | none =>
      exact (sim_act (Run.sim_define hmain hlexeme .nil)).andThen fun _ _ _ _ _ => sim_return rfl
    | some he =>
      exact (sim_evaluate hc h.2 he).andThen fun _ hw _ _ hv =>
        (sim_act (Run.sim_define (hmain.mono hw) hlexeme hv)).andThen
          fun _ _ _ _ _ => sim_return rfl
  | function hd =>
    have hmain : w.Main a.scope a'.scope := hplace.resolve_right id
    have hroutine := h.2.routine
    exact (sim_act (Run.sim_makeClosure ⟨c, hc, hroutine, hd.routine⟩ false)).andThen
      fun _ hw _ _ hf =>
        (sim_act (Run.sim_define (hmain.mono hw) (c.change.lexeme hd.name) (.function hf))).andThen
          fun _ _ _ _ _ => sim_return rfl
  | classDef ht hmethods hclassMethods =>
    have hmain : w.Main a.scope a'.scope := hplace.resolve_right id
    have hlexeme := c.change.lexeme ht
    have hmethods := revised_definitions hc h.2.1 hmethods
    have hclassMethods := revised_definitions hc h.2.2 hclassMethods
    refine (sim_act (Run.sim_makeMethods hmethods)).andThen fun w₁ hw₁ ms ms' hms => ?_
    refine (sim_act (Run.sim_makeMethods hclassMethods)).andThen fun w₂ hw₂ ks ks' hks => ?_
    have hms₂ := hms.imp fun _ _ hf => hf.mono hw₂
    refine (sim_act (Run.sim_makeClass hlexeme hms₂ hks)).andThen fun w₃ hw₃ k k' hk => ?_
    have hmain₃ := hmain.mono ((hw₁.trans hw₂).trans hw₃)
    exact (sim_act (Run.sim_define hmain₃ hlexeme (.klass hk))).andThen
      fun _ _ _ _ _ => sim_return rfl
  | expression he => exact (sim_evaluate hc h he).andThen fun _ _ _ _ _ => sim_return rfl
  | print he =>
    refine (sim_evaluate hc h he).andThen fun w₁ _ v v' hv => ?_
    refine (sim_act (Run.sim_display hv)).andThen fun w₂ _ text text' h => ?_
    subst h
    exact (sim_act (Run.sim_printLine text)).andThen fun _ _ _ _ _ => sim_return rfl
  | branch he htrue hfalse =>
    refine (sim_evaluate hc h.1 he).andThen fun w₁ hw v v' hv => ?_
    rw [hv.isTruthy]
    cases hfalse with
    | none =>
      split
      · exact sim_execute hc h.2.1 htrue (hplace.imp_left fun hmain => hmain.mono hw)
      · exact sim_return rfl
    | some hfalse =>
      split
      · exact sim_execute hc h.2.1 htrue (hplace.imp (fun hmain => hmain.mono hw) And.left)
      · exact sim_execute hc h.2.2 hfalse (hplace.imp (fun hmain => hmain.mono hw) And.right)
  | whileLoop he hbody =>
    exact sim_loop hc ⟨h.1, h.2.1, trivial, h.2.2⟩ (.some he) .none hbody hplace
  | forLoop hinitial hcondition hstep hbody =>
    obtain ⟨hloops, hfirst, hrest⟩ := h
    refine Sim.inFrame fun w₁ f f' _ hf => ?_
    cases hinitial with
    | none => exact sim_loop hc ⟨hloops, hrest⟩ hcondition hstep hbody (.inl hf)
    | some hs =>
      exact (sim_execute hc hfirst hs (.inl hf)).andThen fun w₂ hw _ _ _ =>
        sim_loop hc ⟨hloops, hrest⟩ hcondition hstep hbody (.inl (hf.mono hw))
  | @jump t t' value value' ht hvalue =>
    have hkeyword : Jump.ofKeyword t' = Jump.ofKeyword t := by
      unfold Jump.ofKeyword
      rw [c.change.kind ht]
    cases hvalue with
    | none =>
      exact (sim_act (Run.sim_setReturned .nil)).andThen fun _ _ _ _ _ =>
        sim_return (congrArg some hkeyword.symm)
    | some he =>
      exact (sim_evaluate hc h he).andThen fun _ _ _ _ hv =>
        (sim_act (Run.sim_setReturned hv)).andThen fun _ _ _ _ _ =>
          sim_return (congrArg some hkeyword.symm)
  | empty => exact sim_return rfl

theorem sim_ofStmts {ss ss' : List Stmt} (h : Stmt.AllHave c.code ss)
    (hss : List.Forall₂ (Stmt.Varies c.change) ss ss') (hplace : w.Main a.scope a'.scope) :
    Sim cs S w a a' Run.Same (ofStmts ss) (ofStmts ss') := by
  cases hss with
  | nil => exact sim_return rfl
  | cons hs hss =>
    refine (sim_execute hc h.1 hs (.inl hplace)).andThen fun w₁ hw completion completion' heq => ?_
    subst heq
    cases completion with
    | none => exact sim_executeAll hc h.2 hss (hplace.mono hw)
    | some jump => exact sim_return rfl

section

variable {condition condition' step step' : Option Expr} {body body' : Stmt}
  (h : (Task.loop condition step body).Has c.code)
  (hcondition : Option.Rel (Expr.Varies c.change) condition condition')
  (hstep : Option.Rel (Expr.Varies c.change) step step') (hbody : body.Varies c.change body')
include h hcondition hstep hbody

theorem sim_ofRound (hplace : body.FitsIn w a.scope a'.scope) :
    Sim cs S w a a' Run.Same (ofRound condition step body) (ofRound condition' step' body') := by
  have hagain {w₁ : World N} (hw : w ≤ w₁) : Sim cs S w₁ a a' Run.Same (loop condition step body)
      (loop condition' step' body') :=
    sim_loop hc h hcondition hstep hbody (hplace.imp_left fun hmain => hmain.mono hw)
  obtain ⟨-, -, h, hthis⟩ := h
  refine (sim_execute hc hthis hbody hplace).andThen fun w₁ hw completion completion' heq => ?_
  subst heq
  rcases completion with _ | _ | _ | _
  case some.breakLoop => exact sim_return rfl
  case some.returnCall => exact sim_return rfl
  -- After the body, or a `continue` in it, the loop goes on with its step.
  all_goals
    cases hstep with
    | none => exact hagain hw
    | some he => exact (sim_evaluate hc h he).andThen fun w₂ hw₂ _ _ _ => hagain (hw.trans hw₂)

theorem sim_ofLoop (hplace : body.FitsIn w a.scope a'.scope) :
    Sim cs S w a a' Run.Same (ofLoop condition step body) (ofLoop condition' step' body') := by
  have hround {w₁ : World N} (hw : w ≤ w₁) : Sim cs S w₁ a a' Run.Same
      (ofRound condition step body) (ofRound condition' step' body') :=
    sim_ofRound hc h hcondition hstep hbody (hplace.imp_left fun hmain => hmain.mono hw)
  cases hcondition with
  | none => exact hround le_rfl
  | some he =>
    refine (sim_evaluate hc h.2.1 he).andThen fun w₁ hw v v' hv => ?_
    rw [hv.isTruthy]
    split
    · exact hround hw
    · exact sim_return rfl

end

end

theorem sim_ofCall (host : Host) {target target' : Value} (htarget : target.Match cs w target')
    {paren paren' : Token} (hparen : paren.Revised cs paren') {values values' : List Value}
    (hvalues : List.Forall₂ (Value.Match cs w) values values') :
    Sim cs S w a a' (Value.Match cs) (ofCall host target paren values)
      (ofCall host target' paren' values') := by
  have hlength : values'.length = values.length := hvalues.length_eq.symm
  cases htarget with
  | builtin b => exact sim_act (Run.sim_reading host b)
  | @function f f' hf =>
    unfold ofCall
    dsimp only
    rw [hlength, hf.arity]
    split
    · exact sim_part (Task.Revised.invoke hf hparen hvalues)
    · exact sim_fault hparen _
  | @klass k k' hk =>
    refine (sim_act (Run.sim_makeObject hk)).andThen fun w₁ hw id id' hid => ?_
    subst hid
    obtain ⟨hg, hg'⟩ | ⟨f, f', hg, hg', hf⟩ :=
      eq_none_or_exists_of_rel ((hk.mono hw).methods.get? Run.initializerName) <;> rw [hg, hg']
    · exact sim_return (.object id)
    · dsimp only
      rw [hlength, hf.arity]
      split
      · exact (sim_act (Run.sim_bindMethod hf (.object id))).andThen fun w₂ hw₂ b b' hb =>
          (sim_part (Task.Revised.invoke hb hparen (forall₂_mono hvalues (hw.trans hw₂)))).andThen
            fun _ _ _ _ _ => sim_return (.object id)
      · exact sim_fault hparen _
  | _ => exact sim_fault hparen _

/-- The bodies of functions that match, with the parameters defined in front. -/
theorem sim_body {f f' : Closure} (hf : f.Match cs w f') {values values' : List Value}
    (hvalues : List.Forall₂ (Value.Match cs w) values values') :
    Sim cs S w a a' Run.Same
      (inFrame (do
        Run.defineAll f.routine.parameters values
        execute f.routine.body))
      (inFrame (do
        Run.defineAll f'.routine.parameters values'
        execute f'.routine.body)) := by
  obtain ⟨c, hc, h, hr⟩ := hf.routine
  exact Sim.inFrame fun _ _ _ hw hg =>
    (sim_act (Run.sim_defineAll hg hr.parameters (forall₂_mono hvalues hw))).andThen
      fun _ hw₂ _ _ _ => sim_part (revised_body hc h hr (hg.mono hw₂))

theorem sim_ofInvoke {f f' : Closure} (hf : f.Match cs w f') {paren paren' : Token}
    (hparen : paren.Revised cs paren') {values values' : List Value}
    (hvalues : List.Forall₂ (Value.Match cs w) values values') :
    Sim cs S w a a' (Value.Match cs) (ofInvoke f paren values) (ofInvoke f' paren' values') := by
  have hdepth : Run.Sim cs S w a a' Run.Same (Run.look Machine.depth) (Run.look Machine.depth) :=
    Run.sim_look fun _ _ hm => hm.depth.symm
  unfold ofInvoke
  rw [hf.isInitializer]
  refine (sim_act hdepth).andThen fun w₁ hw depth depth' h => ?_
  subst h
  split
  · exact sim_fault hparen _
  · have hscope : w₁.Stands f.scope f'.scope := hf.scope.mono hw
    refine (Sim.inCall hscope (sim_body (hf.mono hw) (forall₂_mono hvalues hw))).andThen
      fun w₂ hw₂ completion completion' h => ?_
    subst h
    split
    · refine sim_act (Run.sim_look fun m m' hm => ?_)
      obtain ⟨hg, hg'⟩ | ⟨v, v', hg, hg', hv⟩ := eq_none_or_exists_of_rel
        (hm.store.frames.get? Run.thisName (hf.scope.mono (hw.trans hw₂))) <;> rw [hg, hg']
      · exact .nil
      · exact hv
    · split
      · exact sim_act Run.sim_takeReturned
      · exact sim_return .nil

end Plan

/-! ### A statement in a block of its own -/

section

variable (host : Host) (k : Nat) (s : Stmt)

theorem Task.run_executeAll_singleton :
    Task.run host (k + 2) (.executeAll [s]) = Task.run host (k + 1) (.execute s) := by
  have hnil : Task.run host (k + 1) (.executeAll []) = (pure none : Run Completion) := by
    rw [run_succ]
    rfl
  have hbind : Task.run host (k + 2) (.executeAll [s]) =
      Run.bind (Task.run host (k + 1) (.execute s)) Run.pure := by
    rw [run_succ]
    refine Run.bind_congr fun completion => ?_
    cases completion with
    | none => exact hnil
    | some jump => rfl
  rw [hbind]
  funext m
  unfold Run.bind
  cases Task.run host (k + 1) (.execute s) m <;> rfl

/-- A block that holds one statement is a new frame in which the statement is executed, under a
bound that is lower by two. -/
theorem Task.run_block_singleton :
    Task.run host (k + 3) (.execute (.block [s])) =
      Run.inFrame (Task.run host (k + 1) (.execute s)) := by
  rw [run_succ, ← run_executeAll_singleton host k s]
  rfl

/-- Such a block does not end under a bound below three. -/
theorem Task.run_block_singleton_of_lt (hk : k < 3) (m : Machine) :
    Task.run host k (.execute (.block [s])) m = .unfinished := by
  have htwo : Task.run host 2 (.execute (.block [s])) m = .unfinished := by
    rw [run_succ]
    show Run.inFrame (Task.run host 1 (.executeAll [s])) m = .unfinished
    rw [run_succ, Run.inFrame_eq]
    show Outcome.onMachine _ (Run.bind (Task.run host 0 (.execute s)) _ m.enterFrame) = _
    rw [run_zero]
    rfl
  by_contra hfinished
  have heq := run_eq_of_le (Nat.le_of_lt_succ hk) (.execute (.block [s])) m hfinished
  exact hfinished (heq.symm.trans htwo)

end

/-! ### All tasks -/

/-- Bounds under which tasks that vary come to the same end: a run may have the lower bound only if
it may reach its bound alone, and a block of its own takes three levels for one. Its frame is an
idle one, so there may be such blocks only where frames may be renamed. -/
structure Slack.Allows (S : Slack) (N : Naming) (cs : List Revision) (n k : Nat) : Prop where
  /-- The bound of the first run is not lower. -/
  first : S.first ∨ k ≤ n
  /-- The bound of the second run is not lower. -/
  second : S.second ∨ 3 * n ≤ k ∨ ¬ Revision.Boxes cs ∧ n ≤ k
  /-- Frames may be renamed where bodies may stand in blocks. -/
  renamed : Revision.Boxes cs → N = .renamed

variable {host : Host} {n k : Nat}

theorem sim_boxed
    (ih : ∀ k, S.Allows N cs n k → Answers N cs S (Task.run host n) (Task.run host k))
    (h : S.Allows N cs (n + 1) k) {c : Revision} (hc : c ∈ cs) (hV : c.change.boxed) {t t' : Token}
    (ht : c.change.token t t') {e e' : Expr} (hhas : e.Has c.code) (he : e.Varies c.change e') :
    Run.Sim cs S w a a' Run.Same (Task.run host (n + 1) (.execute (.jump t (some e))))
      (Task.run host k (.execute (.block [.jump t' (some e')]))) := by
  have hboxes : Revision.Boxes cs := ⟨c, hc, hV⟩
  have hsecond : S.second ∨ 3 * (n + 1) ≤ k := h.second.imp_right fun h =>
    h.resolve_right fun hbox => hbox.1 hboxes
  obtain rfl := h.renamed hboxes
  rcases Nat.lt_or_ge k 3 with hlt | hge
  -- The second run does not even get to the `return`.
  · intro m m' hm
    rw [Task.run_block_singleton_of_lt host k _ hlt]
    exact .second (hsecond.resolve_right (by omega)) _
  · obtain ⟨k, rfl⟩ := Nat.exists_eq_add_of_le' hge
    have hallows : S.Allows .renamed cs n k :=
      ⟨h.first.imp_right (by omega), hsecond.imp_right fun hle => .inl (by omega), h.renamed⟩
    have hhas : Stmt.Has c.code (.jump t (some e)) := hhas
    have hjump : Stmt.Varies c.change (.jump t (some e)) (.jump t' (some e')) := .jump ht (.some he)
    rw [Task.run_block_singleton, Task.run_succ, Task.run_succ]
    exact .inFrameIdle fun w₁ f' _ _ =>
      Plan.sim_ofStmt hc hhas hjump (.inr trivial) _ _ (ih k hallows)

/-- Tasks that vary have plans that are followed alike, unless a `return` stands in a block of its
own. -/
theorem Task.Revised.sim_plan (host : Host) {t t' : Task} (ht : t.Revised cs w a a' t') :
    Plan.Sim cs S w a a' (t.ResultsMatch cs t') (t.plan host) (t'.plan host) ∨
      ∃ c ∈ cs, ∃ keyword keyword' e e', c.change.boxed ∧ c.change.token keyword keyword' ∧
        Expr.Has c.code e ∧ Expr.Varies c.change e e' ∧ t = .execute (.jump keyword (some e)) ∧
        t' = .execute (.block [.jump keyword' (some e')]) := by
  cases ht with
  | evaluate hc h he => exact .inl (Plan.sim_ofExpr hc h he)
  | evaluateAll hc h hes => exact .inl (Plan.sim_ofExprs hc h hes)
  | call htarget hparen hvalues => exact .inl (Plan.sim_ofCall host htarget hparen hvalues)
  | invoke hf hparen hvalues => exact .inl (Plan.sim_ofInvoke hf hparen hvalues)
  | execute hc h hs hplace => exact .inl (Plan.sim_ofStmt hc h hs hplace)
  | executeAll hc h hss hplace => exact .inl (Plan.sim_ofStmts hc h hss hplace)
  | loop hc h hcondition hstep hbody hplace =>
    exact .inl (Plan.sim_ofLoop hc h hcondition hstep hbody hplace)
  | boxed hc hV hkeyword h he => exact .inr ⟨_, hc, _, _, _, _, hV, hkeyword, h, he, rfl, rfl⟩

/-- **Tasks that vary come to the same end**, from machines that match. -/
theorem Task.sim_run (host : Host) (h : S.Allows N cs n k) :
    Answers N cs S (Task.run host n) (Task.run host k) := by
  -- The tasks that the plans start are run under lower bounds.
  induction n generalizing k with
  | zero =>
    intro w a a' t t' _ m m' _
    rw [run_zero]
    rcases h.first with hfirst | hle
    · exact .first hfirst _
    · obtain rfl := Nat.le_zero.mp hle
      rw [run_zero]
      exact .unfinished
  | succ n ih =>
    intro w a a' t t' ht
    rcases ht.sim_plan host with hplan | ⟨c, hc, _, _, _, _, hV, hkeyword, hhas, he, rfl, rfl⟩
    · cases k with
      | zero =>
        intro m m' _
        rw [run_zero host t']
        exact .second (h.second.resolve_right (by omega)) _
      | succ k =>
        have hallows : S.Allows N cs n k := ⟨h.first.imp_right Nat.le_of_succ_le_succ,
          h.second.imp_right (.imp (by omega) (.imp_right Nat.le_of_succ_le_succ)), h.renamed⟩
        rw [run_succ, run_succ]
        exact hplan _ _ (ih hallows)
    · exact sim_boxed (fun _ => ih) h hc hV hkeyword hhas he

/-! ### Programs -/

theorem Run.sim_interpret (host : Host) (h : S.Allows N cs n k) {c : Revision} (hc : c ∈ cs)
    {ss ss' : List Stmt} (hhas : Stmt.AllHave c.code ss)
    (hss : List.Forall₂ (Stmt.Varies c.change) ss ss') (hmain : w.Main a.scope a'.scope) :
    Sim cs S w a a' Same (interpret host n ss) (interpret host k ss') := by
  induction hss generalizing w with
  | nil => exact sim_pure rfl
  | cons hs hss ih =>
    have hfirst := Task.sim_run host h w a a' _ _ (.execute hc hhas.1 hs (.inl hmain))
    exact hfirst.bind fun _ hw _ _ _ => ih hhas.2 (hmain.mono hw)

end Lox
