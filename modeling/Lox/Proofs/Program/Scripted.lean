import Lox.Proofs.Program.Script

/-!
# Reading by scripts

Every function of the reader replies with what comes of following its script (`Job.read_eq`). There
is one lemma for each common step of the scripts, and one for each function.
-/

namespace Lox

namespace Cursor

variable {s s' : Cursor} {t : Token} {h : s'.size < s.size}

theorem lastLine_of_next (hs : s.next = .token t s' h) : s'.lastLine = t.line := by
  rw [← skip_of_next hs, skip, rest_of_next hs]

theorem line_of_next (hs : s.next = .token t s' h) : s.line = t.line := by
  rw [line, rest_of_next hs]

theorem line_of_stop (hs : s.next = .stop) : s.line = s.endLine := by
  rw [line, rest_of_next_stop hs]

end Cursor

theorem Token.is_of_kind {t : Token} {x y : Symbol} (h : t.kind = .symbol y) :
    t.is x = decide (y = x) := by
  rw [Token.is, h]
  rfl

theorem Token.is_eq_false {t : Token} {x : Symbol} (h : t.kind = .symbol x → False) :
    t.is x = false :=
  Bool.eq_false_iff.2 fun ht => h (Token.is_iff.1 ht)

/-! ### Following the common steps -/

namespace Script

variable {α : Type} {c : Context} {s s' : Cursor}

theorem follow_part {j : Job} {rest : j.Result → Script α} :
    (part j rest).follow c s = (j.read c s).andThen fun value s' => (rest value).follow c s' := rfl

/-- A job at the end of a script. -/
theorem follow_last (j : Job) : (part j done).follow c s = j.read c s := by
  rw [follow_part]
  cases j.read c s with
  | read x s' reports => exact congrArg (Readout.read x s') (List.append_nil _)
  | broken e s' reports => rfl

section Next

variable {t : Token} {h : s'.size < s.size}

theorem follow_accept_of_next {x : Symbol} {found : Token → Script α} {absent : Script α}
    (hs : s.next = .token t s' h) : (accept x found absent).follow c s =
      if t.is x then (found t).follow c s' else absent.follow c s :=
  follow_take_of_next hs

theorem follow_accept_of_stop {x : Symbol} {found : Token → Script α} {absent : Script α}
    (hs : s.next = .stop) : (accept x found absent).follow c s = absent.follow c s :=
  follow_take_of_stop hs

end Next

theorem follow_accept {x : Symbol} {found : Token → Script α} {absent : Script α} :
    (accept x found absent).follow c s =
      match s.accept x with
      | .token t s' _ => (found t).follow c s'
      | .stop => absent.follow c s := by
  unfold Cursor.accept
  cases hs : s.next with
  | stop => exact follow_accept_of_stop hs
  | token t s' h =>
    rw [accept, follow_take_of_next hs]
    dsimp only
    split <;> rfl

theorem follow_expect {x : Symbol} {demand : Demand} {rest : Token → Script α} :
    (expect x demand rest).follow c s =
      (s.expect x demand).readout.andThen fun t s' => (rest t).follow c s' := by
  unfold expect Cursor.expect
  rw [follow_accept]
  cases s.accept x with
  | stop => rfl
  | token t s' h => exact (Readout.note_nil _).symm

theorem follow_expectName {demand : Demand} {rest : Token → Script α} :
    (expectName demand rest).follow c s =
      (s.expectName demand).readout.andThen fun t s' => (rest t).follow c s' := by
  unfold Cursor.expectName
  cases hs : s.next with
  | stop => exact follow_take_of_stop hs
  | token t s' h =>
    rw [expectName, follow_take_of_next hs]
    obtain ⟨kind, lexeme, line⟩ := t
    cases kind with
    | identifier => exact (Readout.note_nil _).symm
    | _ => rfl

end Script

/-! ### Reading by scripts -/

namespace Reading

open Script

variable {c : Context}

theorem readout_expression (l : Level) (s : Cursor) :
    (expression c l s).readout = (ofLevel l).follow c s := by
  cases l with
  | comma =>
    rw [expression]
    refine Reply.readout_andThen rfl fun left s₁ h₁ => ?_
    rw [follow_accept]
    cases s₁.accept .comma with
    | stop => rfl
    | token operator s₂ h₂ => exact Reply.readout_andThen rfl fun right s₃ h₃ => rfl
  | assignment =>
    rw [expression]
    refine Reply.readout_andThen rfl fun target s₁ h₁ => ?_
    rw [follow_accept]
    cases s₁.accept .equal with
    | stop => rfl
    | token equal s₂ h₂ =>
      refine Reply.readout_andThen rfl fun value s₃ h₃ => ?_
      dsimp only
      cases target.assigned? value <;> rfl
  | conditional =>
    rw [expression]
    refine Reply.readout_andThen rfl fun condition s₁ h₁ => ?_
    rw [follow_accept]
    cases s₁.accept .question with
    | stop => rfl
    | token _ s₂ h₂ =>
      refine Reply.readout_andThen rfl fun whenTrue s₃ h₃ => ?_
      rw [follow_expect]
      refine Reply.readout_andThen rfl fun _ s₄ h₄ => ?_
      exact Reply.readout_andThen rfl fun whenFalse s₅ h₅ => rfl
  | tier t =>
    rw [expression]
    refine Reply.readout_andThen rfl fun left s₁ h₁ => ?_
    exact Reply.readout_widen.trans (follow_last (.operands t left)).symm
  | unary =>
    rw [expression, ofLevel]
    cases hs : s.next with
    | stop =>
      rw [follow_take_of_stop hs]
      exact (follow_last (.expression .call)).symm
    | token operator s₁ h₁ =>
      rw [follow_take_of_next hs]
      dsimp only
      split
      · exact Reply.readout_andThen rfl fun right s₂ h₂ => rfl
      · exact (follow_last (.expression .call)).symm
  | call =>
    rw [expression]
    refine Reply.readout_andThen rfl fun callee s₁ h₁ => ?_
    exact Reply.readout_widen.trans (follow_last (.trailers callee)).symm

theorem readout_operands (t : Tier) (left : Expr) (s : Cursor) :
    (operands c t left s).readout = (ofOperands t left).follow c s := by
  rw [operands, ofOperands]
  cases hs : s.next with
  | stop => rw [follow_take_of_stop hs]; rfl
  | token operator s₁ h₁ =>
    rw [follow_take_of_next hs]
    dsimp only
    split
    · refine Reply.readout_andThen rfl fun right s₂ h₂ => ?_
      exact Reply.readout_widen.trans (follow_last (.operands t _)).symm
    · rfl

theorem readout_trailers (callee : Expr) (s : Cursor) :
    (trailers c callee s).readout = (ofTrailers callee).follow c s := by
  rw [trailers, ofTrailers]
  cases hs : s.next with
  | stop =>
    simp only [follow_accept_of_stop hs]
    rfl
  | token t s₁ h₁ =>
    simp only [follow_accept_of_next hs]
    split
    next hk =>
      simp only [Token.is_of_kind hk, decide_true, if_true]
      refine Reply.readout_andThen rfl fun values s₂ h₂ => ?_
      exact Reply.readout_widen.trans (follow_last (.trailers _)).symm
    next hk =>
      simp only [Token.is_of_kind hk, reduceCtorEq, decide_true, decide_false, Bool.false_eq_true,
        if_true, if_false, follow_expectName]
      refine Reply.readout_andThen rfl fun name s₂ h₂ => ?_
      exact Reply.readout_widen.trans (follow_last (.trailers _)).symm
    next hparen hdot =>
      simp only [Token.is_eq_false hparen, Token.is_eq_false hdot, Bool.false_eq_true, if_false]
      rfl

theorem readout_arguments (s : Cursor) :
    (arguments c s).readout = Job.arguments.script.follow c s := by
  rw [arguments, Job.script, follow_accept]
  cases s.accept .rightParen with
  | stop => exact (follow_last (.argumentList 0)).symm
  | token _ s₁ h₁ => rfl

theorem readout_argumentList (count : Nat) (s : Cursor) :
    (argumentList c count s).readout = (ofArgumentList count).follow c s := by
  rw [argumentList, ofArgumentList, follow, Reply.readout_note, overflow]
  simp only [decide_eq_true_eq]
  congr 1
  refine Reply.readout_andThen rfl fun value s₁ h₁ => ?_
  rw [follow_accept]
  cases s₁.accept .comma with
  | stop =>
    rw [follow_expect]
    exact Reply.readout_andThen rfl fun _ s₂ h₂ => rfl
  | token _ s₂ h₂ => exact Reply.readout_andThen rfl fun values s₃ h₃ => rfl

theorem readout_primary (s : Cursor) : (primary c s).readout = ofPrimary.follow c s := by
  rw [primary, ofPrimary]
  cases hs : s.next with
  | stop =>
    simp only [follow_take_of_stop hs, follow_accept_of_stop hs, follow_look_of_stop hs]
    rw [follow, Spot.line, Cursor.line_of_stop hs]
    rfl
  | token t s₁ h₁ =>
    simp only [follow_take_of_next hs, follow_accept_of_next hs, follow_look_of_next hs]
    split
    -- the constants and names
    iterate 6 next hk => simp [Token.atom?, hk, follow]
    next hk =>
      simp only [Token.atom?, hk, Token.is_of_kind hk, Option.isSome_none, Bool.false_eq_true,
        decide_true, if_true, if_false]
      show _ = Script.follow c (if c.inClass then _ else _) s₁
      split
      · rfl
      · rw [follow, Spot.line, Cursor.lastLine_of_next hs]
        rfl
    next hk =>
      simp only [Token.atom?, hk, Token.is_of_kind hk, Option.isSome_none, Bool.false_eq_true,
        reduceCtorEq, decide_true, decide_false, if_true, if_false]
      refine Reply.readout_andThen rfl fun value s₂ h₂ => ?_
      rw [follow_expect]
      exact Reply.readout_andThen rfl fun _ s₃ h₃ => rfl
    next hk =>
      simp only [Token.atom?, hk, Token.is_of_kind hk, Option.isSome_none, Bool.false_eq_true,
        reduceCtorEq, decide_true, decide_false, if_true, if_false]
      exact Reply.readout_widen.trans (follow_last .lambda).symm
    next hfalse htrue hnil hnumber hstring hname hthis hparen hfun =>
      have hatom : t.atom? = none := by
        unfold Token.atom?
        split <;> simp_all
      simp only [hatom, Token.is_eq_false hthis, Token.is_eq_false hparen, Token.is_eq_false hfun,
        Option.isSome_none, Bool.false_eq_true, if_false]
      rw [follow, Spot.line, Cursor.line_of_next hs]
      rfl

theorem readout_lambda (s : Cursor) : (lambda c s).readout = ofLambda.follow c s := by
  rw [lambda]
  refine Reply.readout_andThen rfl fun names s₁ h₁ => ?_
  cases hs : s₁.next with
  | stop =>
    simp only [follow_accept_of_stop hs]
    rfl
  | token t s₂ h₂ =>
    simp only [follow_accept_of_next hs]
    split
    next hk =>
      simp only [Token.is_of_kind hk, decide_true, if_true]
      exact Reply.readout_andThen rfl fun body s₃ h₃ => rfl
    next hk =>
      simp only [Token.is_of_kind hk, reduceCtorEq, decide_true, decide_false, Bool.false_eq_true,
        if_true, if_false]
      exact Reply.readout_andThen rfl fun value s₃ h₃ => rfl
    next hbrace harrow =>
      simp only [Token.is_eq_false hbrace, Token.is_eq_false harrow, Bool.false_eq_true, if_false]
      rfl

theorem readout_parameterList (count : Nat) (s : Cursor) :
    (parameterList count s).readout = (ofParameterList count).follow c s := by
  rw [parameterList, ofParameterList, follow, Reply.readout_note, overflow]
  simp only [decide_eq_true_eq, follow_expectName]
  congr 1
  refine Reply.readout_andThen rfl fun name s₁ h₁ => ?_
  rw [follow_accept]
  cases s₁.accept .comma with
  | stop =>
    rw [follow_expect]
    exact Reply.readout_andThen rfl fun _ s₂ h₂ => rfl
  | token _ s₂ h₂ => exact Reply.readout_andThen rfl fun names s₃ h₃ => rfl

theorem readout_parameters (s : Cursor) :
    (parameters s).readout = Job.parameters.script.follow c s := by
  rw [parameters, Job.script, follow_expect]
  refine Reply.readout_andThen rfl fun _ s₁ h₁ => ?_
  rw [follow_accept]
  cases s₁.accept .rightParen with
  | stop => exact Reply.readout_widen.trans (follow_last (.parameterList 0)).symm
  | token _ s₂ h₂ => rfl

theorem readout_block (s : Cursor) : (block c s).readout = ofBlock.follow c s := by
  rw [block, ofBlock]
  cases hs : s.next with
  | stop =>
    simp only [follow_accept_of_stop hs, follow_look_of_stop hs]
    rfl
  | token t s₁ h₁ =>
    simp only [follow_accept_of_next hs, follow_look_of_next hs]
    split
    · rfl
    · refine Reply.readout_andThen rfl fun first s₂ h₂ => ?_
      exact Reply.readout_andThen rfl fun others s₃ h₃ => rfl

theorem readout_declaration (s : Cursor) :
    (declaration c s).readout = ofDeclaration.follow c s := by
  rw [declaration, ofDeclaration]
  cases hs : s.next with
  | stop =>
    simp only [follow_accept_of_stop hs]
    exact (follow_last .statement).symm
  | token t s₁ h₁ =>
    simp only [follow_accept_of_next hs]
    split
    next hk =>
      simp only [Token.is_of_kind hk, decide_true, if_true]
      exact Reply.readout_widen.trans (follow_last .classDefinition).symm
    next hk =>
      simp only [Token.is_of_kind hk, reduceCtorEq, decide_true, decide_false, Bool.false_eq_true,
        if_true, if_false]
      exact Reply.readout_andThen rfl fun d s₂ h₂ => rfl
    next hk =>
      simp only [Token.is_of_kind hk, reduceCtorEq, decide_true, decide_false, Bool.false_eq_true,
        if_true, if_false]
      exact Reply.readout_widen.trans (follow_last .variableDefinition).symm
    next hclass hfun hvar =>
      simp only [Token.is_eq_false hclass, Token.is_eq_false hfun, Token.is_eq_false hvar,
        Bool.false_eq_true, if_false]
      exact (follow_last .statement).symm

theorem readout_classDefinition (s : Cursor) :
    (classDefinition c s).readout = Job.classDefinition.script.follow c s := by
  rw [classDefinition, Job.script, follow_expectName]
  refine Reply.readout_andThen rfl fun name s₁ h₁ => ?_
  rw [follow_expect]
  refine Reply.readout_andThen rfl fun _ s₂ h₂ => ?_
  exact Reply.readout_andThen rfl fun ms s₃ h₃ => rfl

theorem readout_members (s : Cursor) : (members c s).readout = ofMembers.follow c s := by
  rw [members, ofMembers]
  cases hs : s.next with
  | stop =>
    simp only [follow_accept_of_stop hs, follow_look_of_stop hs]
    rfl
  | token t s₁ h₁ =>
    simp only [follow_accept_of_next hs, follow_look_of_next hs]
    split
    next hk =>
      simp only [Token.is_of_kind hk, decide_true, if_true]
      rfl
    next hk =>
      simp only [Token.is_of_kind hk, reduceCtorEq, decide_true, decide_false, Bool.false_eq_true,
        if_true, if_false]
      refine Reply.readout_andThen rfl fun d s₂ h₂ => ?_
      exact Reply.readout_andThen rfl fun ms s₃ h₃ => rfl
    next hbrace hclass =>
      simp only [Token.is_eq_false hbrace, Token.is_eq_false hclass, Bool.false_eq_true, if_false]
      refine Reply.readout_andThen rfl fun d s₂ h₂ => ?_
      exact Reply.readout_andThen rfl fun ms s₃ h₃ => rfl

theorem readout_definition (s : Cursor) :
    (definition c s).readout = Job.definition.script.follow c s := by
  rw [definition, Job.script, follow_expectName]
  refine Reply.readout_andThen rfl fun name s₁ h₁ => ?_
  refine Reply.readout_andThen rfl fun names s₂ h₂ => ?_
  rw [follow_expect]
  refine Reply.readout_andThen rfl fun _ s₃ h₃ => ?_
  exact Reply.readout_andThen rfl fun body s₄ h₄ => rfl

theorem readout_variableDefinition (s : Cursor) :
    (variableDefinition c s).readout = ofVariable.follow c s := by
  rw [variableDefinition, ofVariable, follow_expectName]
  refine Reply.readout_andThen rfl fun name s₁ h₁ => ?_
  rw [follow_accept]
  cases s₁.accept .equal with
  | stop =>
    rw [follow_expect]
    exact Reply.readout_andThen rfl fun _ s₂ h₂ => rfl
  | token _ s₂ h₂ =>
    refine Reply.readout_andThen rfl fun value s₃ h₃ => ?_
    rw [follow_expect]
    exact Reply.readout_andThen rfl fun _ s₄ h₄ => rfl

theorem readout_jumpStatement {keyword : Token} {s : Cursor} (hs : s.lastLine = keyword.line) :
    (jumpStatement c keyword s).readout = (ofJump keyword).follow c s := by
  rw [jumpStatement, ofJump, follow, follow, Reply.readout_note, Spot.line, hs,
    follow_expect, Context.has]
  congr 1
  · cases c.inLoop <;> rfl
  · exact Reply.readout_andThen rfl fun _ s₁ h₁ => rfl

theorem readout_optionalExpression (stop : Symbol) (s : Cursor) :
    (optionalExpression c stop s).readout = (ofOptional stop).follow c s := by
  rw [optionalExpression, ofOptional]
  cases hs : s.next with
  | stop =>
    rw [follow_look_of_stop hs, Cursor.sees, Cursor.rest_of_next_stop hs]
    simp only [Bool.false_eq_true, if_false]
    exact Reply.readout_andThen rfl fun value s₁ h₁ => rfl
  | token t s₁ h₁ =>
    rw [follow_look_of_next hs, Cursor.sees, Cursor.rest_of_next hs]
    dsimp only
    split
    · rfl
    · exact Reply.readout_andThen rfl fun value s₁ h₁ => rfl

theorem readout_returnStatement {keyword : Token} {s : Cursor} (hs : s.lastLine = keyword.line) :
    (returnStatement c keyword s).readout = (ofReturn keyword).follow c s := by
  rw [returnStatement, ofReturn, follow, follow, Reply.readout_note, Spot.line, hs,
    Context.has]
  congr 1
  · cases c.inFunction <;> rfl
  · refine Reply.readout_andThen rfl fun value s₁ h₁ => ?_
    rw [follow_expect]
    exact Reply.readout_andThen rfl fun _ s₂ h₂ => rfl

theorem readout_statement (s : Cursor) : (statement c s).readout = ofStatement.follow c s := by
  rw [statement, ofStatement]
  cases hs : s.next with
  | stop =>
    simp only [follow_accept_of_stop hs, follow_take_of_stop hs]
    exact (follow_last .expressionStatement).symm
  | token t s₁ h₁ =>
    simp only [follow_accept_of_next hs, follow_take_of_next hs]
    have hline := Cursor.lastLine_of_next hs
    split
    next hk =>
      simp only [Token.is_of_kind hk, decide_true, if_true]
      exact Reply.readout_widen.trans (follow_last .forStatement).symm
    next hk =>
      simp only [Token.is_of_kind hk, reduceCtorEq, decide_true, decide_false, Bool.false_eq_true,
        if_true, if_false]
      exact Reply.readout_widen.trans (follow_last .ifStatement).symm
    next hk =>
      simp only [Token.is_of_kind hk, reduceCtorEq, decide_true, decide_false, Bool.false_eq_true,
        if_true, if_false]
      exact Reply.readout_widen.trans (follow_last .whileStatement).symm
    next hk =>
      simp only [Token.is_of_kind hk, reduceCtorEq, decide_true, decide_false, Bool.false_eq_true,
        Bool.true_or, if_true, if_false]
      exact Reply.readout_widen.trans (readout_jumpStatement hline)
    next hk =>
      simp only [Token.is_of_kind hk, reduceCtorEq, decide_true, decide_false, Bool.false_eq_true,
        Bool.or_true, if_true, if_false]
      exact Reply.readout_widen.trans (readout_jumpStatement hline)
    next hk =>
      simp only [Token.is_of_kind hk, reduceCtorEq, decide_true, decide_false, Bool.false_eq_true,
        Bool.or_self, if_true, if_false]
      exact Reply.readout_widen.trans (readout_returnStatement hline)
    next hk =>
      simp only [Token.is_of_kind hk, reduceCtorEq, decide_true, decide_false, Bool.false_eq_true,
        Bool.or_self, if_true, if_false]
      exact Reply.readout_andThen rfl fun body s₂ h₂ => rfl
    next hk =>
      simp only [Token.is_of_kind hk, reduceCtorEq, decide_true, decide_false, Bool.false_eq_true,
        Bool.or_self, if_true, if_false]
      refine Reply.readout_andThen rfl fun value s₂ h₂ => ?_
      rw [follow_expect]
      exact Reply.readout_andThen rfl fun _ s₃ h₃ => rfl
    next hk =>
      simp only [Token.is_of_kind hk, reduceCtorEq, decide_true, decide_false, Bool.false_eq_true,
        Bool.or_self, if_true, if_false]
      rfl
    next hfor hif hwhile hbreak hcontinue hreturn hbrace hprint hsemicolon =>
      simp only [Token.is_eq_false hfor, Token.is_eq_false hif, Token.is_eq_false hwhile,
        Token.is_eq_false hbreak, Token.is_eq_false hcontinue, Token.is_eq_false hreturn,
        Token.is_eq_false hbrace, Token.is_eq_false hprint, Token.is_eq_false hsemicolon,
        Bool.or_self, Bool.false_eq_true, if_false]
      exact (follow_last .expressionStatement).symm

theorem readout_expressionStatement (s : Cursor) :
    (expressionStatement c s).readout = Job.expressionStatement.script.follow c s := by
  rw [expressionStatement]
  refine Reply.readout_andThen rfl fun value s₁ h₁ => ?_
  rw [follow_expect]
  exact Reply.readout_andThen rfl fun _ s₂ h₂ => rfl

theorem readout_forStatement (s : Cursor) : (forStatement c s).readout = ofFor.follow c s := by
  rw [forStatement, ofFor, follow_expect]
  refine Reply.readout_andThen rfl fun _ s₁ h₁ => ?_
  refine Reply.readout_andThen rfl fun initial s₂ h₂ => ?_
  refine Reply.readout_andThen rfl fun condition s₃ h₃ => ?_
  rw [follow_expect]
  refine Reply.readout_andThen rfl fun _ s₄ h₄ => ?_
  refine Reply.readout_andThen rfl fun step s₅ h₅ => ?_
  rw [follow_expect]
  refine Reply.readout_andThen rfl fun _ s₆ h₆ => ?_
  exact Reply.readout_andThen rfl fun body s₇ h₇ => rfl

theorem readout_forInitial (s : Cursor) :
    (forInitial c s).readout = ofForInitial.follow c s := by
  rw [forInitial, ofForInitial]
  cases hs : s.next with
  | stop =>
    simp only [follow_accept_of_stop hs]
    exact Reply.readout_andThen rfl fun initial s₂ h₂ => rfl
  | token t s₁ h₁ =>
    simp only [follow_accept_of_next hs]
    split
    next hk =>
      simp only [Token.is_of_kind hk, decide_true, if_true]
      rfl
    next hk =>
      simp only [Token.is_of_kind hk, reduceCtorEq, decide_true, decide_false, Bool.false_eq_true,
        if_true, if_false]
      exact Reply.readout_andThen rfl fun initial s₂ h₂ => rfl
    next hsemicolon hvar =>
      simp only [Token.is_eq_false hsemicolon, Token.is_eq_false hvar, Bool.false_eq_true,
        if_false]
      exact Reply.readout_andThen rfl fun initial s₂ h₂ => rfl

theorem readout_ifStatement (s : Cursor) : (ifStatement c s).readout = ofIf.follow c s := by
  rw [ifStatement, ofIf, follow_expect]
  refine Reply.readout_andThen rfl fun _ s₁ h₁ => ?_
  refine Reply.readout_andThen rfl fun condition s₂ h₂ => ?_
  rw [follow_expect]
  refine Reply.readout_andThen rfl fun _ s₃ h₃ => ?_
  refine Reply.readout_andThen rfl fun whenTrue s₄ h₄ => ?_
  rw [follow_accept]
  cases s₄.accept .elseWord with
  | stop => rfl
  | token _ s₅ h₅ => exact Reply.readout_andThen rfl fun whenFalse s₆ h₆ => rfl

theorem readout_whileStatement (s : Cursor) :
    (whileStatement c s).readout = ofWhile.follow c s := by
  rw [whileStatement, ofWhile, follow_expect]
  refine Reply.readout_andThen rfl fun _ s₁ h₁ => ?_
  refine Reply.readout_andThen rfl fun condition s₂ h₂ => ?_
  rw [follow_expect]
  refine Reply.readout_andThen rfl fun _ s₃ h₃ => ?_
  exact Reply.readout_andThen rfl fun body s₄ h₄ => rfl

end Reading

/-- **A job is done by following its script.** -/
theorem Job.read_eq (c : Context) (j : Job) (s : Cursor) : j.read c s = j.script.follow c s := by
  cases j with
  | expression l => exact Reading.readout_expression l s
  | operands t left => exact Reading.readout_operands t left s
  | trailers callee => exact Reading.readout_trailers callee s
  | arguments => exact Reading.readout_arguments s
  | argumentList count => exact Reading.readout_argumentList count s
  | primary => exact Reading.readout_primary s
  | lambda => exact Reading.readout_lambda s
  | parameters => exact Reading.readout_parameters s
  | parameterList count => exact Reading.readout_parameterList count s
  | block => exact Reading.readout_block s
  | declaration => exact Reading.readout_declaration s
  | classDefinition => exact Reading.readout_classDefinition s
  | members => exact Reading.readout_members s
  | definition => exact Reading.readout_definition s
  | variableDefinition => exact Reading.readout_variableDefinition s
  | statement => exact Reading.readout_statement s
  | expressionStatement => exact Reading.readout_expressionStatement s
  | optionalExpression stop => exact Reading.readout_optionalExpression stop s
  | forStatement => exact Reading.readout_forStatement s
  | forInitial => exact Reading.readout_forInitial s
  | ifStatement => exact Reading.readout_ifStatement s
  | whileStatement => exact Reading.readout_whileStatement s

end Lox
