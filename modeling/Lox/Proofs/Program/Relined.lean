import Lox.Program.OfTokens
import Lox.Proofs.Program.Varies

/-!
# The layout of a program

The reader decides by the kinds of tokens and never by their lines. From tokens that differ in their
lines only it reads programs that vary in the lines only, and it finds the same mistakes in the same
order (`Parsed.varies_ofTokens`). `Reply.Varies` says so of two replies; there is one lemma for each
way in which the reader puts replies together, and one for each function of the reader.
-/

namespace Lox

/-- The same mistake, perhaps on another line. -/
def GrammarError.Varies (e e' : GrammarError) : Prop :=
  e'.mistake = e.mistake

/-- Cursors in front of tokens that differ in their lines only. -/
structure Cursor.Varies (s s' : Cursor) : Prop where
  /-- The tokens that are left differ in their lines only. -/
  rest : List.Forall₂ Variation.lines.token s.rest s'.rest

/-- Cursors see the same next: nothing, or tokens that differ in their lines only. -/
inductive Next.Varies {m n : Nat} : Next m → Next n → Prop where
  | stop : Varies .stop .stop
  | token {t t' : Token} {s s' : Cursor} (ht : Variation.lines.token t t') (hs : s.Varies s')
      (h : s.size < m) (h' : s'.size < n) : Varies (.token t s h) (.token t' s' h')

/-- Replies with parts as `R` says, or both with the same mistake, and with the same reports. -/
inductive Reply.Varies {α α' : Type} (R : α → α' → Prop) {m n : Nat} :
    Reply α m → Reply α' n → Prop where
  | done {x : α} {x' : α'} {s s' : Cursor} {reports reports' : List GrammarError} (hx : R x x')
      (hs : s.Varies s') (hreports : List.Forall₂ GrammarError.Varies reports reports')
      (h : s.size < m) (h' : s'.size < n) :
    Varies R (.done x s reports h) (.done x' s' reports' h')
  | failed {e e' : GrammarError} {s s' : Cursor} {reports reports' : List GrammarError}
      (he : e.Varies e') (hs : s.Varies s')
      (hreports : List.Forall₂ GrammarError.Varies reports reports') (h : s.size ≤ m)
      (h' : s'.size ≤ n) : Varies R (.failed e s reports h) (.failed e' s' reports' h')

namespace Reply.Varies

variable {α α' β β' : Type} {R : α → α' → Prop} {T : β → β' → Prop} {m m' n n' : Nat}
  {s s' : Cursor}

theorem pure {x : α} {x' : α'} (hx : R x x') (hs : s.Varies s') {h : s.size < m}
    {h' : s'.size < n} : Varies R (.pure x s h) (.pure x' s' h') :=
  .done hx hs .nil h h'

theorem fail {line line' : Nat} {mistake : Mistake} (hs : s.Varies s') {h : s.size ≤ m}
    {h' : s'.size ≤ n} : Varies R (.fail line mistake s h) (.fail line' mistake s' h') := by
  have he : GrammarError.Varies ⟨line, mistake⟩ ⟨line', mistake⟩ := rfl
  exact .failed he hs .nil h h'

theorem note {r : Reply α m} {r' : Reply α' n} {reports reports' : List GrammarError}
    (hreports : List.Forall₂ GrammarError.Varies reports reports') (hr : r.Varies R r') :
    (r.note reports).Varies R (r'.note reports') := by
  cases hr with
  | done hx hs hown h h' => exact .done hx hs (List.rel_append hreports hown) h h'
  | failed he hs hown h h' => exact .failed he hs (List.rel_append hreports hown) h h'

theorem widen {r : Reply α m} {r' : Reply α' m'} (hr : r.Varies R r') {h : m ≤ n} {h' : m' ≤ n'} :
    (r.widen h).Varies R (r'.widen h') := by
  cases hr with
  | done hx hs hreports _ _ => exact .done hx hs hreports _ _
  | failed he hs hreports _ _ => exact .failed he hs hreports _ _

theorem andThen {r : Reply α m} {r' : Reply α' m'}
    {f : α → (s : Cursor) → s.size < m → Reply β n}
    {f' : α' → (s : Cursor) → s.size < m' → Reply β' n'} (hr : r.Varies R r')
    (hf : ∀ x x' s s' h h', R x x' → s.Varies s' → (f x s h).Varies T (f' x' s' h'))
    {h : m ≤ n} {h' : m' ≤ n'} : (r.andThen f h).Varies T (r'.andThen f' h') := by
  cases hr with
  | done hx hs hreports _ _ => exact note hreports (hf _ _ _ _ _ _ hx hs)
  | failed he hs hreports _ _ => exact .failed he hs hreports _ _

end Reply.Varies

/-! ### Cursors -/

namespace Cursor.Varies

variable {s s' : Cursor}

theorem next (h : s.Varies s') : s.next.Varies s'.next := by
  obtain ⟨rest, lastLine, endLine⟩ := s
  obtain ⟨rest', lastLine', endLine'⟩ := s'
  cases h.rest with
  | nil => exact .stop
  | cons ht hrest => exact .token ht ⟨hrest⟩ _ _

theorem accept (h : s.Varies s') (x : Symbol) : (s.accept x).Varies (s'.accept x) := by
  have hnext := h.next
  unfold Cursor.accept
  generalize s.next = next, s'.next = next' at hnext
  cases hnext with
  | stop => exact .stop
  | token ht hs hlt hlt' =>
    dsimp only
    rw [Variation.is ht]
    split
    · exact .token ht hs _ _
    · exact .stop

theorem sees (h : s.Varies s') (x : Symbol) : s'.sees x = s.sees x := by
  have hrest := h.rest
  unfold Cursor.sees
  generalize s.rest = rest, s'.rest = rest' at hrest
  cases hrest with
  | nil => rfl
  | cons ht hrest => exact Variation.is ht x

theorem size_eq (h : s.Varies s') : s'.size = s.size :=
  h.rest.length_eq.symm

/-- Reading is taken up in front of tokens that differ in their lines only. -/
theorem resume (h : s.Varies s') : s.resume.Varies s'.resume := by
  suffices hgo : ∀ {ts ts' : List Token}, List.Forall₂ Variation.lines.token ts ts' →
      ∀ lastLine lastLine', (Cursor.resume.go s lastLine ts).Varies
        (Cursor.resume.go s' lastLine' ts') from hgo h.rest _ _
  intro ts ts' hts
  induction hts with
  | nil => exact fun _ _ => ⟨.nil⟩
  | @cons t t' ts ts' ht hts ih =>
    intro lastLine lastLine'
    unfold Cursor.resume.go
    rw [ht.1]
    split
    · split
      · exact ⟨hts⟩
      · split
        · exact ⟨.cons ht hts⟩
        · exact ih _ _
    · exact ih _ _

theorem expect (h : s.Varies s') (x : Symbol) (demand : Demand) :
    (s.expect x demand).Varies Variation.lines.token (s'.expect x demand) := by
  have haccept := h.accept x
  unfold Cursor.expect
  generalize s.accept x = next, s'.accept x = next' at haccept
  cases haccept with
  | stop => exact .fail h
  | token ht hs hlt hlt' => exact .pure ht hs

theorem expectName (h : s.Varies s') (demand : Demand) :
    (s.expectName demand).Varies Variation.lines.token (s'.expectName demand) := by
  have hnext := h.next
  unfold Cursor.expectName
  generalize s.next = next, s'.next = next' at hnext
  cases hnext with
  | stop => exact .fail h
  | token ht hs hlt hlt' =>
    dsimp only
    rw [ht.1]
    split
    · exact .pure ht hs
    · exact .fail h

end Cursor.Varies

theorem overflow_varies (count line line' : Nat) (mistake : Mistake) :
    List.Forall₂ GrammarError.Varies (overflow count line mistake)
      (overflow count line' mistake) := by
  unfold overflow
  split
  · exact .cons rfl .nil
  · exact .nil

/-! ### Expressions -/

theorem Expr.Varies.assigned? {V : Variation} {target target' value value' : Expr}
    (htarget : target.Varies V target') (hvalue : value.Varies V value') :
    Option.Rel (Expr.Varies V) (target.assigned? value) (target'.assigned? value') := by
  cases htarget with
  | name ht =>
    unfold Expr.assigned?
    dsimp only
    rw [V.kind ht]
    split
    · exact .some (.assign ht hvalue)
    · exact .none
  | get he ht => exact .some (.set he ht hvalue)
  | _ => exact .none

theorem Tier.varies_join {V : Variation} (tier : Tier) {left left' right right' : Expr}
    {t t' : Token} (hleft : left.Varies V left') (ht : V.token t t')
    (hright : right.Varies V right') :
    (tier.join left t right).Varies V (tier.join left' t' right') := by
  cases tier with
  | disjunction | conjunction => exact .logical hleft ht hright
  | _ => exact .binary hleft ht hright

/-! ### Members -/

/-- Members with the same mark whose definitions vary. -/
structure Member.Varies (V : Variation) (m m' : Member) : Prop where
  /-- Both belong to the class itself, or neither. -/
  ofClass : m'.ofClass = m.ofClass
  /-- The definitions vary. -/
  definition : m.definition.Varies V m'.definition

theorem Definition.Varies.insert {V : Variation} {d d' : Definition} (hd : d.Varies V d')
    {ds ds' : List Definition} (hds : List.Forall₂ (Definition.Varies V) ds ds') :
    List.Forall₂ (Definition.Varies V) (d.insert ds) (d'.insert ds') := by
  induction hds with
  | nil => exact .cons hd .nil
  | cons he hes ih =>
    unfold Definition.insert
    rw [V.lexeme hd.name, V.lexeme he.name]
    split
    · exact .cons hd hes
    · exact .cons he ih

theorem Member.varies_collect {V : Variation} (ofClass : Bool) {ms ms' : List Member}
    (hms : List.Forall₂ (Member.Varies V) ms ms') :
    List.Forall₂ (Definition.Varies V) (Member.collect ofClass ms)
      (Member.collect ofClass ms') := by
  have hfilter : List.Forall₂ (Member.Varies V) (ms.filter fun m => m.ofClass == ofClass)
      (ms'.filter fun m => m.ofClass == ofClass) :=
    List.rel_filter (fun m m' hm => by dsimp only; rw [hm.ofClass]) hms
  exact List.rel_foldl (fun _ _ hds _ _ hm => hm.definition.insert hds) .nil hfilter

/-! ### The functions of the reader -/

namespace Reading

variable {c : Context} {s s' : Cursor}

theorem parameterList_varies {count : Nat} {s s' : Cursor} (h : s.Varies s') :
    (parameterList count s).Varies (List.Forall₂ Variation.lines.token)
      (parameterList count s') := by
  rw [parameterList, parameterList.eq_1 count s']
  refine .note (overflow_varies _ _ _ _) ?_
  refine (h.expectName _).andThen fun name name' s₁ s₁' h₁ h₁' hname hs₁ => ?_
  have haccept := hs₁.accept .comma
  generalize s₁.accept .comma = next, s₁'.accept .comma = next' at haccept
  cases haccept with
  | stop => exact (hs₁.expect _ _).andThen fun _ _ _ _ _ _ _ hs₂ => .pure (.cons hname .nil) hs₂
  | token _ hs₂ h₂ h₂' =>
    exact (parameterList_varies hs₂).andThen fun _ _ _ _ _ _ hnames hs₃ =>
      .pure (.cons hname hnames) hs₃
termination_by s.size

theorem parameters_varies (h : s.Varies s') :
    (parameters s).Varies (List.Forall₂ Variation.lines.token) (parameters s') := by
  unfold parameters
  refine (h.expect _ _).andThen fun _ _ s₁ s₁' h₁ h₁' _ hs₁ => ?_
  have haccept := hs₁.accept .rightParen
  generalize s₁.accept .rightParen = next, s₁'.accept .rightParen = next' at haccept
  cases haccept with
  | stop => exact (parameterList_varies hs₁).widen
  | token _ hs₂ h₂ h₂' => exact .pure .nil hs₂

theorem jumpStatement_varies {t t' : Token} (ht : Variation.lines.token t t') (h : s.Varies s') :
    (jumpStatement c t s).Varies (Stmt.Varies .lines) (jumpStatement c t' s') := by
  unfold jumpStatement
  rw [ht.2]
  refine .note ?_ ((h.expect _ _).andThen fun _ _ _ _ _ _ _ hs₁ => .pure (.jump ht .none) hs₁)
  split
  · exact .nil
  · exact .cons rfl .nil

mutual

theorem expression_varies (c : Context) (l : Level) {s s' : Cursor} (h : s.Varies s') :
    (expression c l s).Varies (Expr.Varies .lines) (expression c l s') := by
  cases l with
  | comma =>
    rw [expression.eq_1 c s, expression.eq_1 c s']
    refine (expression_varies c .assignment h).andThen fun left left' s₁ s₁' h₁ h₁' hleft hs₁ => ?_
    have haccept := hs₁.accept .comma
    generalize s₁.accept .comma = next, s₁'.accept .comma = next' at haccept
    cases haccept with
    | stop => exact .pure hleft hs₁
    | token ht hs₂ h₂ h₂' =>
      exact (expression_varies c .comma hs₂).andThen fun _ _ _ _ _ _ hright hs₃ =>
        .pure (.binary hleft ht hright) hs₃
  | assignment =>
    rw [expression.eq_2 c s, expression.eq_2 c s']
    refine (expression_varies c .conditional h).andThen
      fun target target' s₁ s₁' h₁ h₁' htarget hs₁ => ?_
    have haccept := hs₁.accept .equal
    generalize s₁.accept .equal = next, s₁'.accept .equal = next' at haccept
    cases haccept with
    | stop => exact .pure htarget hs₁
    | token ht hs₂ h₂ h₂' =>
      refine (expression_varies c .assignment hs₂).andThen
        fun value value' s₃ s₃' h₃ h₃' hvalue hs₃ => ?_
      have hassigned := htarget.assigned? hvalue
      generalize target.assigned? value = e, target'.assigned? value' = e' at hassigned
      cases hassigned with
      | none => exact .fail hs₃
      | some he => exact .pure he hs₃
  | conditional =>
    rw [expression.eq_3 c s, expression.eq_3 c s']
    refine (expression_varies c (.tier .disjunction) h).andThen
      fun condition condition' s₁ s₁' h₁ h₁' hcondition hs₁ => ?_
    have haccept := hs₁.accept .question
    generalize s₁.accept .question = next, s₁'.accept .question = next' at haccept
    cases haccept with
    | stop => exact .pure hcondition hs₁
    | token ht hs₂ h₂ h₂' =>
      exact (expression_varies c .conditional hs₂).andThen fun _ _ _ _ h₃ _ htrue hs₃ =>
        (hs₃.expect _ _).andThen fun _ _ _ _ h₄ _ _ hs₄ =>
          (expression_varies c .conditional hs₄).andThen fun _ _ _ _ _ _ hfalse hs₅ =>
            .pure (.conditional hcondition htrue hfalse) hs₅
  | tier t =>
    rw [expression.eq_4 c s t, expression.eq_4 c s' t]
    exact (expression_varies c t.tighter h).andThen fun _ _ _ _ h₁ _ hleft hs₁ =>
      (operands_varies c t hleft hs₁).widen
  | unary =>
    rw [expression.eq_5 c s, expression.eq_5 c s']
    have hcall := expression_varies c .call h
    have hnext := h.next
    generalize s.next = next, s'.next = next' at hnext
    cases hnext with
    | stop => exact hcall
    | token ht hs₁ h₁ h₁' =>
      dsimp only
      rw [Variation.is ht, Variation.is ht]
      split
      · exact (expression_varies c .unary hs₁).andThen fun _ _ _ _ _ _ hright hs₂ =>
          .pure (.unary ht hright) hs₂
      · exact hcall
  | call =>
    rw [expression.eq_6 c s, expression.eq_6 c s']
    exact (primary_varies c h).andThen fun _ _ _ _ h₁ _ hcallee hs₁ =>
      (trailers_varies c hcallee hs₁).widen
termination_by 20 * s.size + (12 - l.rank)
decreasing_by
  all_goals first
    | omega
    | have := Tier.rank_lt_tighter t
      have := Level.rank_le t.tighter
      omega
    | simp only [Level.rank, Tier.rank]
      omega

theorem operands_varies (c : Context) (t : Tier) {left left' : Expr}
    (hleft : left.Varies .lines left') {s s' : Cursor} (h : s.Varies s') :
    (operands c t left s).Varies (Expr.Varies .lines) (operands c t left' s') := by
  rw [operands, operands.eq_1 c t left' s']
  have hnext := h.next
  generalize s.next = next, s'.next = next' at hnext
  cases hnext with
  | stop => exact .pure hleft h
  | @token operator operator' s₁ s₁' ht hs₁ h₁ h₁' =>
    have hadmits : t.admits operator' = t.admits operator := by
      unfold Tier.admits
      rw [ht.1]
    dsimp only
    rw [hadmits]
    split
    · exact (expression_varies c t.tighter hs₁).andThen fun _ _ _ _ h₂ _ hright hs₂ =>
        (operands_varies c t (t.varies_join hleft ht hright) hs₂).widen
    · exact .pure hleft h
termination_by 20 * s.size + 1
decreasing_by all_goals omega

theorem trailers_varies (c : Context) {callee callee' : Expr}
    (hcallee : callee.Varies .lines callee') {s s' : Cursor} (h : s.Varies s') :
    (trailers c callee s).Varies (Expr.Varies .lines) (trailers c callee' s') := by
  rw [trailers, trailers.eq_1 c callee' s']
  have hnext := h.next
  generalize s.next = next, s'.next = next' at hnext
  cases hnext with
  | stop => exact .pure hcallee h
  | token ht hs₁ h₁ h₁' =>
    dsimp only
    rw [ht.1]
    split
    · exact (arguments_varies c hs₁).andThen fun _ _ _ _ h₂ _ hvalues hs₂ =>
        (trailers_varies c (.call hcallee ht hvalues) hs₂).widen
    · exact (hs₁.expectName _).andThen fun _ _ _ _ h₂ _ hname hs₂ =>
        (trailers_varies c (.get hcallee hname) hs₂).widen
    · exact .pure hcallee h
termination_by 20 * s.size + 1
decreasing_by all_goals omega

theorem arguments_varies (c : Context) {s s' : Cursor} (h : s.Varies s') :
    (arguments c s).Varies (List.Forall₂ (Expr.Varies .lines)) (arguments c s') := by
  rw [arguments, arguments.eq_1 c s']
  have hlist := argumentList_varies c 0 h
  have haccept := h.accept .rightParen
  generalize s.accept .rightParen = next, s'.accept .rightParen = next' at haccept
  cases haccept with
  | stop => exact hlist
  | token _ hs₁ h₁ h₁' => exact .pure .nil hs₁
termination_by 20 * s.size + 14
decreasing_by all_goals omega

theorem argumentList_varies (c : Context) (count : Nat) {s s' : Cursor} (h : s.Varies s') :
    (argumentList c count s).Varies (List.Forall₂ (Expr.Varies .lines))
      (argumentList c count s') := by
  rw [argumentList, argumentList.eq_1 c count s']
  refine .note (overflow_varies _ _ _ _) ?_
  refine (expression_varies c .assignment h).andThen
    fun value value' s₁ s₁' h₁ h₁' hvalue hs₁ => ?_
  have haccept := hs₁.accept .comma
  generalize s₁.accept .comma = next, s₁'.accept .comma = next' at haccept
  cases haccept with
  | stop => exact (hs₁.expect _ _).andThen fun _ _ _ _ _ _ _ hs₂ => .pure (.cons hvalue .nil) hs₂
  | token _ hs₂ h₂ h₂' =>
    exact (argumentList_varies c (count + 1) hs₂).andThen fun _ _ _ _ _ _ hvalues hs₃ =>
      .pure (.cons hvalue hvalues) hs₃
termination_by 20 * s.size + 13
decreasing_by all_goals omega

theorem primary_varies (c : Context) {s s' : Cursor} (h : s.Varies s') :
    (primary c s).Varies (Expr.Varies .lines) (primary c s') := by
  rw [primary, primary.eq_1 c s']
  have hnext := h.next
  generalize s.next = next, s'.next = next' at hnext
  cases hnext with
  | stop => exact .fail h
  | token ht hs₁ h₁ h₁' =>
    dsimp only
    rw [ht.1, ht.2]
    split
    · exact .pure (.literal _) hs₁
    · exact .pure (.literal _) hs₁
    · exact .pure (.literal _) hs₁
    · exact .pure (.literal _) hs₁
    · exact .pure (.literal _) hs₁
    · exact .pure (.name ht) hs₁
    · split
      · exact .pure (.name ht) hs₁
      · exact .fail hs₁
    · exact (expression_varies c .comma hs₁).andThen fun _ _ _ _ _ _ hvalue hs₂ =>
        (hs₂.expect _ _).andThen fun _ _ _ _ _ _ _ hs₃ => .pure hvalue hs₃
    · exact (lambda_varies c hs₁).widen
    · exact .fail h
termination_by 20 * s.size + 1
decreasing_by all_goals omega

theorem lambda_varies (c : Context) {s s' : Cursor} (h : s.Varies s') :
    (lambda c s).Varies (Expr.Varies .lines) (lambda c s') := by
  rw [lambda, lambda.eq_1 c s']
  refine (parameters_varies h).andThen fun names names' s₁ s₁' h₁ h₁' hnames hs₁ => ?_
  have hnext := hs₁.next
  generalize s₁.next = next, s₁'.next = next' at hnext
  cases hnext with
  | stop => exact .fail hs₁
  | token ht hs₂ h₂ h₂' =>
    dsimp only
    rw [ht.1]
    split
    · exact (block_varies c.enterFunction hs₂).andThen fun _ _ _ _ _ _ hbody hs₃ =>
        .pure (.lambda (.mk hnames (.block hbody))) hs₃
    · exact (expression_varies c .assignment hs₂).andThen fun _ _ _ _ _ _ hvalue hs₃ =>
        .pure (.lambda (.mk hnames (.jump ⟨rfl, rfl⟩ (.some hvalue)))) hs₃
    · exact .fail hs₁
termination_by 20 * s.size
decreasing_by all_goals omega

theorem block_varies (c : Context) {s s' : Cursor} (h : s.Varies s') :
    (block c s).Varies (List.Forall₂ (Stmt.Varies .lines)) (block c s') := by
  rw [block, block.eq_1 c s']
  have hdeclaration := declaration_varies c h
  have hnext := h.next
  generalize s.next = next, s'.next = next' at hnext
  cases hnext with
  | stop => exact .fail h
  | token ht hs₁ h₁ h₁' =>
    dsimp only
    rw [Variation.is ht]
    split
    · exact .pure .nil hs₁
    · exact hdeclaration.andThen fun _ _ _ _ h₂ _ hfirst hs₂ =>
        (block_varies c hs₂).andThen fun _ _ _ _ _ _ hothers hs₃ =>
          .pure (.cons hfirst hothers) hs₃
termination_by 20 * s.size + 18
decreasing_by all_goals omega

theorem declaration_varies (c : Context) {s s' : Cursor} (h : s.Varies s') :
    (declaration c s).Varies (Stmt.Varies .lines) (declaration c s') := by
  rw [declaration, declaration.eq_1 c s']
  have hstatement := statement_varies c h
  have hnext := h.next
  generalize s.next = next, s'.next = next' at hnext
  cases hnext with
  | stop => exact hstatement
  | token ht hs₁ h₁ h₁' =>
    dsimp only
    rw [ht.1]
    split
    · exact (classDefinition_varies c hs₁).widen
    · exact (definition_varies c hs₁).andThen fun _ _ _ _ _ _ hd hs₂ => .pure (.function hd) hs₂
    · exact (variableDefinition_varies c hs₁).widen
    · exact hstatement
termination_by 20 * s.size + 17
decreasing_by all_goals omega

theorem classDefinition_varies (c : Context) {s s' : Cursor} (h : s.Varies s') :
    (classDefinition c s).Varies (Stmt.Varies .lines) (classDefinition c s') := by
  rw [classDefinition, classDefinition.eq_1 c s']
  exact (h.expectName _).andThen fun _ _ _ _ h₁ _ hname hs₁ =>
    (hs₁.expect _ _).andThen fun _ _ _ _ h₂ _ _ hs₂ =>
      (members_varies c.enterClass hs₂).andThen fun _ _ _ _ _ _ hms hs₃ =>
        .pure (.classDef hname (Member.varies_collect false hms) (Member.varies_collect true hms))
          hs₃
termination_by 20 * s.size
decreasing_by all_goals omega

theorem members_varies (c : Context) {s s' : Cursor} (h : s.Varies s') :
    (members c s).Varies (List.Forall₂ (Member.Varies .lines)) (members c s') := by
  rw [members, members.eq_1 c s']
  have hdefinition := definition_varies c h
  have hnext := h.next
  generalize s.next = next, s'.next = next' at hnext
  cases hnext with
  | stop => exact .fail h
  | token ht hs₁ h₁ h₁' =>
    dsimp only
    rw [ht.1]
    split
    · exact .pure .nil hs₁
    · exact (definition_varies c hs₁).andThen fun _ _ _ _ h₂ _ hd hs₂ =>
        (members_varies c hs₂).andThen fun _ _ _ _ _ _ hms hs₃ =>
          .pure (.cons ⟨rfl, hd⟩ hms) hs₃
    · exact hdefinition.andThen fun _ _ _ _ h₂ _ hd hs₂ =>
        (members_varies c hs₂).andThen fun _ _ _ _ _ _ hms hs₃ =>
          .pure (.cons ⟨rfl, hd⟩ hms) hs₃
termination_by 20 * s.size + 1
decreasing_by all_goals omega

theorem definition_varies (c : Context) {s s' : Cursor} (h : s.Varies s') :
    (definition c s).Varies (Definition.Varies .lines) (definition c s') := by
  rw [definition, definition.eq_1 c s']
  exact (h.expectName _).andThen fun _ _ _ _ h₁ _ hname hs₁ =>
    (parameters_varies hs₁).andThen fun _ _ _ _ h₂ _ hnames hs₂ =>
      (hs₂.expect _ _).andThen fun _ _ _ _ h₃ _ _ hs₃ =>
        (block_varies c.enterFunction hs₃).andThen fun _ _ _ _ _ _ hbody hs₄ =>
          .pure (.mk hname (.mk hnames (.block hbody))) hs₄
termination_by 20 * s.size
decreasing_by all_goals omega

theorem variableDefinition_varies (c : Context) {s s' : Cursor} (h : s.Varies s') :
    (variableDefinition c s).Varies (Stmt.Varies .lines) (variableDefinition c s') := by
  rw [variableDefinition, variableDefinition.eq_1 c s']
  refine (h.expectName _).andThen fun name name' s₁ s₁' h₁ h₁' hname hs₁ => ?_
  have haccept := hs₁.accept .equal
  generalize s₁.accept .equal = next, s₁'.accept .equal = next' at haccept
  cases haccept with
  | stop =>
    exact (hs₁.expect _ _).andThen fun _ _ _ _ _ _ _ hs₂ => .pure (.declare hname .none) hs₂
  | token _ hs₂ h₂ h₂' =>
    exact (expression_varies c .comma hs₂).andThen fun _ _ _ _ _ _ hvalue hs₃ =>
      (hs₃.expect _ _).andThen fun _ _ _ _ _ _ _ hs₄ => .pure (.declare hname (.some hvalue)) hs₄
termination_by 20 * s.size
decreasing_by all_goals omega

theorem statement_varies (c : Context) {s s' : Cursor} (h : s.Varies s') :
    (statement c s).Varies (Stmt.Varies .lines) (statement c s') := by
  rw [statement, statement.eq_1 c s']
  have hexpression := expressionStatement_varies c h
  have hnext := h.next
  generalize s.next = next, s'.next = next' at hnext
  cases hnext with
  | stop => exact hexpression
  | token ht hs₁ h₁ h₁' =>
    dsimp only
    rw [ht.1]
    split
    · exact (forStatement_varies c hs₁).widen
    · exact (ifStatement_varies c hs₁).widen
    · exact (whileStatement_varies c hs₁).widen
    · exact (jumpStatement_varies ht hs₁).widen
    · exact (jumpStatement_varies ht hs₁).widen
    · exact (returnStatement_varies c ht hs₁).widen
    · exact (block_varies c hs₁).andThen fun _ _ _ _ _ _ hbody hs₂ => .pure (.block hbody) hs₂
    · exact (expression_varies c .comma hs₁).andThen fun _ _ _ _ _ _ hvalue hs₂ =>
        (hs₂.expect _ _).andThen fun _ _ _ _ _ _ _ hs₃ => .pure (.print hvalue) hs₃
    · exact .pure .empty hs₁
    · exact hexpression
termination_by 20 * s.size + 16
decreasing_by all_goals omega

theorem expressionStatement_varies (c : Context) {s s' : Cursor} (h : s.Varies s') :
    (expressionStatement c s).Varies (Stmt.Varies .lines) (expressionStatement c s') := by
  rw [expressionStatement, expressionStatement.eq_1 c s']
  exact (expression_varies c .comma h).andThen fun _ _ _ _ _ _ hvalue hs₁ =>
    (hs₁.expect _ _).andThen fun _ _ _ _ _ _ _ hs₂ => .pure (.expression hvalue) hs₂
termination_by 20 * s.size + 15
decreasing_by all_goals omega

theorem optionalExpression_varies (c : Context) (stop : Symbol) {s s' : Cursor}
    (h : s.Varies s') : (optionalExpression c stop s).Varies (Option.Rel (Expr.Varies .lines))
      (optionalExpression c stop s') := by
  rw [optionalExpression, optionalExpression.eq_1 c stop s', h.sees]
  split
  · exact .pure .none h
  · exact (expression_varies c .comma h).andThen fun _ _ _ _ _ _ hvalue hs₁ =>
      .pure (.some hvalue) hs₁
termination_by 20 * s.size + 15
decreasing_by all_goals omega

theorem forStatement_varies (c : Context) {s s' : Cursor} (h : s.Varies s') :
    (forStatement c s).Varies (Stmt.Varies .lines) (forStatement c s') := by
  rw [forStatement, forStatement.eq_1 c s']
  exact (h.expect _ _).andThen fun _ _ _ _ h₁ _ _ hs₁ =>
    (forInitial_varies c hs₁).andThen fun _ _ _ _ h₂ _ hinitial hs₂ =>
      (optionalExpression_varies c _ hs₂).andThen fun _ _ _ _ h₃ _ hcondition hs₃ =>
        (hs₃.expect _ _).andThen fun _ _ _ _ h₄ _ _ hs₄ =>
          (optionalExpression_varies c _ hs₄).andThen fun _ _ _ _ h₅ _ hstep hs₅ =>
            (hs₅.expect _ _).andThen fun _ _ _ _ h₆ _ _ hs₆ =>
              (statement_varies c.enterLoop hs₆).andThen fun _ _ _ _ _ _ hbody hs₇ =>
                .pure (.forLoop hinitial hcondition hstep hbody) hs₇
termination_by 20 * s.size
decreasing_by all_goals omega

theorem forInitial_varies (c : Context) {s s' : Cursor} (h : s.Varies s') :
    (forInitial c s).Varies (Option.Rel (Stmt.Varies .lines)) (forInitial c s') := by
  rw [forInitial, forInitial.eq_1 c s']
  have hexpression := expressionStatement_varies c h
  have hnext := h.next
  generalize s.next = next, s'.next = next' at hnext
  cases hnext with
  | stop => exact hexpression.andThen fun _ _ _ _ _ _ hinitial hs₂ => .pure (.some hinitial) hs₂
  | token ht hs₁ h₁ h₁' =>
    dsimp only
    rw [ht.1]
    split
    · exact .pure .none hs₁
    · exact (variableDefinition_varies c hs₁).andThen fun _ _ _ _ _ _ hinitial hs₂ =>
        .pure (.some hinitial) hs₂
    · exact hexpression.andThen fun _ _ _ _ _ _ hinitial hs₂ => .pure (.some hinitial) hs₂
termination_by 20 * s.size + 16
decreasing_by all_goals omega

theorem ifStatement_varies (c : Context) {s s' : Cursor} (h : s.Varies s') :
    (ifStatement c s).Varies (Stmt.Varies .lines) (ifStatement c s') := by
  rw [ifStatement, ifStatement.eq_1 c s']
  refine (h.expect _ _).andThen fun _ _ s₁ s₁' h₁ h₁' _ hs₁ => ?_
  refine (expression_varies c .comma hs₁).andThen fun e e' s₂ s₂' h₂ h₂' he hs₂ => ?_
  refine (hs₂.expect _ _).andThen fun _ _ s₃ s₃' h₃ h₃' _ hs₃ => ?_
  refine (statement_varies c hs₃).andThen fun whenTrue whenTrue' s₄ s₄' h₄ h₄' htrue hs₄ => ?_
  have haccept := hs₄.accept .elseWord
  generalize s₄.accept .elseWord = next, s₄'.accept .elseWord = next' at haccept
  cases haccept with
  | stop => exact .pure (.branch he htrue .none) hs₄
  | token _ hs₅ h₅ h₅' =>
    exact (statement_varies c hs₅).andThen fun _ _ _ _ _ _ hfalse hs₆ =>
      .pure (.branch he htrue (.some hfalse)) hs₆
termination_by 20 * s.size
decreasing_by all_goals omega

theorem whileStatement_varies (c : Context) {s s' : Cursor} (h : s.Varies s') :
    (whileStatement c s).Varies (Stmt.Varies .lines) (whileStatement c s') := by
  rw [whileStatement, whileStatement.eq_1 c s']
  exact (h.expect _ _).andThen fun _ _ _ _ h₁ _ _ hs₁ =>
    (expression_varies c .comma hs₁).andThen fun _ _ _ _ h₂ _ he hs₂ =>
      (hs₂.expect _ _).andThen fun _ _ _ _ h₃ _ _ hs₃ =>
        (statement_varies c.enterLoop hs₃).andThen fun _ _ _ _ _ _ hbody hs₄ =>
          .pure (.whileLoop he hbody) hs₄
termination_by 20 * s.size
decreasing_by all_goals omega

theorem returnStatement_varies (c : Context) {t t' : Token} (ht : Variation.lines.token t t')
    {s s' : Cursor} (h : s.Varies s') :
    (returnStatement c t s).Varies (Stmt.Varies .lines) (returnStatement c t' s') := by
  rw [returnStatement, returnStatement.eq_1 c t' s']
  refine .note ?_ ((optionalExpression_varies c _ h).andThen fun _ _ _ _ _ _ hvalue hs₁ =>
    (hs₁.expect _ _).andThen fun _ _ _ _ _ _ _ hs₂ => .pure (.jump ht hvalue) hs₂)
  split
  · exact .nil
  · exact .cons rfl .nil
termination_by 20 * s.size + 16
decreasing_by all_goals omega

end

end Reading

/-! ### Programs -/

namespace Parsed

/-- Programs that vary in their lines, with the same mistakes in the same order. -/
structure Varies (p p' : Parsed) : Prop where
  /-- The programs vary in their lines. -/
  program : List.Forall₂ (Stmt.Varies .lines) p.program p'.program
  /-- The mistakes are the same. -/
  errors : List.Forall₂ GrammarError.Varies p.errors p'.errors

theorem Varies.prepend {p p' : Parsed} (h : p.Varies p') {ss ss' : List Stmt}
    (hss : List.Forall₂ (Stmt.Varies .lines) ss ss') {es es' : List GrammarError}
    (hes : List.Forall₂ GrammarError.Varies es es') :
    (p.prepend ss es).Varies (p'.prepend ss' es') :=
  ⟨List.rel_append hss h.program, List.rel_append hes h.errors⟩

theorem varies_ofCursor {s s' : Cursor} (h : s.Varies s') :
    (ofCursor s).Varies (ofCursor s') := by
  rw [ofCursor, ofCursor.eq_1 s']
  have hdeclaration := Reading.declaration_varies .outermost h
  have hnext := h.next
  generalize s.next = next, s'.next = next' at hnext
  cases hnext with
  | stop => exact ⟨.nil, .nil⟩
  | token ht hs₁ h₁ h₁' =>
    dsimp only
    generalize Reading.declaration .outermost s = r, Reading.declaration .outermost s' = r'
      at hdeclaration
    cases hdeclaration with
    | done hx hs₂ hreports h₂ h₂' =>
      exact (varies_ofCursor hs₂).prepend (.cons hx .nil) hreports
    | @failed _ _ s₂ s₂' _ _ he hs₂ hreports h₂ h₂' =>
      have hcursor {s₁ s₁' : Cursor} (hs₁ : s₁.Varies s₁') :
          (if s₂.size = s.size then s₁ else s₂).Varies
            (if s₂'.size = s'.size then s₁' else s₂') := by
        rw [hs₂.size_eq, h.size_eq]
        split
        · exact hs₁
        · exact hs₂
      exact (varies_ofCursor (hcursor hs₁).resume).prepend .nil
        (List.rel_append hreports (.cons he .nil))
termination_by s.size
decreasing_by
  · assumption
  · refine Nat.lt_of_le_of_lt (Cursor.size_resume_le _) ?_
    split
    · assumption
    · omega

/-- **Reading does not depend on the layout.** From tokens that differ in their lines only the
reader reads programs that differ in their lines only, and it finds the same mistakes in the same
order. -/
theorem varies_ofTokens {ts ts' : List Token} (h : List.Forall₂ Variation.lines.token ts ts') :
    (ofTokens ts).Varies (ofTokens ts') := by
  refine varies_ofCursor ⟨?_⟩
  show List.Forall₂ _ (ts.takeWhile fun t => !t.kind.isEof) (ts'.takeWhile fun t => !t.kind.isEof)
  induction h with
  | nil => exact .nil
  | cons ht _ ih =>
    rw [List.takeWhile_cons, List.takeWhile_cons, ht.1]
    split
    · exact .cons ht ih
    · exact .nil

end Parsed

end Lox
