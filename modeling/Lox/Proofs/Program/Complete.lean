import Lox.Proofs.Program.Sound

/-!
# Every phrase is read

The reader looks one token ahead, so what it reads is decided by the tokens with which phrases begin
and by those that may follow. From a cursor in front of a phrase it reads what the phrase stands
for, if what is left may stand behind the phrase. The proof follows the phrase; for the two parts
that the reader reads in a loop, the operands of a tier and the trailers of a call, a phrase is read
in front of whatever else the loop reads.

Main statements:

* `Phrase.starts` — the tokens with which the phrases of a part begin;
* `Phrase.complete` — a phrase of a part is read;
* `parsed_ofCursor_iff` — a program is read without a mistake iff its tokens are a phrase.
-/

namespace Lox

open Reading

/-! ### First tokens -/

/-- Whether a declaration starts with a token of the kind. -/
def Kind.startsDeclaration : Kind → Bool
  | .symbol x => Cursor.startsStatement x || x == .semicolon || (symbol x).startsExpression
  | k => k.startsExpression

/-- Whether a statement starts with a token of the kind. -/
def Kind.startsStatement : Kind → Bool
  | .symbol .classWord | .symbol .varWord => false
  | k => k.startsDeclaration

/-- Whether a phrase of a part may start with a token of the kind. Nothing is said of the parts
whose first token no function of the reader looks at. -/
def Part.startsWith : Part → Kind → Bool
  | .expression .call, k | .primary, k => k.startsPrimary
  | .expression _, k | .argumentList, k => k.startsExpression
  | .statement, k => k.startsStatement
  | .declaration, k => k.startsDeclaration
  | .definition, .identifier => true
  | .definition, _ => false
  | _, _ => true

theorem Kind.startsExpression_of_primary {k : Kind} (h : k.startsPrimary = true) :
    k.startsExpression = true := by
  unfold startsExpression
  split <;> first | rfl | exact h

theorem Kind.startsStatement_of_expression {k : Kind} (h : k.startsExpression = true) :
    k.startsStatement = true := by
  cases k with
  | symbol x => cases x <;> first | rfl | exact absurd h (by decide)
  | _ => exact h

theorem Kind.startsDeclaration_of_statement {k : Kind} (h : k.startsStatement = true) :
    k.startsDeclaration = true := by
  unfold startsStatement at h
  split at h <;> first | exact h | exact nomatch h

theorem Part.startsWith_of_tighter? {l l' : Level} {k : Kind} (hl : l.tighter? = some l')
    (h : (Part.expression l').startsWith k = true) : (Part.expression l).startsWith k = true := by
  have hk : k.startsExpression = true := by
    cases l' with
    | call => exact Kind.startsExpression_of_primary h
    | _ => exact h
  cases l with
  | call => exact nomatch hl
  | _ => exact hk

/-- Tokens with one in front with which a phrase of a part may start. -/
def Part.Starts (p : Part) (ts : List Token) : Prop :=
  ∃ t us, ts = t :: us ∧ p.startsWith t.kind = true

theorem Part.Starts.append {p p' : Part} {ts us : List Token} (h : p.Starts ts)
    (hp : ∀ k, p.startsWith k = true → p'.startsWith k = true) : p'.Starts (ts ++ us) := by
  obtain ⟨t, ts, rfl, ht⟩ := h
  exact ⟨t, ts ++ us, rfl, hp _ ht⟩

theorem Part.starts_cons {p : Part} {t : Token} {ts : List Token} {k : Kind} (ht : t.kind = k)
    (hk : p.startsWith k = true) : p.Starts (t :: ts) :=
  ⟨t, ts, rfl, ht ▸ hk⟩

theorem Kind.startsPrimary_of_literal? {k : Kind} {v : Literal} (h : k.literal? = some v) :
    k.startsPrimary = true := by
  unfold startsPrimary
  split <;> simp [h]

/-- Every phrase that is not empty starts with a token of its part. -/
theorem Phrase.starts {c : Context} {p : Part} {e : Ending} {ts : List Token} {x : p.Result}
    (h : Phrase c p e ts x) (hp : p ≠ .optional ∧ p ≠ .program) : p.Starts ts := by
  -- What is put together starts as its first part does, and that is a token or a tighter phrase.
  induction h with
  | absent | present => exact absurd rfl hp.1
  | programEnd | programMore => exact absurd rfl hp.2
  | lift hl hx ih =>
    obtain ⟨t, us, rfl, ht⟩ := ih ⟨nofun, nofun⟩
    exact ⟨t, us, rfl, Part.startsWith_of_tighter? hl ht⟩
  | comma hx hop hy ihx ihy => exact (ihx ⟨nofun, nofun⟩).append fun _ h => h
  | assign hx hop hv hy ihx ihv => exact (ihx ⟨nofun, nofun⟩).append fun _ h => h
  | conditional hx hop hy hcolon hz ihx ihy ihz => exact (ihx ⟨nofun, nofun⟩).append fun _ h => h
  | operator hx hop hy ihx ihy => exact (ihx ⟨nofun, nofun⟩).append fun _ h => h
  | unary hop hx ih => exact hop.elim (Part.starts_cons · rfl) (Part.starts_cons · rfl)
  | callee hx ih => exact ih ⟨nofun, nofun⟩
  | call hf hparen hxs ihf ihxs => exact (ihf ⟨nofun, nofun⟩).append fun _ h => h
  | member hx hdot hname ih => exact (ih ⟨nofun, nofun⟩).append fun _ h => h
  | literal ht => exact ⟨_, [], rfl, Kind.startsPrimary_of_literal? ht⟩
  | name ht | this ht hc => exact Part.starts_cons ht rfl
  | paren hopen hx hclose ih => exact Part.starts_cons hopen rfl
  | lambda hword hps hbrace hbody ih => exact Part.starts_cons hword rfl
  | arrow hword hps harrow hx ih => exact Part.starts_cons hword rfl
  | noArguments hclose => exact Part.starts_cons hclose rfl
  | someArguments hxs hle ih =>
    obtain ⟨t, us, rfl, -⟩ := ih ⟨nofun, nofun⟩
    exact ⟨t, us, rfl, rfl⟩
  | lastArgument hx hclose ih => exact (ih ⟨nofun, nofun⟩).append fun _ h => h
  | moreArguments hx hcomma hxs ihx ihxs => exact (ihx ⟨nofun, nofun⟩).append fun _ h => h
  | blockEnd hclose | membersEnd hclose => exact Part.starts_cons hclose rfl
  | blockMore hx hxs ihx ihxs => exact (ihx ⟨nofun, nofun⟩).append fun _ _ => rfl
  | classDefinition hword hname hbrace hms ih => exact Part.starts_cons hword rfl
  | function hword hd ih | declare hword hd ih => exact Part.starts_cons hword rfl
  | statement hx hfun ih =>
    obtain ⟨t, us, rfl, ht⟩ := ih ⟨nofun, nofun⟩
    exact ⟨t, us, rfl, Kind.startsDeclaration_of_statement ht⟩
  | method hd hms ihd ihms => exact (ihd ⟨nofun, nofun⟩).append fun _ _ => rfl
  | classMethod hword hd hms ihd ihms => exact Part.starts_cons hword rfl
  | definition hname hps hbrace hbody ih => exact Part.starts_cons hname rfl
  | noValue hname hclose => exact Part.starts_cons hname rfl
  | value hname hequal hx hclose ih => exact Part.starts_cons hname rfl
  | expression hx hclose ih =>
    exact (ih ⟨nofun, nofun⟩).append fun _ h => Kind.startsStatement_of_expression h
  | print hword hx hclose ih => exact Part.starts_cons hword rfl
  | branch hword hopen hx hclose hy ihx ihy => exact Part.starts_cons hword rfl
  | branchElse hword hopen hx hclose hy hother hz ihx ihy ihz => exact Part.starts_cons hword rfl
  | whileLoop hword hopen hx hclose hy ihx ihy => exact Part.starts_cons hword rfl
  | forLoop hword hopen hx hy hsemicolon hz hclose hbody ihx ihy ihz ihbody =>
    exact Part.starts_cons hword rfl
  | jump hword hc hclose => exact hword.elim (Part.starts_cons · rfl) (Part.starts_cons · rfl)
  | giveBack hword hc hx hclose ih => exact Part.starts_cons hword rfl
  | block hbrace hbody ih => exact Part.starts_cons hbrace rfl
  | empty hclose | noInitial hclose => exact Part.starts_cons hclose rfl
  | initialVariable hword hx ih => exact Part.starts_cons hword rfl
  | initialExpression hx hclose ih => exact (ih ⟨nofun, nofun⟩).append fun _ _ => rfl

/-- A kind that is not the symbol `x`, as a phrase starts with the one and not with the other. -/
theorem Part.ne_of_startsWith {p : Part} {k : Kind} {x : Symbol} (hk : p.startsWith k = true)
    (hx : p.startsWith (.symbol x) = false) : k ≠ .symbol x := by
  rintro rfl
  rw [hx] at hk
  exact nomatch hk

/-- No declaration starts with `else`, so an `if` without `else` may stand in front of one. -/
theorem Phrase.lacks_else {c : Context} {e : Ending} {ts rest : List Token} {x : Stmt}
    (h : Phrase c .declaration e ts x) : Lacks .elseWord (ts ++ rest) := by
  obtain ⟨t, us, rfl, ht⟩ := h.starts ⟨nofun, nofun⟩
  intro t' ht'
  obtain rfl : t = t' := by simpa using ht'
  exact Part.ne_of_startsWith ht rfl

theorem Phrase.lacks_else_of_block {c : Context} {e : Ending} {ts rest : List Token}
    {xs : List Stmt} (h : Phrase c .block e ts xs) : Lacks .elseWord (ts ++ rest) := by
  cases h with
  | blockEnd hclose =>
    intro t ht
    obtain rfl := Option.some.inj ht
    simp [hclose]
  | blockMore hx hxs =>
    rw [List.append_assoc]
    exact hx.lacks_else

theorem Phrase.lacks_else_of_program {c : Context} {e : Ending} {ts : List Token} {xs : List Stmt}
    (h : Phrase c .program e ts xs) : Lacks .elseWord ts := by
  cases h with
  | programEnd => exact fun t ht => nomatch ht
  | programMore hx hxs => exact hx.lacks_else

/-! ### The reader on a phrase -/

/-- A phrase of a part is read. The operands of a tier and the trailers of a call are read in a
loop: there, whatever the loop makes of the phrase and the tokens behind it is read. -/
def Part.Complete (c : Context) (e : Ending) (ts : List Token) : (p : Part) → p.Result → Prop
  -- The loop may go on behind the phrase: only what the operands themselves take in is excluded.
  | .expression (.tier t), x => ∀ (s : Cursor) rest y rest', s.rest = ts ++ rest →
      Stops (e.bound t.tighter.rank) rest →
      (∀ s', s'.rest = rest → (operands c t x s').Reads y rest') →
      (Reading.expression c (.tier t) s).Reads y rest'
  | .expression .call, x => ∀ (s : Cursor) rest y rest', s.rest = ts ++ rest →
      Stops (e.bound (Level.call.rank + 1)) rest →
      (∀ s', s'.rest = rest → (trailers c x s').Reads y rest') →
      (Reading.expression c .call s).Reads y rest'
  | .argumentList, xs => ∀ (s : Cursor) rest count, s.rest = ts ++ rest →
      count + xs.length ≤ maxArity → (Reading.argumentList c count s).Reads xs rest
  | .optional, x => ∀ (s : Cursor) rest stop, stop ∈ [.semicolon, .rightParen] →
      s.rest = ts ++ rest → (∃ t us, rest = t :: us ∧ t.kind = .symbol stop) →
      (optionalExpression c stop s).Reads x rest
  | .program, x => ∀ s : Cursor, c = .outermost → s.rest = ts → Parsed.ofCursor s = ⟨x, []⟩
  | p, x => ∀ (s : Cursor) rest, s.rest = ts ++ rest → Follows p e rest → p.Reads c s x rest

namespace Reading

variable {c : Context} {s : Cursor} {e : Ending} {ts rest : List Token}

/-- Where no operator of the tier stands, there are no further operands. -/
theorem operands_reads_nil {t : Tier} {left : Expr}
    (hno : ∀ op ∈ s.rest.head?, ¬ (Level.tier t).goesOn op = true) :
    (operands c t left s).Reads left s.rest := by
  rw [operands]
  split
  · next op s₁ h₁ hn =>
    have hop : ¬ t.admits op = true := hno op (by simp [Cursor.rest_of_next hn])
    rw [if_neg hop]
    exact Reply.reads_pure_iff.mpr ⟨rfl, rfl⟩
  · exact Reply.reads_pure_iff.mpr ⟨rfl, rfl⟩

/-- Where neither a parenthesis nor a dot stands, there are no further trailers. -/
theorem trailers_reads_nil {callee : Expr}
    (hno : ∀ t ∈ s.rest.head?, ¬ Level.call.goesOn t = true) :
    (trailers c callee s).Reads callee s.rest := by
  rw [trailers]
  split
  · next t s₁ h₁ hn =>
    have ht : ¬ Level.call.goesOn t = true := hno t (by simp [Cursor.rest_of_next hn])
    split
    · next hk => exact absurd (by simp [Level.goesOn, Token.is, hk]) ht
    · next hk => exact absurd (by simp [Level.goesOn, Token.is, hk]) ht
    · exact Reply.reads_pure_iff.mpr ⟨rfl, rfl⟩
  · exact Reply.reads_pure_iff.mpr ⟨rfl, rfl⟩

/-- An expression is read as it is, once what follows stops its own loop. -/
theorem expression_reads {l : Level} {x : Expr} (h : Part.Complete c e ts (.expression l) x)
    (hs : s.rest = ts ++ rest) (hstop : Stops (e.bound l.rank) rest) :
    (expression c l s).Reads x rest := by
  have hno := hstop.not_goesOn (e.bound_le l.rank)
  -- In the two loops nothing more is read, as what follows goes on with neither.
  cases l with
  | tier t =>
    have hmono := e.bound_mono (Nat.le_of_lt (Tier.rank_lt_tighter t))
    refine h s rest x rest hs (hstop.mono hmono) fun s' hs' => ?_
    subst hs'
    exact operands_reads_nil hno
  | call =>
    have hmono := e.bound_mono (Nat.le_succ Level.call.rank)
    refine h s rest x rest hs (hstop.mono hmono) fun s' hs' => ?_
    subst hs'
    exact trailers_reads_nil hno
  | comma | assignment | conditional | unary => exact h s rest hs hstop

theorem parameterList_reads {names : List Token} (h : ParameterNames ts names) {count : Nat}
    (hs : s.rest = ts ++ rest) (hle : count + names.length ≤ maxArity) :
    (parameterList count s).Reads names rest := by
  induction h generalizing s count with
  | last hname hclose =>
    rw [List.length_singleton] at hle
    rw [parameterList]
    refine Reply.reads_note_iff.mpr ⟨overflow_eq_nil_iff.mpr (by omega), ?_⟩
    refine .andThen (Cursor.reads_expectName_iff.mpr ⟨hs, hname⟩) fun s₁ h₁ hs₁ => ?_
    rw [Cursor.accept_eq_stop (by simp [hs₁, hclose])]
    refine .andThen (Cursor.reads_expect_iff.mpr ⟨hs₁, hclose⟩) fun s₂ h₂ hs₂ => ?_
    exact Reply.reads_pure_iff.mpr ⟨rfl, hs₂⟩
  | more hname hcomma hmore ih =>
    rw [List.length_cons] at hle
    rw [parameterList]
    refine Reply.reads_note_iff.mpr ⟨overflow_eq_nil_iff.mpr (by omega), ?_⟩
    refine .andThen (Cursor.reads_expectName_iff.mpr ⟨hs, hname⟩) fun s₁ h₁ hs₁ => ?_
    obtain ⟨s₂, h₂, ha, hs₂⟩ := Cursor.accept_of_rest hs₁ hcomma
    rw [ha]
    refine .andThen (ih hs₂ (by omega)) fun s₃ h₃ hs₃ => ?_
    exact Reply.reads_pure_iff.mpr ⟨rfl, hs₃⟩

theorem parameters_reads {names : List Token} (h : Parameters ts names)
    (hs : s.rest = ts ++ rest) : (parameters s).Reads names rest := by
  cases h with
  | none hopen hclose =>
    rw [parameters]
    refine .andThen (Cursor.reads_expect_iff.mpr ⟨hs, hopen⟩) fun s₁ h₁ hs₁ => ?_
    obtain ⟨s₂, h₂, ha, hs₂⟩ := Cursor.accept_of_rest hs₁ hclose
    rw [ha]
    exact Reply.reads_pure_iff.mpr ⟨rfl, hs₂⟩
  | some hopen hnames hle =>
    rw [parameters]
    refine .andThen (Cursor.reads_expect_iff.mpr ⟨hs, hopen⟩) fun s₁ h₁ hs₁ => ?_
    have hno : s₁.accept .rightParen = .stop := by
      apply Cursor.accept_eq_stop
      cases hnames with
      | last hname | more hname => simp [hs₁, hname]
    rw [hno]
    exact Reply.reads_widen_iff.mpr (parameterList_reads hnames hs₁ (by omega))

/-! ### Expressions -/

variable {e₁ e₂ : Ending} {us vs ws : List Token} {op : Token} {x y z : Expr}

/-- What stops a level stops the level of its operands, so an operand is read. -/
theorem operand_reads {l l' : Level} (hl : l.tighter? = some l')
    (h : Part.Complete c e ts (.expression l') x) (hs : s.rest = ts ++ rest)
    (hstop : Stops (e.bound l.rank) rest) : (expression c l' s).Reads x rest := by
  have hle : l.rank ≤ l'.rank := by rw [Level.rank_of_tighter? hl]; exact Nat.le_succ _
  exact expression_reads h hs (hstop.mono (e.bound_mono hle))

theorem lift_complete {l l' : Level} (hl : l.tighter? = some l')
    (hfirst : (Part.expression l').Starts ts) (h : Part.Complete c e ts (.expression l') x) :
    Part.Complete c e ts (.expression l) x := by
  cases l with
  | tier t =>
    cases hl
    intro s rest y rest' hs hstop hloop
    rw [expression]
    refine .andThen (expression_reads h hs hstop) fun s₁ h₁ hs₁ => ?_
    exact Reply.reads_widen_iff.mpr (hloop s₁ hs₁)
  | unary =>
    cases hl
    intro s rest hs hstop
    change (expression c .unary s).Reads x rest
    obtain ⟨t, us, rfl, ht⟩ := hfirst
    -- What starts a tighter expression is none of the operators in front.
    have hbang : ¬ (t.is .bang || t.is .minus) = true := by
      rw [Bool.or_eq_true, Token.is_iff, Token.is_iff]
      rintro (hk | hk) <;> exact Part.ne_of_startsWith ht rfl hk
    obtain ⟨s₁, h₁, hn, hs₁⟩ := Cursor.next_of_rest hs
    rw [expression, hn]
    simp only [hbang]
    exact operand_reads rfl h hs hstop
  | call => exact nomatch hl
  | comma | assignment | conditional =>
    cases hl
    intro s rest hs hstop
    have hno := Stops.not_goesOn hstop (e.bound_le _)
    simp only [Part.Reads]
    rw [expression]
    refine .andThen (operand_reads rfl h hs hstop) fun s₁ h₁ hs₁ => ?_
    rw [Cursor.accept_eq_stop fun t ht hk => hno t (hs₁ ▸ ht) (Token.is_iff.mpr hk)]
    exact Reply.reads_pure_iff.mpr ⟨rfl, hs₁⟩

theorem comma_complete (hx : Part.Complete c e₁ ts (.expression .assignment) x)
    (hop : op.kind = .symbol .comma) (hy : Part.Complete c e us (.expression .comma) y) :
    Part.Complete c e (ts ++ op :: us) (.expression .comma) (.binary x op y) := by
  intro s rest hs hstop
  simp only [Part.Reads]
  rw [List.append_assoc, List.cons_append] at hs
  have hgo : Level.comma.goesOn op = true := Token.is_iff.mpr hop
  -- Even a left side that ends in an arrow leaves the comma: its body is an assignment.
  have hlt : Level.comma.rank < e₁.bound Level.assignment.rank := by cases e₁ <;> decide
  rw [expression]
  refine .andThen (expression_reads hx hs (stops_cons_of_goesOn hgo hlt)) fun s₁ h₁ hs₁ => ?_
  obtain ⟨s₂, h₂, ha, hs₂⟩ := Cursor.accept_of_rest hs₁ hop
  rw [ha]
  refine .andThen (expression_reads hy hs₂ hstop) fun s₃ h₃ hs₃ => ?_
  exact Reply.reads_pure_iff.mpr ⟨rfl, hs₃⟩

theorem assign_complete (hx : Part.Complete c .closed ts (.expression .conditional) x)
    (hop : op.kind = .symbol .equal) (hy : Part.Complete c e us (.expression .assignment) y)
    (hz : x.assigned? y = some z) :
    Part.Complete c e (ts ++ op :: us) (.expression .assignment) z := by
  intro s rest hs hstop
  simp only [Part.Reads]
  rw [List.append_assoc, List.cons_append] at hs
  have hgo : Level.assignment.goesOn op = true := Token.is_iff.mpr hop
  rw [expression]
  refine .andThen (expression_reads hx hs (stops_cons_of_goesOn hgo (by decide)))
    fun s₁ h₁ hs₁ => ?_
  obtain ⟨s₂, h₂, ha, hs₂⟩ := Cursor.accept_of_rest hs₁ hop
  rw [ha]
  refine .andThen (expression_reads hy hs₂ hstop) fun s₃ h₃ hs₃ => ?_
  rw [hz]
  exact Reply.reads_pure_iff.mpr ⟨rfl, hs₃⟩

theorem conditional_complete {colon : Token}
    (hx : Part.Complete c .closed ts (.expression (.tier .disjunction)) x)
    (hop : op.kind = .symbol .question) (hy : Part.Complete c e₁ us (.expression .conditional) y)
    (hcolon : colon.kind = .symbol .colon)
    (hz : Part.Complete c e vs (.expression .conditional) z) :
    Part.Complete c e (ts ++ op :: (us ++ colon :: vs)) (.expression .conditional)
      (.conditional x y z) := by
  intro s rest hs hstop
  simp only [Part.Reads]
  rw [List.append_assoc, List.cons_append, List.append_assoc, List.cons_append] at hs
  have hgo : Level.conditional.goesOn op = true := Token.is_iff.mpr hop
  rw [expression]
  refine .andThen (expression_reads hx hs (stops_cons_of_goesOn hgo (by decide)))
    fun s₁ h₁ hs₁ => ?_
  obtain ⟨s₂, h₂, ha, hs₂⟩ := Cursor.accept_of_rest hs₁ hop
  rw [ha]
  refine .andThen (expression_reads hy hs₂ (stops_cons_of_kind hcolon (by decide)))
    fun s₃ h₃ hs₃ => ?_
  refine .andThen (Cursor.reads_expect_iff.mpr ⟨hs₃, hcolon⟩) fun s₄ h₄ hs₄ => ?_
  refine .andThen (expression_reads hz hs₄ hstop) fun s₅ h₅ hs₅ => ?_
  exact Reply.reads_pure_iff.mpr ⟨rfl, hs₅⟩

theorem operator_complete {t : Tier} (hx : Part.Complete c .closed ts (.expression (.tier t)) x)
    (hop : t.admits op = true) (hy : Part.Complete c e us (.expression t.tighter) y) :
    Part.Complete c e (ts ++ op :: us) (.expression (.tier t)) (t.join x op y) := by
  intro s rest z rest' hs hstop hloop
  rw [List.append_assoc, List.cons_append] at hs
  have hgo : (Level.tier t).goesOn op = true := hop
  -- The left operand is read by the same loop, so what holds of it is used with this operator next.
  refine hx s _ z rest' hs (stops_cons_of_goesOn hgo (Tier.rank_lt_tighter t)) fun s₁ hs₁ => ?_
  obtain ⟨s₂, h₂, hn, hs₂⟩ := Cursor.next_of_rest hs₁
  rw [operands, hn]
  simp only [hop, if_true]
  refine .andThen (expression_reads hy hs₂ hstop) fun s₃ h₃ hs₃ => ?_
  exact Reply.reads_widen_iff.mpr (hloop s₃ hs₃)

theorem unary_complete (hop : op.kind = .symbol .bang ∨ op.kind = .symbol .minus)
    (hx : Part.Complete c e ts (.expression .unary) x) :
    Part.Complete c e (op :: ts) (.expression .unary) (.unary op x) := by
  intro s rest hs hstop
  simp only [Part.Reads]
  have his : (op.is .bang || op.is .minus) = true := by
    rw [Bool.or_eq_true, Token.is_iff, Token.is_iff]
    exact hop
  obtain ⟨s₁, h₁, hn, hs₁⟩ := Cursor.next_of_rest hs
  rw [expression, hn]
  simp only [his, if_true]
  refine .andThen (expression_reads hx hs₁ hstop) fun s₂ h₂ hs₂ => ?_
  exact Reply.reads_pure_iff.mpr ⟨rfl, hs₂⟩

theorem callee_complete (hx : Part.Complete c e ts .primary x) :
    Part.Complete c e ts (.expression .call) x := by
  intro s rest y rest' hs hstop hloop
  have hprimary : (primary c s).Reads x rest := hx s rest hs hstop
  rw [expression]
  refine .andThen hprimary fun s₁ h₁ hs₁ => ?_
  exact Reply.reads_widen_iff.mpr (hloop s₁ hs₁)

theorem call_complete {paren : Token} {xs : List Expr}
    (hx : Part.Complete c .closed ts (.expression .call) x)
    (hparen : paren.kind = .symbol .leftParen) (hxs : Part.Complete c .closed us .arguments xs) :
    Part.Complete c .closed (ts ++ paren :: us) (.expression .call) (.call x paren xs) := by
  intro s rest y rest' hs hstop hloop
  rw [List.append_assoc, List.cons_append] at hs
  refine hx s _ y rest' hs (stops_of_lt (by decide)) fun s₁ hs₁ => ?_
  obtain ⟨s₂, h₂, hn, hs₂⟩ := Cursor.next_of_rest hs₁
  have harguments : (arguments c s₂).Reads xs rest := hxs s₂ rest hs₂ trivial
  rw [trailers, hn]
  simp only [hparen]
  refine .andThen harguments fun s₃ h₃ hs₃ => ?_
  exact Reply.reads_widen_iff.mpr (hloop s₃ hs₃)

theorem member_complete {dot name : Token} (hx : Part.Complete c .closed ts (.expression .call) x)
    (hdot : dot.kind = .symbol .dot) (hname : name.kind = .identifier) :
    Part.Complete c .closed (ts ++ [dot, name]) (.expression .call) (.get x name) := by
  intro s rest y rest' hs hstop hloop
  rw [List.append_assoc] at hs
  refine hx s _ y rest' hs (stops_of_lt (by decide)) fun s₁ hs₁ => ?_
  obtain ⟨s₂, h₂, hn, hs₂⟩ := Cursor.next_of_rest hs₁
  rw [trailers, hn]
  simp only [hdot]
  refine .andThen (Cursor.reads_expectName_iff.mpr ⟨hs₂, hname⟩) fun s₃ h₃ hs₃ => ?_
  exact Reply.reads_widen_iff.mpr (hloop s₃ hs₃)

variable {word opening close : Token} {ps names : List Token} {body xs : List Stmt}

theorem literal_complete {t : Token} {v : Literal} (ht : t.kind.literal? = some v) :
    Part.Complete c .closed [t] .primary (.literal v) := by
  intro s rest hs hfollows
  simp only [Part.Reads]
  obtain ⟨s₁, h₁, hn, hs₁⟩ := Cursor.next_of_rest hs
  rw [primary, hn]
  unfold Kind.literal? at ht
  split at ht
  case h_6 => cases ht
  all_goals
    next hk =>
      obtain rfl := Option.some.inj ht
      simp only [hk]
      exact Reply.reads_pure_iff.mpr ⟨rfl, hs₁⟩

theorem name_complete {t : Token} (ht : t.kind = .identifier) :
    Part.Complete c .closed [t] .primary (.name t) := by
  intro s rest hs hfollows
  simp only [Part.Reads]
  obtain ⟨s₁, h₁, hn, hs₁⟩ := Cursor.next_of_rest hs
  rw [primary, hn]
  simp only [ht]
  exact Reply.reads_pure_iff.mpr ⟨rfl, hs₁⟩

theorem this_complete {t : Token} (ht : t.kind = .symbol .thisWord) (hc : c.inClass = true) :
    Part.Complete c .closed [t] .primary (.name t) := by
  intro s rest hs hfollows
  simp only [Part.Reads]
  obtain ⟨s₁, h₁, hn, hs₁⟩ := Cursor.next_of_rest hs
  rw [primary, hn]
  simp only [ht, hc, if_true]
  exact Reply.reads_pure_iff.mpr ⟨rfl, hs₁⟩

theorem paren_complete (hopen : opening.kind = .symbol .leftParen)
    (hx : Part.Complete c e ts (.expression .comma) x) (hclose : close.kind = .symbol .rightParen) :
    Part.Complete c .closed (opening :: (ts ++ [close])) .primary x := by
  intro s rest hs hfollows
  simp only [Part.Reads]
  rw [List.cons_append, List.append_assoc] at hs
  obtain ⟨s₁, h₁, hn, hs₁⟩ := Cursor.next_of_rest hs
  rw [primary, hn]
  simp only [hopen]
  refine .andThen (expression_reads hx hs₁ (stops_cons_of_kind hclose (by decide)))
    fun s₂ h₂ hs₂ => ?_
  refine .andThen (Cursor.reads_expect_iff.mpr ⟨hs₂, hclose⟩) fun s₃ h₃ hs₃ => ?_
  exact Reply.reads_pure_iff.mpr ⟨rfl, hs₃⟩

/-- A function without a name is read by the function for what stands behind its keyword. -/
theorem primary_reads_of_lambda (hword : word.kind = .symbol .funWord)
    (hs : s.rest = word :: ts)
    (h : ∀ s₁ : Cursor, s₁.rest = ts → (lambda c s₁).Reads x rest) :
    (primary c s).Reads x rest := by
  obtain ⟨s₁, h₁, hn, hs₁⟩ := Cursor.next_of_rest hs
  rw [primary, hn]
  simp only [hword]
  exact Reply.reads_widen_iff.mpr (h s₁ hs₁)

theorem lambda_complete {brace : Token} (hword : word.kind = .symbol .funWord)
    (hps : Parameters ps names) (hbrace : brace.kind = .symbol .leftBrace)
    (hbody : Part.Complete c.enterFunction .closed ts .block body) :
    Part.Complete c .closed (word :: (ps ++ brace :: ts)) .primary
      (.lambda (.mk names (.block body))) := by
  intro s rest hs hfollows
  rw [List.cons_append, List.append_assoc, List.cons_append] at hs
  refine primary_reads_of_lambda hword hs fun s₁ hs₁ => ?_
  rw [lambda]
  refine .andThen (parameters_reads hps hs₁) fun s₂ h₂ hs₂ => ?_
  obtain ⟨s₃, h₃, hn, hs₃⟩ := Cursor.next_of_rest hs₂
  have hblock : (block c.enterFunction s₃).Reads body rest := hbody s₃ rest hs₃ trivial
  rw [hn]
  simp only [hbrace]
  refine .andThen hblock fun s₄ h₄ hs₄ => ?_
  exact Reply.reads_pure_iff.mpr ⟨rfl, hs₄⟩

theorem arrow_complete {arrow : Token} (hword : word.kind = .symbol .funWord)
    (hps : Parameters ps names) (harrow : arrow.kind = .symbol .arrow)
    (hx : Part.Complete c e ts (.expression .assignment) x) :
    Part.Complete c .greedy (word :: (ps ++ arrow :: ts)) .primary (.lambda (.mk names
      (.jump ⟨.symbol .returnWord, Symbol.returnWord.spelling, arrow.line⟩ (some x)))) := by
  intro s rest hs hstop
  rw [List.cons_append, List.append_assoc, List.cons_append] at hs
  -- What stops an arrow stops assignments, whatever the ending of the body.
  have hbody : Stops (e.bound Level.assignment.rank) rest := by cases e <;> exact hstop
  refine primary_reads_of_lambda hword hs fun s₁ hs₁ => ?_
  rw [lambda]
  refine .andThen (parameters_reads hps hs₁) fun s₂ h₂ hs₂ => ?_
  obtain ⟨s₃, h₃, hn, hs₃⟩ := Cursor.next_of_rest hs₂
  rw [hn]
  simp only [harrow]
  refine .andThen (expression_reads hx hs₃ hbody) fun s₄ h₄ hs₄ => ?_
  exact Reply.reads_pure_iff.mpr ⟨rfl, hs₄⟩

theorem noArguments_complete (hclose : close.kind = .symbol .rightParen) :
    Part.Complete c .closed [close] .arguments [] := by
  intro s rest hs hfollows
  simp only [Part.Reads]
  obtain ⟨s₁, h₁, ha, hs₁⟩ := Cursor.accept_of_rest hs hclose
  rw [arguments, ha]
  exact Reply.reads_pure_iff.mpr ⟨rfl, hs₁⟩

theorem someArguments_complete {xs : List Expr} (hfirst : Part.argumentList.Starts ts)
    (hxs : Part.Complete c .closed ts .argumentList xs) (hle : xs.length ≤ maxArity) :
    Part.Complete c .closed ts .arguments xs := by
  intro s rest hs hfollows
  simp only [Part.Reads]
  obtain ⟨t, us, rfl, ht⟩ := hfirst
  -- No argument starts with the parenthesis that ends the list.
  have hno : s.accept .rightParen = .stop := by
    refine Cursor.accept_eq_stop fun t' ht' => ?_
    obtain rfl : t = t' := by simpa [hs] using ht'
    exact Part.ne_of_startsWith ht rfl
  rw [arguments, hno]
  exact hxs s rest 0 hs (by omega)

theorem lastArgument_complete (hx : Part.Complete c e ts (.expression .assignment) x)
    (hclose : close.kind = .symbol .rightParen) :
    Part.Complete c .closed (ts ++ [close]) .argumentList [x] := by
  intro s rest count hs hle
  rw [List.append_assoc] at hs
  rw [List.length_singleton] at hle
  rw [argumentList]
  refine Reply.reads_note_iff.mpr ⟨overflow_eq_nil_iff.mpr (by omega), ?_⟩
  refine .andThen (expression_reads hx hs (stops_cons_of_kind hclose (by decide)))
    fun s₁ h₁ hs₁ => ?_
  rw [Cursor.accept_eq_stop (by simp [hs₁, hclose])]
  refine .andThen (Cursor.reads_expect_iff.mpr ⟨hs₁, hclose⟩) fun s₂ h₂ hs₂ => ?_
  exact Reply.reads_pure_iff.mpr ⟨rfl, hs₂⟩

theorem moreArguments_complete {comma : Token} {xs : List Expr}
    (hx : Part.Complete c e ts (.expression .assignment) x) (hcomma : comma.kind = .symbol .comma)
    (hxs : Part.Complete c .closed us .argumentList xs) :
    Part.Complete c .closed (ts ++ comma :: us) .argumentList (x :: xs) := by
  intro s rest count hs hle
  rw [List.append_assoc, List.cons_append] at hs
  rw [List.length_cons] at hle
  have hgo : Level.comma.goesOn comma = true := Token.is_iff.mpr hcomma
  have hlt : Level.comma.rank < e.bound Level.assignment.rank := by cases e <;> decide
  rw [argumentList]
  refine Reply.reads_note_iff.mpr ⟨overflow_eq_nil_iff.mpr (by omega), ?_⟩
  refine .andThen (expression_reads hx hs (stops_cons_of_goesOn hgo hlt)) fun s₁ h₁ hs₁ => ?_
  obtain ⟨s₂, h₂, ha, hs₂⟩ := Cursor.accept_of_rest hs₁ hcomma
  rw [ha]
  refine .andThen (hxs s₂ rest (count + 1) hs₂ (by omega)) fun s₃ h₃ hs₃ => ?_
  exact Reply.reads_pure_iff.mpr ⟨rfl, hs₃⟩

theorem absent_complete : Part.Complete c .closed [] .optional none := by
  intro s rest stop hstop hs hrest
  obtain ⟨t, us, rfl, ht⟩ := hrest
  have hsees : s.sees stop = true := Cursor.sees_iff.mpr ⟨t, by simp [hs], ht⟩
  rw [optionalExpression, if_pos hsees]
  exact Reply.reads_pure_iff.mpr ⟨rfl, hs⟩

theorem present_complete (hfirst : (Part.expression .comma).Starts ts)
    (hx : Part.Complete c e ts (.expression .comma) x) :
    Part.Complete c e ts .optional (some x) := by
  intro s rest stop hstop hs hrest
  obtain ⟨t, us, rfl, ht⟩ := hrest
  have hmem : stop ∈ [Symbol.semicolon, .rightParen] ++ [.colon] :=
    List.mem_append_left _ hstop
  have hends : Stops (e.bound Level.comma.rank) (t :: us) := stops_cons_of_kind ht hmem
  -- No expression starts with the symbol that shows that there is none.
  have hsees : ¬ s.sees stop = true := by
    obtain ⟨t', us', rfl, ht'⟩ := hfirst
    rw [Cursor.sees_iff, hs]
    rintro ⟨t'', ht'', hk⟩
    obtain rfl : t' = t'' := by simpa using ht''
    simp only [List.mem_cons, List.not_mem_nil, or_false] at hstop
    obtain rfl | rfl := hstop <;> exact Part.ne_of_startsWith ht' rfl hk
  rw [optionalExpression, if_neg hsees]
  refine .andThen (expression_reads hx hs hends) fun s₁ h₁ hs₁ => ?_
  exact Reply.reads_pure_iff.mpr ⟨rfl, hs₁⟩

/-! ### Statements -/

/-- An expression and a semicolon are read as a statement. -/
theorem expressionStatement_reads (hx : Part.Complete c e ts (.expression .comma) x)
    (hclose : close.kind = .symbol .semicolon) (hs : s.rest = ts ++ close :: rest) :
    (expressionStatement c s).Reads (.expression x) rest := by
  rw [expressionStatement]
  refine .andThen (expression_reads hx hs (stops_cons_of_kind hclose (by decide)))
    fun s₁ h₁ hs₁ => ?_
  refine .andThen (Cursor.reads_expect_iff.mpr ⟨hs₁, hclose⟩) fun s₂ h₂ hs₂ => ?_
  exact Reply.reads_pure_iff.mpr ⟨rfl, hs₂⟩

/-- No statement with a keyword starts as an expression does. -/
theorem statement_eq_expressionStatement {t : Token} (hs : s.rest = t :: rest)
    (ht : t.kind.startsExpression = true) : statement c s = expressionStatement c s := by
  obtain ⟨s₁, h₁, hn, hs₁⟩ := Cursor.next_of_rest hs
  rw [statement, hn]
  dsimp only
  split
  case h_10 => rfl
  all_goals
    next hk =>
      rw [hk] at ht
      exact absurd ht (by decide)

theorem expression_complete (hfirst : (Part.expression .comma).Starts ts)
    (hx : Part.Complete c e ts (.expression .comma) x) (hclose : close.kind = .symbol .semicolon) :
    Part.Complete c .closed (ts ++ [close]) .statement (.expression x) := by
  intro s rest hs hfollows
  simp only [Part.Reads]
  rw [List.append_assoc] at hs
  obtain ⟨t, us, rfl, ht⟩ := hfirst
  rw [statement_eq_expressionStatement hs ht]
  exact expressionStatement_reads hx hclose hs

theorem print_complete (hword : word.kind = .symbol .printWord)
    (hx : Part.Complete c e ts (.expression .comma) x) (hclose : close.kind = .symbol .semicolon) :
    Part.Complete c .closed (word :: (ts ++ [close])) .statement (.print x) := by
  intro s rest hs hfollows
  simp only [Part.Reads]
  rw [List.cons_append, List.append_assoc] at hs
  obtain ⟨s₁, h₁, hn, hs₁⟩ := Cursor.next_of_rest hs
  rw [statement, hn]
  simp only [hword]
  refine .andThen (expression_reads hx hs₁ (stops_cons_of_kind hclose (by decide)))
    fun s₂ h₂ hs₂ => ?_
  refine .andThen (Cursor.reads_expect_iff.mpr ⟨hs₂, hclose⟩) fun s₃ h₃ hs₃ => ?_
  exact Reply.reads_pure_iff.mpr ⟨rfl, hs₃⟩

theorem branch_complete {y : Stmt} (hword : word.kind = .symbol .ifWord)
    (hopen : opening.kind = .symbol .leftParen)
    (hx : Part.Complete c e₁ ts (.expression .comma) x)
    (hclose : close.kind = .symbol .rightParen) (hy : Part.Complete c e us .statement y) :
    Part.Complete c .greedy (word :: opening :: (ts ++ close :: us)) .statement
      (.branch x y none) := by
  intro s rest hs hfollows
  simp only [Part.Reads]
  rw [List.cons_append, List.cons_append, List.append_assoc, List.cons_append] at hs
  have hno : Lacks .elseWord rest := hfollows rfl
  obtain ⟨s₁, h₁, hn, hs₁⟩ := Cursor.next_of_rest hs
  rw [statement, hn]
  simp only [hword, ifStatement]
  refine Reply.reads_widen_iff.mpr ?_
  refine .andThen (Cursor.reads_expect_iff.mpr ⟨hs₁, hopen⟩) fun s₂ h₂ hs₂ => ?_
  refine .andThen (expression_reads hx hs₂ (stops_cons_of_kind hclose (by decide)))
    fun s₃ h₃ hs₃ => ?_
  refine .andThen (Cursor.reads_expect_iff.mpr ⟨hs₃, hclose⟩) fun s₄ h₄ hs₄ => ?_
  -- The branch may end in an open `if` itself; no `else` follows that one either.
  have hbranch : (statement c s₄).Reads y rest := hy s₄ rest hs₄ fun _ => hno
  refine .andThen hbranch fun s₅ h₅ hs₅ => ?_
  rw [Cursor.accept_eq_stop (hs₅ ▸ hno)]
  exact Reply.reads_pure_iff.mpr ⟨rfl, hs₅⟩

theorem branchElse_complete {other : Token} {y z : Stmt} (hword : word.kind = .symbol .ifWord)
    (hopen : opening.kind = .symbol .leftParen)
    (hx : Part.Complete c e₁ ts (.expression .comma) x)
    (hclose : close.kind = .symbol .rightParen) (hy : Part.Complete c .closed us .statement y)
    (hother : other.kind = .symbol .elseWord) (hz : Part.Complete c e vs .statement z) :
    Part.Complete c e (word :: opening :: (ts ++ close :: (us ++ other :: vs))) .statement
      (.branch x y (some z)) := by
  intro s rest hs hfollows
  simp only [Part.Reads]
  simp only [List.cons_append, List.append_assoc] at hs
  obtain ⟨s₁, h₁, hn, hs₁⟩ := Cursor.next_of_rest hs
  rw [statement, hn]
  simp only [hword, ifStatement]
  refine Reply.reads_widen_iff.mpr ?_
  refine .andThen (Cursor.reads_expect_iff.mpr ⟨hs₁, hopen⟩) fun s₂ h₂ hs₂ => ?_
  refine .andThen (expression_reads hx hs₂ (stops_cons_of_kind hclose (by decide)))
    fun s₃ h₃ hs₃ => ?_
  refine .andThen (Cursor.reads_expect_iff.mpr ⟨hs₃, hclose⟩) fun s₄ h₄ hs₄ => ?_
  -- The first branch is closed, so it does not take the `else` for itself.
  have hbranch : (statement c s₄).Reads y (other :: (vs ++ rest)) :=
    hy s₄ _ hs₄ (follows_statement _)
  refine .andThen hbranch fun s₅ h₅ hs₅ => ?_
  obtain ⟨s₆, h₆, ha, hs₆⟩ := Cursor.accept_of_rest hs₅ hother
  have hbranch' : (statement c s₆).Reads z rest := hz s₆ rest hs₆ hfollows
  rw [ha]
  refine .andThen hbranch' fun s₇ h₇ hs₇ => ?_
  exact Reply.reads_pure_iff.mpr ⟨rfl, hs₇⟩

theorem whileLoop_complete {y : Stmt} (hword : word.kind = .symbol .whileWord)
    (hopen : opening.kind = .symbol .leftParen)
    (hx : Part.Complete c e₁ ts (.expression .comma) x)
    (hclose : close.kind = .symbol .rightParen)
    (hy : Part.Complete c.enterLoop e us .statement y) :
    Part.Complete c e (word :: opening :: (ts ++ close :: us)) .statement (.whileLoop x y) := by
  intro s rest hs hfollows
  simp only [Part.Reads]
  simp only [List.cons_append, List.append_assoc] at hs
  obtain ⟨s₁, h₁, hn, hs₁⟩ := Cursor.next_of_rest hs
  rw [statement, hn]
  simp only [hword, whileStatement]
  refine Reply.reads_widen_iff.mpr ?_
  refine .andThen (Cursor.reads_expect_iff.mpr ⟨hs₁, hopen⟩) fun s₂ h₂ hs₂ => ?_
  refine .andThen (expression_reads hx hs₂ (stops_cons_of_kind hclose (by decide)))
    fun s₃ h₃ hs₃ => ?_
  refine .andThen (Cursor.reads_expect_iff.mpr ⟨hs₃, hclose⟩) fun s₄ h₄ hs₄ => ?_
  have hbody : (statement c.enterLoop s₄).Reads y rest := hy s₄ rest hs₄ hfollows
  refine .andThen hbody fun s₅ h₅ hs₅ => ?_
  exact Reply.reads_pure_iff.mpr ⟨rfl, hs₅⟩

theorem forLoop_complete {semicolon : Token} {x : Option Stmt} {y z : Option Expr} {body : Stmt}
    (hword : word.kind = .symbol .forWord) (hopen : opening.kind = .symbol .leftParen)
    (hx : Part.Complete c .closed ts .initial x) (hy : Part.Complete c e₁ us .optional y)
    (hsemicolon : semicolon.kind = .symbol .semicolon) (hz : Part.Complete c e₂ vs .optional z)
    (hclose : close.kind = .symbol .rightParen)
    (hbody : Part.Complete c.enterLoop e ws .statement body) :
    Part.Complete c e
      (word :: opening :: (ts ++ (us ++ semicolon :: (vs ++ close :: ws)))) .statement
      (.forLoop x y z body) := by
  intro s rest hs hfollows
  simp only [Part.Reads]
  simp only [List.cons_append, List.append_assoc] at hs
  obtain ⟨s₁, h₁, hn, hs₁⟩ := Cursor.next_of_rest hs
  rw [statement, hn]
  simp only [hword, forStatement]
  refine Reply.reads_widen_iff.mpr ?_
  refine .andThen (Cursor.reads_expect_iff.mpr ⟨hs₁, hopen⟩) fun s₂ h₂ hs₂ => ?_
  have hinitial : (forInitial c s₂).Reads x _ := hx s₂ _ hs₂ trivial
  refine .andThen hinitial fun s₃ h₃ hs₃ => ?_
  refine .andThen (hy s₃ _ .semicolon (by decide) hs₃ ⟨_, _, rfl, hsemicolon⟩)
    fun s₄ h₄ hs₄ => ?_
  refine .andThen (Cursor.reads_expect_iff.mpr ⟨hs₄, hsemicolon⟩) fun s₅ h₅ hs₅ => ?_
  refine .andThen (hz s₅ _ .rightParen (by decide) hs₅ ⟨_, _, rfl, hclose⟩) fun s₆ h₆ hs₆ => ?_
  refine .andThen (Cursor.reads_expect_iff.mpr ⟨hs₆, hclose⟩) fun s₇ h₇ hs₇ => ?_
  have hstatement : (statement c.enterLoop s₇).Reads body rest := hbody s₇ rest hs₇ hfollows
  refine .andThen hstatement fun s₈ h₈ hs₈ => ?_
  exact Reply.reads_pure_iff.mpr ⟨rfl, hs₈⟩

theorem jump_complete (hword : word.kind = .symbol .breakWord ∨ word.kind = .symbol .continueWord)
    (hc : c.inLoop = true) (hclose : close.kind = .symbol .semicolon) :
    Part.Complete c .closed [word, close] .statement (.jump word none) := by
  intro s rest hs hfollows
  simp only [Part.Reads]
  obtain ⟨s₁, h₁, hn, hs₁⟩ := Cursor.next_of_rest hs
  have hjump : (jumpStatement c word s₁).Reads (.jump word none) rest := by
    rw [jumpStatement]
    refine Reply.reads_note_iff.mpr ⟨by rw [if_pos hc], ?_⟩
    refine .andThen (Cursor.reads_expect_iff.mpr ⟨hs₁, hclose⟩) fun s₂ h₂ hs₂ => ?_
    exact Reply.reads_pure_iff.mpr ⟨rfl, hs₂⟩
  rw [statement, hn]
  obtain hk | hk := hword <;>
    simp only [hk] <;>
    exact Reply.reads_widen_iff.mpr hjump

theorem giveBack_complete {x : Option Expr} (hword : word.kind = .symbol .returnWord)
    (hc : c.inFunction = true) (hx : Part.Complete c e ts .optional x)
    (hclose : close.kind = .symbol .semicolon) :
    Part.Complete c .closed (word :: (ts ++ [close])) .statement (.jump word x) := by
  intro s rest hs hfollows
  simp only [Part.Reads]
  rw [List.cons_append, List.append_assoc] at hs
  obtain ⟨s₁, h₁, hn, hs₁⟩ := Cursor.next_of_rest hs
  rw [statement, hn]
  simp only [hword, returnStatement]
  refine Reply.reads_widen_iff.mpr (Reply.reads_note_iff.mpr ⟨by rw [if_pos hc], ?_⟩)
  refine .andThen (hx s₁ _ .semicolon (by decide) hs₁ ⟨_, _, rfl, hclose⟩) fun s₂ h₂ hs₂ => ?_
  refine .andThen (Cursor.reads_expect_iff.mpr ⟨hs₂, hclose⟩) fun s₃ h₃ hs₃ => ?_
  exact Reply.reads_pure_iff.mpr ⟨rfl, hs₃⟩

theorem block_complete (hopen : opening.kind = .symbol .leftBrace)
    (hbody : Part.Complete c .closed ts .block body) :
    Part.Complete c .closed (opening :: ts) .statement (.block body) := by
  intro s rest hs hfollows
  simp only [Part.Reads]
  obtain ⟨s₁, h₁, hn, hs₁⟩ := Cursor.next_of_rest hs
  have hblock : (block c s₁).Reads body rest := hbody s₁ rest hs₁ trivial
  rw [statement, hn]
  simp only [hopen]
  refine .andThen hblock fun s₂ h₂ hs₂ => ?_
  exact Reply.reads_pure_iff.mpr ⟨rfl, hs₂⟩

theorem empty_complete (hclose : close.kind = .symbol .semicolon) :
    Part.Complete c .closed [close] .statement .empty := by
  intro s rest hs hfollows
  simp only [Part.Reads]
  obtain ⟨s₁, h₁, hn, hs₁⟩ := Cursor.next_of_rest hs
  rw [statement, hn]
  simp only [hclose]
  exact Reply.reads_pure_iff.mpr ⟨rfl, hs₁⟩

theorem noInitial_complete (hclose : close.kind = .symbol .semicolon) :
    Part.Complete c .closed [close] .initial none := by
  intro s rest hs hfollows
  simp only [Part.Reads]
  obtain ⟨s₁, h₁, hn, hs₁⟩ := Cursor.next_of_rest hs
  rw [forInitial, hn]
  simp only [hclose]
  exact Reply.reads_pure_iff.mpr ⟨rfl, hs₁⟩

theorem initialVariable_complete {x : Stmt} (hword : word.kind = .symbol .varWord)
    (hx : Part.Complete c .closed ts .variableDefinition x) :
    Part.Complete c .closed (word :: ts) .initial (some x) := by
  intro s rest hs hfollows
  simp only [Part.Reads]
  obtain ⟨s₁, h₁, hn, hs₁⟩ := Cursor.next_of_rest hs
  have hvariable : (variableDefinition c s₁).Reads x rest := hx s₁ rest hs₁ trivial
  rw [forInitial, hn]
  simp only [hword]
  refine .andThen hvariable fun s₂ h₂ hs₂ => ?_
  exact Reply.reads_pure_iff.mpr ⟨rfl, hs₂⟩

theorem initialExpression_complete (hfirst : (Part.expression .comma).Starts ts)
    (hx : Part.Complete c e ts (.expression .comma) x) (hclose : close.kind = .symbol .semicolon) :
    Part.Complete c .closed (ts ++ [close]) .initial (some (.expression x)) := by
  intro s rest hs hfollows
  simp only [Part.Reads]
  rw [List.append_assoc] at hs
  have hstatement := expressionStatement_reads hx hclose hs
  obtain ⟨t, us, rfl, ht⟩ := hfirst
  obtain ⟨s₁, h₁, hn, hs₁⟩ := Cursor.next_of_rest hs
  rw [forInitial, hn]
  dsimp only
  split
  · next hk => exact absurd hk (Part.ne_of_startsWith ht rfl)
  · next hk => exact absurd hk (Part.ne_of_startsWith ht rfl)
  · refine .andThen hstatement fun s₂ h₂ hs₂ => ?_
    exact Reply.reads_pure_iff.mpr ⟨rfl, hs₂⟩

/-! ### Declarations -/

theorem noValue_complete {name : Token} (hname : name.kind = .identifier)
    (hclose : close.kind = .symbol .semicolon) :
    Part.Complete c .closed [name, close] .variableDefinition (.declare name none) := by
  intro s rest hs hfollows
  simp only [Part.Reads]
  rw [variableDefinition]
  refine .andThen (Cursor.reads_expectName_iff.mpr ⟨hs, hname⟩) fun s₁ h₁ hs₁ => ?_
  rw [Cursor.accept_eq_stop (by simp [hs₁, hclose])]
  refine .andThen (Cursor.reads_expect_iff.mpr ⟨hs₁, hclose⟩) fun s₂ h₂ hs₂ => ?_
  exact Reply.reads_pure_iff.mpr ⟨rfl, hs₂⟩

theorem value_complete {name equal : Token} (hname : name.kind = .identifier)
    (hequal : equal.kind = .symbol .equal) (hx : Part.Complete c e ts (.expression .comma) x)
    (hclose : close.kind = .symbol .semicolon) :
    Part.Complete c .closed (name :: equal :: (ts ++ [close])) .variableDefinition
      (.declare name (some x)) := by
  intro s rest hs hfollows
  simp only [Part.Reads]
  rw [List.cons_append, List.cons_append, List.append_assoc] at hs
  rw [variableDefinition]
  refine .andThen (Cursor.reads_expectName_iff.mpr ⟨hs, hname⟩) fun s₁ h₁ hs₁ => ?_
  obtain ⟨s₂, h₂, ha, hs₂⟩ := Cursor.accept_of_rest hs₁ hequal
  rw [ha]
  refine .andThen (expression_reads hx hs₂ (stops_cons_of_kind hclose (by decide)))
    fun s₃ h₃ hs₃ => ?_
  refine .andThen (Cursor.reads_expect_iff.mpr ⟨hs₃, hclose⟩) fun s₄ h₄ hs₄ => ?_
  exact Reply.reads_pure_iff.mpr ⟨rfl, hs₄⟩

theorem definition_complete {name brace : Token} (hname : name.kind = .identifier)
    (hps : Parameters ps names) (hbrace : brace.kind = .symbol .leftBrace)
    (hbody : Part.Complete c.enterFunction .closed ts .block body) :
    Part.Complete c .closed (name :: (ps ++ brace :: ts)) .definition
      (.mk name (.mk names (.block body))) := by
  intro s rest hs hfollows
  simp only [Part.Reads]
  rw [List.cons_append, List.append_assoc, List.cons_append] at hs
  rw [definition]
  refine .andThen (Cursor.reads_expectName_iff.mpr ⟨hs, hname⟩) fun s₁ h₁ hs₁ => ?_
  refine .andThen (parameters_reads hps hs₁) fun s₂ h₂ hs₂ => ?_
  refine .andThen (Cursor.reads_expect_iff.mpr ⟨hs₂, hbrace⟩) fun s₃ h₃ hs₃ => ?_
  have hblock : (block c.enterFunction s₃).Reads body rest := hbody s₃ rest hs₃ trivial
  refine .andThen hblock fun s₄ h₄ hs₄ => ?_
  exact Reply.reads_pure_iff.mpr ⟨rfl, hs₄⟩

theorem membersEnd_complete (hclose : close.kind = .symbol .rightBrace) :
    Part.Complete c .closed [close] .members [] := by
  intro s rest hs hfollows
  simp only [Part.Reads]
  obtain ⟨s₁, h₁, hn, hs₁⟩ := Cursor.next_of_rest hs
  rw [members, hn]
  simp only [hclose]
  exact Reply.reads_pure_iff.mpr ⟨rfl, hs₁⟩

theorem method_complete {d : Definition} {ms : List Member} (hfirst : Part.definition.Starts ts)
    (hd : Part.Complete c .closed ts .definition d)
    (hms : Part.Complete c .closed us .members ms) :
    Part.Complete c .closed (ts ++ us) .members (⟨false, d⟩ :: ms) := by
  intro s rest hs hfollows
  simp only [Part.Reads]
  rw [List.append_assoc] at hs
  have hdefinition : (definition c s).Reads d (us ++ rest) := hd s _ hs trivial
  obtain ⟨t, ts', rfl, ht⟩ := hfirst
  obtain ⟨s₁, h₁, hn, hs₁⟩ := Cursor.next_of_rest hs
  rw [members, hn]
  dsimp only
  split
  · next hk => exact absurd hk (Part.ne_of_startsWith ht rfl)
  · next hk => exact absurd hk (Part.ne_of_startsWith ht rfl)
  · refine .andThen hdefinition fun s₂ h₂ hs₂ => ?_
    have hmembers : (members c s₂).Reads ms rest := hms s₂ rest hs₂ trivial
    refine .andThen hmembers fun s₃ h₃ hs₃ => ?_
    exact Reply.reads_pure_iff.mpr ⟨rfl, hs₃⟩

theorem classMethod_complete {d : Definition} {ms : List Member}
    (hword : word.kind = .symbol .classWord) (hd : Part.Complete c .closed ts .definition d)
    (hms : Part.Complete c .closed us .members ms) :
    Part.Complete c .closed (word :: (ts ++ us)) .members (⟨true, d⟩ :: ms) := by
  intro s rest hs hfollows
  simp only [Part.Reads]
  rw [List.cons_append, List.append_assoc] at hs
  obtain ⟨s₁, h₁, hn, hs₁⟩ := Cursor.next_of_rest hs
  have hdefinition : (definition c s₁).Reads d (us ++ rest) := hd s₁ _ hs₁ trivial
  rw [members, hn]
  simp only [hword]
  refine .andThen hdefinition fun s₂ h₂ hs₂ => ?_
  have hmembers : (members c s₂).Reads ms rest := hms s₂ rest hs₂ trivial
  refine .andThen hmembers fun s₃ h₃ hs₃ => ?_
  exact Reply.reads_pure_iff.mpr ⟨rfl, hs₃⟩

theorem classDefinition_complete {name brace : Token} {ms : List Member}
    (hword : word.kind = .symbol .classWord) (hname : name.kind = .identifier)
    (hbrace : brace.kind = .symbol .leftBrace)
    (hms : Part.Complete c.enterClass .closed ts .members ms) :
    Part.Complete c .closed (word :: name :: brace :: ts) .declaration
      (.classDef name (Member.collect false ms) (Member.collect true ms)) := by
  intro s rest hs hfollows
  simp only [Part.Reads]
  obtain ⟨s₁, h₁, hn, hs₁⟩ := Cursor.next_of_rest hs
  rw [declaration, hn]
  simp only [hword, classDefinition]
  refine Reply.reads_widen_iff.mpr ?_
  refine .andThen (Cursor.reads_expectName_iff.mpr ⟨hs₁, hname⟩) fun s₂ h₂ hs₂ => ?_
  refine .andThen (Cursor.reads_expect_iff.mpr ⟨hs₂, hbrace⟩) fun s₃ h₃ hs₃ => ?_
  have hmembers : (members c.enterClass s₃).Reads ms rest := hms s₃ rest hs₃ trivial
  refine .andThen hmembers fun s₄ h₄ hs₄ => ?_
  exact Reply.reads_pure_iff.mpr ⟨rfl, hs₄⟩

theorem function_complete {d : Definition} (hword : word.kind = .symbol .funWord)
    (hd : Part.Complete c .closed ts .definition d) :
    Part.Complete c .closed (word :: ts) .declaration (.function d) := by
  intro s rest hs hfollows
  simp only [Part.Reads]
  obtain ⟨s₁, h₁, hn, hs₁⟩ := Cursor.next_of_rest hs
  have hdefinition : (definition c s₁).Reads d rest := hd s₁ rest hs₁ trivial
  rw [declaration, hn]
  simp only [hword]
  refine .andThen hdefinition fun s₂ h₂ hs₂ => ?_
  exact Reply.reads_pure_iff.mpr ⟨rfl, hs₂⟩

theorem declare_complete {x : Stmt} (hword : word.kind = .symbol .varWord)
    (hx : Part.Complete c .closed ts .variableDefinition x) :
    Part.Complete c .closed (word :: ts) .declaration x := by
  intro s rest hs hfollows
  simp only [Part.Reads]
  obtain ⟨s₁, h₁, hn, hs₁⟩ := Cursor.next_of_rest hs
  have hvariable : (variableDefinition c s₁).Reads x rest := hx s₁ rest hs₁ trivial
  rw [declaration, hn]
  simp only [hword]
  exact Reply.reads_widen_iff.mpr hvariable

theorem statement_complete {x : Stmt} (hfirst : Part.statement.Starts ts)
    (hfun : Lacks .funWord ts) (hx : Part.Complete c e ts .statement x) :
    Part.Complete c e ts .declaration x := by
  intro s rest hs hfollows
  simp only [Part.Reads]
  have hstatement : (statement c s).Reads x rest := hx s rest hs hfollows
  obtain ⟨t, us, rfl, ht⟩ := hfirst
  obtain ⟨s₁, h₁, hn, hs₁⟩ := Cursor.next_of_rest hs
  rw [declaration, hn]
  dsimp only
  -- A statement starts with neither `class` nor `var`, and `fun` is ruled out by the rule.
  split
  · next hk => exact absurd hk (Part.ne_of_startsWith ht rfl)
  · next hk => exact absurd hk (hfun t rfl)
  · next hk => exact absurd hk (Part.ne_of_startsWith ht rfl)
  · exact hstatement

theorem blockEnd_complete (hclose : close.kind = .symbol .rightBrace) :
    Part.Complete c .closed [close] .block [] := by
  intro s rest hs hfollows
  simp only [Part.Reads]
  obtain ⟨s₁, h₁, hn, hs₁⟩ := Cursor.next_of_rest hs
  rw [block, hn]
  simp only [Token.is_iff.mpr hclose, if_true]
  exact Reply.reads_pure_iff.mpr ⟨rfl, hs₁⟩

theorem blockMore_complete {x : Stmt} (hfirst : Part.declaration.Starts ts)
    (helse : ∀ rest, Lacks .elseWord (us ++ rest)) (hx : Part.Complete c e ts .declaration x)
    (hxs : Part.Complete c .closed us .block xs) :
    Part.Complete c .closed (ts ++ us) .block (x :: xs) := by
  intro s rest hs hfollows
  simp only [Part.Reads]
  rw [List.append_assoc] at hs
  have hdeclaration : (declaration c s).Reads x (us ++ rest) := hx s _ hs fun _ => helse rest
  obtain ⟨t, ts', rfl, ht⟩ := hfirst
  obtain ⟨s₁, h₁, hn, hs₁⟩ := Cursor.next_of_rest hs
  -- No declaration starts with the brace that ends the block.
  have hbrace : ¬ t.is .rightBrace = true := fun h =>
    Part.ne_of_startsWith ht rfl (Token.is_iff.mp h)
  rw [block, hn]
  simp only [if_neg hbrace]
  refine .andThen hdeclaration fun s₂ h₂ hs₂ => ?_
  have hblock : (block c s₂).Reads xs rest := hxs s₂ rest hs₂ trivial
  refine .andThen hblock fun s₃ h₃ hs₃ => ?_
  exact Reply.reads_pure_iff.mpr ⟨rfl, hs₃⟩

theorem programEnd_complete : Part.Complete c .closed [] .program [] := by
  intro s hc hs
  rw [Parsed.ofCursor, Cursor.next_of_rest_nil hs]

theorem programMore_complete {x : Stmt} (hfirst : Part.declaration.Starts ts)
    (helse : Lacks .elseWord us) (hx : Part.Complete c e ts .declaration x)
    (hxs : Part.Complete c .closed us .program xs) :
    Part.Complete c .closed (ts ++ us) .program (x :: xs) := by
  rintro s rfl hs
  have hdeclaration : (declaration .outermost s).Reads x us := hx s us hs fun _ => helse
  obtain ⟨s₁, h₁, hd, hs₁⟩ := hdeclaration
  obtain ⟨t, ts', rfl, ht⟩ := hfirst
  obtain ⟨s₂, h₂, hn, hs₂⟩ := Cursor.next_of_rest hs
  rw [Parsed.ofCursor, hn]
  simp only [hd]
  rw [hxs s₁ rfl hs₁]
  rfl

end Reading

/-- A phrase of a part is read, with the loops of the reader still to go on. -/
theorem Phrase.complete {c : Context} {p : Part} {e : Ending} {ts : List Token} {x : p.Result}
    (h : Phrase c p e ts x) : Part.Complete c e ts p x := by
  induction h with
  | lift hl hx ih => exact lift_complete hl (hx.starts ⟨nofun, nofun⟩) ih
  | comma hx hop hy ihx ihy => exact comma_complete ihx hop ihy
  | assign hx hop hv hy ihx ihv => exact assign_complete ihx hop ihv hy
  | conditional hx hop hy hcolon hz ihx ihy ihz => exact conditional_complete ihx hop ihy hcolon ihz
  | operator hx hop hy ihx ihy => exact operator_complete ihx hop ihy
  | unary hop hx ih => exact unary_complete hop ih
  | callee hx ih => exact callee_complete ih
  | call hf hparen hxs ihf ihxs => exact call_complete ihf hparen ihxs
  | member hx hdot hname ih => exact member_complete ih hdot hname
  | literal ht => exact literal_complete ht
  | name ht => exact name_complete ht
  | this ht hc => exact this_complete ht hc
  | paren hopen hx hclose ih => exact paren_complete hopen ih hclose
  | lambda hword hps hbrace hbody ih => exact lambda_complete hword hps hbrace ih
  | arrow hword hps harrow hx ih => exact arrow_complete hword hps harrow ih
  | noArguments hclose => exact noArguments_complete hclose
  | someArguments hxs hle ih => exact someArguments_complete (hxs.starts ⟨nofun, nofun⟩) ih hle
  | lastArgument hx hclose ih => exact lastArgument_complete ih hclose
  | moreArguments hx hcomma hxs ihx ihxs => exact moreArguments_complete ihx hcomma ihxs
  | absent => exact absent_complete
  | present hx ih => exact present_complete (hx.starts ⟨nofun, nofun⟩) ih
  | blockEnd hclose => exact blockEnd_complete hclose
  | blockMore hx hxs ihx ihxs =>
    exact blockMore_complete (hx.starts ⟨nofun, nofun⟩) (fun _ => hxs.lacks_else_of_block) ihx ihxs
  | classDefinition hword hname hbrace hms ih =>
    exact classDefinition_complete hword hname hbrace ih
  | function hword hd ih => exact function_complete hword ih
  | declare hword hx ih => exact declare_complete hword ih
  | statement hx hfun ih => exact statement_complete (hx.starts ⟨nofun, nofun⟩) hfun ih
  | membersEnd hclose => exact membersEnd_complete hclose
  | method hd hms ihd ihms => exact method_complete (hd.starts ⟨nofun, nofun⟩) ihd ihms
  | classMethod hword hd hms ihd ihms => exact classMethod_complete hword ihd ihms
  | definition hname hps hbrace hbody ih => exact definition_complete hname hps hbrace ih
  | noValue hname hclose => exact noValue_complete hname hclose
  | value hname hequal hx hclose ih => exact value_complete hname hequal ih hclose
  | expression hx hclose ih => exact expression_complete (hx.starts ⟨nofun, nofun⟩) ih hclose
  | print hword hx hclose ih => exact print_complete hword ih hclose
  | branch hword hopen hx hclose hy ihx ihy => exact branch_complete hword hopen ihx hclose ihy
  | branchElse hword hopen hx hclose hy hother hz ihx ihy ihz =>
    exact branchElse_complete hword hopen ihx hclose ihy hother ihz
  | whileLoop hword hopen hx hclose hy ihx ihy =>
    exact whileLoop_complete hword hopen ihx hclose ihy
  | forLoop hword hopen hx hy hsemicolon hz hclose hbody ihx ihy ihz ihbody =>
    exact forLoop_complete hword hopen ihx ihy hsemicolon ihz hclose ihbody
  | jump hword hc hclose => exact jump_complete hword hc hclose
  | giveBack hword hc hx hclose ih => exact giveBack_complete hword hc ih hclose
  | block hbrace hbody ih => exact block_complete hbrace ih
  | empty hclose => exact empty_complete hclose
  | noInitial hclose => exact noInitial_complete hclose
  | initialVariable hword hx ih => exact initialVariable_complete hword ih
  | initialExpression hx hclose ih =>
    exact initialExpression_complete (hx.starts ⟨nofun, nofun⟩) ih hclose
  | programEnd => exact programEnd_complete
  | programMore hx hxs ihx ihxs =>
    exact programMore_complete (hx.starts ⟨nofun, nofun⟩) hxs.lacks_else_of_program ihx ihxs

/-- **A program is read without a mistake iff its tokens are a phrase**, and then it is the program
that the phrase stands for. -/
theorem parsed_ofCursor_iff {s : Cursor} {xs : List Stmt} :
    Parsed.ofCursor s = ⟨xs, []⟩ ↔ Phrase .outermost .program .closed s.rest xs := by
  constructor
  · intro h
    obtain ⟨e, ts, hs, hts, -⟩ := phrase_of_reads s .program _ _ _ ⟨rfl, rfl, h⟩
    obtain rfl := hts.eq_closed rfl
    rw [hs, List.append_nil]
    exact hts
  · intro h
    exact h.complete s rfl rfl

end Lox
