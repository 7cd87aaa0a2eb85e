import Lox.Proofs.Program.Grammar
import Lox.Proofs.Program.Phrase

/-!
# Phrases are derived

A phrase is derived from the enforced grammar: the rules of `Phrase` are productions with their
ambiguities settled. What the grammar says besides, of the targets of assignments, follows from the
trees: only names and members can be assigned to, and a phrase that stands for one of them is a
target of the grammar.

Main statements:

* `Phrase.derived` — each part is derived from its nonterminal;
* `accepts_of_phrase` — the tokens of a program and an end mark are accepted.
-/

namespace Lox

open Rhs

/-- A tree that can be assigned to. -/
def Expr.Assignable (x : Expr) : Prop :=
  ∃ v y, x.assigned? v = some y

section
variable {rules : Nonterminal → Rhs} {c : Context} {a b : Rhs} {accepts : Token → Bool} {t : Token}
  {ts us : List Token}

theorem Derives.cons (ht : accepts t = true) (h : Derives rules c b ts) :
    Derives rules c (.seq (.token accepts) b) (t :: ts) :=
  .seq (.token ht) h

/-- One of the parts of a list. -/
theorem Derives.any {rs : List Rhs} (ha : a ∈ rs) (h : Derives rules c a ts) :
    Derives rules c (any rs) ts := by
  -- The last part of a list stands alone, without an alternative behind it.
  induction rs with
  | nil => exact nomatch ha
  | cons r rs ih =>
    cases rs with
    | nil =>
      obtain rfl := List.mem_singleton.mp ha
      exact h
    | cons r' rs =>
      obtain rfl | hmore := List.mem_cons.mp ha
      · exact .altLeft h
      · exact .altRight (ih hmore)

/-- A nonterminal of a list, by its production. -/
theorem Derives.anyRule {rs : List Rhs} (n : Nonterminal) (hn : Rhs.rule n ∈ rs)
    (h : Derives rules c (rules n) ts) : Derives rules c (Rhs.any rs) ts :=
  .any hn (.rule h)

theorem derives_many_iff : Derives rules c (many a) ts ↔
    ∃ tss : List (List Token), ts = tss.flatten ∧ ∀ us ∈ tss, Derives rules c a us := by
  constructor
  · intro h
    cases h with
    | repeated h hmost => exact ⟨_, rfl, h⟩
  · rintro ⟨tss, rfl, h⟩
    exact .repeated h fun n hn => nomatch hn

theorem Derives.many_nil : Derives rules c (many a) [] :=
  derives_many_iff.mpr ⟨[], rfl, fun _ h => nomatch h⟩

theorem Derives.many_cons (h : Derives rules c a ts) (hmore : Derives rules c (many a) us) :
    Derives rules c (many a) (ts ++ us) := by
  obtain ⟨tss, rfl, htss⟩ := derives_many_iff.mp hmore
  refine derives_many_iff.mpr ⟨ts :: tss, rfl, ?_⟩
  rw [List.forall_mem_cons]
  exact ⟨h, htss⟩

theorem Derives.many_snoc (hmore : Derives rules c (many a) us) (h : Derives rules c a ts) :
    Derives rules c (many a) (us ++ ts) := by
  obtain ⟨tss, rfl, htss⟩ := derives_many_iff.mp hmore
  refine derives_many_iff.mpr ⟨tss ++ [ts], by simp, ?_⟩
  rw [List.forall_mem_append, List.forall_mem_singleton]
  exact ⟨htss, h⟩

/-- A further part behind a part that is followed by any number of such parts. -/
theorem Derives.snoc (hmore : Derives rules c (.seq b (many a)) us) (h : Derives rules c a ts) :
    Derives rules c (.seq b (many a)) (us ++ ts) := by
  cases hmore with
  | seq hb ha =>
    rw [List.append_assoc]
    exact .seq hb (ha.many_snoc h)

end

/-- Derivability from the enforced grammar. -/
abbrev Enforced (c : Context) (r : Rhs) (ts : List Token) : Prop :=
  Derives (production .enforced) c r ts

/-- What the grammar says of the phrases of a part. -/
def Part.Derived (c : Context) (e : Ending) (ts : List Token) : (p : Part) → p.Result → Prop
  -- The grammar names three kinds of calls: all of them, the closed ones, and the targets.
  | .expression l, x => Enforced c (rule (.level l)) ts ∧
      (l = .call → e = .closed → Enforced c (rule .operand) ts) ∧
      (x.Assignable → Enforced c (rule .target) ts)
  | .primary, x => Enforced c (rule .primary) ts ∧ (e = .closed → Enforced c (rule .atom) ts) ∧
      (x.Assignable → Enforced c (rule .target) ts)
  | .arguments, _ => ∃ us close, ts = us ++ [close] ∧ close.kind = .symbol .rightParen ∧
      Enforced c (opt (rule .arguments)) us
  | .argumentList, xs => ∃ us, ∃ tss : List (List Token), ∃ close,
      ts = us ++ (tss.flatten ++ [close]) ∧ close.kind = .symbol .rightParen ∧
      Enforced c (rule (.level .assignment)) us ∧
      (∀ us ∈ tss, Enforced c (.seq (word .comma) (rule (.level .assignment))) us) ∧
      tss.length + 1 = xs.length
  | .optional, _ => Enforced c (opt (rule (.level .comma))) ts
  | .block, _ => ∃ us close, ts = us ++ [close] ∧ close.kind = .symbol .rightBrace ∧
      Enforced c (many (rule .declaration)) us
  | .declaration, _ => Enforced c (rule .declaration) ts
  | .members, _ => ∃ us close, ts = us ++ [close] ∧ close.kind = .symbol .rightBrace ∧
      Enforced c (many (all [opt (word .classWord), function])) us
  | .definition, _ => Enforced c function ts
  -- The phrase begins behind the `var`.
  | .variableDefinition, _ => ∀ t : Token, t.kind = .symbol .varWord →
      Enforced c (rule .varDecl) (t :: ts)
  | .statement, _ => Enforced c (rule .statement) ts
  | .initial, _ => Enforced c (any [rule .varDecl, rule .exprStmt, word .semicolon]) ts
  | .program, _ => Enforced c (many (rule .declaration)) ts

section
variable {c : Context} {e e₁ : Ending} {ts us vs : List Token} {x y z : Expr} {op t close : Token}

theorem name_accepts (ht : t.kind = .identifier) :
    (match t.kind with | .identifier => true | _ => false) = true := by
  rw [ht]

theorem derives_word {rules : Nonterminal → Rhs} {s : Symbol} (ht : t.kind = .symbol s) :
    Derives rules c (word s) [t] :=
  .token (Token.is_iff.mpr ht)

theorem derives_name {rules : Nonterminal → Rhs} (ht : t.kind = .identifier) :
    Derives rules c name [t] :=
  .token (name_accepts ht)

theorem derives_opt_seq_nil {rules : Nonterminal → Rhs} {a b : Rhs} (h : Derives rules c a ts) :
    Derives rules c (.seq a (opt b)) ts := by
  have hseq : Derives rules c (.seq a (opt b)) (ts ++ []) := .seq h .optNone
  rwa [List.append_nil] at hseq

theorem derives_seq_many_nil {rules : Nonterminal → Rhs} {a b : Rhs} (h : Derives rules c a ts) :
    Derives rules c (.seq a (many b)) ts := by
  have hseq : Derives rules c (.seq a (many b)) (ts ++ []) := .seq h .many_nil
  rwa [List.append_nil] at hseq

/-- The productions of the levels start with the level that binds more. -/
theorem derives_lift {v : Version} {l l' : Level} (hl : l.tighter? = some l')
    (h : Derives (production v) c (rule (.level l')) ts) :
    Derives (production v) c (rule (.level l)) ts := by
  cases l with
  | comma | conditional =>
    cases hl
    exact .rule (derives_opt_seq_nil h)
  | assignment =>
    cases hl
    exact .rule (.altRight h)
  | tier t =>
    cases hl
    exact .rule (derives_seq_many_nil h)
  | unary =>
    cases hl
    exact .rule (.altRight h)
  | call => exact nomatch hl

theorem derived_lift {l l' : Level} (hl : l.tighter? = some l')
    (h : Part.Derived c e ts (.expression l') x) : Part.Derived c e ts (.expression l) x := by
  obtain ⟨h, -, htarget⟩ := h
  have hne : l ≠ .call := by
    rintro rfl
    exact nomatch hl
  exact ⟨derives_lift hl h, fun hcall => absurd hcall hne, htarget⟩

/-- An operator makes of its operands a tree that cannot be assigned to. -/
theorem not_assignable {p : Prop} (hx : ∀ v, x.assigned? v = none) (h : x.Assignable) : p := by
  obtain ⟨v, y, hy⟩ := h
  rw [hx v] at hy
  exact nomatch hy

theorem not_assignable_of_assigned? {v w : Expr} (h : x.assigned? v = some y) :
    y.assigned? w = none := by
  obtain ⟨t, -, -, rfl⟩ | ⟨object, member, -, rfl⟩ := Expr.assigned?_eq_some.mp h <;> rfl

theorem not_assignable_join {t : Tier} {w : Expr} : (t.join x op y).assigned? w = none := by
  cases t <;> rfl

/-- The arguments of a call in parentheses make of it a trailer. -/
theorem derives_trailer (hop : op.kind = .symbol .leftParen)
    (hclose : close.kind = .symbol .rightParen) (h : Enforced c (opt (rule .arguments)) us) :
    Enforced c trailer (op :: (us ++ [close])) :=
  .altLeft (.cons (Token.is_iff.mpr hop) (.seq h (derives_word hclose)))

/-- A trailer behind a call makes a call. -/
theorem derived_trailer {f : Expr} (hf : Part.Derived c .closed ts (.expression .call) f)
    (hus : Enforced c trailer us) : Enforced c (rule (.level .call)) (ts ++ us) ∧
      Enforced c (rule .operand) (ts ++ us) := by
  obtain ⟨hcall, hoperand, -⟩ := hf
  cases hcall with
  | rule hcall =>
    cases hoperand rfl rfl with
    | rule hoperand => exact ⟨.rule (.snoc hcall hus), .rule (.snoc hoperand hus)⟩

/-- What is simple is both a primary expression and an atom. -/
theorem derived_simple (h : Enforced c (rule .primary) ts) (hatom : Enforced c (rule .atom) ts)
    (htarget : x.Assignable → Enforced c (rule .target) ts) : Part.Derived c e ts .primary x :=
  ⟨h, fun _ => hatom, htarget⟩

theorem derived_literal {v : Literal} (ht : t.kind.literal? = some v) :
    Part.Derived c .closed [t] .primary (.literal v) := by
  have hliteral : Enforced c literal [t] := by
    refine .token ?_
    unfold Kind.literal? at ht
    split at ht <;> simp_all
  exact derived_simple (.rule (.any (by simp [simple]) hliteral))
    (.rule (.any (by simp [simple]) hliteral)) (not_assignable fun _ => rfl)

theorem derived_name (ht : t.kind = .identifier) :
    Part.Derived c .closed [t] .primary (.name t) := by
  have hname : Enforced c name [t] := derives_name ht
  have htarget : Enforced c (rule .target) ([] ++ [t]) := .rule (.altLeft (.seq .optNone hname))
  exact derived_simple (.rule (.any (by simp [simple]) hname))
    (.rule (.any (by simp [simple]) hname)) fun _ => htarget

theorem derived_this (ht : t.kind = .symbol .thisWord) (hc : c.inClass = true) :
    Part.Derived c .closed [t] .primary (.name t) := by
  have hthis : Enforced c (given Context.inClass (word .thisWord)) [t] :=
    .given hc (derives_word ht)
  -- In a tree `this` is a name, but not of the kind that can be assigned to.
  refine derived_simple (.rule (.any (by simp [simple]) hthis))
    (.rule (.any (by simp [simple]) hthis)) (not_assignable fun v => ?_)
  simp [Expr.assigned?, ht]

theorem derived_paren (hop : op.kind = .symbol .leftParen)
    (hx : Part.Derived c e ts (.expression .comma) x) (hclose : close.kind = .symbol .rightParen) :
    Part.Derived c .closed (op :: (ts ++ [close])) .primary x := by
  obtain ⟨hx, -, htarget⟩ := hx
  have hparen : Enforced c (all [word .leftParen, rule (.level .comma), word .rightParen])
      (op :: (ts ++ [close])) :=
    .cons (Token.is_iff.mpr hop) (.seq hx (derives_word hclose))
  refine derived_simple (.rule (.any (by simp [simple]) hparen))
    (.rule (.any (by simp [simple]) hparen)) fun hassignable => ?_
  exact .rule (.altRight
    (.cons (Token.is_iff.mpr hop) (.seq (htarget hassignable) (derives_word hclose))))

theorem derives_parameterNames {names : List Token} (h : ParameterNames ts names) :
    ∃ us, ∃ tss : List (List Token), ∃ close, ts = us ++ (tss.flatten ++ [close]) ∧
      close.kind = .symbol .rightParen ∧ Enforced c name us ∧
      (∀ us ∈ tss, Enforced c (.seq (word .comma) name) us) ∧ tss.length + 1 = names.length := by
  induction h with
  | last hname hclose =>
    exact ⟨[_], [], _, rfl, hclose, derives_name hname, (fun _ h => nomatch h), rfl⟩
  | @more t comma ts names hname hcomma hmore ih =>
    obtain ⟨us, tss, close, rfl, hclose, hus, htss, hlength⟩ := ih
    refine ⟨[t], (comma :: us) :: tss, close, by simp, hclose, derives_name hname, ?_, ?_⟩
    · rw [List.forall_mem_cons]
      exact ⟨.cons (Token.is_iff.mpr hcomma) hus, htss⟩
    · rw [List.length_cons, List.length_cons, hlength]

/-- A list whose entries are no more than a list may have. -/
theorem derives_list {a : Rhs} {tss : List (List Token)} (hus : Enforced c a us)
    (htss : ∀ us ∈ tss, Enforced c (.seq (word .comma) a) us) (hle : tss.length + 1 ≤ maxArity) :
    Enforced c (list a) (us ++ tss.flatten) := by
  -- The first entry stands in front of the repeated ones, hence the bound that is one less.
  refine .seq hus (.repeated htss fun n hn => ?_)
  obtain rfl := Option.some.inj hn
  omega

theorem derives_parameters {names : List Token} (h : Parameters ts names) :
    Enforced c parameters ts := by
  cases h with
  | none hopen hclose =>
    have hnone : Enforced c (opt (rule .parameters)) [] := .optNone
    exact .cons (Token.is_iff.mpr hopen) (.seq hnone (derives_word hclose))
  | some hopen hnames hle =>
    obtain ⟨us, tss, close, rfl, hclose, hus, htss, hlength⟩ := derives_parameterNames hnames
    have hlist : Enforced c (opt (rule .parameters)) (us ++ tss.flatten) :=
      .optSome (.rule (derives_list hus htss (by omega)))
    rw [← List.append_assoc]
    exact .cons (Token.is_iff.mpr hopen) (.seq hlist (derives_word hclose))

theorem derives_body {brace : Token} (hbrace : brace.kind = .symbol .leftBrace)
    (h : ∃ us close, ts = us ++ [close] ∧ close.kind = .symbol .rightBrace ∧
      Enforced c (many (rule .declaration)) us) : Enforced c (rule .block) (brace :: ts) := by
  obtain ⟨us, close, rfl, hclose, hus⟩ := h
  exact .rule (.cons (Token.is_iff.mpr hbrace) (.seq hus (derives_word hclose)))

end

/-- **A phrase is derived**: the phrases of a part can be derived from the enforced grammar. -/
theorem Phrase.derived {c : Context} {p : Part} {e : Ending} {ts : List Token} {x : p.Result}
    (h : Phrase c p e ts x) : Part.Derived c e ts p x := by
  induction h with
  | lift hl hx ih => exact derived_lift hl ih
  | comma hx hop hy ihx ihy =>
    exact ⟨.rule (.seq ihx.1 (.optSome (.cons (Token.is_iff.mpr hop) ihy.1))), nofun,
      not_assignable fun _ => rfl⟩
  | assign hx hop hv hy ihx ihv =>
    exact ⟨.rule (.altLeft (.seq (ihx.2.2 ⟨_, _, hy⟩) (.cons (Token.is_iff.mpr hop) ihv.1))), nofun,
      not_assignable fun _ => not_assignable_of_assigned? hy⟩
  | conditional hx hop hy hcolon hz ihx ihy ihz =>
    exact ⟨.rule (.seq ihx.1 (.optSome (.cons (Token.is_iff.mpr hop)
      (.seq ihy.1 (.cons (Token.is_iff.mpr hcolon) ihz.1))))), nofun, not_assignable fun _ => rfl⟩
  | operator hx hop hy ihx ihy =>
    cases ihx.1 with
    | rule hleft =>
      exact ⟨.rule (.snoc hleft (.cons hop ihy.1)), nofun,
        not_assignable fun _ => not_assignable_join⟩
  | @unary c e ts op x hop hx ih =>
    have hword : Enforced c (any [word .bang, word .minus]) [op] :=
      hop.elim (fun h => .altLeft (derives_word h)) fun h => .altRight (derives_word h)
    exact ⟨.rule (.altLeft (.seq hword ih.1)), nofun, not_assignable fun _ => rfl⟩
  | callee hx ih =>
    exact ⟨.rule (derives_seq_many_nil ih.1), fun _ he => .rule (derives_seq_many_nil (ih.2.1 he)),
      ih.2.2⟩
  | call hf hparen hxs ihf ihxs =>
    obtain ⟨us, close, rfl, hclose, hus⟩ := ihxs
    have hcall := derived_trailer ihf (derives_trailer hparen hclose hus)
    exact ⟨hcall.1, fun _ _ => hcall.2, not_assignable fun _ => rfl⟩
  | @member c ts dot name x hx hdot hname ih =>
    have hmember : Enforced c trailer [dot, name] :=
      .altRight (.cons (Token.is_iff.mpr hdot) (derives_name hname))
    have htarget : Enforced c (opt (all [rule .operand, word .dot])) (ts ++ [dot]) :=
      .optSome (.seq (ih.2.1 rfl rfl) (derives_word hdot))
    have hcall := derived_trailer ih hmember
    refine ⟨hcall.1, fun _ _ => hcall.2, fun _ => .rule (.altLeft ?_)⟩
    have hall := Derives.seq htarget (derives_name hname)
    rwa [List.append_assoc] at hall
  | literal ht => exact derived_literal ht
  | name ht => exact derived_name ht
  | this ht hc => exact derived_this ht hc
  | paren hopen hx hclose ih => exact derived_paren hopen ih hclose
  | lambda hword hps hbrace hbody ih =>
    have hblock := Derives.within (derives_body hbrace ih)
    refine ⟨.rule (.any (List.mem_append_right _ (List.mem_singleton.mpr rfl)) ?_),
      fun _ => .rule (.any (List.mem_append_right _ (List.mem_singleton.mpr rfl)) ?_),
      not_assignable fun _ => rfl⟩
    · exact .cons (Token.is_iff.mpr hword) (.seq (derives_parameters hps) (.altLeft hblock))
    · exact .cons (Token.is_iff.mpr hword) (.seq (derives_parameters hps) hblock)
  | arrow hword hps harrow hx ih =>
    refine ⟨.rule (.any (List.mem_append_right _ (List.mem_singleton.mpr rfl)) ?_), nofun,
      not_assignable fun _ => rfl⟩
    exact .cons (Token.is_iff.mpr hword)
      (.seq (derives_parameters hps) (.altRight (.cons (Token.is_iff.mpr harrow) ih.1)))
  | noArguments hclose => exact ⟨[], _, rfl, hclose, .optNone⟩
  | someArguments hxs hle ih =>
    obtain ⟨us, tss, close, rfl, hclose, hus, htss, hlength⟩ := ih
    exact ⟨us ++ tss.flatten, close, (List.append_assoc ..).symm, hclose,
      .optSome (.rule (derives_list hus htss (by omega)))⟩
  | lastArgument hx hclose ih =>
    exact ⟨_, [], _, rfl, hclose, ih.1, (fun _ h => nomatch h), rfl⟩
  | @moreArguments c e ts us comma x xs hx hcomma hxs ihx ihxs =>
    obtain ⟨us, tss, close, rfl, hclose, hus, htss, hlength⟩ := ihxs
    refine ⟨ts, (comma :: us) :: tss, close, by simp, hclose, ihx.1, ?_, ?_⟩
    · rw [List.forall_mem_cons]
      exact ⟨.cons (Token.is_iff.mpr hcomma) hus, htss⟩
    · rw [List.length_cons, List.length_cons, hlength]
  | absent => exact .optNone
  | present hx ih => exact .optSome ih.1
  | blockEnd hclose => exact ⟨[], _, rfl, hclose, .many_nil⟩
  | blockMore hx hxs ihx ihxs =>
    obtain ⟨us, close, rfl, hclose, hus⟩ := ihxs
    exact ⟨_, close, (List.append_assoc ..).symm, hclose, .many_cons ihx hus⟩
  | classDefinition hword hname hbrace hms ih =>
    obtain ⟨us, close, rfl, hclose, hus⟩ := ih
    refine .rule (.anyRule .classDecl (by simp) ?_)
    exact .cons (Token.is_iff.mpr hword) (.cons (name_accepts hname)
      (.cons (Token.is_iff.mpr hbrace) (.seq (.within hus) (derives_word hclose))))
  | function hword hd ih =>
    exact .rule (.anyRule .funDecl (by simp) (.cons (Token.is_iff.mpr hword) ih))
  | declare hword hx ih => exact .rule (.any (by simp) (ih _ hword))
  | statement hx hfun ih => exact .rule (.any (by simp) (.lacking hfun ih))
  | membersEnd hclose => exact ⟨[], _, rfl, hclose, .many_nil⟩
  | @method c ts us d ms hd hms ihd ihms =>
    obtain ⟨us, close, rfl, hclose, hus⟩ := ihms
    have hmember : Enforced c (all [opt (word .classWord), Rhs.function]) ([] ++ ts) :=
      .seq .optNone ihd
    exact ⟨ts ++ us, close, (List.append_assoc ..).symm, hclose, .many_cons hmember hus⟩
  | @classMethod c ts us word d ms hword hd hms ihd ihms =>
    obtain ⟨us, close, rfl, hclose, hus⟩ := ihms
    have hmember : Enforced c (all [opt (Rhs.word .classWord), Rhs.function]) ([word] ++ ts) :=
      .seq (.optSome (derives_word hword)) ihd
    exact ⟨word :: ts ++ us, close, by simp, hclose, .many_cons hmember hus⟩
  | definition hname hps hbrace hbody ih =>
    exact .cons (name_accepts hname)
      (.seq (derives_parameters hps) (.within (derives_body hbrace ih)))
  | @noValue c name close hname hclose =>
    intro t ht
    have hnone : Enforced c (opt (all [word .equal, rule (.level .comma)])) [] := .optNone
    exact .rule (.cons (Token.is_iff.mpr ht)
      (.cons (name_accepts hname) (.seq hnone (derives_word hclose))))
  | @value c e ts name equal close x hname hequal hx hclose ih =>
    intro t ht
    have hsome : Enforced c (opt (all [word .equal, rule (.level .comma)])) (equal :: ts) :=
      .optSome (.cons (Token.is_iff.mpr hequal) ih.1)
    exact .rule (.cons (Token.is_iff.mpr ht)
      (.cons (name_accepts hname) (.seq hsome (derives_word hclose))))
  | expression hx hclose ih =>
    exact .rule (.anyRule .exprStmt (by simp) (.seq ih.1 (derives_word hclose)))
  | print hword hx hclose ih =>
    refine .rule (.anyRule .printStmt (by simp) ?_)
    exact .cons (Token.is_iff.mpr hword) (.seq ih.1 (derives_word hclose))
  | branch hword hopen hx hclose hy ihx ihy =>
    refine .rule (.anyRule .ifStmt (by simp) ?_)
    exact .cons (Token.is_iff.mpr hword) (.cons (Token.is_iff.mpr hopen)
      (.seq ihx.1 (.cons (Token.is_iff.mpr hclose) (derives_opt_seq_nil ihy))))
  | branchElse hword hopen hx hclose hy hother hz ihx ihy ihz =>
    refine .rule (.anyRule .ifStmt (by simp) ?_)
    exact .cons (Token.is_iff.mpr hword) (.cons (Token.is_iff.mpr hopen)
      (.seq ihx.1 (.cons (Token.is_iff.mpr hclose)
        (.seq ihy (.optSome (.cons (Token.is_iff.mpr hother) ihz))))))
  | whileLoop hword hopen hx hclose hy ihx ihy =>
    refine .rule (.anyRule .whileStmt (by simp) ?_)
    exact .cons (Token.is_iff.mpr hword) (.cons (Token.is_iff.mpr hopen)
      (.seq ihx.1 (.cons (Token.is_iff.mpr hclose) (.within ihy))))
  | forLoop hword hopen hx hy hsemicolon hz hclose hbody ihx ihy ihz ihbody =>
    refine .rule (.anyRule .forStmt (by simp) ?_)
    exact .cons (Token.is_iff.mpr hword) (.cons (Token.is_iff.mpr hopen)
      (.seq ihx (.seq ihy (.cons (Token.is_iff.mpr hsemicolon)
        (.seq ihz (.cons (Token.is_iff.mpr hclose) (.within ihbody)))))))
  | @jump c word close hword hc hclose =>
    have hwords : Enforced c (any [Rhs.word .breakWord, Rhs.word .continueWord]) [word] :=
      hword.elim (fun h => .altLeft (derives_word h)) fun h => .altRight (derives_word h)
    have hjump : Enforced c (rule .jumpStmt) ([word] ++ [close]) :=
      .rule (.given hc (.seq hwords (derives_word hclose)))
    exact .rule (.any (by simp) hjump)
  | giveBack hword hc hx hclose ih =>
    refine .rule (.anyRule .returnStmt (by simp) (.given hc ?_))
    exact .cons (Token.is_iff.mpr hword) (.seq ih (derives_word hclose))
  | block hbrace hbody ih => exact .rule (.any (by simp) (derives_body hbrace ih))
  | empty hclose => exact .rule (.any (by simp) (derives_word hclose))
  | noInitial hclose => exact .any (by simp) (derives_word hclose)
  | initialVariable hword hx ih => exact .any (by simp) (ih _ hword)
  | initialExpression hx hclose ih =>
    exact Derives.anyRule .exprStmt (by simp) (.seq ih.1 (derives_word hclose))
  | programEnd => exact .many_nil
  | programMore hx hxs ihx ihxs => exact .many_cons ihx ihxs

/-- The tokens of a program with an end mark behind them are accepted. -/
theorem accepts_of_phrase {e : Ending} {ts : List Token} {xs : List Stmt} {eof : Token}
    (h : Phrase .outermost .program e ts xs) (heof : eof.kind.isEof = true) :
    Version.enforced.Accepts (ts ++ [eof]) :=
  .rule (.seq h.derived (.token heof))

end Lox
