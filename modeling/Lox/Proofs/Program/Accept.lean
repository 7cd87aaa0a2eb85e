import Lox.Proofs.Program.Absorb
import Lox.Proofs.Program.Complete
import Lox.Proofs.Program.Derive

/-!
# The reader accepts the enforced grammar

What the nonterminals of the enforced grammar stand for is read off phrases, and this meaning is
closed under the productions: where a production puts parts together in a way that no rule for
phrases does, the greedy part takes in what stands behind it. So whatever is derived is a phrase,
and with that the reader accepts just what is derived.

Main statements:

* `meaning_of_production` — the meaning is closed under the productions;
* `accepts_iff_phrase` — the enforced grammar derives the phrases of programs;
* `errors_eq_nil_iff_accepts` — reading finds no mistake iff the grammar accepts the tokens.
-/

namespace Lox

open Rhs

/-- What the nonterminals stand for: the phrases with their tokens. -/
def Meaning : Nonterminal → Context → List Token → Prop
  | .program, c, ts => ∃ us eof xs, ts = us ++ [eof] ∧ eof.kind.isEof = true ∧
      Phrase c .program .closed us xs
  | .declaration, c, ts | .classDecl, c, ts | .funDecl, c, ts =>
      ∃ e x, Phrase c .declaration e ts x
  | .varDecl, c, ts => ∃ word us x, ts = word :: us ∧ word.kind = .symbol .varWord ∧
      Phrase c .variableDefinition .closed us x
  | .statement, c, ts | .printStmt, c, ts | .ifStmt, c, ts | .whileStmt, c, ts | .forStmt, c, ts
  | .jumpStmt, c, ts | .returnStmt, c, ts => ∃ e x, Phrase c .statement e ts x
  | .exprStmt, c, ts => ∃ e us close x, ts = us ++ [close] ∧ close.kind = .symbol .semicolon ∧
      Phrase c (.expression .comma) e us x
  | .block, c, ts => ∃ brace us xs, ts = brace :: us ∧ brace.kind = .symbol .leftBrace ∧
      Phrase c .block .closed us xs
  | .level l, c, ts => Spells c l ts
  | .target, c, ts => ∃ x, Phrase c (.expression .call) .closed ts x ∧ x.Assignable
  | .operand, c, ts => ∃ x, Phrase c (.expression .call) .closed ts x
  | .atom, c, ts => ∃ x, Phrase c .primary .closed ts x
  | .primary, c, ts => ∃ e x, Phrase c .primary e ts x
  -- The closing parenthesis is no part of the list here, but it is of the phrases.
  | .arguments, c, ts => ∃ xs : List Expr, xs.length ≤ maxArity ∧
      ∀ close : Token, close.kind = .symbol .rightParen →
        Phrase c .argumentList .closed (ts ++ [close]) xs
  | .parameters, _, ts => ∃ names : List Token, names.length ≤ maxArity ∧
      ∀ close : Token, close.kind = .symbol .rightParen → ParameterNames (ts ++ [close]) names

/-- What a right-hand side says of tokens by the meaning of the nonterminals. -/
abbrev Means (c : Context) (r : Rhs) (ts : List Token) : Prop :=
  r.Holds Meaning c ts

variable {c : Context} {ts us : List Token} {a b : Rhs} {t : Token}

theorem kind_of_name (ht : (match t.kind with | .identifier => true | _ => false) = true) :
    t.kind = .identifier := by
  cases hk : t.kind <;> simp_all

/-! ### Expressions -/

theorem spells_absorb {l w : Level} (h : Spells c l ts) (hw : Suffix c w us)
    (hrank : l.rank ≤ w.rank) : Spells c l (ts ++ us) := by
  obtain ⟨e, x, h⟩ := h
  exact h.absorb w us hw fun _ => hrank

/-- An expression takes in, one after the other, all that goes on with it. -/
theorem spells_absorb_all {l : Level} {tss : List (List Token)} (h : Spells c l ts)
    (htss : ∀ us ∈ tss, Suffix c l us) : Spells c l (ts ++ tss.flatten) := by
  induction tss generalizing ts with
  | nil => simpa using h
  | cons us tss ih =>
    rw [List.forall_mem_cons] at htss
    have hmore := ih (spells_absorb h htss.1 (Nat.le_refl _)) htss.2
    rwa [List.append_assoc] at hmore

theorem argumentList_of_means {tss : List (List Token)} (h : Spells c .assignment ts)
    (htss : ∀ us ∈ tss, Means c (.seq (word .comma) (rule (.level .assignment))) us) :
    ∃ xs : List Expr, xs.length = tss.length + 1 ∧
      ∀ close : Token, close.kind = .symbol .rightParen →
        Phrase c .argumentList .closed (ts ++ tss.flatten ++ [close]) xs := by
  obtain ⟨e, x, hx⟩ := h
  induction tss generalizing ts e x with
  | nil => exact ⟨[x], rfl, fun close hclose => by simpa using .lastArgument hx hclose⟩
  | cons us tss ih =>
    rw [List.forall_mem_cons] at htss
    obtain ⟨⟨_, vs, rfl, ⟨comma, rfl, hcomma⟩, e', y, hy⟩, htss⟩ := htss
    obtain ⟨xs, hlength, hxs⟩ := ih htss e' y hy
    refine ⟨x :: xs, by rw [List.length_cons, List.length_cons, hlength], fun close hclose => ?_⟩
    have hmore := hxs close hclose
    rw [List.append_assoc] at hmore
    simpa using .moreArguments hx (Token.is_iff.mp hcomma) hmore

theorem meaning_arguments (h : Means c (production .enforced .arguments) ts) :
    Meaning .arguments c ts := by
  obtain ⟨us, _, rfl, hus, tss, rfl, htss, hmost⟩ := h
  have hle : tss.length ≤ maxArity - 1 := hmost _ rfl
  obtain ⟨xs, hlength, hxs⟩ := argumentList_of_means hus htss
  refine ⟨xs, ?_, hxs⟩
  have hmax : maxArity = 255 := rfl
  omega

theorem suffix_of_trailer (h : Means c trailer us) : Suffix c .call us := by
  obtain h | h := h
  · obtain ⟨_, vs, rfl, ⟨paren, rfl, hparen⟩, ws, _, rfl, hws, ⟨close, rfl, hclose⟩⟩ := h
    have hclose := Token.is_iff.mp hclose
    obtain rfl | ⟨xs, hle, hxs⟩ := hws
    · exact .call (Token.is_iff.mp hparen) (.noArguments hclose)
    · exact .call (Token.is_iff.mp hparen) (.someArguments (hxs close hclose) hle)
  · obtain ⟨_, _, rfl, ⟨dot, rfl, hdot⟩, ⟨name, rfl, hname⟩⟩ := h
    exact .member (Token.is_iff.mp hdot) (kind_of_name hname)

theorem meaning_level {l : Level} (h : Means c (production .enforced (.level l)) ts) :
    Spells c l ts := by
  cases l with
  | comma =>
    obtain ⟨us, vs, rfl, hx, rfl | ⟨_, ws, rfl, ⟨op, rfl, hop⟩, hy⟩⟩ := h
    · rw [List.append_nil]
      exact .lift rfl hx
    · obtain ⟨e, x, hx⟩ := hx
      obtain ⟨e', y, hy⟩ := hy
      exact ⟨e', _, .comma hx (Token.is_iff.mp hop) hy⟩
  | assignment =>
    obtain ⟨us, _, rfl, ⟨x, hx, v', y', hassigned⟩, _, ws, rfl, ⟨op, rfl, hop⟩, hv⟩ | h := h
    · obtain ⟨e, v, hv⟩ := hv
      -- That the target can be assigned to was shown by some value; it can be assigned this one.
      obtain ⟨y, hy⟩ := Expr.assigned?_of_assigned? hassigned v
      exact ⟨e, y, .assign (hx.lower (by decide)) (Token.is_iff.mp hop) hv hy⟩
    · exact .lift rfl h
  | conditional =>
    obtain ⟨us, _, rfl, hx, rfl | ⟨_, _, rfl, ⟨op, rfl, hop⟩, vs, _, rfl, hy, _, ws, rfl,
      ⟨colon, rfl, hcolon⟩, hz⟩⟩ := h
    · rw [List.append_nil]
      exact .lift rfl hx
    · obtain ⟨e, y, hy⟩ := hy
      obtain ⟨e', z, hz⟩ := hz
      -- The condition may end in an arrow, whose body then takes in the branches.
      exact spells_absorb (.lift rfl hx)
        (.conditional (Token.is_iff.mp hop) hy (Token.is_iff.mp hcolon) hz) (Nat.le_refl _)
  | tier t =>
    obtain ⟨us, _, rfl, hx, tss, rfl, htss, -⟩ := h
    -- Any operand but the last may end in an arrow, whose body takes in the operands behind it.
    refine spells_absorb_all (.lift rfl hx) fun ws hws => ?_
    obtain ⟨_, vs, rfl, ⟨op, rfl, hop⟩, e, y, hy⟩ := htss ws hws
    exact .operator hop hy
  | unary =>
    obtain ⟨_, us, rfl, hop, e, x, hx⟩ | h := h
    · obtain ⟨op, rfl, hop⟩ | ⟨op, rfl, hop⟩ := hop
      · exact ⟨e, _, .unary (.inl (Token.is_iff.mp hop)) hx⟩
      · exact ⟨e, _, .unary (.inr (Token.is_iff.mp hop)) hx⟩
    · exact .lift rfl h
  | call =>
    obtain ⟨us, _, rfl, ⟨e, x, hx⟩, tss, rfl, htss, -⟩ := h
    exact spells_absorb_all ⟨e, x, .callee hx⟩ fun ws hws => suffix_of_trailer (htss ws hws)

/-- A closed call with trailers behind it is a closed call. -/
theorem operand_of_trailers {x : Expr} {tss : List (List Token)}
    (h : Phrase c (.expression .call) .closed ts x) (htss : ∀ us ∈ tss, Suffix c .call us) :
    ∃ y, Phrase c (.expression .call) .closed (ts ++ tss.flatten) y := by
  induction tss generalizing ts x with
  | nil => exact ⟨x, by simpa using h⟩
  | cons us tss ih =>
    rw [List.forall_mem_cons] at htss
    have hmore : ∃ y, Phrase c (.expression .call) .closed (ts ++ us) y := by
      cases htss.1 with
      | call hparen hxs => exact ⟨_, .call h hparen hxs⟩
      | member hdot hname => exact ⟨_, .member h hdot hname⟩
    obtain ⟨y, hy⟩ := hmore
    rw [List.flatten_cons, ← List.append_assoc]
    exact ih hy htss.2

theorem meaning_operand (h : Means c (production .enforced .operand) ts) :
    Meaning .operand c ts := by
  obtain ⟨us, _, rfl, ⟨x, hx⟩, tss, rfl, htss, -⟩ := h
  exact operand_of_trailers (.callee hx) fun ws hws => suffix_of_trailer (htss ws hws)

theorem meaning_target (h : Means c (production .enforced .target) ts) : Meaning .target c ts := by
  obtain ⟨_, _, rfl, hobject, ⟨name, rfl, hname⟩⟩ | h := h
  · have hname := kind_of_name hname
    obtain rfl | ⟨us, _, rfl, ⟨x, hx⟩, ⟨dot, rfl, hdot⟩⟩ := hobject
    -- Which value is assigned does not matter.
    · refine ⟨.name name, .callee (.name hname), .literal .nil, .assign name (.literal .nil), ?_⟩
      simp [Expr.assigned?, hname]
    · rw [List.append_assoc]
      exact ⟨.get x name, .member hx (Token.is_iff.mp hdot) hname, .literal .nil, _, rfl⟩
  · obtain ⟨_, _, rfl, ⟨opening, rfl, hopen⟩, us, _, rfl, ⟨x, hx, hassignable⟩,
      ⟨close, rfl, hclose⟩⟩ := h
    exact ⟨x, .callee (.paren (Token.is_iff.mp hopen) (hx.lower (Nat.zero_le _))
      (Token.is_iff.mp hclose)), hassignable⟩

/-! ### Primary expressions -/

theorem parameterNames_of_means {tss : List (List Token)} (h : Means c name ts)
    (htss : ∀ us ∈ tss, Means c (.seq (word .comma) name) us) :
    ∃ names : List Token, names.length = tss.length + 1 ∧
      ∀ close : Token, close.kind = .symbol .rightParen →
        ParameterNames (ts ++ tss.flatten ++ [close]) names := by
  obtain ⟨t, rfl, ht⟩ := h
  induction tss generalizing t with
  | nil => exact ⟨[t], rfl, fun close hclose => .last (kind_of_name ht) hclose⟩
  | cons us tss ih =>
    rw [List.forall_mem_cons] at htss
    obtain ⟨⟨_, _, rfl, ⟨comma, rfl, hcomma⟩, ⟨t', rfl, ht'⟩⟩, htss⟩ := htss
    obtain ⟨names, hlength, hnames⟩ := ih htss t' ht'
    refine ⟨t :: names, by rw [List.length_cons, List.length_cons, hlength],
      fun close hclose => ?_⟩
    exact .more (kind_of_name ht) (Token.is_iff.mp hcomma) (hnames close hclose)

theorem meaning_parameters (h : Means c (production .enforced .parameters) ts) :
    Meaning .parameters c ts := by
  obtain ⟨us, _, rfl, hus, tss, rfl, htss, hmost⟩ := h
  have hle : tss.length ≤ maxArity - 1 := hmost _ rfl
  obtain ⟨names, hlength, hnames⟩ := parameterNames_of_means hus htss
  refine ⟨names, ?_, hnames⟩
  have hmax : maxArity = 255 := rfl
  omega

theorem parameters_of_means (h : Means c parameters ts) : ∃ names, Parameters ts names := by
  obtain ⟨_, _, rfl, ⟨opening, rfl, hopen⟩, us, _, rfl, hus, ⟨close, rfl, hclose⟩⟩ := h
  have hopen := Token.is_iff.mp hopen
  have hclose := Token.is_iff.mp hclose
  obtain rfl | ⟨names, hle, hnames⟩ := hus
  · exact ⟨[], .none hopen hclose⟩
  · exact ⟨names, .some hopen (hnames close hclose) hle⟩

theorem block_of_body (h : Means c body ts) : ∃ brace us xs, ts = brace :: us ∧
    brace.kind = .symbol .leftBrace ∧ Phrase c.enterFunction .block .closed us xs :=
  h

/-- What is simple is an atom. -/
theorem atom_of_simple {r : Rhs} (h : Means c (any (simple ++ [r])) ts) :
    Meaning .atom c ts ∨ Means c r ts := by
  obtain ⟨t, rfl, ht⟩ | ⟨hc, t, rfl, ht⟩ | ⟨t, rfl, ht⟩ | h | h := h
  · have hliteral : ∃ v, t.kind.literal? = some v := by
      dsimp only at ht
      split at ht <;> simp_all [Kind.literal?]
    obtain ⟨v, hv⟩ := hliteral
    exact .inl ⟨_, .literal hv⟩
  · exact .inl ⟨_, .this (Token.is_iff.mp ht) hc⟩
  · exact .inl ⟨_, .name (kind_of_name ht)⟩
  · obtain ⟨_, _, rfl, ⟨opening, rfl, hopen⟩, us, _, rfl, ⟨e, x, hx⟩, ⟨close, rfl, hclose⟩⟩ := h
    exact .inl ⟨x, .paren (Token.is_iff.mp hopen) hx (Token.is_iff.mp hclose)⟩
  · exact .inr h

theorem meaning_atom (h : Means c (production .enforced .atom) ts) : Meaning .atom c ts := by
  obtain h | h := atom_of_simple h
  · exact h
  · obtain ⟨_, _, rfl, ⟨word, rfl, hword⟩, ps, _, rfl, hps, hbody⟩ := h
    obtain ⟨names, hps⟩ := parameters_of_means hps
    obtain ⟨brace, us, xs, rfl, hbrace, hxs⟩ := block_of_body hbody
    exact ⟨_, .lambda (Token.is_iff.mp hword) hps hbrace hxs⟩

theorem meaning_primary (h : Means c (production .enforced .primary) ts) :
    Meaning .primary c ts := by
  obtain ⟨x, hx⟩ | h := atom_of_simple h
  · exact ⟨.closed, x, hx⟩
  · obtain ⟨_, _, rfl, ⟨word, rfl, hword⟩, ps, _, rfl, hps, hbody | harrow⟩ := h
    · obtain ⟨names, hps⟩ := parameters_of_means hps
      obtain ⟨brace, us, xs, rfl, hbrace, hxs⟩ := block_of_body hbody
      exact ⟨.closed, _, .lambda (Token.is_iff.mp hword) hps hbrace hxs⟩
    · obtain ⟨names, hps⟩ := parameters_of_means hps
      obtain ⟨_, us, rfl, ⟨arrow, rfl, harrow⟩, e, x, hx⟩ := harrow
      exact ⟨.greedy, _, .arrow (Token.is_iff.mp hword) hps (Token.is_iff.mp harrow) hx⟩

/-! ### Declarations -/

theorem program_of_many {tss : List (List Token)} (h : ∀ us ∈ tss, Meaning .declaration c us) :
    ∃ xs, Phrase c .program .closed tss.flatten xs := by
  induction tss with
  | nil => exact ⟨[], .programEnd⟩
  | cons us tss ih =>
    rw [List.forall_mem_cons] at h
    obtain ⟨⟨e, x, hx⟩, hmore⟩ := h
    obtain ⟨xs, hxs⟩ := ih hmore
    exact ⟨x :: xs, .programMore hx hxs⟩

theorem block_of_many {tss : List (List Token)} {close : Token}
    (hclose : close.kind = .symbol .rightBrace) (h : ∀ us ∈ tss, Meaning .declaration c us) :
    ∃ xs, Phrase c .block .closed (tss.flatten ++ [close]) xs := by
  induction tss with
  | nil => exact ⟨[], .blockEnd hclose⟩
  | cons us tss ih =>
    rw [List.forall_mem_cons] at h
    obtain ⟨⟨e, x, hx⟩, hmore⟩ := h
    obtain ⟨xs, hxs⟩ := ih hmore
    rw [List.flatten_cons, List.append_assoc]
    exact ⟨x :: xs, .blockMore hx hxs⟩

theorem definition_of_function (h : Means c function ts) :
    ∃ d, Phrase c .definition .closed ts d := by
  obtain ⟨_, _, rfl, ⟨name, rfl, hname⟩, ps, _, rfl, hps, hbody⟩ := h
  obtain ⟨names, hps⟩ := parameters_of_means hps
  obtain ⟨brace, us, xs, rfl, hbrace, hxs⟩ := block_of_body hbody
  exact ⟨_, .definition (kind_of_name hname) hps hbrace hxs⟩

theorem members_of_many {tss : List (List Token)} {close : Token}
    (hclose : close.kind = .symbol .rightBrace)
    (h : ∀ us ∈ tss, Means c (all [opt (word .classWord), function]) us) :
    ∃ ms, Phrase c .members .closed (tss.flatten ++ [close]) ms := by
  induction tss with
  | nil => exact ⟨[], .membersEnd hclose⟩
  | cons us tss ih =>
    rw [List.forall_mem_cons] at h
    obtain ⟨⟨_, vs, rfl, hword, hd⟩, hmore⟩ := h
    obtain ⟨d, hd⟩ := definition_of_function hd
    obtain ⟨ms, hms⟩ := ih hmore
    rw [List.flatten_cons, List.append_assoc]
    obtain rfl | ⟨word, rfl, hword⟩ := hword
    · exact ⟨_, .method hd hms⟩
    · rw [List.append_assoc, List.singleton_append]
      exact ⟨_, .classMethod (Token.is_iff.mp hword) hd hms⟩

theorem meaning_program (h : Means c (production .enforced .program) ts) :
    Meaning .program c ts := by
  obtain ⟨_, _, rfl, ⟨tss, rfl, htss, -⟩, ⟨eof, rfl, heof⟩⟩ := h
  obtain ⟨xs, hxs⟩ := program_of_many htss
  exact ⟨tss.flatten, eof, xs, rfl, heof, hxs⟩

theorem meaning_declaration (h : Means c (production .enforced .declaration) ts) :
    Meaning .declaration c ts := by
  obtain h | h | ⟨word, us, x, rfl, hword, hx⟩ | ⟨hfun, e, x, hx⟩ := h
  · exact h
  · exact h
  · exact ⟨.closed, x, .declare hword hx⟩
  · exact ⟨e, x, .statement hx hfun⟩

theorem meaning_classDecl (h : Means c (production .enforced .classDecl) ts) :
    Meaning .classDecl c ts := by
  obtain ⟨_, _, rfl, ⟨word, rfl, hword⟩, _, _, rfl, ⟨name, rfl, hname⟩, _, _, rfl,
    ⟨brace, rfl, hbrace⟩, _, _, rfl, ⟨tss, rfl, htss, -⟩, ⟨close, rfl, hclose⟩⟩ := h
  obtain ⟨ms, hms⟩ := members_of_many (Token.is_iff.mp hclose) htss
  exact ⟨.closed, _, .classDefinition (Token.is_iff.mp hword) (kind_of_name hname)
    (Token.is_iff.mp hbrace) hms⟩

theorem meaning_funDecl (h : Means c (production .enforced .funDecl) ts) :
    Meaning .funDecl c ts := by
  obtain ⟨_, us, rfl, ⟨word, rfl, hword⟩, hd⟩ := h
  obtain ⟨d, hd⟩ := definition_of_function hd
  exact ⟨.closed, _, .function (Token.is_iff.mp hword) hd⟩

theorem meaning_varDecl (h : Means c (production .enforced .varDecl) ts) :
    Meaning .varDecl c ts := by
  obtain ⟨_, _, rfl, ⟨word, rfl, hword⟩, _, _, rfl, ⟨name, rfl, hname⟩, _, _, rfl, hvalue,
    ⟨close, rfl, hclose⟩⟩ := h
  have hclose := Token.is_iff.mp hclose
  obtain rfl | ⟨_, us, rfl, ⟨equal, rfl, hequal⟩, e, x, hx⟩ := hvalue
  · exact ⟨word, _, _, rfl, Token.is_iff.mp hword, .noValue (kind_of_name hname) hclose⟩
  · exact ⟨word, _, _, rfl, Token.is_iff.mp hword,
      .value (kind_of_name hname) (Token.is_iff.mp hequal) hx hclose⟩

/-! ### Statements -/

theorem meaning_exprStmt (h : Means c (production .enforced .exprStmt) ts) :
    Meaning .exprStmt c ts := by
  obtain ⟨us, _, rfl, ⟨e, x, hx⟩, ⟨close, rfl, hclose⟩⟩ := h
  exact ⟨e, us, close, x, rfl, Token.is_iff.mp hclose, hx⟩

theorem meaning_printStmt (h : Means c (production .enforced .printStmt) ts) :
    Meaning .printStmt c ts := by
  obtain ⟨_, _, rfl, ⟨word, rfl, hword⟩, us, _, rfl, ⟨e, x, hx⟩, ⟨close, rfl, hclose⟩⟩ := h
  exact ⟨.closed, _, .print (Token.is_iff.mp hword) hx (Token.is_iff.mp hclose)⟩

theorem meaning_ifStmt (h : Means c (production .enforced .ifStmt) ts) : Meaning .ifStmt c ts := by
  obtain ⟨_, _, rfl, ⟨word, rfl, hword⟩, _, _, rfl, ⟨opening, rfl, hopen⟩, us, _, rfl, ⟨e₁, x, hx⟩,
    _, _, rfl, ⟨close, rfl, hclose⟩, vs, _, rfl, ⟨e, y, hy⟩, helse⟩ := h
  have hword := Token.is_iff.mp hword
  have hopen := Token.is_iff.mp hopen
  have hclose := Token.is_iff.mp hclose
  obtain rfl | ⟨_, ws, rfl, ⟨other, rfl, hother⟩, e', z, hz⟩ := helse
  · rw [List.append_nil]
    exact ⟨.greedy, _, .branch hword hopen hx hclose hy⟩
  · have hother := Token.is_iff.mp hother
    cases e with
    | closed => exact ⟨e', _, .branchElse hword hopen hx hclose hy hother hz⟩
    | greedy =>
      -- The `else` belongs to the `if` at the end of the branch.
      obtain ⟨e₂, w, hw⟩ := hy.absorb_else rfl e' other ws z hother hz
      exact ⟨.greedy, _, .branch hword hopen hx hclose hw⟩

theorem meaning_whileStmt (h : Means c (production .enforced .whileStmt) ts) :
    Meaning .whileStmt c ts := by
  obtain ⟨_, _, rfl, ⟨word, rfl, hword⟩, _, _, rfl, ⟨opening, rfl, hopen⟩, us, _, rfl, ⟨e₁, x, hx⟩,
    _, vs, rfl, ⟨close, rfl, hclose⟩, e, y, hy⟩ := h
  exact ⟨e, _, .whileLoop (Token.is_iff.mp hword) (Token.is_iff.mp hopen) hx
    (Token.is_iff.mp hclose) hy⟩

theorem initial_of_means
    (h : Means c (any [rule .varDecl, rule .exprStmt, word .semicolon]) ts) :
    ∃ x, Phrase c .initial .closed ts x := by
  obtain ⟨word, us, x, rfl, hword, hx⟩ | ⟨e, us, close, x, rfl, hclose, hx⟩ |
    ⟨close, rfl, hclose⟩ := h
  · exact ⟨_, .initialVariable hword hx⟩
  · exact ⟨_, .initialExpression hx hclose⟩
  · exact ⟨_, .noInitial (Token.is_iff.mp hclose)⟩

theorem optional_of_means (h : Means c (opt (rule (.level .comma))) ts) :
    ∃ e x, Phrase c .optional e ts x := by
  obtain rfl | ⟨e, x, hx⟩ := h
  · exact ⟨.closed, none, .absent⟩
  · exact ⟨e, some x, .present hx⟩

theorem meaning_forStmt (h : Means c (production .enforced .forStmt) ts) :
    Meaning .forStmt c ts := by
  obtain ⟨_, _, rfl, ⟨word, rfl, hword⟩, _, _, rfl, ⟨opening, rfl, hopen⟩, us, _, rfl, hx,
    vs, _, rfl, hy, _, _, rfl, ⟨semicolon, rfl, hsemicolon⟩, ws, _, rfl, hz, _, _, rfl,
    ⟨close, rfl, hclose⟩, e, body, hbody⟩ := h
  obtain ⟨x, hx⟩ := initial_of_means hx
  obtain ⟨e₁, y, hy⟩ := optional_of_means hy
  obtain ⟨e₂, z, hz⟩ := optional_of_means hz
  exact ⟨e, _, .forLoop (Token.is_iff.mp hword) (Token.is_iff.mp hopen) hx hy
    (Token.is_iff.mp hsemicolon) hz (Token.is_iff.mp hclose) hbody⟩

theorem meaning_jumpStmt (h : Means c (production .enforced .jumpStmt) ts) :
    Meaning .jumpStmt c ts := by
  obtain ⟨hc, _, _, rfl, hword, ⟨close, rfl, hclose⟩⟩ := h
  have hclose := Token.is_iff.mp hclose
  obtain ⟨word, rfl, hword⟩ | ⟨word, rfl, hword⟩ := hword
  · exact ⟨.closed, _, .jump (.inl (Token.is_iff.mp hword)) hc hclose⟩
  · exact ⟨.closed, _, .jump (.inr (Token.is_iff.mp hword)) hc hclose⟩

theorem meaning_returnStmt (h : Means c (production .enforced .returnStmt) ts) :
    Meaning .returnStmt c ts := by
  obtain ⟨hc, _, _, rfl, ⟨word, rfl, hword⟩, us, _, rfl, hx, ⟨close, rfl, hclose⟩⟩ := h
  obtain ⟨e, x, hx⟩ := optional_of_means hx
  exact ⟨.closed, _, .giveBack (Token.is_iff.mp hword) hc hx (Token.is_iff.mp hclose)⟩

theorem meaning_block (h : Means c (production .enforced .block) ts) : Meaning .block c ts := by
  obtain ⟨_, _, rfl, ⟨brace, rfl, hbrace⟩, _, _, rfl, ⟨tss, rfl, htss, -⟩,
    ⟨close, rfl, hclose⟩⟩ := h
  obtain ⟨xs, hxs⟩ := block_of_many (Token.is_iff.mp hclose) htss
  exact ⟨brace, _, xs, rfl, Token.is_iff.mp hbrace, hxs⟩

theorem meaning_statement (h : Means c (production .enforced .statement) ts) :
    Meaning .statement c ts := by
  obtain ⟨e, us, close, x, rfl, hclose, hx⟩ | h | h | h | h | h | h |
    ⟨brace, us, xs, rfl, hbrace, hxs⟩ | ⟨close, rfl, hclose⟩ := h
  · exact ⟨.closed, _, .expression hx hclose⟩
  · exact h
  · exact h
  · exact h
  · exact h
  · exact h
  · exact h
  · exact ⟨.closed, _, .block hbrace hxs⟩
  · exact ⟨.closed, _, .empty (Token.is_iff.mp hclose)⟩

/-- **The meaning is closed under the productions** of the enforced grammar. -/
theorem meaning_of_production (n : Nonterminal) (c : Context) (ts : List Token)
    (h : Means c (production .enforced n) ts) : Meaning n c ts := by
  cases n with
  | program => exact meaning_program h
  | declaration => exact meaning_declaration h
  | classDecl => exact meaning_classDecl h
  | funDecl => exact meaning_funDecl h
  | varDecl => exact meaning_varDecl h
  | statement => exact meaning_statement h
  | exprStmt => exact meaning_exprStmt h
  | printStmt => exact meaning_printStmt h
  | ifStmt => exact meaning_ifStmt h
  | whileStmt => exact meaning_whileStmt h
  | forStmt => exact meaning_forStmt h
  | jumpStmt => exact meaning_jumpStmt h
  | returnStmt => exact meaning_returnStmt h
  | block => exact meaning_block h
  | level l => exact meaning_level h
  | target => exact meaning_target h
  | operand => exact meaning_operand h
  | atom => exact meaning_atom h
  | primary => exact meaning_primary h
  | arguments => exact meaning_arguments h
  | parameters => exact meaning_parameters h

/-! ### Programs -/

/-- The enforced grammar derives the phrases of programs, with an end mark behind them. -/
theorem accepts_iff_phrase {eof : Token} (heof : eof.kind.isEof = true) :
    Version.enforced.Accepts (ts ++ [eof]) ↔ ∃ xs, Phrase .outermost .program .closed ts xs := by
  constructor
  · intro h
    -- The meaning is closed under the productions, so the least such meaning is within it.
    obtain ⟨us, eof', xs, heq, -, hxs⟩ := h.holds_of_closed meaning_of_production
    obtain ⟨rfl, -⟩ := List.append_inj' heq rfl
    exact ⟨xs, hxs⟩
  · rintro ⟨xs, hxs⟩
    exact accepts_of_phrase hxs heof

/-- Without an end mark among them, the tokens in front of the end mark are all read. -/
theorem rest_ofTokens {eof : Token} (heof : eof.kind.isEof = true)
    (hts : ∀ t ∈ ts, t.kind.isEof = false) : (Cursor.ofTokens (ts ++ [eof])).rest = ts := by
  have hpass : ∀ t ∈ ts, (!t.kind.isEof) = true := fun t ht => by rw [hts t ht]; rfl
  simp only [Cursor.ofTokens]
  rw [List.takeWhile_append_of_pos hpass, List.takeWhile_cons_of_neg (by simp [heof]),
    List.append_nil]

/-- **The reader accepts just the enforced grammar**: tokens that end in an end mark, with none in
front of it, are read without a mistake iff they are a program of that grammar. -/
theorem errors_eq_nil_iff_accepts {eof : Token} (heof : eof.kind.isEof = true)
    (hts : ∀ t ∈ ts, t.kind.isEof = false) :
    (Parsed.ofTokens (ts ++ [eof])).errors = [] ↔ Version.enforced.Accepts (ts ++ [eof]) := by
  have hrest := rest_ofTokens heof hts
  rw [accepts_iff_phrase heof]
  constructor
  · intro h
    have hparsed : Parsed.ofCursor (Cursor.ofTokens (ts ++ [eof])) =
        ⟨(Parsed.ofTokens (ts ++ [eof])).program, []⟩ := by
      rw [← h]
      rfl
    have hphrase := parsed_ofCursor_iff.mp hparsed
    rw [hrest] at hphrase
    exact ⟨_, hphrase⟩
  · rintro ⟨xs, hxs⟩
    rw [← hrest] at hxs
    have hparsed := parsed_ofCursor_iff.mpr hxs
    rw [Parsed.ofTokens, hparsed]

/-- In `(a) = 1;` the target stands in parentheses. -/
theorem errors_eq_nil_iff_accepts_parenthesised :
    let a : Token := ⟨.identifier, "a", 1⟩
    let eof : Token := ⟨.eof, "", 1⟩
    let ts := [Symbol.leftParen.token 1, a, Symbol.rightParen.token 1, Symbol.equal.token 1,
      Symbol.nilWord.token 1, Symbol.semicolon.token 1]
    eof.kind.isEof = true ∧ (∀ t ∈ ts, t.kind.isEof = false) ∧
      (Parsed.ofTokens (ts ++ [eof])).errors = [] ∧ Version.enforced.Accepts (ts ++ [eof]) := by
  intro a eof ts
  have hts : ∀ t ∈ ts, t.kind.isEof = false := by simp [ts, a, Symbol.token, Kind.isEof]
  have herrors : (Parsed.ofTokens (ts ++ [eof])).errors = [] := by decide +kernel
  exact ⟨rfl, hts, herrors, (errors_eq_nil_iff_accepts rfl hts).mp herrors⟩

end Lox
