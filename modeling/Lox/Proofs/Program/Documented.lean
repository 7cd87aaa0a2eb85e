import Lox.Proofs.Program.Accept

/-!
# The grammar as it is documented

The grammar as it is documented is not the one that is read. There are tokens on which they do not
agree for each of three reasons (`not_errors_eq_nil_iff_documented`):

* A function without a name is an expression and may stand as a statement, but the reader takes a
  statement that begins with `fun` for a function with a name.
* An `=` stands right behind a name in all that is derived from the documented grammar
  (`assignsToNames_of_accepts`), but the reader takes targets in parentheses, which leave no
  trace in the tree.
* A member of a function whose body follows an arrow may be assigned to, but for the reader that
  member belongs to the body.
-/

namespace Lox

open Rhs

variable {c : Context} {ts us vs : List Token} {e : Token}

/-! ### Assignments to names -/

/-- The last token is a name. -/
def EndsInName (ts : List Token) : Prop :=
  ∃ t, ts.getLast? = some t ∧ t.kind = .identifier

/-- Each `=` stands right behind a name. -/
def AssignsToNames (ts : List Token) : Prop :=
  ∀ us e vs, ts = us ++ e :: vs → e.is .equal = true → EndsInName us

/-- A right-hand side that does not mention `=` itself. -/
def Rhs.Plain : Rhs → Prop
  | token accepts => ∀ t, accepts t = true → t.is .equal = false
  | rule _ => True
  | seq a b | alt a b => a.Plain ∧ b.Plain
  | opt a | repeated _ a | within _ a | given _ a | lacking _ a => a.Plain

theorem EndsInName.append (h : EndsInName vs) : EndsInName (us ++ vs) := by
  obtain ⟨t, ht, hkind⟩ := h
  exact ⟨t, by rw [List.getLast?_append, ht]; rfl, hkind⟩

theorem not_endsInName_nil : ¬ EndsInName [] := by
  rintro ⟨t, ht, -⟩
  exact absurd ht (by simp)

namespace AssignsToNames

theorem nil : AssignsToNames [] := by
  intro us e vs h
  exact absurd h.symm (by simp)

theorem singleton (h : e.is .equal = false) : AssignsToNames [e] := by
  intro us e' vs heq he
  obtain ⟨rfl, hcons⟩ | ⟨-, hnil⟩ := List.singleton_eq_append_iff.mp heq
  · obtain ⟨rfl, -⟩ := List.cons.inj hcons
    exact absurd he (by simp [h])
  · exact absurd hnil (by simp)

theorem append (hu : AssignsToNames us) (hv : AssignsToNames vs) : AssignsToNames (us ++ vs) := by
  intro xs e ys heq he
  obtain ⟨as, rfl, has⟩ | ⟨bs, rfl, hbs⟩ := List.append_eq_append_iff.mp heq
  · exact (hv as e ys has he).append
  · cases bs with
    | nil => exact absurd (hv [] e ys hbs.symm he) not_endsInName_nil
    | cons b bs =>
      obtain ⟨rfl, -⟩ := List.cons.inj hbs
      exact hu xs e bs rfl he

/-- An `=` behind a name. -/
theorem assign (hu : AssignsToNames us) (hname : EndsInName us) (hv : AssignsToNames vs) :
    AssignsToNames (us ++ e :: vs) := by
  intro xs e' ys heq he
  obtain ⟨as, rfl, has⟩ | ⟨bs, rfl, hbs⟩ := List.append_eq_append_iff.mp heq
  · cases as with
    | nil => rwa [List.append_nil]
    | cons a as =>
      obtain ⟨rfl, rfl⟩ := List.cons.inj has
      rw [List.append_cons]
      exact (hv as e' ys rfl he).append
  · cases bs with
    | nil => rwa [List.append_nil] at hname
    | cons b bs =>
      obtain ⟨rfl, -⟩ := List.cons.inj hbs
      exact hu xs e' bs rfl he

theorem flatten {tss : List (List Token)} (h : ∀ us ∈ tss, AssignsToNames us) :
    AssignsToNames tss.flatten := by
  induction tss with
  | nil => exact .nil
  | cons us tss ih =>
    rw [List.forall_mem_cons] at h
    exact h.1.append (ih h.2)

end AssignsToNames

/-! ### What the productions say of `=` -/

/-- What is said here of a nonterminal: an `=` in it stands behind a name, and a target ends in
one. -/
def Assigning (n : Nonterminal) (_ : Context) (ts : List Token) : Prop :=
  AssignsToNames ts ∧ (n = .target → EndsInName ts)

variable {r : Rhs}

theorem Rhs.Plain.assignsToNames (hr : r.Plain) (h : r.Holds Assigning c ts) :
    AssignsToNames ts := by
  induction r generalizing c ts with
  | token accepts =>
    obtain ⟨t, rfl, ht⟩ := h
    exact .singleton (hr t ht)
  | rule n => exact h.1
  | seq a b iha ihb =>
    obtain ⟨us, vs, rfl, ha, hb⟩ := h
    exact (iha hr.1 ha).append (ihb hr.2 hb)
  | alt a b iha ihb => exact h.elim (iha hr.1) (ihb hr.2)
  | opt a ih =>
    obtain rfl | ha := h
    · exact .nil
    · exact ih hr ha
  | repeated most a ih =>
    obtain ⟨tss, rfl, ha, -⟩ := h
    exact .flatten fun us hus => ih hr (ha us hus)
  | within enter a ih => exact ih hr h
  | given holds a ih => exact ih hr h.2
  | lacking x a ih => exact ih hr h.2

theorem plain_word {x : Symbol} (hx : x ≠ .equal) : (word x).Plain := by
  intro t ht
  rw [Token.is_iff] at ht
  rw [Bool.eq_false_iff, Ne, Token.is_iff, ht]
  exact fun h => hx (Kind.symbol.inj h)

theorem plain_name : name.Plain := by
  intro t ht
  rw [Bool.eq_false_iff, Ne, Token.is_iff, kind_of_name ht]
  exact Kind.noConfusion

theorem plain_literal : literal.Plain := by
  intro t ht
  rw [Bool.eq_false_iff, Ne, Token.is_iff]
  intro hk
  simp [hk] at ht

theorem plain_eof : eof.Plain := by
  intro t ht
  rw [Bool.eq_false_iff, Ne, Token.is_iff]
  intro hk
  simp [hk, Kind.isEof] at ht

theorem plain_admits (t : Tier) : (token t.admits).Plain := by
  intro op hop
  rw [Bool.eq_false_iff, Ne, Token.is_iff]
  intro hk
  simp [Tier.admits, hk, Tier.ofSymbol?] at hop

/-- An `=` is mentioned where a variable gets its first value, and in assignments. -/
theorem plain_production (n : Nonterminal) (hdecl : n ≠ .varDecl)
    (hassign : n ≠ .level .assignment) : (production .documented n).Plain := by
  have hword {x : Symbol} : x ≠ .equal → (word x).Plain := plain_word
  cases n with
  | level l =>
    cases l with
    | assignment => exact absurd rfl hassign
    | tier t => exact ⟨trivial, plain_admits t, trivial⟩
    | _ => simp [production, all, any, many, trailer, Rhs.Plain, hword, plain_name]
  | varDecl => exact absurd rfl hdecl
  | _ => simp [production, all, any, many, list, simple, parameters, body, function, trailer,
      Rhs.Plain, hword, plain_name, plain_literal, plain_eof]

theorem endsInName_singleton (h : name.Holds Assigning c ts) : EndsInName ts := by
  obtain ⟨t, rfl, ht⟩ := h
  exact ⟨t, rfl, kind_of_name ht⟩

theorem assigning_varDecl (h : (production .documented .varDecl).Holds Assigning c ts) :
    AssignsToNames ts := by
  obtain ⟨_, _, rfl, hword, us, _, rfl, hname, _, _, rfl, hvalue, hclose⟩ := h
  have hword := (plain_word (x := .varWord) (by decide)).assignsToNames hword
  have hclose := (plain_word (x := .semicolon) (by decide)).assignsToNames hclose
  have hus := plain_name.assignsToNames hname
  obtain rfl | ⟨_, vs, rfl, ⟨equal, rfl, -⟩, hx, -⟩ := hvalue
  · exact hword.append (hus.append (.append .nil hclose))
  · have hassign := hus.assign (e := equal) (endsInName_singleton hname) hx
    rw [← List.append_assoc us]
    exact hword.append (hassign.append hclose)

theorem assigning_assignment
    (h : (production .documented (.level .assignment)).Holds Assigning c ts) :
    AssignsToNames ts := by
  obtain ⟨us, _, rfl, htarget, _, vs, rfl, ⟨equal, rfl, -⟩, hv, -⟩ | hx := h
  · exact htarget.1.assign (htarget.2 rfl) hv
  · exact hx.1

theorem endsInName_target (h : (production .documented .target).Holds Assigning c ts) :
    EndsInName ts := by
  obtain ⟨_, _, rfl, -, hname⟩ := h
  exact (endsInName_singleton hname).append

theorem assigning_of_production (n : Nonterminal) (c : Context) (ts : List Token)
    (h : (production .documented n).Holds Assigning c ts) : Assigning n c ts := by
  refine ⟨?_, ?_⟩
  · by_cases hdecl : n = .varDecl
    · subst hdecl
      exact assigning_varDecl h
    by_cases hassign : n = .level .assignment
    · subst hassign
      exact assigning_assignment h
    exact (plain_production n hdecl hassign).assignsToNames h
  · rintro rfl
    exact endsInName_target h

/-- **By the documented grammar only names are assigned to**: in a program of it, an `=` stands
right behind a name. -/
theorem assignsToNames_of_accepts (h : Version.documented.Accepts ts) : AssignsToNames ts :=
  (h.holds_of_closed assigning_of_production).1

/-- An `=` behind anything but a name is not derived. -/
theorem not_accepts_of_assign {t : Token} (ht : t.kind ≠ .identifier) (he : e.is .equal = true) :
    ¬ Version.documented.Accepts (us ++ t :: e :: vs) := by
  intro h
  rw [List.append_cons] at h
  obtain ⟨last, hlast, hname⟩ := assignsToNames_of_accepts h (us ++ [t]) e vs rfl he
  rw [List.getLast?_append, List.getLast?_singleton] at hlast
  obtain rfl := Option.some.inj hlast
  exact ht hname

/-! ### Derivations -/

/-- What is derived from a level is derived from each level that binds less. -/
theorem derives_lower {v : Version} {l l' : Level} (hle : l.rank ≤ l'.rank)
    (h : Derives (production v) c (rule (.level l')) ts) :
    Derives (production v) c (rule (.level l)) ts := by
  by_cases heq : l.rank = l'.rank
  · rwa [Level.eq_of_rank_eq heq]
  cases hl : l.tighter? with
  | some l'' =>
    have hrank := Level.rank_of_tighter? hl
    exact derives_lift hl (derives_lower (by omega) h)
  | none =>
    have hcall : l = .call := by
      cases l <;> first | rfl | exact nomatch hl
    have hmost := l'.rank_le
    rw [hcall] at hle heq
    exact absurd (Nat.le_antisymm hle hmost) heq
termination_by l'.rank - l.rank

theorem derives_of_primary {v : Version} (l : Level)
    (h : Derives (production v) c (rule .primary) ts) :
    Derives (production v) c (rule (.level l)) ts := by
  have hle : l.rank ≤ Level.call.rank := l.rank_le
  exact derives_lower hle (.rule (derives_seq_many_nil h))

theorem derives_of_name {v : Version} {t : Token} (l : Level) (ht : t.kind = .identifier) :
    Derives (production v) c (rule (.level l)) [t] :=
  derives_of_primary l (.rule (.any (by simp [simple]) (derives_name ht)))

/-- A function without parameters, of its body or an arrow with its body. -/
theorem derives_function {v : Version}
    (h : Derives (production v) c (any [body, all [word .arrow, rule (.level .assignment)]]) ts) :
    Derives (production v) c (rule .primary)
      ([Symbol.funWord, .leftParen, .rightParen].map (Symbol.token 1) ++ ts) := by
  have hparameters : Derives (production v) c parameters
      ([Symbol.leftParen.token 1] ++ ([] ++ [Symbol.rightParen.token 1])) :=
    .seq (derives_word rfl) (.seq .optNone (derives_word rfl))
  exact .rule (.any (List.mem_append_right _ (List.mem_singleton.mpr rfl))
    (.cons rfl (.seq hparameters h)))

/-- In the documented grammar any statement may stand in the place of a declaration. -/
theorem accepts_of_statement {eof : Token} (heof : eof.kind.isEof = true)
    (h : Derives (production .documented) .outermost (rule .statement) ts) :
    Version.documented.Accepts (ts ++ [eof]) := by
  have hdeclarations : Derives (production .documented) .outermost (many (rule .declaration))
      (ts ++ []) := .many_cons (.rule (.any (by simp) h)) .many_nil
  rw [List.append_nil] at hdeclarations
  exact .rule (.seq hdeclarations (.token heof))

/-- A function without a name is a statement. -/
theorem derives_function_statement : Derives (production .documented) c (rule .statement)
    ([Symbol.funWord, .leftParen, .rightParen, .leftBrace, .rightBrace, .semicolon].map
      (Symbol.token 1)) := by
  have hblock : Derives (production .documented) c.enterFunction (rule .block)
      ([Symbol.leftBrace.token 1] ++ ([] ++ [Symbol.rightBrace.token 1])) :=
    .rule (.seq (derives_word rfl) (.seq .many_nil (derives_word rfl)))
  have hfunction := derives_of_primary .comma (derives_function (.altLeft (.within hblock)))
  exact .rule (.anyRule .exprStmt (by simp)
    (.seq hfunction (derives_word (t := Symbol.semicolon.token 1) rfl)))

/-- A member of a function whose body is a sum may be assigned to. -/
theorem derives_member_assigned {x y z : Token} (hx : x.kind = .identifier)
    (hy : y.kind = .identifier) (hz : z.kind = .identifier) :
    Derives (production .documented) c (rule (.level .assignment))
      ([Symbol.funWord, .leftParen, .rightParen, .arrow].map (Symbol.token 1) ++
        [x, Symbol.plus.token 1, y, Symbol.dot.token 1, z, Symbol.equal.token 1,
          Symbol.nilWord.token 1]) := by
  have hsum : Derives (production .documented) c (rule (.level (.tier .sum)))
      ([x] ++ ([Symbol.plus.token 1, y] ++ [])) :=
    .rule (.seq (derives_of_name _ hx) (.many_cons (.cons rfl (derives_of_name _ hy)) .many_nil))
  -- The function, with the whole sum as its body, is the call in front of the member.
  have hfunction := derives_of_primary .call (derives_function
    (.altRight (.cons (t := Symbol.arrow.token 1) rfl (derives_lower (by decide) hsum))))
  have hobject := Derives.seq hfunction (derives_word (t := Symbol.dot.token 1) rfl)
  have hnil : Derives (production .documented) c (rule .primary) [Symbol.nilWord.token 1] :=
    .rule (.altLeft (.token rfl))
  have htarget := Derives.seq (.optSome hobject) (derives_name hz)
  have hassign : Derives (production .documented) c (rule (.level .assignment)) _ :=
    .rule (.altLeft (.seq (.rule htarget) (.cons (t := Symbol.equal.token 1) rfl
      (derives_of_primary _ hnil))))
  exact hassign

/-- **The grammar as it is documented is not the one that is read**, on each of the three points:
`fun () \x7b\x7d;` is derived but not read, `(a) = nil;` is read but not derived, and
`print fun () -> a + b.c = nil;` is derived but not read. -/
theorem not_errors_eq_nil_iff_documented :
    let eof : Token := ⟨.eof, "", 1⟩
    let a : Token := ⟨.identifier, "a", 1⟩
    let b : Token := ⟨.identifier, "b", 1⟩
    let c : Token := ⟨.identifier, "c", 1⟩
    let function := [Symbol.funWord, .leftParen, .rightParen, .leftBrace, .rightBrace,
      .semicolon].map (Symbol.token 1)
    let parenthesised := [Symbol.leftParen.token 1, a] ++
      [Symbol.rightParen, .equal, .nilWord, .semicolon].map (Symbol.token 1)
    let member := [Symbol.printWord, .funWord, .leftParen, .rightParen, .arrow].map
      (Symbol.token 1) ++ [a, Symbol.plus.token 1, b, Symbol.dot.token 1, c] ++
        [Symbol.equal, .nilWord, .semicolon].map (Symbol.token 1)
    ∀ ts ∈ [function, parenthesised, member],
      ¬ ((Parsed.ofTokens (ts ++ [eof])).errors = [] ↔
        Version.documented.Accepts (ts ++ [eof])) := by
  intro eof a b c function parenthesised member ts hts
  rw [List.mem_cons, List.mem_cons, List.mem_singleton] at hts
  obtain rfl | rfl | rfl := hts
  · have herrors : (Parsed.ofTokens (function ++ [eof])).errors ≠ [] := by decide +kernel
    have haccepts : Version.documented.Accepts (function ++ [eof]) :=
      accepts_of_statement rfl derives_function_statement
    exact fun h => herrors (h.mpr haccepts)
  · have herrors : (Parsed.ofTokens (parenthesised ++ [eof])).errors = [] := by decide +kernel
    have hnot : ¬ Version.documented.Accepts
        ([Symbol.leftParen.token 1, a] ++ Symbol.rightParen.token 1 :: Symbol.equal.token 1 ::
          [Symbol.nilWord.token 1, Symbol.semicolon.token 1, eof]) :=
      not_accepts_of_assign Kind.noConfusion rfl
    exact fun h => hnot (h.mp herrors)
  · have herrors : (Parsed.ofTokens (member ++ [eof])).errors ≠ [] := by decide +kernel
    have hassign := derives_member_assigned (c := .outermost) (x := a) (y := b) (z := c) rfl rfl rfl
    have hprint : Derives (production .documented) .outermost (production .documented .printStmt)
        _ :=
      .cons (t := Symbol.printWord.token 1) rfl (.seq (derives_lower (Nat.zero_le _) hassign)
        (derives_word (t := Symbol.semicolon.token 1) rfl))
    have haccepts : Version.documented.Accepts (member ++ [eof]) :=
      accepts_of_statement rfl (.rule (.anyRule .printStmt (by simp) hprint))
    exact fun h => herrors (h.mpr haccepts)

end Lox
