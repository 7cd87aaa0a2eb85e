import Lox.Program.Form
import Lox.Proofs.Program.Accept
import Lox.Proofs.Program.Legal

/-!
# Writing a program

A program is written as tokens by the grammar, with parentheses around an expression only where one
of a level that binds more is expected; the methods of a class stand before its class methods. An
expression that starts with `fun` and stands as a statement where a declaration may stand is read as
the declaration of a function. A layout that **shields** such expressions puts them in parentheses
as well, and reading then undoes the writing.

Main definitions:

* `Layout` — the choices that the tree leaves open;
* `Expr.tokens`, `Stmt.tokens`, `Definition.tokens` — the tokens of the parts of a program;
* `Layout.program` — the tokens of a program.

Main statement: `ofTokens_program` — reading gives back every legal program.
-/

namespace Lox

/-! ### Layouts -/

/-- How a program is written. -/
structure Layout where
  /-- The line of the tokens that the tree does not keep. -/
  line : Nat
  /-- Whether an expression that could be taken for a declaration stands in parentheses. -/
  shields : Bool

namespace Layout

/-- The token of a symbol. -/
def mark (y : Layout) (x : Symbol) : Token :=
  x.token y.line

/-- Tokens in parentheses. -/
def enclose (y : Layout) (ts : List Token) : List Token :=
  y.mark .leftParen :: (ts ++ [y.mark .rightParen])

/-- The tokens of an expression of level `l'` where one of level `l` is expected. -/
def fit (y : Layout) (l l' : Level) (ts : List Token) : List Token :=
  if l'.rank < l.rank then y.enclose ts else ts

/-- The tokens of an expression that a statement starts with; `declares` says whether a declaration
may stand there. -/
def shield (y : Layout) (declares : Bool) (ts : List Token) : List Token :=
  if y.shields && declares && ts.head?.any (·.is .funWord) then y.enclose ts else ts

/-- The parameters of a function. -/
def parameters (y : Layout) (names : List Token) : List Token :=
  y.enclose (names.intersperse (y.mark .comma))

end Layout

/-- The token of a constant. -/
def Literal.token (line : Nat) (v : Literal) : Token :=
  match v with
  | .number value => ⟨.number value, v.form, line⟩
  | .text value => ⟨.string value, v.form, line⟩
  | .bool true => Symbol.trueWord.token line
  | .bool false => Symbol.falseWord.token line
  | .nil => Symbol.nilWord.token line

/-- The level of an operator between two operands. -/
def Token.level (operator : Token) : Level :=
  match operator.kind with
  | .symbol x => (Tier.ofSymbol? x).elim .comma .tier
  | _ => .comma

/-- The level of the left operand of a level's operators. -/
def Level.left : Level → Level
  | comma => assignment
  | l => l

/-- The level of the right operand of a level's operators. -/
def Level.right : Level → Level
  | tier t => t.tighter
  | l => l

/-! ### Tokens -/

mutual

/-- The tokens of an expression where one of level `l` is expected. -/
def Expr.tokens (y : Layout) (l : Level) : Expr → List Token
  | .literal value => [value.token y.line]
  | .name token => [token]
  | .assign name value =>
    y.fit l .assignment (name :: y.mark .equal :: value.tokens y .assignment)
  -- Calls and members bind most, so they never stand in parentheses.
  | .get object name => object.tokens y .call ++ [y.mark .dot, name]
  | .set object name value => y.fit l .assignment
      (object.tokens y .call ++ [y.mark .dot, name] ++
        y.mark .equal :: value.tokens y .assignment)
  | .conditional condition whenTrue whenFalse => y.fit l .conditional
      (condition.tokens y (.tier .disjunction) ++ y.mark .question ::
        (whenTrue.tokens y .conditional ++ y.mark .colon :: whenFalse.tokens y .conditional))
  | .logical left operator right | .binary left operator right => y.fit l operator.level
      (left.tokens y operator.level.left ++ operator :: right.tokens y operator.level.right)
  | .unary operator right => y.fit l .unary (operator :: right.tokens y .unary)
  | .call callee paren arguments =>
    callee.tokens y .call ++ paren :: Expr.argumentTokens y arguments
  -- An arrow goes on as far as its body, so it is written where an assignment may stand.
  | .lambda (.mk names (.jump keyword (some value))) => y.fit l .assignment
      (y.mark .funWord :: (y.parameters names ++
        Symbol.arrow.token keyword.line :: value.tokens y .assignment))
  | .lambda (.mk names body) => y.mark .funWord :: (y.parameters names ++ body.tokens y false)

/-- The tokens of the arguments of a call, with the closing parenthesis. -/
def Expr.argumentTokens (y : Layout) : List Expr → List Token
  | [] => [y.mark .rightParen]
  | [e] => e.tokens y .assignment ++ [y.mark .rightParen]
  | e :: e' :: es => e.tokens y .assignment ++ y.mark .comma :: Expr.argumentTokens y (e' :: es)

/-- The tokens of an expression, if there is one. -/
def Expr.optionTokens (y : Layout) : Option Expr → List Token
  | none => []
  | some e => e.tokens y .comma

/-- The tokens of a statement; `declares` says whether a declaration may stand in its place. -/
def Stmt.tokens (y : Layout) (declares : Bool) : Stmt → List Token
  | .block body => y.mark .leftBrace :: (Stmt.allTokens y body ++ [y.mark .rightBrace])
  | .declare name none => [y.mark .varWord, name, y.mark .semicolon]
  | .declare name (some value) => y.mark .varWord :: name :: y.mark .equal ::
      (value.tokens y .comma ++ [y.mark .semicolon])
  | .function definition => y.mark .funWord :: definition.tokens y
  | .classDef name methods classMethods => y.mark .classWord :: name :: y.mark .leftBrace ::
      (Definition.allTokens y false methods ++
        (Definition.allTokens y true classMethods ++ [y.mark .rightBrace]))
  | .expression value =>
    y.shield declares (value.tokens y .comma) ++ [y.mark .semicolon]
  | .print value => y.mark .printWord :: (value.tokens y .comma ++ [y.mark .semicolon])
  | .branch condition whenTrue none => y.mark .ifWord :: y.mark .leftParen ::
      (condition.tokens y .comma ++ y.mark .rightParen :: whenTrue.tokens y false)
  | .branch condition whenTrue (some whenFalse) => y.mark .ifWord :: y.mark .leftParen ::
      (condition.tokens y .comma ++ y.mark .rightParen ::
        (whenTrue.tokens y false ++ y.mark .elseWord :: whenFalse.tokens y false))
  | .whileLoop condition body => y.mark .whileWord :: y.mark .leftParen ::
      (condition.tokens y .comma ++ y.mark .rightParen :: body.tokens y false)
  | .forLoop initial condition step body => y.mark .forWord :: y.mark .leftParen ::
      (Stmt.initialTokens y initial ++ (Expr.optionTokens y condition ++ y.mark .semicolon ::
        (Expr.optionTokens y step ++ y.mark .rightParen :: body.tokens y false)))
  | .jump keyword value => keyword :: (Expr.optionTokens y value ++ [y.mark .semicolon])
  | .empty => [y.mark .semicolon]

/-- The tokens of the statements of a block or of a program. -/
def Stmt.allTokens (y : Layout) : List Stmt → List Token
  | [] => []
  | s :: ss => s.tokens y true ++ Stmt.allTokens y ss

/-- The tokens of the first part of a `for` loop. -/
def Stmt.initialTokens (y : Layout) : Option Stmt → List Token
  | none => [y.mark .semicolon]
  -- No declaration of a function may stand here, so nothing is taken for one.
  | some s => s.tokens y false

/-- The tokens of a definition, from the name on. -/
def Definition.tokens (y : Layout) : Definition → List Token
  | .mk name (.mk names body) => name :: (y.parameters names ++ body.tokens y false)

/-- The tokens of the methods of a class; those of the class itself are marked. -/
def Definition.allTokens (y : Layout) (ofClass : Bool) : List Definition → List Token
  | [] => []
  | d :: ds =>
    (if ofClass then [y.mark .classWord] else []) ++ d.tokens y ++ Definition.allTokens y ofClass ds

end

/-- The tokens of a program. -/
def Layout.program (y : Layout) (xs : List Stmt) : List Token :=
  Stmt.allTokens y xs ++ [⟨.eof, "", y.line⟩]

/-! ### The marks of a layout -/

variable {c : Context} {y : Layout} {l l' : Level} {ts us : List Token} {op : Token} {x z : Expr}

theorem Symbol.kind_token (line : Nat) (s : Symbol) : (s.token line).kind = .symbol s :=
  rfl

theorem Literal.literal?_token (line : Nat) (v : Literal) :
    (v.token line).kind.literal? = some v := by
  cases v with
  | bool b => cases b <;> rfl
  | _ => rfl

theorem Token.level_of_admits {t : Tier} (h : t.admits op = true) : op.level = .tier t := by
  cases hk : op.kind with
  | symbol x =>
    rw [Tier.admits, hk] at h
    have ht : Tier.ofSymbol? x = some t := eq_of_beq h
    -- The tier is read off the symbol, and it is the one that admits the operator.
    rw [Token.level, hk]
    dsimp only
    rw [ht]
    rfl
  | _ => simp [Tier.admits, hk] at h

theorem Token.level_of_comma (h : op.kind = .symbol .comma) : op.level = .comma := by
  rw [Token.level, h]
  rfl

/-- The names of the parameters are read up to the closing parenthesis. -/
theorem parameterNames_intersperse {comma close : Token} (hcomma : comma.kind = .symbol .comma)
    (hclose : close.kind = .symbol .rightParen) {names : List Token} (hne : names ≠ [])
    (h : ∀ name ∈ names, name.kind = .identifier) :
    ParameterNames (names.intersperse comma ++ [close]) names := by
  induction names with
  | nil => exact absurd rfl hne
  | cons name names ih =>
    obtain ⟨hname, hnames⟩ := List.forall_mem_cons.mp h
    cases names with
    | nil => exact .last hname hclose
    | cons name' names => exact .more hname hcomma (ih (List.cons_ne_nil _ _) hnames)

theorem parameters_of_legal {names : List Token} (h : LegalNames names) :
    Parameters (y.parameters names) names := by
  cases names with
  | nil => exact .none rfl rfl
  | cons name names =>
    exact .some rfl (parameterNames_intersperse rfl rfl (List.cons_ne_nil _ _) h.1) h.2

/-! ### Expressions -/

/-- The tokens are a phrase of the level that stands for the expression, and one that ends by itself
if the level is above the assignments. -/
def Writes (c : Context) (l : Level) (ts : List Token) (x : Expr) : Prop :=
  ∃ e, Phrase c (.expression l) e ts x ∧ (Level.assignment.rank < l.rank → e = .closed)

theorem Writes.closed (h : Writes c l ts x) (hl : Level.assignment.rank < l.rank) :
    Phrase c (.expression l) .closed ts x := by
  obtain ⟨e, hx, he⟩ := h
  obtain rfl := he hl
  exact hx

/-- A closed phrase of calls is one of every level. -/
theorem writes_of_call (h : Phrase c (.expression .call) .closed ts x) : Writes c l ts x :=
  ⟨.closed, h.lower l.rank_le, fun _ => rfl⟩

theorem writes_of_primary (h : Phrase c .primary .closed ts x) : Writes c l ts x :=
  writes_of_call (.callee h)

theorem Writes.enclose (h : Writes c .comma ts x) : Writes c l (y.enclose ts) x := by
  obtain ⟨e, hx, -⟩ := h
  exact writes_of_primary (.paren rfl hx rfl)

theorem Writes.lower (h : Writes c l' ts x) (hle : l.rank ≤ l'.rank) : Writes c l ts x := by
  obtain ⟨e, hx, he⟩ := h
  exact ⟨e, hx.lower hle, fun hl => he (Nat.lt_of_lt_of_le hl hle)⟩

/-- With parentheses where they are needed, an expression of a level stands for one of any. -/
theorem Writes.fit (h : Writes c l' ts x) : Writes c l (y.fit l l' ts) x := by
  rw [Layout.fit]
  split
  case isTrue hlt => exact (h.lower (Nat.zero_le _)).enclose
  case isFalse hge => exact h.lower (Nat.not_lt.mp hge)

theorem writes_assign {name equal : Token} (hname : name.kind = .identifier)
    (hequal : equal.kind = .symbol .equal) (hx : Writes c .assignment ts x) :
    Writes c .assignment (name :: equal :: ts) (.assign name x) := by
  obtain ⟨e, hx, -⟩ := hx
  have htarget : Writes c .conditional [name] (.name name) := writes_of_primary (.name hname)
  have hy : (Expr.name name).assigned? x = some (.assign name x) := by rw [Expr.assigned?, hname]
  exact ⟨e, .assign (htarget.closed (by decide)) hequal hx hy, fun h => absurd h (by decide)⟩

theorem writes_set {dot name equal : Token} (hx : Writes c .call us x)
    (hdot : dot.kind = .symbol .dot) (hname : name.kind = .identifier)
    (hequal : equal.kind = .symbol .equal) (hz : Writes c .assignment ts z) :
    Writes c .assignment (us ++ [dot, name] ++ equal :: ts) (.set x name z) := by
  obtain ⟨e, hz, -⟩ := hz
  have htarget : Writes c .conditional (us ++ [dot, name]) (.get x name) :=
    writes_of_call (.member (hx.closed (by decide)) hdot hname)
  exact ⟨e, .assign (htarget.closed (by decide)) hequal hz rfl, fun h => absurd h (by decide)⟩

theorem writes_comma (hop : op.kind = .symbol .comma) (hx : Writes c .assignment ts x)
    (hz : Writes c .comma us z) : Writes c .comma (ts ++ op :: us) (.binary x op z) := by
  obtain ⟨e₁, hx, -⟩ := hx
  obtain ⟨e, hz, -⟩ := hz
  exact ⟨e, .comma hx hop hz, fun h => absurd h (by decide)⟩

theorem writes_operator {t : Tier} (hop : t.admits op = true) (hx : Writes c (.tier t) ts x)
    (hz : Writes c t.tighter us z) : Writes c (.tier t) (ts ++ op :: us) (t.join x op z) := by
  have ht : Level.assignment.rank < (Level.tier t).rank := by cases t <;> decide
  have hz := hz.closed (Nat.lt_trans ht t.rank_lt_tighter)
  exact ⟨.closed, .operator (hx.closed ht) hop hz, fun _ => rfl⟩

theorem writes_conditional {x₁ x₂ : Expr} {us₁ us₂ : List Token} {question colon : Token}
    (hquestion : question.kind = .symbol .question) (hcolon : colon.kind = .symbol .colon)
    (hx : Writes c (.tier .disjunction) ts x) (hx₁ : Writes c .conditional us₁ x₁)
    (hx₂ : Writes c .conditional us₂ x₂) :
    Writes c .conditional (ts ++ question :: (us₁ ++ colon :: us₂)) (.conditional x x₁ x₂) := by
  have hx := hx.closed (by decide)
  have hx₁ := hx₁.closed (by decide)
  have hx₂ := hx₂.closed (by decide)
  exact ⟨.closed, .conditional hx hquestion hx₁ hcolon hx₂, fun _ => rfl⟩

theorem writes_arrow {names : List Token} {value : Expr} {word keyword : Token}
    (hword : word.kind = .symbol .funWord) (hnames : LegalNames names)
    (hkind : keyword.kind = .symbol .returnWord)
    (hlexeme : keyword.lexeme = Symbol.returnWord.spelling)
    (hvalue : Writes c .assignment ts value) : Writes c .assignment
      (word :: (y.parameters names ++ Symbol.arrow.token keyword.line :: ts))
      (.lambda (.mk names (.jump keyword (some value)))) := by
  obtain ⟨kind, lexeme, line⟩ := keyword
  obtain rfl : kind = .symbol .returnWord := hkind
  obtain rfl : lexeme = Symbol.returnWord.spelling := hlexeme
  obtain ⟨e, hvalue, -⟩ := hvalue
  have hps : Parameters (y.parameters names) names := parameters_of_legal hnames
  have hlambda := Phrase.arrow hword hps (Symbol.kind_token line .arrow) hvalue
  exact ⟨.greedy, (Phrase.callee hlambda).lower (by decide), fun h => absurd h (by decide)⟩

/-! ### Statements -/

/-- How the tokens of a statement end. -/
def Stmt.ending (s : Stmt) : Ending :=
  match s.endsOpen with
  | true => .greedy
  | false => .closed

/-- The tokens of a statement are a phrase that stands for it; in a place where a declaration may
stand they are not taken for one. -/
def Stmt.Written (y : Layout) (c : Context) (declares : Bool) (s : Stmt) : Prop :=
  match s.isDeclaration with
  | true => Phrase c .declaration .closed (s.tokens y declares) s
  | false => Phrase c .statement s.ending (s.tokens y declares) s ∧
      (declares = true → Lacks .funWord (s.tokens y declares))

theorem Stmt.Written.statement {s : Stmt} {declares : Bool} (h : s.Written y c declares)
    (hs : s.isDeclaration = false) : Phrase c .statement s.ending (s.tokens y declares) s := by
  rw [Stmt.Written, hs] at h
  exact h.1

theorem Stmt.Written.declaration {s : Stmt} (h : s.Written y c true) :
    ∃ e, Phrase c .declaration e (s.tokens y true) s := by
  rw [Stmt.Written] at h
  split at h
  · exact ⟨_, h⟩
  · exact ⟨_, .statement h.1 (h.2 rfl)⟩

theorem lacks_cons {op : Token} {s s' : Symbol} (hop : op.kind = .symbol s) (hne : s ≠ s') :
    Lacks s' (op :: ts) := by
  intro t ht
  obtain rfl : op = t := by simpa using ht
  rw [hop]
  exact fun h => hne (Kind.symbol.inj h)

theorem Writes.ne_nil (h : Writes c l ts x) : ts ≠ [] := by
  obtain ⟨e, hx, -⟩ := h
  rintro rfl
  exact absurd hx.starts (by simp [Part.Starts])

/-- An expression that is shielded is still one that a statement can start with. -/
theorem Writes.shield (h : Writes c .comma ts x) (declares : Bool) :
    Writes c .comma (y.shield declares ts) x := by
  rw [Layout.shield]
  split
  · exact h.enclose
  · exact h

/-- A shielded expression does not start with `fun`. -/
theorem lacks_shield (hy : y.shields = true) (us : List Token) (hne : ts ≠ []) :
    Lacks .funWord (y.shield true ts ++ us) := by
  rw [Layout.shield, hy]
  obtain ⟨t, ts, rfl⟩ := List.exists_cons_of_ne_nil hne
  split
  case isTrue => exact lacks_cons rfl nofun
  case isFalse hnot =>
    intro t' ht' hkind
    obtain rfl : t = t' := by simpa using ht'
    exact hnot (by simpa using Token.is_iff.mpr hkind)

/-- The statements of a program in braces are a block. -/
theorem Phrase.block_of_program {xs : List Stmt} {close : Token}
    (h : Phrase c .program .closed ts xs) (hclose : close.kind = .symbol .rightBrace) :
    Phrase c .block .closed (ts ++ [close]) xs := by
  induction xs generalizing ts with
  | nil =>
    cases h with
    | programEnd => exact .blockEnd hclose
  | cons s xs ih =>
    cases h with
    | programMore hx hxs =>
      rw [List.append_assoc]
      exact .blockMore hx (ih hxs)


mutual

/-- Every legal expression is written as a phrase that stands for it. -/
theorem Expr.writes {y : Layout} (hy : y.shields = true) {c : Context} (l : Level) :
    (x : Expr) → x.Legal c → Writes c l (x.tokens y l) x
  | .literal v, _ => writes_of_primary (.literal (v.literal?_token y.line))
  | .name _, h => by
    obtain hname | ⟨hthis, hc⟩ := h
    · exact writes_of_primary (.name hname)
    · exact writes_of_primary (.this hthis hc)
  | .assign _ value, h => (writes_assign h.1 rfl (Expr.writes hy .assignment value h.2)).fit
  | .get object _, h =>
    writes_of_call (.member ((Expr.writes hy .call object h.1).closed (by decide)) rfl h.2)
  | .set object _ value, h =>
    (writes_set (Expr.writes hy .call object h.1) rfl h.2.1 rfl
      (Expr.writes hy .assignment value h.2.2)).fit
  | .conditional x x₁ x₂, h =>
    (writes_conditional rfl rfl (Expr.writes hy _ x h.1) (Expr.writes hy _ x₁ h.2.1)
      (Expr.writes hy _ x₂ h.2.2)).fit
  | .logical left op right, h => by
    obtain ⟨⟨t, hop, hlazy⟩, hleft, hright⟩ := h
    have hleft := Expr.writes hy op.level.left left hleft
    have hright := Expr.writes hy op.level.right right hright
    rw [Expr.tokens]
    rw [Token.level_of_admits hop] at hleft hright ⊢
    -- Only the lazy tiers join their operands to such a tree.
    have hjoin : t.join left op right = .logical left op right := by
      cases t <;> first | rfl | exact nomatch hlazy
    rw [← hjoin]
    exact (writes_operator hop hleft hright).fit
  | .binary left op right, h => by
    obtain ⟨hop, hleft, hright⟩ := h
    have hleft := Expr.writes hy op.level.left left hleft
    have hright := Expr.writes hy op.level.right right hright
    rw [Expr.tokens]
    obtain hop | ⟨t, hop, hlazy⟩ := hop
    · rw [Token.level_of_comma hop] at hleft hright ⊢
      exact (writes_comma hop hleft hright).fit
    · rw [Token.level_of_admits hop] at hleft hright ⊢
      have hjoin : t.join left op right = .binary left op right := by
        cases t <;> first | rfl | exact nomatch hlazy
      rw [← hjoin]
      exact (writes_operator hop hleft hright).fit
  | .unary _ right, h => by
    have hright := (Expr.writes hy .unary right h.2).closed (by decide)
    have hunary : Writes c .unary _ _ := ⟨.closed, .unary h.1 hright, fun _ => rfl⟩
    exact hunary.fit
  | .call callee paren arguments, h => by
    obtain ⟨hcallee, hparen, harguments, hle⟩ := h
    have hcallee := (Expr.writes hy .call callee hcallee).closed (by decide)
    refine writes_of_call (.call hcallee hparen ?_)
    by_cases hne : arguments = []
    · rw [hne]
      exact .noArguments rfl
    · exact .someArguments (Expr.arguments_written hy arguments harguments hne) hle
  | .lambda (.mk _ (.block body)), h =>
    writes_of_primary (.lambda rfl (parameters_of_legal h.1) rfl
      ((Stmt.all_written hy body h.2).block_of_program rfl))
  | .lambda (.mk _ (.jump _ (some value))), h =>
    (writes_arrow rfl h.1 h.2.1 h.2.2.1 (Expr.writes hy .assignment value h.2.2.2)).fit
  | .lambda (.mk _ (.jump _ none)), h => nomatch h

/-- The arguments of a call are written with commas between them. -/
theorem Expr.arguments_written {y : Layout} (hy : y.shields = true) {c : Context} :
    (xs : List Expr) → Expr.AllLegal c xs → xs ≠ [] →
      Phrase c .argumentList .closed (Expr.argumentTokens y xs) xs
  | [], _, hne => absurd rfl hne
  | [x], h, _ => by
    obtain ⟨e, hx, -⟩ := Expr.writes hy .assignment x h.1
    exact .lastArgument hx rfl
  | x :: x' :: xs, h, _ => by
    obtain ⟨e, hx, -⟩ := Expr.writes hy .assignment x h.1
    exact .moreArguments hx rfl
      (Expr.arguments_written hy (x' :: xs) h.2 (List.cons_ne_nil x' xs))

/-- What may be left out is written as an expression or nothing. -/
theorem Expr.option_written {y : Layout} (hy : y.shields = true) {c : Context} :
    (x : Option Expr) → Expr.OptionLegal c x →
      ∃ e, Phrase c .optional e (Expr.optionTokens y x) x
  | none, _ => ⟨.closed, .absent⟩
  | some x, h => by
    obtain ⟨e, hx, -⟩ := Expr.writes hy .comma x h
    exact ⟨e, .present hx⟩

/-- Every legal statement is written as a phrase that stands for it. -/
theorem Stmt.written {y : Layout} (hy : y.shields = true) {c : Context} (declares : Bool) :
    (s : Stmt) → s.Legal c → s.Written y c declares
  | .block body, h => by
    have hbody := (Stmt.all_written hy body h).block_of_program
      (Symbol.kind_token y.line .rightBrace)
    exact ⟨.block rfl hbody, fun _ => lacks_cons rfl nofun⟩
  | .declare _ none, h => .declare rfl (.noValue h.1 rfl)
  | .declare _ (some value), h => by
    obtain ⟨e, hvalue, -⟩ := Expr.writes hy .comma value h.2
    exact .declare rfl (.value h.1 rfl hvalue rfl)
  | .function d, h => .function rfl (Definition.written hy d h)
  | .classDef name methods classMethods, h => by
    obtain ⟨hname, ⟨hms, hdistinct⟩, hcms, hcdistinct⟩ := h
    have hend : Phrase c.enterClass .members .closed [y.mark .rightBrace] [] := .membersEnd rfl
    have hmembers := Definition.all_written hy false methods hms
      (Definition.all_written hy true classMethods hcms hend)
    have hclass := Phrase.classDefinition (Symbol.kind_token y.line .classWord) hname
      (Symbol.kind_token y.line .leftBrace) hmembers
    rw [List.append_nil, (Member.collect_append hdistinct hcdistinct).1,
      (Member.collect_append hdistinct hcdistinct).2] at hclass
    exact hclass
  | .expression value, h => by
    have hvalue := Expr.writes hy .comma value h
    obtain ⟨e, hshield, -⟩ := hvalue.shield (y := y) declares
    refine ⟨.expression hshield rfl, ?_⟩
    -- Where a declaration may stand the expression is shielded.
    rintro rfl
    exact lacks_shield hy _ hvalue.ne_nil
  | .print value, h => by
    obtain ⟨e, hvalue, -⟩ := Expr.writes hy .comma value h
    exact ⟨.print rfl hvalue rfl, fun _ => lacks_cons rfl nofun⟩
  | .branch x s none, h => by
    obtain ⟨hx, hs, hplace⟩ := h
    obtain ⟨e, hx, -⟩ := Expr.writes hy .comma x hx
    have hs := (Stmt.written hy false s hs).statement hplace
    exact ⟨.branch rfl rfl hx rfl hs, fun _ => lacks_cons rfl nofun⟩
  | .branch x s (some s'), h => by
    obtain ⟨hx, ⟨hs, hplace, hopen⟩, hs', hplace'⟩ := h
    obtain ⟨e, hx, -⟩ := Expr.writes hy .comma x hx
    have hs := (Stmt.written hy false s hs).statement hplace
    have hs' := (Stmt.written hy false s' hs').statement hplace'
    -- The branch does not end in an open `if`, so its phrase is closed and an `else` may follow.
    rw [Stmt.ending, hopen] at hs
    exact ⟨.branchElse rfl rfl hx rfl hs rfl hs', fun _ => lacks_cons rfl nofun⟩
  | .whileLoop x s, h => by
    obtain ⟨hx, hs, hplace⟩ := h
    obtain ⟨e, hx, -⟩ := Expr.writes hy .comma x hx
    have hs := (Stmt.written hy false s hs).statement hplace
    exact ⟨.whileLoop rfl rfl hx rfl hs, fun _ => lacks_cons rfl nofun⟩
  | .forLoop initial x step s, h => by
    obtain ⟨hinitial, hx, hstep, hs, hplace⟩ := h
    have hinitial := Stmt.initial_written hy initial hinitial
    obtain ⟨e₁, hx⟩ := Expr.option_written hy x hx
    obtain ⟨e₂, hstep⟩ := Expr.option_written hy step hstep
    have hs := (Stmt.written hy false s hs).statement hplace
    exact ⟨.forLoop rfl rfl hinitial hx rfl hstep rfl hs, fun _ => lacks_cons rfl nofun⟩
  | .jump keyword none, h => by
    obtain ⟨hkeyword, hc⟩ | ⟨hkeyword, hc⟩ := h
    · refine ⟨.jump hkeyword hc rfl, fun _ => ?_⟩
      obtain hbreak | hcontinue := hkeyword
      · exact lacks_cons hbreak nofun
      · exact lacks_cons hcontinue nofun
    · exact ⟨.giveBack hkeyword hc .absent rfl, fun _ => lacks_cons hkeyword nofun⟩
  | .jump keyword (some value), h => by
    obtain ⟨hkeyword, hc, hvalue⟩ := h
    obtain ⟨e, hvalue, -⟩ := Expr.writes hy .comma value hvalue
    exact ⟨.giveBack hkeyword hc (.present hvalue) rfl, fun _ => lacks_cons hkeyword nofun⟩
  | .empty, _ => ⟨.empty rfl, fun _ => lacks_cons rfl nofun⟩

/-- Legal statements are written one after the other. -/
theorem Stmt.all_written {y : Layout} (hy : y.shields = true) {c : Context} :
    (ss : List Stmt) → Stmt.AllLegal c ss → Phrase c .program .closed (Stmt.allTokens y ss) ss
  | [], _ => .programEnd
  | s :: ss, h => by
    obtain ⟨e, hs⟩ := (Stmt.written hy true s h.1).declaration
    exact .programMore hs (Stmt.all_written hy ss h.2)

/-- The first part of a `for` loop is written with its semicolon. -/
theorem Stmt.initial_written {y : Layout} (hy : y.shields = true) {c : Context} :
    (s : Option Stmt) → Stmt.InitialLegal c s →
      Phrase c .initial .closed (Stmt.initialTokens y s) s
  | none, _ => .noInitial rfl
  | some (.declare _ none), h => .initialVariable rfl (.noValue h.1.1 rfl)
  | some (.declare _ (some value)), h => by
    obtain ⟨e, hvalue, -⟩ := Expr.writes hy .comma value h.1.2
    exact .initialVariable rfl (.value h.1.1 rfl hvalue rfl)
  | some (.expression value), h => by
    obtain ⟨e, hshield, -⟩ := (Expr.writes hy .comma value h.1).shield (y := y) false
    exact .initialExpression hshield rfl

/-- Every legal definition is written as a phrase that stands for it. -/
theorem Definition.written {y : Layout} (hy : y.shields = true) {c : Context} :
    (d : Definition) → d.Legal c → Phrase c .definition .closed (d.tokens y) d
  | .mk _ (.mk _ (.block body)), h => by
    have hbody := (Stmt.all_written hy body h.2.2).block_of_program
      (Symbol.kind_token y.line .rightBrace)
    exact .definition h.1 (parameters_of_legal h.2.1) rfl hbody

/-- The methods of a class are written in front of its further members. -/
theorem Definition.all_written {y : Layout} (hy : y.shields = true) {c : Context} (ofClass : Bool)
    {ts : List Token} {ms : List Member} :
    (ds : List Definition) → Definition.AllLegal c ds → Phrase c .members .closed ts ms →
      Phrase c .members .closed (Definition.allTokens y ofClass ds ++ ts)
        (ds.map (Member.mk ofClass) ++ ms)
  | [], _, hend => hend
  | d :: ds, h, hend => by
    have hd := Definition.written hy d h.1
    have hds := Definition.all_written hy ofClass ds h.2 hend
    rw [Definition.allTokens, List.append_assoc, List.append_assoc]
    cases ofClass with
    | false =>
      have hmore := Phrase.method hd hds
      exact hmore
    | true =>
      have hmore := Phrase.classMethod (Symbol.kind_token y.line .classWord) hd hds
      exact hmore

end

/-! ### Programs -/

theorem ParameterNames.forall_not_eof {ts names : List Token} (h : ParameterNames ts names) :
    ∀ t ∈ ts, t.kind.isEof = false := by
  induction h with
  | last hname hclose => simp [hname, hclose, Kind.isEof]
  | more hname hcomma _ ih => simpa [hname, hcomma, Kind.isEof] using ih

theorem Parameters.forall_not_eof {ts names : List Token} (h : Parameters ts names) :
    ∀ t ∈ ts, t.kind.isEof = false := by
  cases h with
  | none hopen hclose => simp [hopen, hclose, Kind.isEof]
  | some hopen hnames _ => simpa [hopen, Kind.isEof] using hnames.forall_not_eof

theorem Kind.isEof_of_literal? {k : Kind} {v : Literal} (h : k.literal? = some v) :
    k.isEof = false := by
  cases k with
  | eof => exact nomatch h
  | _ => rfl

theorem Tier.isEof_of_admits {t : Tier} (h : t.admits op = true) : op.kind.isEof = false := by
  cases hk : op.kind with
  | eof => simp [Tier.admits, hk] at h
  | _ => rfl

/-- There is no end mark within a phrase. -/
theorem Phrase.forall_not_eof {p : Part} {e : Ending} {x : p.Result} (h : Phrase c p e ts x) :
    ∀ t ∈ ts, t.kind.isEof = false := by
  -- Every rule names the kinds of its own tokens, and none of them is the end mark.
  induction h with
  | operator _ hop _ ihx ihy =>
    simp_all [Tier.isEof_of_admits hop, or_imp]
  | literal ht => simp [Kind.isEof_of_literal? ht]
  | unary hop _ ih => obtain hop | hop := hop <;> simpa [hop, Kind.isEof] using ih
  | lambda _ hps _ _ _ | arrow _ hps _ _ _ | definition _ hps _ _ _ =>
    have := hps.forall_not_eof
    simp_all [Kind.isEof, or_imp]
  | jump hword _ hclose => obtain hword | hword := hword <;> simp [hword, hclose, Kind.isEof]
  | _ => simp_all [Kind.isEof, or_imp]

/-- The phrase of a program, with an end mark behind it, is read as the program. -/
theorem ofTokens_of_phrase {xs : List Stmt} {eof : Token} (heof : eof.kind.isEof = true)
    (h : Phrase .outermost .program .closed ts xs) : Parsed.ofTokens (ts ++ [eof]) = ⟨xs, []⟩ := by
  rw [← rest_ofTokens heof h.forall_not_eof] at h
  exact parsed_ofCursor_iff.mpr h

/-- **Reading undoes writing**: every legal program is read from its tokens, without a mistake, if
expressions that could be taken for declarations are shielded. -/
theorem ofTokens_program (line : Nat) {xs : List Stmt} (h : Stmt.AllLegal .outermost xs) :
    Parsed.ofTokens (Layout.program ⟨line, true⟩ xs) = ⟨xs, []⟩ :=
  ofTokens_of_phrase rfl (Stmt.all_written rfl xs h)

/-- In `(fun () \x7b\x7d); print (a, b) + -c;` both pairs of parentheses are needed. -/
theorem ofTokens_program_shielded :
    let a : Token := ⟨.identifier, "a", 1⟩
    let b : Token := ⟨.identifier, "b", 1⟩
    let c : Token := ⟨.identifier, "c", 1⟩
    let xs : List Stmt := [.expression (.lambda (.mk [] (.block []))),
      .print (.binary (.binary (.name a) (Symbol.comma.token 1) (.name b)) (Symbol.plus.token 1)
        (.unary (Symbol.minus.token 1) (.name c)))]
    Stmt.AllLegal .outermost xs ∧ Parsed.ofTokens (Layout.program ⟨1, true⟩ xs) = ⟨xs, []⟩ := by
  intro a b c xs
  have hxs : Stmt.AllLegal .outermost xs := by
    refine ⟨⟨⟨nofun, Nat.zero_le _⟩, trivial⟩, ⟨.inr ⟨.sum, rfl, rfl⟩, ?_, ?_⟩, trivial⟩
    · exact ⟨.inl rfl, .inl rfl, .inl rfl⟩
    · exact ⟨.inr rfl, .inl rfl⟩
  exact ⟨hxs, ofTokens_program 1 hxs⟩

/-- **Without shields writing cannot always be undone**: the legal program `fun () \x7b\x7d;`, whose
expression needs no parentheses for its level, is not read. -/
theorem not_ofTokens_program_unshielded :
    let xs : List Stmt := [.expression (.lambda (.mk [] (.block [])))]
    Stmt.AllLegal .outermost xs ∧ Parsed.ofTokens (Layout.program ⟨1, false⟩ xs) ≠ ⟨xs, []⟩ := by
  intro xs
  refine ⟨⟨⟨⟨nofun, Nat.zero_le _⟩, trivial⟩, trivial⟩, fun h => ?_⟩
  have herrors : (Parsed.ofTokens (Layout.program ⟨1, false⟩ xs)).errors ≠ [] := by decide +kernel
  exact herrors (by rw [h])

end Lox
