import Lox.Program.OfTokens

/-!
# Phrases

A **phrase** is a list of tokens read as a part of a program in a context, together with the tree it
stands for. The rules are those of the grammar with its ambiguities settled:

* a function without a name whose body follows an arrow takes in as much as it can, so nothing that
  could go on with the body may follow it, and it is no left operand and no callee;
* an `if` without `else` is not followed by `else`.

Phrases that end in one of the two are **greedy**, the others are **closed**; `Follows` says which
tokens may stand behind a phrase.

Main definitions:

* `Part`, `Part.Result` — the parts of a program and the trees they stand for;
* `Phrase` — the phrases of a part;
* `Follows` — what may stand behind a phrase.
-/

namespace Lox

/-! ### Tokens -/

/-- The token of a symbol on a line, with the symbol's spelling. -/
def Symbol.token (line : Nat) (x : Symbol) : Token :=
  ⟨.symbol x, x.spelling, line⟩

/-- The constant that a token of the kind stands for. -/
def Kind.literal? : Kind → Option Literal
  | .symbol .falseWord => some (.bool false)
  | .symbol .trueWord => some (.bool true)
  | .symbol .nilWord => some .nil
  | .number value => some (.number value)
  | .string value => some (.text value)
  | _ => none

/-- Whether the part of an expression that binds most starts with a token of the kind. -/
def Kind.startsPrimary : Kind → Bool
  | .identifier | .symbol .thisWord | .symbol .leftParen | .symbol .funWord => true
  | k => k.literal?.isSome

/-- Whether an expression starts with a token of the kind. -/
def Kind.startsExpression : Kind → Bool
  | .symbol .bang | .symbol .minus => true
  | k => k.startsPrimary

/-- Whether a token goes on with an expression at a level. -/
def Level.goesOn : Level → Token → Bool
  | comma, t => t.is .comma
  | assignment, t => t.is .equal
  | conditional, t => t.is .question
  | tier t, op => t.admits op
  | unary, _ => false
  | call, t => t.is .leftParen || t.is .dot

/-- The level of the operands of a level's operators, which is the next that binds more. -/
def Level.tighter? : Level → Option Level
  | .comma => some .assignment
  | .assignment => some .conditional
  | .conditional => some (.tier .disjunction)
  | .tier t => some t.tighter
  | .unary => some .call
  | .call => none

/-- The tokens in front do not go on with an expression at a level of rank `n` or above. -/
def Stops (n : Nat) (rest : List Token) : Prop :=
  ∀ t ∈ rest.head?, ∀ l : Level, l.goesOn t = true → l.rank < n

/-- The next token is not a given symbol. -/
def Lacks (x : Symbol) (rest : List Token) : Prop :=
  ∀ t ∈ rest.head?, t.kind ≠ .symbol x

/-! ### Levels and the tokens that go on with them -/

theorem Level.rank_of_tighter? {l l' : Level} (h : l.tighter? = some l') :
    l'.rank = l.rank + 1 := by
  cases l with
  | tier t => cases t <;> cases h <;> rfl
  | call => exact nomatch h
  | comma | assignment | conditional | unary => cases h; rfl

theorem Level.eq_of_rank_eq {l l' : Level} (h : l.rank = l'.rank) : l = l' := by
  rcases l with _ | _ | _ | t | _ | _ <;> rcases l' with _ | _ | _ | t' | _ | _
  case tier.tier => cases t <;> cases t' <;> first | rfl | exact absurd h (by decide)
  case tier.comma | tier.assignment | tier.conditional | tier.unary | tier.call =>
    cases t <;> exact absurd h (by decide)
  case comma.tier | assignment.tier | conditional.tier | unary.tier | call.tier =>
    cases t' <;> exact absurd h (by decide)
  all_goals first | rfl | exact absurd h (by decide)

/-- A token goes on at one level only. -/
theorem Level.eq_of_goesOn {l l' : Level} {t : Token} (h : l.goesOn t = true)
    (h' : l'.goesOn t = true) : l = l' := by
  cases hk : t.kind with
  | symbol x =>
    simp only [goesOn, Token.is, Tier.admits] at h h'
    cases l <;> cases l' <;> grind [Tier.ofSymbol?]
  | _ => cases l <;> simp [goesOn, Token.is, Tier.admits, hk] at h

/-! ### What can be assigned to -/

/-- An assignment gives a name another value, or sets a field. -/
theorem Expr.assigned?_eq_some {x v y : Expr} : x.assigned? v = some y ↔
    (∃ t, x = .name t ∧ t.kind = .identifier ∧ y = .assign t v) ∨
      ∃ object member, x = .get object member ∧ y = .set object member v := by
  constructor
  · intro h
    unfold assigned? at h
    split at h
    · split at h
      · next hkind => exact .inl ⟨_, rfl, hkind, (Option.some.inj h).symm⟩
      · cases h
    · exact .inr ⟨_, _, rfl, (Option.some.inj h).symm⟩
    · cases h
  · rintro (⟨t, rfl, hkind, rfl⟩ | ⟨object, member, rfl, rfl⟩)
    · rw [assigned?, hkind]
    · rfl

/-! ### Phrases -/

/-- How a phrase ends. -/
inductive Ending where
  /-- The phrase ends by itself. -/
  | closed
  /-- The phrase ends in a part that goes on as long as it can. -/
  | greedy
deriving DecidableEq

/-- The parts of a program. -/
inductive Part where
  /-- An expression of a level. -/
  | expression (l : Level)
  /-- An expression without operators, calls and members. -/
  | primary
  /-- The arguments of a call, with the closing parenthesis. -/
  | arguments
  /-- At least one argument, with the closing parenthesis. -/
  | argumentList
  /-- An expression or nothing. -/
  | optional
  /-- The declarations of a block, with the closing brace. -/
  | block
  /-- What may stand in a block. -/
  | declaration
  /-- The members of a class, with the closing brace. -/
  | members
  /-- A function from its name on. -/
  | definition
  /-- A variable from its name on. -/
  | variableDefinition
  /-- What may stand in a branch. -/
  | statement
  /-- The first part of a `for` loop, with its semicolon. -/
  | initial
  /-- The declarations of a program. -/
  | program

/-- What the phrases of a part stand for. -/
@[reducible]
def Part.Result : Part → Type
  | expression _ | primary => Expr
  | arguments | argumentList => List Expr
  | optional => Option Expr
  | block | program => List Stmt
  | declaration | variableDefinition | statement => Stmt
  | members => List Member
  | definition => Definition
  | initial => Option Stmt

/-- Names with commas between them and a closing parenthesis. -/
inductive ParameterNames : List Token → List Token → Prop where
  | last {name close : Token} (hname : name.kind = .identifier)
      (hclose : close.kind = .symbol .rightParen) : ParameterNames [name, close] [name]
  | more {name comma : Token} {ts names : List Token} (hname : name.kind = .identifier)
      (hcomma : comma.kind = .symbol .comma) (hmore : ParameterNames ts names) :
      ParameterNames (name :: comma :: ts) (name :: names)

/-- The parameters of a function in parentheses. -/
inductive Parameters : List Token → List Token → Prop where
  | none {opening close : Token} (hopen : opening.kind = .symbol .leftParen)
      (hclose : close.kind = .symbol .rightParen) : Parameters [opening, close] []
  | some {opening : Token} {ts names : List Token} (hopen : opening.kind = .symbol .leftParen)
      (hnames : ParameterNames ts names) (hle : names.length ≤ maxArity) :
      Parameters (opening :: ts) names

/-- `Phrase c p e ts x`: in the context `c` the tokens `ts` are a phrase of the part `p` with the
ending `e`, and stand for `x`. -/
inductive Phrase : Context → (p : Part) → Ending → List Token → p.Result → Prop where
  -- Expressions, the loosest first.
  | lift {c : Context} {l l' : Level} {e : Ending} {ts : List Token} {x : Expr}
      (hl : l.tighter? = some l') (hx : Phrase c (.expression l') e ts x) :
      Phrase c (.expression l) e ts x
  | comma {c : Context} {e₁ e : Ending} {ts us : List Token} {op : Token} {x y : Expr}
      (hx : Phrase c (.expression .assignment) e₁ ts x) (hop : op.kind = .symbol .comma)
      (hy : Phrase c (.expression .comma) e us y) :
      Phrase c (.expression .comma) e (ts ++ op :: us) (.binary x op y)
  | assign {c : Context} {e : Ending} {ts us : List Token} {op : Token} {x v y : Expr}
      (hx : Phrase c (.expression .conditional) .closed ts x) (hop : op.kind = .symbol .equal)
      (hv : Phrase c (.expression .assignment) e us v) (hy : x.assigned? v = some y) :
      Phrase c (.expression .assignment) e (ts ++ op :: us) y
  | conditional {c : Context} {e₁ e : Ending} {ts us vs : List Token} {op colon : Token}
      {x y z : Expr} (hx : Phrase c (.expression (.tier .disjunction)) .closed ts x)
      (hop : op.kind = .symbol .question) (hy : Phrase c (.expression .conditional) e₁ us y)
      (hcolon : colon.kind = .symbol .colon) (hz : Phrase c (.expression .conditional) e vs z) :
      Phrase c (.expression .conditional) e (ts ++ op :: (us ++ colon :: vs)) (.conditional x y z)
  | operator {c : Context} {t : Tier} {e : Ending} {ts us : List Token} {op : Token} {x y : Expr}
      (hx : Phrase c (.expression (.tier t)) .closed ts x) (hop : t.admits op = true)
      (hy : Phrase c (.expression t.tighter) e us y) :
      Phrase c (.expression (.tier t)) e (ts ++ op :: us) (t.join x op y)
  | unary {c : Context} {e : Ending} {ts : List Token} {op : Token} {x : Expr}
      (hop : op.kind = .symbol .bang ∨ op.kind = .symbol .minus)
      (hx : Phrase c (.expression .unary) e ts x) :
      Phrase c (.expression .unary) e (op :: ts) (.unary op x)
  | callee {c : Context} {e : Ending} {ts : List Token} {x : Expr} (hx : Phrase c .primary e ts x) :
      Phrase c (.expression .call) e ts x
  | call {c : Context} {ts us : List Token} {paren : Token} {f : Expr} {xs : List Expr}
      (hf : Phrase c (.expression .call) .closed ts f) (hparen : paren.kind = .symbol .leftParen)
      (hxs : Phrase c .arguments .closed us xs) :
      Phrase c (.expression .call) .closed (ts ++ paren :: us) (.call f paren xs)
  | member {c : Context} {ts : List Token} {dot name : Token} {x : Expr}
      (hx : Phrase c (.expression .call) .closed ts x) (hdot : dot.kind = .symbol .dot)
      (hname : name.kind = .identifier) :
      Phrase c (.expression .call) .closed (ts ++ [dot, name]) (.get x name)
  -- What needs no operator.
  | literal {c : Context} {t : Token} {v : Literal} (ht : t.kind.literal? = some v) :
      Phrase c .primary .closed [t] (.literal v)
  | name {c : Context} {t : Token} (ht : t.kind = .identifier) :
      Phrase c .primary .closed [t] (.name t)
  | this {c : Context} {t : Token} (ht : t.kind = .symbol .thisWord) (hc : c.inClass = true) :
      Phrase c .primary .closed [t] (.name t)
  | paren {c : Context} {e : Ending} {ts : List Token} {opening close : Token} {x : Expr}
      (hopen : opening.kind = .symbol .leftParen) (hx : Phrase c (.expression .comma) e ts x)
      (hclose : close.kind = .symbol .rightParen) :
      Phrase c .primary .closed (opening :: (ts ++ [close])) x
  | lambda {c : Context} {ps ts names : List Token} {word brace : Token} {body : List Stmt}
      (hword : word.kind = .symbol .funWord) (hps : Parameters ps names)
      (hbrace : brace.kind = .symbol .leftBrace)
      (hbody : Phrase c.enterFunction .block .closed ts body) :
      Phrase c .primary .closed (word :: (ps ++ brace :: ts)) (.lambda (.mk names (.block body)))
  | arrow {c : Context} {e : Ending} {ps ts names : List Token} {word arrow : Token} {x : Expr}
      (hword : word.kind = .symbol .funWord) (hps : Parameters ps names)
      (harrow : arrow.kind = .symbol .arrow) (hx : Phrase c (.expression .assignment) e ts x) :
      Phrase c .primary .greedy (word :: (ps ++ arrow :: ts)) (.lambda (.mk names
        (.jump ⟨.symbol .returnWord, Symbol.returnWord.spelling, arrow.line⟩ (some x))))
  -- Arguments.
  | noArguments {c : Context} {close : Token} (hclose : close.kind = .symbol .rightParen) :
      Phrase c .arguments .closed [close] []
  | someArguments {c : Context} {ts : List Token} {xs : List Expr}
      (hxs : Phrase c .argumentList .closed ts xs) (hle : xs.length ≤ maxArity) :
      Phrase c .arguments .closed ts xs
  | lastArgument {c : Context} {e : Ending} {ts : List Token} {close : Token} {x : Expr}
      (hx : Phrase c (.expression .assignment) e ts x) (hclose : close.kind = .symbol .rightParen) :
      Phrase c .argumentList .closed (ts ++ [close]) [x]
  | moreArguments {c : Context} {e : Ending} {ts us : List Token} {comma : Token} {x : Expr}
      {xs : List Expr} (hx : Phrase c (.expression .assignment) e ts x)
      (hcomma : comma.kind = .symbol .comma) (hxs : Phrase c .argumentList .closed us xs) :
      Phrase c .argumentList .closed (ts ++ comma :: us) (x :: xs)
  | absent {c : Context} : Phrase c .optional .closed [] none
  | present {c : Context} {e : Ending} {ts : List Token} {x : Expr}
      (hx : Phrase c (.expression .comma) e ts x) : Phrase c .optional e ts (some x)
  -- Declarations.
  | blockEnd {c : Context} {close : Token} (hclose : close.kind = .symbol .rightBrace) :
      Phrase c .block .closed [close] []
  | blockMore {c : Context} {e : Ending} {ts us : List Token} {x : Stmt} {xs : List Stmt}
      (hx : Phrase c .declaration e ts x) (hxs : Phrase c .block .closed us xs) :
      Phrase c .block .closed (ts ++ us) (x :: xs)
  | classDefinition {c : Context} {ts : List Token} {word name brace : Token} {ms : List Member}
      (hword : word.kind = .symbol .classWord) (hname : name.kind = .identifier)
      (hbrace : brace.kind = .symbol .leftBrace)
      (hms : Phrase c.enterClass .members .closed ts ms) :
      Phrase c .declaration .closed (word :: name :: brace :: ts)
        (.classDef name (Member.collect false ms) (Member.collect true ms))
  | function {c : Context} {ts : List Token} {word : Token} {d : Definition}
      (hword : word.kind = .symbol .funWord) (hd : Phrase c .definition .closed ts d) :
      Phrase c .declaration .closed (word :: ts) (.function d)
  | declare {c : Context} {ts : List Token} {word : Token} {x : Stmt}
      (hword : word.kind = .symbol .varWord) (hx : Phrase c .variableDefinition .closed ts x) :
      Phrase c .declaration .closed (word :: ts) x
  | statement {c : Context} {e : Ending} {ts : List Token} {x : Stmt}
      (hx : Phrase c .statement e ts x) (hfun : Lacks .funWord ts) :
      Phrase c .declaration e ts x
  | membersEnd {c : Context} {close : Token} (hclose : close.kind = .symbol .rightBrace) :
      Phrase c .members .closed [close] []
  | method {c : Context} {ts us : List Token} {d : Definition} {ms : List Member}
      (hd : Phrase c .definition .closed ts d) (hms : Phrase c .members .closed us ms) :
      Phrase c .members .closed (ts ++ us) (⟨false, d⟩ :: ms)
  | classMethod {c : Context} {ts us : List Token} {word : Token} {d : Definition}
      {ms : List Member} (hword : word.kind = .symbol .classWord)
      (hd : Phrase c .definition .closed ts d) (hms : Phrase c .members .closed us ms) :
      Phrase c .members .closed (word :: (ts ++ us)) (⟨true, d⟩ :: ms)
  | definition {c : Context} {ps ts names : List Token} {name brace : Token} {body : List Stmt}
      (hname : name.kind = .identifier) (hps : Parameters ps names)
      (hbrace : brace.kind = .symbol .leftBrace)
      (hbody : Phrase c.enterFunction .block .closed ts body) :
      Phrase c .definition .closed (name :: (ps ++ brace :: ts))
        (.mk name (.mk names (.block body)))
  | noValue {c : Context} {name close : Token} (hname : name.kind = .identifier)
      (hclose : close.kind = .symbol .semicolon) :
      Phrase c .variableDefinition .closed [name, close] (.declare name none)
  | value {c : Context} {e : Ending} {ts : List Token} {name equal close : Token} {x : Expr}
      (hname : name.kind = .identifier) (hequal : equal.kind = .symbol .equal)
      (hx : Phrase c (.expression .comma) e ts x) (hclose : close.kind = .symbol .semicolon) :
      Phrase c .variableDefinition .closed (name :: equal :: (ts ++ [close]))
        (.declare name (some x))
  -- Statements.
  | expression {c : Context} {e : Ending} {ts : List Token} {close : Token} {x : Expr}
      (hx : Phrase c (.expression .comma) e ts x) (hclose : close.kind = .symbol .semicolon) :
      Phrase c .statement .closed (ts ++ [close]) (.expression x)
  | print {c : Context} {e : Ending} {ts : List Token} {word close : Token} {x : Expr}
      (hword : word.kind = .symbol .printWord) (hx : Phrase c (.expression .comma) e ts x)
      (hclose : close.kind = .symbol .semicolon) :
      Phrase c .statement .closed (word :: (ts ++ [close])) (.print x)
  | branch {c : Context} {e₁ e : Ending} {ts us : List Token} {word opening close : Token}
      {x : Expr} {y : Stmt} (hword : word.kind = .symbol .ifWord)
      (hopen : opening.kind = .symbol .leftParen) (hx : Phrase c (.expression .comma) e₁ ts x)
      (hclose : close.kind = .symbol .rightParen) (hy : Phrase c .statement e us y) :
      Phrase c .statement .greedy (word :: opening :: (ts ++ close :: us)) (.branch x y none)
  | branchElse {c : Context} {e₁ e : Ending} {ts us vs : List Token}
      {word opening close other : Token} {x : Expr} {y z : Stmt}
      (hword : word.kind = .symbol .ifWord) (hopen : opening.kind = .symbol .leftParen)
      (hx : Phrase c (.expression .comma) e₁ ts x) (hclose : close.kind = .symbol .rightParen)
      (hy : Phrase c .statement .closed us y) (hother : other.kind = .symbol .elseWord)
      (hz : Phrase c .statement e vs z) :
      Phrase c .statement e (word :: opening :: (ts ++ close :: (us ++ other :: vs)))
        (.branch x y (some z))
  | whileLoop {c : Context} {e₁ e : Ending} {ts us : List Token} {word opening close : Token}
      {x : Expr} {y : Stmt} (hword : word.kind = .symbol .whileWord)
      (hopen : opening.kind = .symbol .leftParen) (hx : Phrase c (.expression .comma) e₁ ts x)
      (hclose : close.kind = .symbol .rightParen) (hy : Phrase c.enterLoop .statement e us y) :
      Phrase c .statement e (word :: opening :: (ts ++ close :: us)) (.whileLoop x y)
  | forLoop {c : Context} {e₁ e₂ e : Ending} {ts us vs ws : List Token}
      {word opening semicolon close : Token} {x : Option Stmt} {y z : Option Expr} {body : Stmt}
      (hword : word.kind = .symbol .forWord) (hopen : opening.kind = .symbol .leftParen)
      (hx : Phrase c .initial .closed ts x) (hy : Phrase c .optional e₁ us y)
      (hsemicolon : semicolon.kind = .symbol .semicolon) (hz : Phrase c .optional e₂ vs z)
      (hclose : close.kind = .symbol .rightParen)
      (hbody : Phrase c.enterLoop .statement e ws body) :
      Phrase c .statement e
        (word :: opening :: (ts ++ (us ++ semicolon :: (vs ++ close :: ws)))) (.forLoop x y z body)
  | jump {c : Context} {word close : Token}
      (hword : word.kind = .symbol .breakWord ∨ word.kind = .symbol .continueWord)
      (hc : c.inLoop = true) (hclose : close.kind = .symbol .semicolon) :
      Phrase c .statement .closed [word, close] (.jump word none)
  | giveBack {c : Context} {e : Ending} {ts : List Token} {word close : Token} {x : Option Expr}
      (hword : word.kind = .symbol .returnWord) (hc : c.inFunction = true)
      (hx : Phrase c .optional e ts x) (hclose : close.kind = .symbol .semicolon) :
      Phrase c .statement .closed (word :: (ts ++ [close])) (.jump word x)
  | block {c : Context} {ts : List Token} {brace : Token} {body : List Stmt}
      (hbrace : brace.kind = .symbol .leftBrace) (hbody : Phrase c .block .closed ts body) :
      Phrase c .statement .closed (brace :: ts) (.block body)
  | empty {c : Context} {close : Token} (hclose : close.kind = .symbol .semicolon) :
      Phrase c .statement .closed [close] .empty
  | noInitial {c : Context} {close : Token} (hclose : close.kind = .symbol .semicolon) :
      Phrase c .initial .closed [close] none
  | initialVariable {c : Context} {ts : List Token} {word : Token} {x : Stmt}
      (hword : word.kind = .symbol .varWord) (hx : Phrase c .variableDefinition .closed ts x) :
      Phrase c .initial .closed (word :: ts) (some x)
  | initialExpression {c : Context} {e : Ending} {ts : List Token} {close : Token} {x : Expr}
      (hx : Phrase c (.expression .comma) e ts x) (hclose : close.kind = .symbol .semicolon) :
      Phrase c .initial .closed (ts ++ [close]) (some (.expression x))
  -- Programs.
  | programEnd {c : Context} : Phrase c .program .closed [] []
  | programMore {c : Context} {e : Ending} {ts us : List Token} {x : Stmt} {xs : List Stmt}
      (hx : Phrase c .declaration e ts x) (hxs : Phrase c .program .closed us xs) :
      Phrase c .program .closed (ts ++ us) (x :: xs)

/-- The rank from which on no level may go on behind an expression. The body of an arrow goes on at
the level of assignments. -/
def Ending.bound : Ending → Nat → Nat
  | closed, n => n
  | greedy, n => min n Level.assignment.rank

/-- What may stand behind a phrase of a part. -/
def Follows : Part → Ending → List Token → Prop
  | .expression l, e, rest => Stops (e.bound l.rank) rest
  | .primary, e, rest => Stops (e.bound (Level.call.rank + 1)) rest
  | .statement, e, rest | .declaration, e, rest => e = .greedy → Lacks .elseWord rest
  | _, _, _ => True

/-- Anything may stand behind a statement that is closed. -/
theorem follows_statement (rest : List Token) : Follows .statement .closed rest := by
  intro h
  cases h

theorem follows_declaration (rest : List Token) : Follows .declaration .closed rest :=
  follows_statement rest

/-- A phrase of a level is one of every level that binds less. -/
theorem Phrase.lower {c : Context} {e : Ending} {ts : List Token} {x : Expr} {l l' : Level}
    (h : Phrase c (.expression l') e ts x) (hle : l.rank ≤ l'.rank) :
    Phrase c (.expression l) e ts x := by
  by_cases heq : l.rank = l'.rank
  · rw [Level.eq_of_rank_eq heq]
    exact h
  · cases hl : l.tighter? with
    | some l'' =>
      have hrank := Level.rank_of_tighter? hl
      exact .lift hl (h.lower (by omega))
    | none =>
      have hcall : l = .call := by
        cases l <;> first | rfl | exact nomatch hl
      have := l'.rank_le
      rw [hcall] at hle heq
      exact absurd (Nat.le_antisymm hle this) heq
termination_by l'.rank - l.rank

/-- Whether all phrases of a part are closed. -/
def Part.endsItself : Part → Bool
  | .expression _ | .primary | .optional | .declaration | .statement => false
  | _ => true

theorem Phrase.eq_closed {c : Context} {p : Part} {e : Ending} {ts : List Token} {x : p.Result}
    (h : Phrase c p e ts x) (hp : p.endsItself = true) : e = .closed := by
  cases h <;> first | rfl | exact nomatch hp

/-! ### What stops an expression -/

variable {m n : Nat} {t : Token} {rest : List Token}

theorem Stops.mono (h : Stops m rest) (hmn : m ≤ n) : Stops n rest :=
  fun t ht l hl => Nat.lt_of_lt_of_le (h t ht l hl) hmn

/-- No level is above the calls. -/
theorem stops_of_lt (h : Level.call.rank < n) : Stops n rest :=
  fun _ _ l _ => Nat.lt_of_le_of_lt l.rank_le h

/-- A token that goes on at a level stops all that bind more. -/
theorem stops_cons_of_goesOn {l : Level} (ht : l.goesOn t = true) (hl : l.rank < n) :
    Stops n (t :: rest) := by
  intro t' ht' l' hl'
  obtain rfl : t = t' := by simpa using ht'
  rw [Level.eq_of_goesOn hl' ht]
  exact hl

/-- The symbols that end an expression go on with none. -/
theorem stops_cons_of_kind {x : Symbol} (ht : t.kind = .symbol x)
    (hx : x ∈ [.semicolon, .rightParen, .colon]) : Stops n (t :: rest) := by
  intro t' ht' l hl
  obtain rfl : t = t' := by simpa using ht'
  have hno : l.goesOn t = false := by
    simp only [List.mem_cons, List.not_mem_nil, or_false] at hx
    obtain rfl | rfl | rfl := hx <;>
      cases l <;> simp [Level.goesOn, Token.is, Tier.admits, ht, Tier.ofSymbol?]
  exact absurd hl (by simp [hno])

theorem Stops.not_goesOn {l : Level} (h : Stops n rest) (hl : n ≤ l.rank) :
    ∀ t ∈ rest.head?, ¬ l.goesOn t = true :=
  fun t ht hgo => Nat.not_lt.mpr hl (h t ht l hgo)

namespace Ending

@[simp]
theorem bound_closed : closed.bound n = n :=
  rfl

@[simp]
theorem bound_greedy : greedy.bound n = min n 1 :=
  rfl

theorem bound_le (e : Ending) (n : Nat) : e.bound n ≤ n := by
  cases e with
  | closed => exact Nat.le_refl n
  | greedy => exact Nat.min_le_left n _

theorem bound_mono (e : Ending) (h : m ≤ n) : e.bound m ≤ e.bound n := by
  cases e with
  | closed => exact h
  | greedy => rw [bound_greedy, bound_greedy]; omega

/-- If a phrase is followed by a token that goes on at a level above the commas, it is closed. -/
theorem eq_closed {e : Ending} {l : Level} (h : Stops (e.bound n) (t :: rest))
    (ht : l.goesOn t = true) (hl : 1 ≤ l.rank) : e = .closed := by
  cases e with
  | closed => rfl
  | greedy =>
    have hlt := h t rfl l ht
    rw [bound_greedy] at hlt
    omega

/-- What stops the operands of a level stops the level, unless it goes on there. -/
theorem stops_bound {e : Ending} {l l' : Level} (hl : l.tighter? = some l')
    (h : Stops (e.bound l'.rank) rest) (hno : ∀ t ∈ rest.head?, ¬ l.goesOn t = true) :
    Stops (e.bound l.rank) rest := by
  intro t ht k hk
  have hlt := h t ht k hk
  have hne : k.rank ≠ l.rank := by
    intro heq
    rw [Level.eq_of_rank_eq heq] at hk
    exact hno t ht hk
  rw [Level.rank_of_tighter? hl] at hlt
  cases e with
  | closed => rw [bound_closed] at hlt ⊢; omega
  | greedy => rw [bound_greedy] at hlt ⊢; omega

end Ending

end Lox
