import Lox.Proofs.Program.Reads

/-!
# Scripts

The functions of the reader are kinds of **job**, and `Job.read` does a job at a cursor. A
**script** says how: which tokens are passed, which mistakes are noted, for which mistakes the
statement is abandoned, and which part is read next as a job of its own. `Script.follow` follows a
script, with `Job.read` for the parts; that every job is done by following its script is
`Job.read_eq`. What holds of every script therefore holds of every reading, and another way to
follow scripts is another way to read.
-/

namespace Lox

/-! ### What comes of a job -/

/-- What comes of reading a part, as in `Reply`, whatever the number of tokens that are left. -/
inductive Readout (α : Type) where
  /-- The part was read. -/
  | read (value : α) (rest : Cursor) (reports : List GrammarError)
  /-- The statement around the part is abandoned. -/
  | broken (error : GrammarError) (rest : Cursor) (reports : List GrammarError)

namespace Readout

variable {α β : Type}

/-- What comes of reading, with further reports in front. -/
def note (reports : List GrammarError) : Readout α → Readout α
  | read value s own => read value s (reports ++ own)
  | broken e s own => broken e s (reports ++ own)

/-- Reads on behind a part that was read; a mistake in it stands. -/
def andThen (r : Readout α) (f : α → Cursor → Readout β) : Readout β :=
  match r with
  | read value s reports => (f value s).note reports
  | broken e s reports => broken e s reports

@[simp]
theorem note_nil (r : Readout α) : r.note [] = r := by
  cases r <;> rfl

end Readout

namespace Reply

variable {α β : Type} {m n : Nat}

/-- What comes of reading, the bound on the tokens that are left forgotten. -/
def readout : Reply α n → Readout α
  | done value s reports _ => .read value s reports
  | failed e s reports _ => .broken e s reports

@[simp]
theorem readout_pure {x : α} {s : Cursor} {h : s.size < n} :
    (pure x s h : Reply α n).readout = .read x s [] := rfl

@[simp]
theorem readout_fail {line : Nat} {mistake : Mistake} {s : Cursor} {h : s.size ≤ n} :
    (fail line mistake s h : Reply α n).readout = .broken ⟨line, mistake⟩ s [] := rfl

@[simp]
theorem readout_note {r : Reply α n} {reports : List GrammarError} :
    (r.note reports).readout = r.readout.note reports := by
  cases r <;> rfl

@[simp]
theorem readout_widen {r : Reply α m} {h : m ≤ n} : (r.widen h).readout = r.readout := by
  cases r <;> rfl

theorem readout_andThen {r : Reply α m} {f : α → (s : Cursor) → s.size < m → Reply β n}
    {h : m ≤ n} {o : Readout α} {g : α → Cursor → Readout β} (hr : r.readout = o)
    (hf : ∀ x s hs, (f x s hs).readout = g x s) : (r.andThen f h).readout = o.andThen g := by
  subst hr
  cases r with
  | done x s reports hs => exact readout_note.trans (congrArg _ (hf x s hs))
  | failed e s reports hs => rfl

end Reply

/-! ### Jobs -/

/-- The parts of a program that the reader has a function for. -/
inductive Job where
  /-- An expression of a level. -/
  | expression (l : Level)
  /-- The operators of a tier, with their right operands, behind a left operand. -/
  | operands (t : Tier) (left : Expr)
  /-- The calls and members behind an expression. -/
  | trailers (callee : Expr)
  /-- The arguments of a call behind its opening parenthesis. -/
  | arguments
  /-- Arguments, of which some were read before. -/
  | argumentList (count : Nat)
  /-- What needs no operator. -/
  | primary
  /-- A function without a name, behind its keyword. -/
  | lambda
  /-- The parameters of a function. -/
  | parameters
  /-- Parameters, of which some were read before. -/
  | parameterList (count : Nat)
  /-- The statements of a block behind its opening brace. -/
  | block
  /-- A definition, a variable, or another statement. -/
  | declaration
  /-- A class behind its keyword. -/
  | classDefinition
  /-- The members of a class behind its opening brace. -/
  | members
  /-- A named function behind its keyword, or a method. -/
  | definition
  /-- A variable behind its keyword. -/
  | variableDefinition
  /-- A statement that defines nothing. -/
  | statement
  /-- An expression and a semicolon. -/
  | expressionStatement
  /-- An expression, or nothing in front of a symbol. -/
  | optionalExpression (stop : Symbol)
  /-- A `for` loop behind its keyword. -/
  | forStatement
  /-- The first part of a `for` loop, with its semicolon. -/
  | forInitial
  /-- An `if` statement behind its keyword. -/
  | ifStatement
  /-- A `while` loop behind its keyword. -/
  | whileStatement

/-- What a job yields. -/
abbrev Job.Result : Job → Type
  | expression _ | operands .. | trailers _ | primary | lambda => Expr
  | arguments | argumentList _ => List Expr
  | parameters | parameterList _ => List Token
  | block => List Stmt
  | members => List Member
  | definition => Definition
  | optionalExpression _ => Option Expr
  | forInitial => Option Stmt
  | declaration | classDefinition | variableDefinition | statement | expressionStatement
  | forStatement | ifStatement | whileStatement => Stmt

/-- Does a job at a cursor. -/
def Job.read (c : Context) : (j : Job) → Cursor → Readout j.Result
  | expression l, s => (Reading.expression c l s).readout
  | operands t left, s => (Reading.operands c t left s).readout
  | trailers callee, s => (Reading.trailers c callee s).readout
  | arguments, s => (Reading.arguments c s).readout
  | argumentList count, s => (Reading.argumentList c count s).readout
  | primary, s => (Reading.primary c s).readout
  | lambda, s => (Reading.lambda c s).readout
  | parameters, s => (Reading.parameters s).readout
  | parameterList count, s => (Reading.parameterList count s).readout
  | block, s => (Reading.block c s).readout
  | declaration, s => (Reading.declaration c s).readout
  | classDefinition, s => (Reading.classDefinition c s).readout
  | members, s => (Reading.members c s).readout
  | definition, s => (Reading.definition c s).readout
  | variableDefinition, s => (Reading.variableDefinition c s).readout
  | statement, s => (Reading.statement c s).readout
  | expressionStatement, s => (Reading.expressionStatement c s).readout
  | optionalExpression stop, s => (Reading.optionalExpression c stop s).readout
  | forStatement, s => (Reading.forStatement c s).readout
  | forInitial, s => (Reading.forInitial c s).readout
  | ifStatement, s => (Reading.ifStatement c s).readout
  | whileStatement, s => (Reading.whileStatement c s).readout

/-- The expression that a token is by itself: a constant or a name. -/
def Token.atom? (t : Token) : Option Expr :=
  match t.kind with
  | .symbol .falseWord => some (.literal (.bool false))
  | .symbol .trueWord => some (.literal (.bool true))
  | .symbol .nilWord => some (.literal .nil)
  | .number value => some (.literal (.number value))
  | .string value => some (.literal (.text value))
  | .identifier => some (.name t)
  | _ => none

/-- Whether a token is a name. -/
def Token.isIdentifier (t : Token) : Bool :=
  match t.kind with
  | .identifier => true
  | _ => false

/-! ### Scripts -/

/-- What may stand around a part. -/
inductive Around where
  /-- A loop. -/
  | loop
  /-- The body of a function. -/
  | function
  /-- The body of a class. -/
  | classBody
deriving DecidableEq

namespace Context

/-- Whether something stands around the part that is read. -/
def has (c : Context) : Around → Bool
  | .loop => c.inLoop
  | .function => c.inFunction
  | .classBody => c.inClass

/-- The context of a part that stands inside something, or in nothing further. -/
def enter (c : Context) : Option Around → Context
  | some .loop => c.enterLoop
  | some .function => c.enterFunction
  | some .classBody => c.enterClass
  | none => c

end Context

/-- The place of a mistake. -/
inductive Spot where
  /-- The token read last. -/
  | last
  /-- The next token, or the end of the input. -/
  | next
  /-- A token that was read before. -/
  | of (t : Token)

/-- The line of a place, seen from a cursor. -/
def Spot.line (s : Cursor) : Spot → Nat
  | last => s.lastLine
  | next => s.line
  | of t => t.line

/-- How something is read. -/
inductive Script (α : Type) where
  /-- Nothing more is read. -/
  | done (value : α)
  /-- The next token is passed if it is as described; reading goes on in one of two ways. -/
  | take (p : Token → Bool) (found : Token → Script α) (absent : Script α)
  /-- The next token, or the end, decides how to go on; nothing is passed. -/
  | look (next : Token → Script α) (stop : Script α)
  /-- A mistake is noted, if there is reason for it. -/
  | report (reason : Bool) (spot : Spot) (mistake : Mistake) (rest : Script α)
  /-- The statement is abandoned. -/
  | fail (spot : Spot) (mistake : Mistake)
  /-- What stands around the part decides how to go on. -/
  | ask (a : Around) (rest : Bool → Script α)
  /-- A part is read as a job of its own, perhaps inside something. -/
  | start (a : Option Around) (j : Job) (rest : j.Result → Script α)

namespace Script

variable {α β : Type}

/-- Follows a script from a cursor. -/
def follow (c : Context) : Script α → Cursor → Readout α
  | done value, s => .read value s []
  | take p found absent, s =>
    match s.rest with
    | t :: _ => if p t then (found t).follow c s.skip else absent.follow c s
    | [] => absent.follow c s
  | look next stop, s =>
    match s.rest with
    | t :: _ => (next t).follow c s
    | [] => stop.follow c s
  | report reason spot mistake rest, s =>
    (rest.follow c s).note (if reason then [⟨spot.line s, mistake⟩] else [])
  | fail spot mistake, s => .broken ⟨spot.line s, mistake⟩ s []
  | ask a rest, s => (rest (c.has a)).follow c s
  | start a j rest, s => (j.read (c.enter a) s).andThen fun value s' => (rest value).follow c s'

section

variable {c : Context} {s s' : Cursor} {t : Token} {h : s'.size < s.size}

theorem follow_take_of_next {p : Token → Bool} {found : Token → Script α} {absent : Script α}
    (hs : s.next = .token t s' h) : (take p found absent).follow c s =
      if p t then (found t).follow c s' else absent.follow c s := by
  rw [follow, Cursor.rest_of_next hs, Cursor.skip_of_next hs]

theorem follow_take_of_stop {p : Token → Bool} {found : Token → Script α} {absent : Script α}
    (hs : s.next = .stop) : (take p found absent).follow c s = absent.follow c s := by
  rw [follow, Cursor.rest_of_next_stop hs]

theorem follow_look_of_next {next : Token → Script α} {stop : Script α}
    (hs : s.next = .token t s' h) : (look next stop).follow c s = (next t).follow c s := by
  rw [follow, Cursor.rest_of_next hs]

theorem follow_look_of_stop {next : Token → Script α} {stop : Script α} (hs : s.next = .stop) :
    (look next stop).follow c s = stop.follow c s := by
  rw [follow, Cursor.rest_of_next_stop hs]

end

/-! ### Common steps -/

/-- A part, in the same surroundings. -/
@[simp]
def part (j : Job) (rest : j.Result → Script α) : Script α :=
  start none j rest

/-- A part inside something. -/
@[simp]
def within (a : Around) (j : Job) (rest : j.Result → Script α) : Script α :=
  start (some a) j rest

/-- One of two ways, by whether the next token is a given symbol, which is passed. -/
@[simp]
def accept (x : Symbol) (found : Token → Script α) (absent : Script α) : Script α :=
  take (fun t => t.is x) found absent

/-- A token of a symbol that the grammar demands. -/
@[simp]
def expect (x : Symbol) (demand : Demand) (rest : Token → Script α) : Script α :=
  accept x rest (fail .last (.missing demand))

/-- A name that the grammar demands. -/
@[simp]
def expectName (demand : Demand) (rest : Token → Script α) : Script α :=
  take Token.isIdentifier rest (fail .last (.missing demand))

/-! ### The scripts of the jobs -/

/-- How an expression of a level is read. -/
@[simp]
def ofLevel : Level → Script Expr
  | .comma =>
    part (.expression .assignment) fun left =>
      accept .comma (fun operator =>
        part (.expression .comma) fun right => done (.binary left operator right)) <|
      done left
  | .assignment =>
    part (.expression .conditional) fun target =>
      accept .equal (fun equal =>
        part (.expression .assignment) fun value =>
          (target.assigned? value).elim (fail (.of equal) .badTarget) done) <|
      done target
  | .conditional =>
    part (.expression (.tier .disjunction)) fun condition =>
      accept .question (fun _ =>
        part (.expression .conditional) fun whenTrue =>
          expect .colon .conditionalColon fun _ =>
            part (.expression .conditional) fun whenFalse =>
              done (.conditional condition whenTrue whenFalse)) <|
      done condition
  | .tier t => part (.expression t.tighter) fun left => part (.operands t left) done
  | .unary =>
    take (fun t => t.is .bang || t.is .minus) (fun operator =>
      part (.expression .unary) fun right => done (.unary operator right)) <|
    part (.expression .call) done
  | .call => part .primary fun callee => part (.trailers callee) done

/-- How the operators of a tier are read. -/
@[simp]
def ofOperands (t : Tier) (left : Expr) : Script Expr :=
  take t.admits (fun operator =>
    part (.expression t.tighter) fun right =>
      part (.operands t (t.join left operator right)) done) <|
  done left

/-- How the calls and members behind an expression are read. -/
@[simp]
def ofTrailers (callee : Expr) : Script Expr :=
  accept .leftParen (fun paren =>
    part .arguments fun values => part (.trailers (.call callee paren values)) done) <|
  accept .dot (fun _ =>
    expectName .propertyName fun name => part (.trailers (.get callee name)) done) <|
  done callee

/-- How arguments are read. -/
@[simp]
def ofArgumentList (count : Nat) : Script (List Expr) :=
  report (count = maxArity) .next .tooManyArguments <|
    part (.expression .assignment) fun value =>
      accept .comma (fun _ =>
        part (.argumentList (count + 1)) fun values => done (value :: values)) <|
      expect .rightParen .argumentsEnd fun _ => done [value]

/-- How an expression that needs no operator is read. -/
@[simp]
def ofPrimary : Script Expr :=
  take (fun t => t.atom?.isSome) (fun t => done (t.atom?.getD (.name t))) <|
  accept .thisWord (fun t =>
    ask .classBody fun inClass =>
      if inClass then done (.name t) else fail .last .thisOutsideClass) <|
  accept .leftParen (fun _ =>
    part (.expression .comma) fun value =>
      expect .rightParen .parenthesisEnd fun _ => done value) <|
  accept .funWord (fun _ => part .lambda done) <|
  look (fun t => fail .next (.unexpected t.lexeme)) (fail .next .unexpectedEnd)

/-- How a function without a name is read. -/
@[simp]
def ofLambda : Script Expr :=
  part .parameters fun names =>
    accept .leftBrace (fun _ =>
      within .function .block fun body => done (.lambda (.mk names (.block body)))) <|
    accept .arrow (fun t =>
      part (.expression .assignment) fun value =>
        done (.lambda (.mk names
          (.jump ⟨.symbol .returnWord, Symbol.returnWord.spelling, t.line⟩ (some value))))) <|
    fail .last (.missing .lambdaBody)

/-- How parameters are read. -/
@[simp]
def ofParameterList (count : Nat) : Script (List Token) :=
  report (count = maxArity) .next .tooManyParameters <|
    expectName .parameterName fun name =>
      accept .comma (fun _ =>
        part (.parameterList (count + 1)) fun names => done (name :: names)) <|
      expect .rightParen .parametersEnd fun _ => done [name]

/-- How a block is read. -/
@[simp]
def ofBlock : Script (List Stmt) :=
  accept .rightBrace (fun _ => done []) <|
  look (fun _ => part .declaration fun first => part .block fun others => done (first :: others)) <|
  fail .last (.missing .blockEnd)

/-- How a definition, a variable or another statement is read. -/
@[simp]
def ofDeclaration : Script Stmt :=
  accept .classWord (fun _ => part .classDefinition done) <|
  accept .funWord (fun _ => part .definition fun d => done (.function d)) <|
  accept .varWord (fun _ => part .variableDefinition done) <|
  part .statement done

/-- How the members of a class are read. -/
@[simp]
def ofMembers : Script (List Member) :=
  accept .rightBrace (fun _ => done []) <|
  accept .classWord (fun _ =>
    part .definition fun d => part .members fun ms => done (⟨true, d⟩ :: ms)) <|
  look (fun _ => part .definition fun d => part .members fun ms => done (⟨false, d⟩ :: ms)) <|
  fail .last (.missing .classEnd)

/-- How a variable is read. -/
@[simp]
def ofVariable : Script Stmt :=
  expectName .variableName fun name =>
    accept .equal (fun _ =>
      part (.expression .comma) fun value =>
        expect .semicolon .variableEnd fun _ => done (.declare name (some value))) <|
    expect .semicolon .variableEnd fun _ => done (.declare name none)

/-- How a `break` or `continue` is read behind its keyword. -/
@[simp]
def ofJump (keyword : Token) : Script Stmt :=
  ask .loop fun inLoop =>
    report (!inLoop) .last (.jumpOutsideLoop keyword.lexeme) <|
      expect .semicolon (.jumpEnd keyword.lexeme) fun _ => done (.jump keyword none)

/-- How a `return` is read behind its keyword. -/
@[simp]
def ofReturn (keyword : Token) : Script Stmt :=
  ask .function fun inFunction =>
    report (!inFunction) .last .returnOutsideFunction <|
      part (.optionalExpression .semicolon) fun value =>
        expect .semicolon .returnEnd fun _ => done (.jump keyword value)

/-- How a statement that defines nothing is read. -/
@[simp]
def ofStatement : Script Stmt :=
  accept .forWord (fun _ => part .forStatement done) <|
  accept .ifWord (fun _ => part .ifStatement done) <|
  accept .whileWord (fun _ => part .whileStatement done) <|
  take (fun t => t.is .breakWord || t.is .continueWord) ofJump <|
  accept .returnWord ofReturn <|
  accept .leftBrace (fun _ => part .block fun body => done (.block body)) <|
  accept .printWord (fun _ =>
    part (.expression .comma) fun value =>
      expect .semicolon .printEnd fun _ => done (.print value)) <|
  accept .semicolon (fun _ => done .empty) <|
  part .expressionStatement done

/-- How an expression is read that may be absent in front of a symbol. -/
@[simp]
def ofOptional (stop : Symbol) : Script (Option Expr) :=
  look (fun t =>
    if t.is stop then done none else part (.expression .comma) fun e => done (some e)) <|
  part (.expression .comma) fun e => done (some e)

/-- How a `for` loop is read. -/
@[simp]
def ofFor : Script Stmt :=
  expect .leftParen .forStart fun _ =>
    part .forInitial fun initial =>
      part (.optionalExpression .semicolon) fun condition =>
        expect .semicolon .forConditionEnd fun _ =>
          part (.optionalExpression .rightParen) fun step =>
            expect .rightParen .forEnd fun _ =>
              within .loop .statement fun body => done (.forLoop initial condition step body)

/-- How the first part of a `for` loop is read. -/
@[simp]
def ofForInitial : Script (Option Stmt) :=
  accept .semicolon (fun _ => done none) <|
  accept .varWord (fun _ => part .variableDefinition fun initial => done (some initial)) <|
  part .expressionStatement fun initial => done (some initial)

/-- How an `if` statement is read. -/
@[simp]
def ofIf : Script Stmt :=
  expect .leftParen .ifStart fun _ =>
    part (.expression .comma) fun condition =>
      expect .rightParen .conditionEnd fun _ =>
        part .statement fun whenTrue =>
          accept .elseWord (fun _ =>
            part .statement fun whenFalse =>
              done (.branch condition whenTrue (some whenFalse))) <|
          done (.branch condition whenTrue none)

/-- How a `while` loop is read. -/
@[simp]
def ofWhile : Script Stmt :=
  expect .leftParen .whileStart fun _ =>
    part (.expression .comma) fun condition =>
      expect .rightParen .conditionEnd fun _ =>
        within .loop .statement fun body => done (.whileLoop condition body)

end Script

open Script in
/-- How a job is done. -/
@[simp]
def Job.script : (j : Job) → Script j.Result
  | expression l => ofLevel l
  | operands t left => ofOperands t left
  | trailers callee => ofTrailers callee
  | arguments => accept .rightParen (fun _ => done []) (part (.argumentList 0) done)
  | argumentList count => ofArgumentList count
  | primary => ofPrimary
  | lambda => ofLambda
  | parameters =>
    expect .leftParen .parametersStart fun _ =>
      accept .rightParen (fun _ => done []) (part (.parameterList 0) done)
  | parameterList count => ofParameterList count
  | block => ofBlock
  | declaration => ofDeclaration
  | classDefinition =>
    expectName .className fun name =>
      expect .leftBrace .classStart fun _ =>
        within .classBody .members fun ms =>
          done (.classDef name (Member.collect false ms) (Member.collect true ms))
  | members => ofMembers
  | definition =>
    expectName .functionName fun name =>
      part .parameters fun names =>
        expect .leftBrace .functionStart fun _ =>
          within .function .block fun body => done (.mk name (.mk names (.block body)))
  | variableDefinition => ofVariable
  | statement => ofStatement
  | expressionStatement =>
    part (.expression .comma) fun value =>
      expect .semicolon .expressionEnd fun _ => done (.expression value)
  | optionalExpression stop => ofOptional stop
  | forStatement => ofFor
  | forInitial => ofForInitial
  | ifStatement => ofIf
  | whileStatement => ofWhile

end Lox
