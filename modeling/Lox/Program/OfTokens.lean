import Lox.Program.Level
import Lox.Program.Reply

/-!
# Reading a program from tokens

One function for each part of the grammar; each is given the cursor in front of the part and replies
with the part and the cursor behind it. `Level` orders the expressions, from

```text
comma        := assignment ("," comma)?
assignment   := (call ".")? name "=" assignment | conditional
conditional  := tier ("?" conditional ":" conditional)?
tier         := tighter (operator tighter)*
unary        := ("!" | "-") unary | call
call         := primary ("(" arguments? ")" | "." name)*
```

and a statement that cannot be read is abandoned at its first mistake; `Program.ofTokens` then looks
for the next place where a statement may start and reads on, so one list of tokens may show several
mistakes. Jumps out of place and lists that are too long are reported, and nothing is abandoned for
them.

Every function reads at least one token or replies with a mistake, and that is what the recursion
rests on: the replies carry the proof that fewer tokens are left. On the same tokens a part refers
only to parts of higher rank.
-/

namespace Lox

/-- The greatest number of parameters of a function and of arguments of a call. -/
def maxArity : Nat := 255

/-- What stands around the part that is read. -/
structure Context where
  /-- A loop of the same function stands around it. -/
  inLoop : Bool
  /-- A function body stands around it. -/
  inFunction : Bool
  /-- A class body stands around it. -/
  inClass : Bool
deriving DecidableEq, Repr

namespace Context

/-- Nothing stands around the statements of a program. -/
def outermost : Context := ⟨false, false, false⟩

/-- The context of a loop's body. -/
def enterLoop (c : Context) : Context := { c with inLoop := true }

/-- The context of a function's body: the loops outside do not count in it. -/
def enterFunction (c : Context) : Context := { c with inLoop := false, inFunction := true }

/-- The context of a class's body. -/
def enterClass (c : Context) : Context := { c with inClass := true }

end Context

/-- The report that a list has as many entries as it may have and one more is to come. -/
def overflow (count line : Nat) (mistake : Mistake) : List GrammarError :=
  if count = maxArity then [⟨line, mistake⟩] else []

/-- The expression that assigns a value to a target, if the target is a variable or a member. -/
def Expr.assigned? (target value : Expr) : Option Expr :=
  match target with
  | .name token =>
    match token.kind with
    | .identifier => some (.assign token value)
    | _ => none
  | .get object member => some (.set object member value)
  | _ => none

namespace Reading

/-- Parameters up to and with the closing parenthesis; `count` of them were read before. -/
def parameterList (count : Nat) (s : Cursor) : Reply (List Token) s.size :=
  .note (overflow count s.line .tooManyParameters) <|
    (s.expectName .parameterName).andThen fun name s₁ h₁ =>
      match s₁.accept .comma with
      | .token _ s₂ h₂ =>
        (parameterList (count + 1) s₂).andThen fun names s₃ h₃ => .pure (name :: names) s₃
      | .stop =>
        (s₁.expect .rightParen .parametersEnd).andThen fun _ s₂ h₂ => .pure [name] s₂
termination_by s.size

/-- The parameters of a function, with their parentheses. -/
def parameters (s : Cursor) : Reply (List Token) s.size :=
  (s.expect .leftParen .parametersStart).andThen fun _ s₁ h₁ =>
    match s₁.accept .rightParen with
    | .token _ s₂ h₂ => .pure [] s₂
    | .stop => (parameterList 0 s₁).widen

/-- A `break` or `continue` behind its keyword. -/
def jumpStatement (c : Context) (keyword : Token) (s : Cursor) : Reply Stmt s.size :=
  .note (if c.inLoop then [] else [⟨keyword.line, .jumpOutsideLoop keyword.lexeme⟩]) <|
    (s.expect .semicolon (.jumpEnd keyword.lexeme)).andThen fun _ s₁ h₁ =>
      .pure (.jump keyword none) s₁

mutual

/-- An expression of a level. -/
def expression (c : Context) (l : Level) (s : Cursor) : Reply Expr s.size :=
  match l with
  | .comma =>
    (expression c .assignment s).andThen fun left s₁ h₁ =>
      match s₁.accept .comma with
      | .token operator s₂ h₂ =>
        (expression c .comma s₂).andThen fun right s₃ h₃ => .pure (.binary left operator right) s₃
      | .stop => .pure left s₁
  | .assignment =>
    (expression c .conditional s).andThen fun target s₁ h₁ =>
      match s₁.accept .equal with
      | .token equal s₂ h₂ =>
        (expression c .assignment s₂).andThen fun value s₃ h₃ =>
          match target.assigned? value with
          | some e => .pure e s₃
          | none => .fail equal.line .badTarget s₃
      | .stop => .pure target s₁
  | .conditional =>
    (expression c (.tier .disjunction) s).andThen fun condition s₁ h₁ =>
      match s₁.accept .question with
      | .token _ s₂ h₂ =>
        (expression c .conditional s₂).andThen fun whenTrue s₃ h₃ =>
          (s₃.expect .colon .conditionalColon).andThen fun _ s₄ h₄ =>
            (expression c .conditional s₄).andThen fun whenFalse s₅ h₅ =>
              .pure (.conditional condition whenTrue whenFalse) s₅
      | .stop => .pure condition s₁
  | .tier t =>
    (expression c t.tighter s).andThen fun left s₁ h₁ => (operands c t left s₁).widen
  | .unary =>
    match s.next with
    | .token operator s₁ h₁ =>
      if operator.is .bang || operator.is .minus then
        (expression c .unary s₁).andThen fun right s₂ h₂ => .pure (.unary operator right) s₂
      else expression c .call s
    | .stop => expression c .call s
  | .call => (primary c s).andThen fun callee s₁ h₁ => (trailers c callee s₁).widen
termination_by 20 * s.size + (12 - l.rank)
decreasing_by
  all_goals first
    | omega
    | have := Tier.rank_lt_tighter t
      have := Level.rank_le t.tighter
      omega
    | simp only [Level.rank, Tier.rank]
      omega

/-- The further operands of a tier behind its left operand, grouped to the left. -/
def operands (c : Context) (t : Tier) (left : Expr) (s : Cursor) : Reply Expr (s.size + 1) :=
  match s.next with
  | .token operator s₁ h₁ =>
    if t.admits operator then
      (expression c t.tighter s₁).andThen fun right s₂ h₂ =>
        (operands c t (t.join left operator right) s₂).widen
    else .pure left s
  | .stop => .pure left s
termination_by 20 * s.size + 1
decreasing_by all_goals omega

/-- The calls and members behind an expression. -/
def trailers (c : Context) (callee : Expr) (s : Cursor) : Reply Expr (s.size + 1) :=
  match s.next with
  | .token t s₁ h₁ =>
    match t.kind with
    | .symbol .leftParen =>
      (arguments c s₁).andThen fun values s₂ h₂ => (trailers c (.call callee t values) s₂).widen
    | .symbol .dot =>
      (s₁.expectName .propertyName).andThen fun name s₂ h₂ =>
        (trailers c (.get callee name) s₂).widen
    | _ => .pure callee s
  | .stop => .pure callee s
termination_by 20 * s.size + 1
decreasing_by all_goals omega

/-- The arguments of a call behind its opening parenthesis, with the closing one. -/
def arguments (c : Context) (s : Cursor) : Reply (List Expr) s.size :=
  match s.accept .rightParen with
  | .token _ s₁ h₁ => .pure [] s₁
  | .stop => argumentList c 0 s
termination_by 20 * s.size + 14
decreasing_by all_goals omega

/-- Arguments up to and with the closing parenthesis; `count` of them were read before. -/
def argumentList (c : Context) (count : Nat) (s : Cursor) : Reply (List Expr) s.size :=
  .note (overflow count s.line .tooManyArguments) <|
    (expression c .assignment s).andThen fun value s₁ h₁ =>
      match s₁.accept .comma with
      | .token _ s₂ h₂ =>
        (argumentList c (count + 1) s₂).andThen fun values s₃ h₃ => .pure (value :: values) s₃
      | .stop =>
        (s₁.expect .rightParen .argumentsEnd).andThen fun _ s₂ h₂ => .pure [value] s₂
termination_by 20 * s.size + 13
decreasing_by all_goals omega

/-- A constant, a name, an expression in parentheses, or a function without a name. -/
def primary (c : Context) (s : Cursor) : Reply Expr s.size :=
  match s.next with
  | .token t s₁ h₁ =>
    match t.kind with
    | .symbol .falseWord => .pure (.literal (.bool false)) s₁
    | .symbol .trueWord => .pure (.literal (.bool true)) s₁
    | .symbol .nilWord => .pure (.literal .nil) s₁
    | .number value => .pure (.literal (.number value)) s₁
    | .string value => .pure (.literal (.text value)) s₁
    | .identifier => .pure (.name t) s₁
    | .symbol .thisWord =>
      if c.inClass then .pure (.name t) s₁ else .fail t.line .thisOutsideClass s₁
    | .symbol .leftParen =>
      (expression c .comma s₁).andThen fun value s₂ h₂ =>
        (s₂.expect .rightParen .parenthesisEnd).andThen fun _ s₃ h₃ => .pure value s₃
    | .symbol .funWord => (lambda c s₁).widen
    | _ => .fail t.line (.unexpected t.lexeme) s
  | .stop => .fail s.endLine .unexpectedEnd s
termination_by 20 * s.size + 1
decreasing_by all_goals omega

/-- A function without a name, behind its keyword. An arrow and an expression are a body that
returns the expression. -/
def lambda (c : Context) (s : Cursor) : Reply Expr s.size :=
  (parameters s).andThen fun names s₁ h₁ =>
    match s₁.next with
    | .token t s₂ h₂ =>
      match t.kind with
      | .symbol .leftBrace =>
        (block c.enterFunction s₂).andThen fun body s₃ h₃ =>
          .pure (.lambda (.mk names (.block body))) s₃
      | .symbol .arrow =>
        (expression c .assignment s₂).andThen fun value s₃ h₃ =>
          .pure (.lambda (.mk names
            (.jump ⟨.symbol .returnWord, Symbol.returnWord.spelling, t.line⟩ (some value)))) s₃
      | _ => .fail s₁.lastLine (.missing .lambdaBody) s₁
    | .stop => .fail s₁.lastLine (.missing .lambdaBody) s₁
termination_by 20 * s.size
decreasing_by all_goals omega

/-- The statements of a block behind its opening brace, with the closing one. -/
def block (c : Context) (s : Cursor) : Reply (List Stmt) s.size :=
  match s.next with
  | .token t s₁ h₁ =>
    if t.is .rightBrace then .pure [] s₁
    else
      (declaration c s).andThen fun first s₂ h₂ =>
        (block c s₂).andThen fun others s₃ h₃ => .pure (first :: others) s₃
  | .stop => .fail s.lastLine (.missing .blockEnd) s
termination_by 20 * s.size + 18
decreasing_by all_goals omega

/-- A definition, a variable, or another statement. -/
def declaration (c : Context) (s : Cursor) : Reply Stmt s.size :=
  match s.next with
  | .token t s₁ h₁ =>
    match t.kind with
    | .symbol .classWord => (classDefinition c s₁).widen
    | .symbol .funWord =>
      (definition c s₁).andThen fun d s₂ h₂ => .pure (.function d) s₂
    | .symbol .varWord => (variableDefinition c s₁).widen
    | _ => statement c s
  | .stop => statement c s
termination_by 20 * s.size + 17
decreasing_by all_goals omega

/-- A class behind its keyword. -/
def classDefinition (c : Context) (s : Cursor) : Reply Stmt s.size :=
  (s.expectName .className).andThen fun name s₁ h₁ =>
    (s₁.expect .leftBrace .classStart).andThen fun _ s₂ h₂ =>
      (members c.enterClass s₂).andThen fun ms s₃ h₃ =>
        .pure (.classDef name (Member.collect false ms) (Member.collect true ms)) s₃
termination_by 20 * s.size
decreasing_by all_goals omega

/-- The members of a class behind its opening brace, with the closing one. -/
def members (c : Context) (s : Cursor) : Reply (List Member) s.size :=
  match s.next with
  | .token t s₁ h₁ =>
    match t.kind with
    | .symbol .rightBrace => .pure [] s₁
    | .symbol .classWord =>
      (definition c s₁).andThen fun d s₂ h₂ =>
        (members c s₂).andThen fun ms s₃ h₃ => .pure (⟨true, d⟩ :: ms) s₃
    | _ =>
      (definition c s).andThen fun d s₂ h₂ =>
        (members c s₂).andThen fun ms s₃ h₃ => .pure (⟨false, d⟩ :: ms) s₃
  | .stop => .fail s.lastLine (.missing .classEnd) s
termination_by 20 * s.size + 1
decreasing_by all_goals omega

/-- A named function behind its keyword, or a method. -/
def definition (c : Context) (s : Cursor) : Reply Definition s.size :=
  (s.expectName .functionName).andThen fun name s₁ h₁ =>
    (parameters s₁).andThen fun names s₂ h₂ =>
      (s₂.expect .leftBrace .functionStart).andThen fun _ s₃ h₃ =>
        (block c.enterFunction s₃).andThen fun body s₄ h₄ =>
          .pure (.mk name (.mk names (.block body))) s₄
termination_by 20 * s.size
decreasing_by all_goals omega

/-- A variable behind its keyword. -/
def variableDefinition (c : Context) (s : Cursor) : Reply Stmt s.size :=
  (s.expectName .variableName).andThen fun name s₁ h₁ =>
    match s₁.accept .equal with
    | .token _ s₂ h₂ =>
      (expression c .comma s₂).andThen fun value s₃ h₃ =>
        (s₃.expect .semicolon .variableEnd).andThen fun _ s₄ h₄ =>
          .pure (.declare name (some value)) s₄
    | .stop =>
      (s₁.expect .semicolon .variableEnd).andThen fun _ s₂ h₂ => .pure (.declare name none) s₂
termination_by 20 * s.size
decreasing_by all_goals omega

/-- A statement that defines nothing. -/
def statement (c : Context) (s : Cursor) : Reply Stmt s.size :=
  match s.next with
  | .token t s₁ h₁ =>
    match t.kind with
    | .symbol .forWord => (forStatement c s₁).widen
    | .symbol .ifWord => (ifStatement c s₁).widen
    | .symbol .whileWord => (whileStatement c s₁).widen
    | .symbol .breakWord => (jumpStatement c t s₁).widen
    | .symbol .continueWord => (jumpStatement c t s₁).widen
    | .symbol .returnWord => (returnStatement c t s₁).widen
    | .symbol .leftBrace => (block c s₁).andThen fun body s₂ h₂ => .pure (.block body) s₂
    | .symbol .printWord =>
      (expression c .comma s₁).andThen fun value s₂ h₂ =>
        (s₂.expect .semicolon .printEnd).andThen fun _ s₃ h₃ => .pure (.print value) s₃
    | .symbol .semicolon => .pure .empty s₁
    | _ => expressionStatement c s
  | .stop => expressionStatement c s
termination_by 20 * s.size + 16
decreasing_by all_goals omega

/-- An expression and a semicolon. -/
def expressionStatement (c : Context) (s : Cursor) : Reply Stmt s.size :=
  (expression c .comma s).andThen fun value s₁ h₁ =>
    (s₁.expect .semicolon .expressionEnd).andThen fun _ s₂ h₂ => .pure (.expression value) s₂
termination_by 20 * s.size + 15
decreasing_by all_goals omega

/-- An expression, or nothing if the symbol that ends the part is there already. -/
def optionalExpression (c : Context) (stop : Symbol) (s : Cursor) :
    Reply (Option Expr) (s.size + 1) :=
  if s.sees stop then .pure none s
  else (expression c .comma s).andThen fun value s₁ h₁ => .pure (some value) s₁
termination_by 20 * s.size + 15
decreasing_by all_goals omega

/-- A `for` loop behind its keyword. -/
def forStatement (c : Context) (s : Cursor) : Reply Stmt s.size :=
  (s.expect .leftParen .forStart).andThen fun _ s₁ h₁ =>
    (forInitial c s₁).andThen fun initial s₂ h₂ =>
      (optionalExpression c .semicolon s₂).andThen fun condition s₃ h₃ =>
        (s₃.expect .semicolon .forConditionEnd).andThen fun _ s₄ h₄ =>
          (optionalExpression c .rightParen s₄).andThen fun step s₅ h₅ =>
            (s₅.expect .rightParen .forEnd).andThen fun _ s₆ h₆ =>
              (statement c.enterLoop s₆).andThen fun body s₇ h₇ =>
                .pure (.forLoop initial condition step body) s₇
termination_by 20 * s.size
decreasing_by all_goals omega

/-- The first part of a `for` loop, with its semicolon. -/
def forInitial (c : Context) (s : Cursor) : Reply (Option Stmt) s.size :=
  match s.next with
  | .token t s₁ h₁ =>
    match t.kind with
    | .symbol .semicolon => .pure none s₁
    | .symbol .varWord =>
      (variableDefinition c s₁).andThen fun initial s₂ h₂ => .pure (some initial) s₂
    | _ => (expressionStatement c s).andThen fun initial s₂ h₂ => .pure (some initial) s₂
  | .stop => (expressionStatement c s).andThen fun initial s₂ h₂ => .pure (some initial) s₂
termination_by 20 * s.size + 16
decreasing_by all_goals omega

/-- An `if` statement behind its keyword. -/
def ifStatement (c : Context) (s : Cursor) : Reply Stmt s.size :=
  (s.expect .leftParen .ifStart).andThen fun _ s₁ h₁ =>
    (expression c .comma s₁).andThen fun condition s₂ h₂ =>
      (s₂.expect .rightParen .conditionEnd).andThen fun _ s₃ h₃ =>
        (statement c s₃).andThen fun whenTrue s₄ h₄ =>
          match s₄.accept .elseWord with
          | .token _ s₅ h₅ =>
            (statement c s₅).andThen fun whenFalse s₆ h₆ =>
              .pure (.branch condition whenTrue (some whenFalse)) s₆
          | .stop => .pure (.branch condition whenTrue none) s₄
termination_by 20 * s.size
decreasing_by all_goals omega

/-- A `while` loop behind its keyword. -/
def whileStatement (c : Context) (s : Cursor) : Reply Stmt s.size :=
  (s.expect .leftParen .whileStart).andThen fun _ s₁ h₁ =>
    (expression c .comma s₁).andThen fun condition s₂ h₂ =>
      (s₂.expect .rightParen .conditionEnd).andThen fun _ s₃ h₃ =>
        (statement c.enterLoop s₃).andThen fun body s₄ h₄ =>
          .pure (.whileLoop condition body) s₄
termination_by 20 * s.size
decreasing_by all_goals omega

/-- A `return` behind its keyword. -/
def returnStatement (c : Context) (keyword : Token) (s : Cursor) : Reply Stmt (s.size + 1) :=
  .note (if c.inFunction then [] else [⟨keyword.line, .returnOutsideFunction⟩]) <|
    (optionalExpression c .semicolon s).andThen fun value s₁ h₁ =>
      (s₁.expect .semicolon .returnEnd).andThen fun _ s₂ h₂ => .pure (.jump keyword value) s₂
termination_by 20 * s.size + 16
decreasing_by all_goals omega

end

end Reading

/-- What comes of reading a whole program: the statements that could be read, and the mistakes in
the order in which they were found. -/
structure Parsed where
  /-- The statements. -/
  program : List Stmt
  /-- The mistakes. -/
  errors : List GrammarError

namespace Parsed

/-- The result of reading the rest of a program, with what was found in front of it. -/
def prepend (program : List Stmt) (errors : List GrammarError) (p : Parsed) : Parsed :=
  ⟨program ++ p.program, errors ++ p.errors⟩

/-- Reads statements to the end of the tokens. After a mistake at least one token is passed, and
reading is taken up where a statement may start. -/
def ofCursor (s : Cursor) : Parsed :=
  match s.next with
  | .stop => ⟨[], []⟩
  | .token _ next _ =>
    match Reading.declaration .outermost s with
    | .done stmt s' reports _ => (ofCursor s').prepend [stmt] reports
    | .failed e s' reports _ =>
      (ofCursor (if s'.size = s.size then next else s').resume).prepend [] (reports ++ [e])
termination_by s.size
decreasing_by
  · assumption
  · refine Nat.lt_of_le_of_lt (Cursor.size_resume_le _) ?_
    split
    · assumption
    · omega

/-- Reads a list of tokens as a program. -/
def ofTokens (ts : List Token) : Parsed :=
  ofCursor (.ofTokens ts)

end Parsed

end Lox
