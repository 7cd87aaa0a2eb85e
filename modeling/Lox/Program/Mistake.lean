import Lox.Diagnostic

/-!
# Mistakes in programs

What the grammar finds wrong with a list of tokens, and how it is worded.
-/

namespace Lox

/-- The places where the grammar demands one kind of token. -/
inductive Demand where
  | className | classStart | classEnd | functionName | functionStart
  | parametersStart | parameterName | parametersEnd | variableName | variableEnd
  | forStart | forConditionEnd | forEnd | ifStart | whileStart | conditionEnd
  | jumpEnd (keyword : String) | returnEnd | printEnd | expressionEnd | blockEnd
  | conditionalColon | propertyName | argumentsEnd | parenthesisEnd | lambdaBody
deriving DecidableEq, Repr

/-- An unmet demand, in words. -/
def Demand.message : Demand → String
  | className => "Expected class name."
  | classStart => "Expected '\x7b' before class body."
  | classEnd => "Expected '\x7d' after class body."
  | functionName => "Expected function name."
  | functionStart => "Expected '\x7b' before function body."
  | parametersStart => "Expected '(' before parameters."
  | parameterName => "Expected parameter name."
  | parametersEnd => "Expected ')' after parameters."
  | variableName => "Expected variable name."
  | variableEnd => "Expected ';' after variable declaration."
  | forStart => "Expected '(' after 'for'."
  | forConditionEnd => "Expected ';' after loop condition."
  | forEnd => "Expected ')' after for clauses."
  | ifStart => "Expected '(' after 'if'."
  | whileStart => "Expected '(' after 'while'."
  | conditionEnd => "Expected ')' after condition."
  | jumpEnd keyword => "Expected ';' after '" ++ keyword ++ "'."
  | returnEnd => "Expected ';' after return value."
  | printEnd => "Expected ';' after value."
  | expressionEnd => "Expected ';' after expression."
  | blockEnd => "Unclosed curly brace."
  | conditionalColon => "Expected ':' in ternary expression."
  | propertyName => "Expected property name after '.'."
  | argumentsEnd => "Expected ')' after arguments."
  | parenthesisEnd => "Unclosed parenthesis."
  | lambdaBody => "Expected '\x7b' or '->' after lambda parameters."

/-- What is wrong with a program. -/
inductive Mistake where
  /-- A token that the grammar demands is missing. -/
  | missing (demand : Demand)
  /-- No expression starts with this text. -/
  | unexpected (lexeme : String)
  /-- The input ends where an expression should start. -/
  | unexpectedEnd
  /-- The left side of an assignment is neither a variable nor a member. -/
  | badTarget
  /-- `this` outside a class. -/
  | thisOutsideClass
  /-- A `break` or `continue` that is in no loop of its function. -/
  | jumpOutsideLoop (keyword : String)
  /-- A `return` outside a function. -/
  | returnOutsideFunction
  /-- More parameters than a function may have. -/
  | tooManyParameters
  /-- More arguments than a call may have. -/
  | tooManyArguments
deriving DecidableEq, Repr

/-- A mistake in words. -/
def Mistake.message : Mistake → String
  | missing demand => demand.message
  | unexpected lexeme => "Unexpected token '" ++ lexeme ++ "'."
  | unexpectedEnd => "Unexpected end of input."
  | badTarget => "Invalid assign lvalue."
  | thisOutsideClass => "Cannot use 'this' outside of a class."
  | jumpOutsideLoop keyword => "'" ++ keyword ++ "' must be inside a loop."
  | returnOutsideFunction => "'return' must be inside a function."
  | tooManyParameters => "Too many parameters in function declaration."
  | tooManyArguments => "Too many arguments in call."

/-- A mistake with the line it is reported on. -/
structure GrammarError where
  /-- The line, counted from one. -/
  line : Nat
  /-- What is wrong. -/
  mistake : Mistake
deriving DecidableEq, Repr

/-- A mistake as it is reported. -/
def GrammarError.diagnostic (e : GrammarError) : Diagnostic :=
  .ofStage .grammar e.line e.mistake.message

end Lox
