import Lox.Program.Basic

/-!
# Levels of precedence

Expressions come in levels, from the comma, which binds least, to calls, which bind most. Six of the
levels, the **tiers**, are made of operators between two operands and group to the left.
-/

namespace Lox

/-- The levels of operators that group to the left. -/
inductive Tier where
  /-- `or` -/
  | disjunction
  /-- `and` -/
  | conjunction
  /-- `==` and `!=` -/
  | equality
  /-- `<`, `<=`, `>` and `>=` -/
  | comparison
  /-- `+` and `-` -/
  | sum
  /-- `*`, `/` and `%` -/
  | product
deriving DecidableEq, Repr

/-- The levels of expressions. -/
inductive Level where
  /-- Expressions joined by commas. -/
  | comma
  /-- Assignments. -/
  | assignment
  /-- Conditional expressions. -/
  | conditional
  /-- The operators of a tier. -/
  | tier (t : Tier)
  /-- Operators in front of their operand. -/
  | unary
  /-- Calls, members, and what needs no operator. -/
  | call
deriving DecidableEq, Repr

namespace Tier

/-- The place of a tier among the tiers, the loosest first. -/
def rank : Tier → Nat
  | disjunction => 0
  | conjunction => 1
  | equality => 2
  | comparison => 3
  | sum => 4
  | product => 5

/-- The level of the operands of a tier. -/
def tighter : Tier → Level
  | disjunction => .tier conjunction
  | conjunction => .tier equality
  | equality => .tier comparison
  | comparison => .tier sum
  | sum => .tier product
  | product => .unary

/-- The tier of an operator between two operands, the comma left out. -/
def ofSymbol? : Symbol → Option Tier
  | .orWord => some disjunction
  | .andWord => some conjunction
  | .bangEqual | .equalEqual => some equality
  | .greater | .greaterEqual | .less | .lessEqual => some comparison
  | .minus | .plus => some sum
  | .star | .slash | .percent => some product
  | _ => none

/-- Whether a token is an operator of a tier. -/
def admits (t : Tier) (operator : Token) : Bool :=
  match operator.kind with
  | .symbol s => ofSymbol? s == some t
  | _ => false

/-- The expression that an operator of a tier makes of its operands. -/
def join (t : Tier) (left : Expr) (operator : Token) (right : Expr) : Expr :=
  match t with
  | disjunction | conjunction => .logical left operator right
  | _ => .binary left operator right

end Tier

namespace Level

/-- The place of a level, the loosest first. -/
def rank : Level → Nat
  | comma => 0
  | assignment => 1
  | conditional => 2
  | tier t => 3 + t.rank
  | unary => 9
  | call => 10

theorem rank_le (l : Level) : l.rank ≤ 10 := by
  rcases l with _ | _ | _ | t | _ | _
  case tier => cases t <;> decide
  all_goals decide

end Level

theorem Tier.rank_lt_tighter (t : Tier) : (Level.tier t).rank < t.tighter.rank := by
  cases t <;> decide

end Lox
