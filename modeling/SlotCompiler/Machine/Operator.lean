/-!
Contract: the binary operators of the language, shared by the expression tree
and by the instruction set.

Owns:
- the closed set of operators and their spelling;
- the binding strength that orders them in an expression.

Does not own: operand types or machine encodings.
-/

namespace SlotCompiler

/-- A binary operator.  Every operator has exactly one machine instruction. -/
inductive Operator where
  | or
  | and
  | bitOr
  | bitXor
  | bitAnd
  | equal
  | notEqual
  | less
  | lessEqual
  | greater
  | greaterEqual
  | shiftLeft
  | shiftRight
  | add
  | subtract
  | multiply
  | divide
  | modulo
deriving DecidableEq, Repr

namespace Operator

/-- Every operator, loosest binding first. -/
def all : List Operator :=
  [.or, .and, .bitOr, .bitXor, .bitAnd, .equal, .notEqual, .less, .lessEqual,
    .greater, .greaterEqual, .shiftLeft, .shiftRight, .add, .subtract,
    .multiply, .divide, .modulo]

theorem mem_all (operator : Operator) : operator ∈ all := by
  cases operator <;> decide

/-- Source spelling. -/
def symbol : Operator → String
  | .or => "||"
  | .and => "&&"
  | .bitOr => "|"
  | .bitXor => "^"
  | .bitAnd => "&"
  | .equal => "=="
  | .notEqual => "!="
  | .less => "<"
  | .lessEqual => "<="
  | .greater => ">"
  | .greaterEqual => ">="
  | .shiftLeft => "<<"
  | .shiftRight => ">>"
  | .add => "+"
  | .subtract => "-"
  | .multiply => "*"
  | .divide => "/"
  | .modulo => "%"

/-- Binding strength from 1 to 10; the higher one binds tighter. -/
def precedence : Operator → Nat
  | .or => 1
  | .and => 2
  | .bitOr => 3
  | .bitXor => 4
  | .bitAnd => 5
  | .equal | .notEqual => 6
  | .less | .lessEqual | .greater | .greaterEqual => 7
  | .shiftLeft | .shiftRight => 8
  | .add | .subtract => 9
  | .multiply | .divide | .modulo => 10

theorem precedence_pos (operator : Operator) : 1 ≤ operator.precedence := by
  cases operator <;> decide

theorem precedence_le (operator : Operator) : operator.precedence ≤ 10 := by
  cases operator <;> decide

end Operator

end SlotCompiler
