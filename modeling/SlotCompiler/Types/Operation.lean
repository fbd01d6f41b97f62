import SlotCompiler.Machine.Operator
import SlotCompiler.Types.Table

/-!
Contract: the types that binary operators accept and produce.

Owns: the result type of every operator on every pair of operand types.
-/

namespace SlotCompiler

namespace Operator

/-- The type of `lhs operator rhs`; none when the operands do not fit.

Operands have one type.  Arithmetic takes numbers, and addition also joins
strings; the remainder and the bitwise operators take integers; any type can be
compared for equality and numbers for order; logic takes booleans. -/
def resultType? (operator : Operator) (lhs rhs : TypeId) : Option TypeId :=
  if lhs ≠ rhs then
    none
  else
    match operator with
    | .add => if lhs = .string ∨ lhs.isNumeric then some lhs else none
    | .subtract | .multiply | .divide => if lhs.isNumeric then some lhs else none
    | .modulo | .bitOr | .bitXor | .bitAnd | .shiftLeft | .shiftRight =>
      if lhs = .int then some lhs else none
    | .equal | .notEqual => some .bool
    | .less | .lessEqual | .greater | .greaterEqual =>
      if lhs.isNumeric then some .bool else none
    | .and | .or => if lhs = .bool then some .bool else none

end Operator

end SlotCompiler
