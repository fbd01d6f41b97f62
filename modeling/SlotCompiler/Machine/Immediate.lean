import SlotCompiler.Number.Shortest

/-!
Contract: the literal values that an instruction can carry.

Owns:
- the three kinds of immediate value and their codes;
- the narrow 32-bit form, the full 64 payload bits, and the printed text.

Does not own: string constants, which live in a pool.
-/

namespace SlotCompiler

/-- Type tag of an immediate value. -/
inductive ImmediateKind where
  | int
  | float
  | bool
deriving DecidableEq, Repr

namespace ImmediateKind

/-- The tag's code in an instruction word. -/
def code : ImmediateKind → UInt8
  | .int => 0
  | .float => 1
  | .bool => 2

/-- The tag with a given code. -/
def ofCode? (code : UInt8) : Option ImmediateKind :=
  if code = 0 then some .int
  else if code = 1 then some .float
  else if code = 2 then some .bool
  else none

theorem ofCode?_code (kind : ImmediateKind) : ofCode? kind.code = some kind := by
  cases kind <;> decide

end ImmediateKind

/-- A literal value carried by a load instruction. -/
inductive Immediate where
  | int (value : Int64)
  | float (value : Binary64)
  | bool (value : Bool)
deriving DecidableEq, Repr

namespace Immediate

/-- The tag of a value. -/
def kind : Immediate → ImmediateKind
  | .int _ => .int
  | .float _ => .float
  | .bool _ => .bool

/-- The value as a signed 32-bit field, when it fits in one word.  A float
never does, so that its bits survive unchanged. -/
def narrow? : Immediate → Option Int32
  | .int value =>
    if -0x80000000 ≤ value.toInt ∧ value.toInt < 0x80000000 then
      some (Int32.ofInt value.toInt)
    else
      none
  | .float _ => none
  | .bool value => some (if value then 1 else 0)

/-- The 64 payload bits of the wide form. -/
def bits : Immediate → UInt64
  | .int value => value.toUInt64
  | .float value => value.bits
  | .bool value => if value then 1 else 0

/-- The value of a tag and its payload bits. -/
def ofBits (kind : ImmediateKind) (bits : UInt64) : Immediate :=
  match kind with
  | .int => .int bits.toInt64
  | .float => .float ⟨bits⟩
  | .bool => .bool (bits != 0)

/-- The value of a tag and a signed 32-bit field.  A float is the field's
integer value. -/
def ofNarrow (kind : ImmediateKind) (field : Int32) : Immediate :=
  match kind with
  | .int => .int (Int64.ofInt field.toInt)
  | .float => .float (Binary64.ofInt field.toInt)
  | .bool => .bool (field != 0)

theorem ofBits_bits (value : Immediate) : ofBits value.kind value.bits = value := by
  cases value with
  | int value => simp [ofBits, kind, bits]
  | float value => rfl
  | bool value => cases value <;> rfl

/-- The printed value. -/
def text : Immediate → String
  | .int value => toString value.toInt
  | .float value => value.text
  | .bool value => if value then "true" else "false"

end Immediate

end SlotCompiler
