import SlotCompiler.Machine.Operator

/-!
Contract: the operation codes of the slot machine.

Owns:
- the closed set of operation codes and the byte each one is stored as;
- the mnemonic printed for each code.
-/

namespace SlotCompiler

/-- What an instruction word asks the machine to do. -/
inductive Opcode where
  | nop
  | loadImmediate
  | loadImmediateWide
  | loadConstant
  | move
  | jump
  | jumpIfFalse
  | ret
  | retValue
  | binary (operator : Operator)
  | memberLoad
  | memberStore
  | syncAcquire
  | syncRelease
deriving DecidableEq, Repr

namespace Opcode

/-- Every operation code. -/
def all : List Opcode :=
  [.nop, .loadImmediate, .loadImmediateWide, .loadConstant, .move,
    .jump, .jumpIfFalse, .ret, .retValue] ++
  Operator.all.map .binary ++
  [.memberLoad, .memberStore, .syncAcquire, .syncRelease]

/-- The byte of a binary operator: arithmetic from 20, bitwise from 28,
comparisons from 30 and logic from 38, in base sixteen. -/
def operatorByte : Operator → UInt8
  | .add => 0x20
  | .subtract => 0x21
  | .multiply => 0x22
  | .divide => 0x23
  | .modulo => 0x24
  | .bitAnd => 0x28
  | .bitOr => 0x29
  | .bitXor => 0x2A
  | .shiftLeft => 0x2B
  | .shiftRight => 0x2C
  | .equal => 0x30
  | .notEqual => 0x31
  | .less => 0x32
  | .lessEqual => 0x33
  | .greater => 0x34
  | .greaterEqual => 0x35
  | .and => 0x38
  | .or => 0x39

/-- The byte stored in the lowest bits of a word. -/
def byte : Opcode → UInt8
  | .nop => 0x00
  | .loadImmediate => 0x01
  | .loadImmediateWide => 0x02
  | .loadConstant => 0x03
  | .move => 0x04
  | .jump => 0x10
  | .jumpIfFalse => 0x11
  | .ret => 0x12
  | .retValue => 0x13
  | .binary operator => operatorByte operator
  | .memberLoad => 0x40
  | .memberStore => 0x41
  | .syncAcquire => 0x50
  | .syncRelease => 0x51

/-- The operation stored as a byte, if the byte is one of the known codes. -/
def ofByte? (byte : UInt8) : Option Opcode :=
  all.find? fun opcode => opcode.byte == byte

theorem ofByte?_byte (opcode : Opcode) : ofByte? opcode.byte = some opcode := by
  cases opcode with
  | binary operator => cases operator <;> decide
  | _ => decide

/-- The operation takes a destination and two operand slots. -/
def isBinary : Opcode → Bool
  | .binary _ => true
  | _ => false

def operatorMnemonic : Operator → String
  | .add => "ADD"
  | .subtract => "SUB"
  | .multiply => "MUL"
  | .divide => "DIV"
  | .modulo => "MOD"
  | .bitAnd => "BAND"
  | .bitOr => "BOR"
  | .bitXor => "BXOR"
  | .shiftLeft => "SHL"
  | .shiftRight => "SHR"
  | .equal => "EQ"
  | .notEqual => "NE"
  | .less => "LT"
  | .lessEqual => "LE"
  | .greater => "GT"
  | .greaterEqual => "GE"
  | .and => "AND"
  | .or => "OR"

/-- The name printed in listings. -/
def mnemonic : Opcode → String
  | .nop => "NOP"
  | .loadImmediate => "LOADI"
  | .loadImmediateWide => "LOADW"
  | .loadConstant => "LOADK"
  | .move => "MOVE"
  | .jump => "JUMP"
  | .jumpIfFalse => "JMPF"
  | .ret => "RET"
  | .retValue => "RETV"
  | .binary operator => operatorMnemonic operator
  | .memberLoad => "MLOAD"
  | .memberStore => "MSTORE"
  | .syncAcquire => "SYNC"
  | .syncRelease => "UNSYNC"

end Opcode

end SlotCompiler
