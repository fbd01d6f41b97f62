import SlotCompiler.Machine.Immediate
import SlotCompiler.Machine.Opcode
import SlotCompiler.Text.Column

/-!
Contract: fixed-width instruction words.

Owns:
- the three operand layouts over 64 bits and the words built from them;
- extraction of every operand field, and replacement of a jump offset.

Does not own: which words follow each other in a function body.

Counted from the lowest bit, the layouts are

    three slots   operation 8, a 16, b 16, c 16
    jump          operation 8, a 16, unused 8, offset 32
    immediate     operation 8, a 16, kind 8, value 32

Fields are combined and taken apart by arithmetic: a field that starts at bit
`k` is multiplied by `2 ^ k`, and reading it divides by `2 ^ k`.
-/

namespace SlotCompiler

/-- Index of a variable in a function's frame. -/
abbrev Slot := UInt16

/-- One instruction or payload word. -/
structure Word where
  bits : UInt64
deriving DecidableEq, Repr, Inhabited

namespace Word

/-- The layout of three 16-bit operands. -/
def triple (opcode : Opcode) (a b c : UInt16) : Word :=
  ⟨UInt64.ofNat
    (opcode.byte.toNat + a.toNat * 0x100 + b.toNat * 0x1000000 + c.toNat * 0x10000000000)⟩

/-- The layout of one slot and a signed 32-bit offset. -/
def offsetForm (opcode : Opcode) (a : UInt16) (offset : Int32) : Word :=
  ⟨UInt64.ofNat (opcode.byte.toNat + a.toNat * 0x100 + offset.toUInt32.toNat * 0x100000000)⟩

/-- The layout of one slot, a kind tag and a 32-bit value. -/
def immediateForm (opcode : Opcode) (a : UInt16) (kind : ImmediateKind) (value : UInt32) : Word :=
  ⟨UInt64.ofNat
    (opcode.byte.toNat + a.toNat * 0x100 + kind.code.toNat * 0x1000000 + value.toNat * 0x100000000)⟩

/-! ## Words of each operation -/

def nop : Word := triple .nop 0 0 0

def loadImmediate (dst : Slot) (kind : ImmediateKind) (value : Int32) : Word :=
  immediateForm .loadImmediate dst kind value.toUInt32

def loadImmediateWide (dst : Slot) (kind : ImmediateKind) : Word :=
  immediateForm .loadImmediateWide dst kind 0

/-- The raw payload of a wide load. -/
def payload (bits : UInt64) : Word := ⟨bits⟩

def loadConstant (dst : Slot) (index : UInt16) : Word := triple .loadConstant dst index 0

def move (dst src : Slot) : Word := triple .move dst src 0

def jump (offset : Int32) : Word := offsetForm .jump 0 offset

def jumpIfFalse (condition : Slot) (offset : Int32) : Word :=
  offsetForm .jumpIfFalse condition offset

def ret : Word := triple .ret 0 0 0

def retValue (src : Slot) : Word := triple .retValue src 0 0

def binary (operator : Operator) (dst lhs rhs : Slot) : Word :=
  triple (.binary operator) dst lhs rhs

def memberLoad (dst object : Slot) (field : UInt16) : Word :=
  triple .memberLoad dst object field

def memberStore (object : Slot) (field : UInt16) (src : Slot) : Word :=
  triple .memberStore object src field

def syncAcquire (slot : Slot) (exclusive : Bool) : Word :=
  triple .syncAcquire slot (if exclusive then 1 else 0) 0

/-- Release the most recently acquired locks. -/
def syncRelease (count : UInt16) : Word := triple .syncRelease count 0 0

/-! ## Operands -/

def opByte (word : Word) : UInt8 := UInt8.ofNat word.bits.toNat

/-- The operation of a word, if its byte is a known code. -/
def opcode? (word : Word) : Option Opcode := Opcode.ofByte? word.opByte

def a (word : Word) : UInt16 := UInt16.ofNat (word.bits.toNat / 0x100)

def b (word : Word) : UInt16 := UInt16.ofNat (word.bits.toNat / 0x1000000)

def c (word : Word) : UInt16 := UInt16.ofNat (word.bits.toNat / 0x10000000000)

/-- The kind tag of the immediate layout. -/
def kindCode (word : Word) : UInt8 := UInt8.ofNat (word.bits.toNat / 0x1000000)

/-- The signed 32-bit field of jumps and immediates. -/
def offset (word : Word) : Int32 := (UInt32.ofNat (word.bits.toNat / 0x100000000)).toInt32

/-- Replace the upper half by another offset; operation and slot are kept. -/
def redirect (word : Word) (offset : Int32) : Word :=
  ⟨UInt64.ofNat (word.bits.toNat % 0x100000000 + offset.toUInt32.toNat * 0x100000000)⟩

/-- The raw bits of a word, shown in base sixteen. -/
def dump (word : Word) : String :=
  "Bytecode(" ++ Text.hexadecimalUpper 16 word.bits.toNat ++ ")"

end Word

end SlotCompiler
