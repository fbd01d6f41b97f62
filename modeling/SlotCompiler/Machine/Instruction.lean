import SlotCompiler.Machine.Word

/-!
Contract: instructions as the machine sees them, and the words they occupy.

Owns:
- the structured form of every instruction, its words and its printed text;
- decoding of a word sequence up to its end or its first malformed word.
-/

namespace SlotCompiler

/-- One decoded instruction. -/
inductive Instruction where
  | nop
  | loadImmediate (dst : Slot) (value : Immediate)
  | loadConstant (dst : Slot) (index : UInt16)
  | move (dst src : Slot)
  | jump (offset : Int32)
  | jumpIfFalse (condition : Slot) (offset : Int32)
  | ret
  | retValue (src : Slot)
  | binary (operator : Operator) (dst lhs rhs : Slot)
  | memberLoad (dst object : Slot) (field : UInt16)
  | memberStore (object : Slot) (field : UInt16) (src : Slot)
  | syncAcquire (slot : Slot) (exclusive : Bool)
  | syncRelease (count : UInt16)
deriving DecidableEq, Repr

namespace Instruction

/-- The words of an instruction.  A load takes the narrow form when its value
fits and a header with a payload word otherwise. -/
def words : Instruction → List Word
  | .nop => [Word.nop]
  | .loadImmediate dst value =>
    match value.narrow? with
    | some field => [Word.loadImmediate dst value.kind field]
    | none => [Word.loadImmediateWide dst value.kind, Word.payload value.bits]
  | .loadConstant dst index => [Word.loadConstant dst index]
  | .move dst src => [Word.move dst src]
  | .jump offset => [Word.jump offset]
  | .jumpIfFalse condition offset => [Word.jumpIfFalse condition offset]
  | .ret => [Word.ret]
  | .retValue src => [Word.retValue src]
  | .binary operator dst lhs rhs => [Word.binary operator dst lhs rhs]
  | .memberLoad dst object field => [Word.memberLoad dst object field]
  | .memberStore object field src => [Word.memberStore object field src]
  | .syncAcquire slot exclusive => [Word.syncAcquire slot exclusive]
  | .syncRelease count => [Word.syncRelease count]

/-- Absolute target of a jump at `index`; none when it would lie before the
first word. -/
def jumpTarget? (instruction : Instruction) (index : Nat) : Option Nat :=
  let target (offset : Int32) : Option Nat :=
    let sum := (index : Int) + offset.toInt
    if sum < 0 then none else some sum.toNat
  match instruction with
  | .jump offset => target offset
  | .jumpIfFalse _ offset => target offset
  | _ => none

/-- The printed instruction: mnemonic, then operands. -/
def text : Instruction → String
  | .nop => "NOP"
  | .loadImmediate dst value => s!"LOADI ${dst}, " ++ value.text
  | .loadConstant dst index => s!"LOADK ${dst}, #{index}"
  | .move dst src => s!"MOVE ${dst}, ${src}"
  | .jump offset => "JUMP " ++ Text.signed offset.toInt
  | .jumpIfFalse condition offset => s!"JMPF ${condition}, " ++ Text.signed offset.toInt
  | .ret => "RET"
  | .retValue src => s!"RETV ${src}"
  | .binary operator dst lhs rhs =>
    Opcode.operatorMnemonic operator ++ s!" ${dst}, ${lhs}, ${rhs}"
  | .memberLoad dst object field => s!"MLOAD ${dst}, ${object}.{field}"
  | .memberStore object field src => s!"MSTORE ${object}.{field}, ${src}"
  | .syncAcquire slot exclusive =>
    s!"SYNC ${slot}, " ++ (if exclusive then "exclusive" else "shared")
  | .syncRelease count => s!"UNSYNC {count}"

end Instruction

/-- Why a word sequence cannot be decoded further. -/
inductive DecodeFault where
  | unknownOpcode (index : Nat) (byte : UInt8)
  | unknownImmediateKind (index : Nat) (kind : UInt8)
  | missingPayload (index : Nat)
deriving DecidableEq, Repr

/-- The wording of a decoding error. -/
def DecodeFault.message : DecodeFault → String
  | .unknownOpcode index byte =>
    "unknown opcode 0x" ++ Text.hexadecimalUpper 2 byte.toNat ++ s!" at instruction {index}"
  | .unknownImmediateKind index kind =>
    s!"unknown immediate kind {kind} at instruction {index}"
  | .missingPayload index =>
    s!"wide load at instruction {index} is missing its payload word"

/-- Decode the instruction whose first word is `word` at `index`, given the
word after it.  The result carries the number of words it occupies. -/
def decodeWord (index : Nat) (word : Word) (next? : Option Word) :
    Except DecodeFault (Instruction × Nat) :=
  match word.opcode? with
  | none => .error (.unknownOpcode index word.opByte)
  | some .nop => .ok (.nop, 1)
  | some .loadImmediate =>
    match ImmediateKind.ofCode? word.kindCode with
    | none => .error (.unknownImmediateKind index word.kindCode)
    | some kind => .ok (.loadImmediate word.a (Immediate.ofNarrow kind word.offset), 1)
  | some .loadImmediateWide =>
    match ImmediateKind.ofCode? word.kindCode with
    | none => .error (.unknownImmediateKind index word.kindCode)
    | some kind =>
      match next? with
      | none => .error (.missingPayload index)
      | some payload => .ok (.loadImmediate word.a (Immediate.ofBits kind payload.bits), 2)
  | some .loadConstant => .ok (.loadConstant word.a word.b, 1)
  | some .move => .ok (.move word.a word.b, 1)
  | some .jump => .ok (.jump word.offset, 1)
  | some .jumpIfFalse => .ok (.jumpIfFalse word.a word.offset, 1)
  | some .ret => .ok (.ret, 1)
  | some .retValue => .ok (.retValue word.a, 1)
  | some (.binary operator) => .ok (.binary operator word.a word.b word.c, 1)
  | some .memberLoad => .ok (.memberLoad word.a word.b word.c, 1)
  | some .memberStore => .ok (.memberStore word.a word.c word.b, 1)
  | some .syncAcquire => .ok (.syncAcquire word.a (word.b != 0), 1)
  | some .syncRelease => .ok (.syncRelease word.a, 1)

/-- A decoded word sequence: the instructions with the index of their first
word, and the error that stopped decoding, if one did. -/
structure Decoding where
  items : Array (Nat × Instruction)
  fault? : Option DecodeFault
deriving Repr

namespace Decoding

/-- Decode the words from `index` on, after the given items.  A decoded pair of
words leaves the second one to be dropped. -/
def extend (index : Nat) (items : Array (Nat × Instruction)) : List Word → Decoding
  | [] => { items := items, fault? := none }
  | word :: rest =>
    match decodeWord index word rest.head? with
    | .error fault => { items := items, fault? := some fault }
    | .ok (instruction, width) =>
      let items := items.push (index, instruction)
      match width, rest with
      | 2, _ :: rest => extend (index + 2) items rest
      | _, rest => extend (index + 1) items rest

def ofWords (code : List Word) : Decoding :=
  extend 0 #[] code

end Decoding

end SlotCompiler
