import SlotCompiler.Machine.Instruction

/-!
Contract: the instruction buffer of a function under construction.

Owns:
- appending of words, back-patching of forward jumps, backward jumps;
- the pool of distinct string constants.
-/

namespace SlotCompiler

/-- Why the buffer refuses an operation. -/
inductive BufferFault where
  | jumpTooFar (distance : Nat)
  | tooManyConstants
deriving DecidableEq, Repr

/-- Words emitted so far and the strings they refer to. -/
structure CodeBuffer where
  code : Array Word
  constants : Array String
deriving DecidableEq, Repr

namespace CodeBuffer

def empty : CodeBuffer := ⟨#[], #[]⟩

instance : Inhabited CodeBuffer := ⟨empty⟩

/-- A change of the buffer that may be refused; a refused change leaves the
buffer as it was. -/
abbrev Edit := EStateM BufferFault CodeBuffer

/-- The index of the next word. -/
def size (buffer : CodeBuffer) : Nat := buffer.code.size

def push (buffer : CodeBuffer) (word : Word) : CodeBuffer :=
  { buffer with code := buffer.code.push word }

/-- Append the words of an instruction. -/
def emit (buffer : CodeBuffer) (instruction : Instruction) : CodeBuffer :=
  instruction.words.foldl push buffer

def jumpOffset (distance : Nat) : Except BufferFault Int32 :=
  if distance < 0x80000000 then .ok (Int32.ofNat distance) else .error (.jumpTooFar distance)

/-- Point the jump at `index` to the next word to be emitted. -/
def landJump (index : Nat) : Edit Unit := fun buffer =>
  match jumpOffset (buffer.size - index) with
  | .ok offset =>
    .ok () { buffer with code := buffer.code.modify index fun word => word.redirect offset }
  | .error fault => .error fault buffer

def jumpBack (target : Nat) : Edit Unit := fun buffer =>
  match jumpOffset (buffer.size - target) with
  | .ok offset => .ok () (buffer.emit (.jump (-offset)))
  | .error fault => .error fault buffer

/-- The most constants of a function: one for every 16-bit operand. -/
def constantCapacity : Nat := 0x10000

/-- The number of a string in the pool; a new string is appended. -/
def intern (value : String) : Edit UInt16 := fun buffer =>
  match buffer.constants.findIdx? (· == value) with
  | some index => .ok (UInt16.ofNat index) buffer
  | none =>
    if buffer.constants.size < constantCapacity then
      .ok (UInt16.ofNat buffer.constants.size)
        { buffer with constants := buffer.constants.push value }
    else
      .error .tooManyConstants buffer

/-- The words emitted so far. -/
def words (buffer : CodeBuffer) : List Word := buffer.code.toList

end CodeBuffer

end SlotCompiler
