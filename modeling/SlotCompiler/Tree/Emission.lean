import SlotCompiler.Code.Buffer
import SlotCompiler.Tree.Typing

/-!
Contract: instructions of operands, statements and blocks.

Owns:
- bringing an operand's value into some slot or into a given one;
- the jump layout of conditionals and loops, locks around a block, and release
  of locks before a return.

Does not own: the return that ends a function without a result.

Emission stops at the first fault and keeps the instructions emitted before
it.
-/

namespace SlotCompiler

/-- The instructions and variables of the function being emitted. -/
structure EmitState where
  buffer : CodeBuffer
  frame : Variables

instance : Inhabited EmitState := ⟨⟨.empty, .empty⟩⟩

/-- A step of emission. -/
abbrev Emit := EStateM Diagnostic EmitState

def BufferFault.cause : BufferFault → Cause
  | .jumpTooFar distance => .jumpTooFar distance
  | .tooManyConstants => .tooManyConstants

namespace Emit

def fail {α : Type} (cause : Cause) (position : Position) : Emit α :=
  throw ⟨cause, position⟩

def instruction (instruction : Instruction) : Emit Unit :=
  modify fun state => { state with buffer := state.buffer.emit instruction }

/-- The index of the next word. -/
def here : Emit Nat := return (← get).buffer.size

/-- Append an instruction and give the index of its first word. -/
def placeholder (instruction : Instruction) : Emit Nat := do
  let index ← here
  Emit.instruction instruction
  return index

def edit {α : Type} (position : Position) (change : CodeBuffer.Edit α) : Emit α := fun state =>
  match state with
  | ⟨buffer, frame⟩ =>
    match change buffer with
    | .ok value buffer => .ok value ⟨buffer, frame⟩
    | .error fault buffer => .error ⟨fault.cause, position⟩ ⟨buffer, frame⟩

def temporary (function : String) (type : TypeId) (position : Position) : Emit Slot := fun state =>
  match state with
  | ⟨buffer, frame⟩ =>
    match frame.addTemporary with
    | (some slot, frame) => .ok slot ⟨buffer, frame.setType slot type⟩
    | (none, frame) =>
      .error ⟨.tooManyVariables function, position⟩ ⟨buffer, frame⟩

def loadString (value : String) (dst : Slot) (position : Position) : Emit Unit := do
  let index ← edit position (CodeBuffer.intern value)
  instruction (.loadConstant dst index)

/-- Bring the value of an operand into a slot: a literal is loaded there,
anything else is moved from the slot that `source` brings it to. -/
def into (operand : Operand) (dst : Slot) (position : Position) (source : Emit Slot) :
    Emit Unit :=
  match operand with
  | .literal value => instruction (.loadImmediate dst value)
  | .string value => loadString value dst position
  | _ => do
      let src ← source
      if src = dst then return () else instruction (.move dst src)

/-- The field number of a member, which types have set before. -/
def fieldNumber (field? : Option UInt16) (position : Position) : Emit UInt16 :=
  match field? with
  | some number => return number
  | none => fail (.unresolvedType "member") position

/-- Load the members of a chain one after the other. -/
def projections : Slot → List MemberStep → Emit Unit
  | _, [] => return ()
  | object, step :: rest => do
      let number ← fieldNumber step.field? step.position
      instruction (.memberLoad step.destination object number)
      projections step.destination rest

/-- Emit one arm of a conditional and give the index of the jump to its end:
condition, jump past the arm, block, jump to the end. -/
def arm (position : Position) (condition : Emit Slot) (block : Emit Unit) : Emit Nat := do
  let slot ← condition
  let skip ← placeholder (.jumpIfFalse slot 0)
  block
  let exit ← placeholder (.jump 0)
  edit position (CodeBuffer.landJump skip)
  return exit

/-- Emit the arms of a conditional after those whose end jumps are given. -/
def arms (position : Position) (exits : Array Nat) : List (Emit Slot × Emit Unit) → Emit (Array Nat)
  | [] => return exits
  | (condition, block) :: rest => do
      let exit ← arm position condition block
      arms position (exits.push exit) rest

/-- Point jumps to the next word. -/
def landAll (position : Position) : List Nat → Emit Unit
  | [] => return ()
  | index :: rest => do
      edit position (CodeBuffer.landJump index)
      landAll position rest

/-- Emit a conditional: its arms, the alternative if there is one more block
than conditions, and the ends of the arms' jumps. -/
def conditional (position : Position) (conditions : List (Emit Slot)) (blocks : List (Emit Unit)) :
    Emit Unit := do
  let exits ← arms position #[] (conditions.zip blocks)
  match blocks[conditions.length]? with
  | some alternative => alternative
  | none => pure ()
  landAll position exits.toList

/-- Emit a loop: condition, jump past the loop, body, jump back to the
condition. -/
def loop (position : Position) (condition : Emit Slot) (body : Emit Unit) : Emit Unit := do
  let start ← here
  let slot ← condition
  let exit ← placeholder (.jumpIfFalse slot 0)
  body
  edit position (CodeBuffer.jumpBack start)
  edit position (CodeBuffer.landJump exit)

/-- Take locks in order. -/
def acquire : List Lock → Emit Unit
  | [] => return ()
  | lock :: rest => do
      instruction (.syncAcquire lock.slot lock.exclusive)
      acquire rest

def ret (src? : Option Slot) (locks : Nat) : Emit Unit := do
  if 0 < locks then
    instruction (.syncRelease (UInt16.ofNat locks))
  match src? with
  | some src => instruction (.retValue src)
  | none => instruction .ret

end Emit

mutual

/-- Emit what is needed to have the value of an operand in a slot, and give that
slot. -/
def Operand.load (function : String) (position : Position) : Operand → Emit Slot
  | .variable slot => return slot
  | .literal value => do
      let slot ← Emit.temporary function value.type position
      Emit.instruction (.loadImmediate slot value)
      return slot
  | .string value => do
      let slot ← Emit.temporary function .string position
      Emit.loadString value slot position
      return slot
  | .node node => do
      node.emit function
      match node.valueSlot? with
      | some slot => return slot
      | none => Emit.fail (.unsupportedConstruct statementConstruct) position
  | .call _ => Emit.fail (.unsupportedConstruct callConstruct) position

def Node.emit (function : String) : Node → Emit Unit
  | .declaration _ slot _ _ value position =>
    Emit.into value slot position (value.load function position)
  | .assignment slot value position =>
    Emit.into value slot position (value.load function position)
  | .access chain => Emit.projections chain.source chain.steps
  | .memberAssignment target _ field? value position => do
      Emit.projections target.source target.steps
      let src ← value.load function position
      let number ← Emit.fieldNumber field? position
      Emit.instruction (.memberStore target.valueSlot number src)
  | .ret none locks _ => Emit.ret none locks
  | .ret (some value) locks position => do
      let src ← value.load function position
      Emit.ret (some src) locks
  | .binary operator lhs rhs destination position => do
      let left ← lhs.load function position
      let right ← rhs.load function position
      Emit.instruction (.binary operator destination left right)
  | .call invoked => Emit.fail (.unsupportedConstruct callConstruct) invoked.position
  | .conditional conditions blocks position =>
    Emit.conditional position (loaders function position conditions)
      (blockEmitters function blocks)
  | .loop condition body position =>
    Emit.loop position (condition.load function position) (emitNodes function body)
  | .sync locks body _ => do
      Emit.acquire locks
      emitNodes function body
      Emit.instruction (.syncRelease (UInt16.ofNat locks.length))

/-- The emission of each condition. -/
def loaders (function : String) (position : Position) : List Operand → List (Emit Slot)
  | [] => []
  | operand :: rest =>
    operand.load function position :: loaders function position rest

/-- Emit the statements of a block. -/
def emitNodes (function : String) : List Node → Emit Unit
  | [] => return ()
  | node :: rest => do
      node.emit function
      emitNodes function rest

def blockEmitters (function : String) : List (List Node) → List (Emit Unit)
  | [] => []
  | block :: rest => emitNodes function block :: blockEmitters function rest

end

def emitBlock (function : String) (block : Block) : Emit Unit := emitNodes function block

end SlotCompiler
