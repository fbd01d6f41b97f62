import SlotCompiler.Proofs.Machine.Encoding
import SlotCompiler.Tree.Emission

/-!
Contract: the instructions of operands, statements and blocks, without reference
to where they stand.

Jumps are relative, so the code of a part is the same wherever it stands.  The
distance of a jump is counted in words.
-/

namespace SlotCompiler

/-- The variables and constants that emission has used up so far. -/
structure Stock where
  frame : Variables
  constants : Array String

def EmitState.stock (state : EmitState) : Stock := ⟨state.frame, state.buffer.constants⟩

namespace Stock

def temporary? (stock : Stock) (type : TypeId) : Option (Slot × Stock) :=
  match stock.frame.addTemporary with
  | (some slot, frame) => some (slot, ⟨frame.setType slot type, stock.constants⟩)
  | (none, _) => none

/-- The number of a string in the pool, which may be new there. -/
def intern? (stock : Stock) (text : String) : Option (UInt16 × Stock) :=
  match stock.constants.findIdx? (· == text) with
  | some index => some (UInt16.ofNat index, stock)
  | none =>
    if stock.constants.size < CodeBuffer.constantCapacity then
      some (UInt16.ofNat stock.constants.size, ⟨stock.frame, stock.constants.push text⟩)
    else
      none

end Stock

/-! ## Operands -/

/-- The loads of a member chain, when all its field numbers are known. -/
def memberLoads? : Slot → List MemberStep → Option (List Instruction)
  | _, [] => some []
  | object, step :: rest => do
      let field ← step.field?
      let code ← memberLoads? step.destination rest
      some (.memberLoad step.destination object field :: code)

theorem memberLoads?_cons {object step rest code}
    (loaded : memberLoads? object (step :: rest) = some code) :
    ∃ field others, step.field? = some field ∧
      memberLoads? step.destination rest = some others ∧
      code = .memberLoad step.destination object field :: others := by
  obtain ⟨field, fieldEq, loaded⟩ := Option.bind_eq_some_iff.mp loaded
  obtain ⟨others, restLoaded, codeEq⟩ := Option.bind_eq_some_iff.mp loaded
  exact ⟨field, others, fieldEq, restLoaded, (Option.some.inj codeEq).symm⟩

/-- Code that has the value of an operand in a slot. -/
inductive Loads : Operand → Slot → Stock → List Instruction → Stock → Prop where
  | held {slot stock} : Loads (.variable slot) slot stock [] stock
  | literal {value : Immediate} {slot} {stock finish : Stock}
      (allocated : stock.temporary? value.type = some (slot, finish)) :
      Loads (.literal value) slot stock [.loadImmediate slot value] finish
  | string {text slot index} {stock middle finish : Stock}
      (allocated : stock.temporary? .string = some (slot, middle))
      (interned : middle.intern? text = some (index, finish)) :
      Loads (.string text) slot stock [.loadConstant slot index] finish
  | access {chain : MemberChain} {stock code}
      (loaded : memberLoads? chain.source chain.steps = some code) :
      Loads (.node (.access chain)) chain.valueSlot stock code stock
  | binary {operator lhs rhs destination left right position stock middle finish leftCode rightCode}
      (leftLoaded : Loads lhs left stock leftCode middle)
      (rightLoaded : Loads rhs right middle rightCode finish) :
      Loads (.node (.binary operator lhs rhs destination position)) destination stock
        (leftCode ++ rightCode ++ [.binary operator destination left right]) finish

/-- A literal is loaded straight into the slot that wants it. -/
def Operand.isLiteral : Operand → Bool
  | .literal _ => true
  | .string _ => true
  | _ => false

/-- Code that brings the value of an operand into a given slot. -/
inductive Stores : Operand → Slot → Stock → List Instruction → Stock → Prop where
  | literal {value dst stock} : Stores (.literal value) dst stock [.loadImmediate dst value] stock
  | string {text dst index} {stock finish : Stock}
      (interned : stock.intern? text = some (index, finish)) :
      Stores (.string text) dst stock [.loadConstant dst index] finish
  | kept {operand : Operand} {dst stock finish code} (computed : operand.isLiteral = false)
      (loaded : Loads operand dst stock code finish) : Stores operand dst stock code finish
  | moved {operand : Operand} {src dst stock finish code} (computed : operand.isLiteral = false)
      (loaded : Loads operand src stock code finish) (apart : src ≠ dst) :
      Stores operand dst stock (code ++ [.move dst src]) finish

/-! ## Statements -/

/-- A part of a body that is emitted in one go. -/
inductive Fragment where
  | node (statement : Node)
  | nodes (statements : List Node)
  /-- The rest of a conditional. -/
  | arms (conditions : List Operand) (blocks : List (List Node))

def releases (locks : Nat) : List Instruction :=
  if 0 < locks then [.syncRelease (UInt16.ofNat locks)] else []

/-- The locks of a block, taken in order. -/
def acquisitions (locks : List Lock) : List Instruction :=
  locks.map fun lock => .syncAcquire lock.slot lock.exclusive

/-- The largest distance of a jump, and one more. -/
def jumpReach : Nat := 0x80000000

def loopCode (slot : Slot) (condition body : List Instruction) : List Instruction :=
  condition ++ .jumpIfFalse slot (Int32.ofNat (extent body + 2)) :: body ++
    [.jump (-Int32.ofNat (extent condition + 1 + extent body))]

theorem extent_loopCode (slot : Slot) (condition body : List Instruction) :
    extent (loopCode slot condition body) = extent condition + (extent body + 2) := by
  simp only [loopCode, extent_append, extent_cons, extent_nil, Instruction.width_jump,
    Instruction.width_jumpIfFalse]
  omega

def armCode (slot : Slot) (condition block rest : List Instruction) : List Instruction :=
  condition ++ .jumpIfFalse slot (Int32.ofNat (extent block + 2)) :: block ++
    .jump (Int32.ofNat (extent rest + 1)) :: rest

theorem extent_armCode (slot : Slot) (condition block rest : List Instruction) :
    extent (armCode slot condition block rest) =
      extent condition + 1 + extent block + (extent rest + 1) := by
  simp only [armCode, extent_append, extent_cons, Instruction.width_jump,
    Instruction.width_jumpIfFalse]
  omega

/-- Code of a statement, of a block, or of the rest of a conditional. -/
inductive Emits : Fragment → Stock → List Instruction → Stock → Prop where
  | declaration {name slot isMutable declared? value position stock finish code}
      (stored : Stores value slot stock code finish) :
      Emits (.node (.declaration name slot isMutable declared? value position)) stock code finish
  | assignment {slot value position stock finish code}
      (stored : Stores value slot stock code finish) :
      Emits (.node (.assignment slot value position)) stock code finish
  | value {node slot stock finish code} (loaded : Loads (.node node) slot stock code finish) :
      Emits (.node node) stock code finish
  | memberAssignment {target : MemberChain}
      {member field value position src stock finish objectCode valueCode}
      (object : memberLoads? target.source target.steps = some objectCode)
      (loaded : Loads value src stock valueCode finish) :
      Emits (.node (.memberAssignment target member (some field) value position)) stock
        (objectCode ++ valueCode ++ [.memberStore target.valueSlot field src]) finish
  | ret {locks position stock} :
      Emits (.node (.ret none locks position)) stock (releases locks ++ [.ret]) stock
  | retValue {value locks position src stock finish code}
      (loaded : Loads value src stock code finish) :
      Emits (.node (.ret (some value) locks position)) stock
        (code ++ releases locks ++ [.retValue src]) finish
  | conditional {conditions blocks position stock finish code}
      (arms : Emits (.arms conditions blocks) stock code finish) :
      Emits (.node (.conditional conditions blocks position)) stock code finish
  | loop {condition body position slot stock middle finish conditionCode bodyCode}
      (tested : Loads condition slot stock conditionCode middle)
      (repeated : Emits (.nodes body) middle bodyCode finish)
      (backNear : extent conditionCode + 1 + extent bodyCode < jumpReach)
      (exitNear : extent bodyCode + 2 < jumpReach) :
      Emits (.node (.loop condition body position)) stock
        (loopCode slot conditionCode bodyCode) finish
  | sync {locks body position stock finish code} (guarded : Emits (.nodes body) stock code finish) :
      Emits (.node (.sync locks body position)) stock
        (acquisitions locks ++ code ++ [.syncRelease (UInt16.ofNat locks.length)]) finish
  | nil {stock} : Emits (.nodes []) stock [] stock
  | cons {node rest stock middle finish first second} (head : Emits (.node node) stock first middle)
      (tail : Emits (.nodes rest) middle second finish) :
      Emits (.nodes (node :: rest)) stock (first ++ second) finish
  | arm
      {condition conditions block blocks slot stock tested taken finish conditionCode blockCode
        restCode} (conditionLoaded : Loads condition slot stock conditionCode tested)
      (blockEmitted : Emits (.nodes block) tested blockCode taken)
      (restEmitted : Emits (.arms conditions blocks) taken restCode finish)
      (skipNear : extent blockCode + 2 < jumpReach) (exitNear : extent restCode + 1 < jumpReach) :
      Emits (.arms (condition :: conditions) (block :: blocks)) stock
        (armCode slot conditionCode blockCode restCode) finish
  | alternative {block others stock finish code} (taken : Emits (.nodes block) stock code finish) :
      Emits (.arms [] (block :: others)) stock code finish
  | done {conditions stock} : Emits (.arms conditions []) stock [] stock

end SlotCompiler
