import SlotCompiler.Diagnostic
import SlotCompiler.Tree.Basic

/-!
Contract: trees with their places taken elsewhere, or left out.
-/

namespace SlotCompiler

section Moved

variable (place : Position → Position)

/-! ## Places of names -/

def TypeRef.moved (type : TypeRef) : TypeRef := { type with position := place type.position }

def MemberStep.moved (step : MemberStep) : MemberStep :=
  { step with position := place step.position }

def MemberChain.moved (chain : MemberChain) : MemberChain :=
  { source := chain.source, steps := chain.steps.map (MemberStep.moved place),
    position := place chain.position }

theorem MemberChain.valueSlot_moved (chain : MemberChain) :
    (chain.moved place).valueSlot = chain.valueSlot := by
  rw [valueSlot, valueSlot, moved, List.getLast?_map]
  cases chain.steps.getLast? with
  | none => rfl
  | some step => rfl

/-! ## Places of statements -/

mutual

def Operand.moved : Operand → Operand
  | .variable slot => .variable slot
  | .literal value => .literal value
  | .string value => .string value
  | .node inner => .node inner.moved
  | .call invoked => .call invoked.moved

def Call.moved : Call → Call
  | ⟨name, arguments, position⟩ => ⟨name, operandsMoved arguments, place position⟩

def Node.moved : Node → Node
  | .declaration name slot isMutable declared? value position =>
    .declaration name slot isMutable (declared?.map (TypeRef.moved place)) value.moved
      (place position)
  | .assignment slot value position => .assignment slot value.moved (place position)
  | .access chain => .access (chain.moved place)
  | .memberAssignment target member field? value position =>
    .memberAssignment (target.moved place) member field? value.moved (place position)
  | .ret none locks position => .ret none locks (place position)
  | .ret (some value) locks position => .ret (some value.moved) locks (place position)
  | .binary operator lhs rhs destination position =>
    .binary operator lhs.moved rhs.moved destination (place position)
  | .call invoked => .call invoked.moved
  | .conditional conditions blocks position =>
    .conditional (operandsMoved conditions) (blocksMoved blocks) (place position)
  | .loop condition body position => .loop condition.moved (blockMoved body) (place position)
  | .sync locks body position => .sync locks (blockMoved body) (place position)

def operandsMoved : List Operand → List Operand
  | [] => []
  | operand :: rest => operand.moved :: operandsMoved rest

def blockMoved : List Node → List Node
  | [] => []
  | node :: rest => node.moved :: blockMoved rest

def blocksMoved : List (List Node) → List (List Node)
  | [] => []
  | block :: rest => blockMoved block :: blocksMoved rest

end

attribute [simp] Operand.moved Call.moved Node.moved operandsMoved blockMoved blocksMoved

theorem Node.moved_ret (value? : Option Operand) (locks : Nat) (position : Position) :
    (Node.ret value? locks position).moved place =
      .ret (value?.map (Operand.moved place)) locks (place position) := by
  cases value? with
  | none => rfl
  | some value => rfl

theorem operandsMoved_eq_map (operands : List Operand) :
    operandsMoved place operands = operands.map (Operand.moved place) := by
  induction operands with
  | nil => rfl
  | cons operand rest ih => rw [operandsMoved, ih, List.map_cons]

theorem blockMoved_eq_map (block : List Node) :
    blockMoved place block = block.map (Node.moved place) := by
  induction block with
  | nil => rfl
  | cons node rest ih => rw [blockMoved, ih, List.map_cons]

theorem blocksMoved_eq_map (blocks : List (List Node)) :
    blocksMoved place blocks = blocks.map (blockMoved place) := by
  induction blocks with
  | nil => rfl
  | cons block rest ih => rw [blocksMoved, ih, List.map_cons]

@[simp] theorem Call.position_moved (invoked : Call) :
    (invoked.moved place).position = place invoked.position := by
  cases invoked
  rfl

@[simp] theorem Node.position_moved (node : Node) :
    (node.moved place).position = place node.position := by
  cases node with
  | ret value? => cases value? <;> rfl
  | call invoked => exact invoked.position_moved place
  | _ => rfl

@[simp] theorem Node.valueSlot?_moved (node : Node) :
    (node.moved place).valueSlot? = node.valueSlot? := by
  cases node with
  | access chain => exact congrArg some (chain.valueSlot_moved place)
  | ret value? => cases value? <;> rfl
  | _ => rfl

mutual

theorem Node.alwaysReturns_moved (node : Node) :
    (node.moved place).alwaysReturns = node.alwaysReturns := by
  cases node with
  | ret value? => cases value? <;> simp [Node.alwaysReturns]
  | conditional conditions blocks =>
    simp [Node.alwaysReturns, blocksAlwaysReturn_moved blocks, operandsMoved_eq_map,
      blocksMoved_eq_map place blocks ▸ List.length_map (blockMoved place)]
  | sync locks body => simp [Node.alwaysReturns, blockAlwaysReturns_moved body]
  | _ => simp [Node.alwaysReturns]

theorem blockAlwaysReturns_moved (block : List Node) :
    blockAlwaysReturns (blockMoved place block) = blockAlwaysReturns block := by
  cases block with
  | nil => rfl
  | cons node rest =>
    simp [blockAlwaysReturns, node.alwaysReturns_moved, blockAlwaysReturns_moved rest]

theorem blocksAlwaysReturn_moved (blocks : List (List Node)) :
    blocksAlwaysReturn (blocksMoved place blocks) = blocksAlwaysReturn blocks := by
  cases blocks with
  | nil => rfl
  | cons block rest =>
    simp [blocksAlwaysReturn, blockAlwaysReturns_moved block, blocksAlwaysReturn_moved rest]

end

/-! ## Places of items -/

def FieldDeclaration.moved (field : FieldDeclaration) : FieldDeclaration :=
  { field with type := field.type.moved place }

def StructItem.moved (item : StructItem) : StructItem :=
  { name := item.name, fields := item.fields.map (FieldDeclaration.moved place),
    position := place item.position }

def Parameter.moved (parameter : Parameter) : Parameter :=
  { parameter with type := parameter.type.moved place }

def FunctionItem.moved (item : FunctionItem) : FunctionItem :=
  { item with
    position := place item.position
    parameters := item.parameters.map (Parameter.moved place)
    returnType? := item.returnType?.map (TypeRef.moved place)
    body := blockMoved place item.body }

def File.moved (file : File) : File :=
  { structs := file.structs.map (StructItem.moved place)
    functions := file.functions.map (FunctionItem.moved place) }

def Diagnostic.moved (diagnostic : Diagnostic) : Diagnostic :=
  { diagnostic with position := place diagnostic.position }

end Moved

/-! ## Places left as they are -/

theorem MemberChain.moved_id (chain : MemberChain) : chain.moved id = chain :=
  congrArg (MemberChain.mk chain.source · chain.position) (List.map_id chain.steps)

mutual

theorem Operand.moved_id (operand : Operand) : operand.moved id = operand := by
  cases operand with
  | node inner => rw [Operand.moved, inner.moved_id]
  | call invoked => rw [Operand.moved, invoked.moved_id]
  | _ => rw [Operand.moved]

theorem Call.moved_id (invoked : Call) : invoked.moved id = invoked := by
  cases invoked with
  | mk name arguments => rw [Call.moved, operandsMoved_id arguments, id]

theorem Node.moved_id (node : Node) : node.moved id = node := by
  cases node with
  | declaration _ _ _ declared? value =>
    have declaredEq : declared?.map (TypeRef.moved id) = declared? := congrFun Option.map_id declared?
    rw [Node.moved, value.moved_id, declaredEq, id]
  | assignment _ value => rw [Node.moved, value.moved_id, id]
  | access chain => rw [Node.moved, chain.moved_id]
  | memberAssignment target _ _ value => rw [Node.moved, target.moved_id, value.moved_id, id]
  | ret value? =>
    cases value? with
    | none => rw [Node.moved, id]
    | some value => rw [Node.moved, value.moved_id, id]
  | binary _ lhs rhs => rw [Node.moved, lhs.moved_id, rhs.moved_id, id]
  | call invoked => rw [Node.moved, invoked.moved_id]
  | conditional conditions blocks =>
    rw [Node.moved, operandsMoved_id conditions, blocksMoved_id blocks, id]
  | loop condition body => rw [Node.moved, condition.moved_id, blockMoved_id body, id]
  | sync _ body => rw [Node.moved, blockMoved_id body, id]

theorem operandsMoved_id (operands : List Operand) : operandsMoved id operands = operands := by
  cases operands with
  | nil => rfl
  | cons operand rest => rw [operandsMoved, operand.moved_id, operandsMoved_id rest]

theorem blockMoved_id (block : List Node) : blockMoved id block = block := by
  cases block with
  | nil => rfl
  | cons node rest => rw [blockMoved, node.moved_id, blockMoved_id rest]

theorem blocksMoved_id (blocks : List (List Node)) : blocksMoved id blocks = blocks := by
  cases blocks with
  | nil => rfl
  | cons block rest => rw [blocksMoved, blockMoved_id block, blocksMoved_id rest]

end

/-! ## Places left out -/

def TypeRef.unplaced (type : TypeRef) : TypeRef := { type with position := .start }

def MemberStep.unplaced (step : MemberStep) : MemberStep := { step with position := .start }

def MemberChain.unplaced (chain : MemberChain) : MemberChain :=
  { source := chain.source, steps := chain.steps.map MemberStep.unplaced, position := .start }

mutual

def Operand.unplaced : Operand → Operand
  | .variable slot => .variable slot
  | .literal value => .literal value
  | .string value => .string value
  | .node inner => .node inner.unplaced
  | .call invoked => .call invoked.unplaced

def Call.unplaced : Call → Call
  | ⟨name, arguments, _⟩ => ⟨name, operandsUnplaced arguments, .start⟩

def Node.unplaced : Node → Node
  | .declaration name slot isMutable declared? value _ =>
    .declaration name slot isMutable (declared?.map TypeRef.unplaced) value.unplaced .start
  | .assignment slot value _ => .assignment slot value.unplaced .start
  | .access chain => .access chain.unplaced
  | .memberAssignment target member field? value _ =>
    .memberAssignment target.unplaced member field? value.unplaced .start
  | .ret none locks _ => .ret none locks .start
  | .ret (some value) locks _ => .ret (some value.unplaced) locks .start
  | .binary operator lhs rhs destination _ =>
    .binary operator lhs.unplaced rhs.unplaced destination .start
  | .call invoked => .call invoked.unplaced
  | .conditional conditions blocks _ =>
    .conditional (operandsUnplaced conditions) (blocksUnplaced blocks) .start
  | .loop condition body _ => .loop condition.unplaced (blockUnplaced body) .start
  | .sync locks body _ => .sync locks (blockUnplaced body) .start

def operandsUnplaced : List Operand → List Operand
  | [] => []
  | operand :: rest => operand.unplaced :: operandsUnplaced rest

def blockUnplaced : List Node → List Node
  | [] => []
  | node :: rest => node.unplaced :: blockUnplaced rest

def blocksUnplaced : List (List Node) → List (List Node)
  | [] => []
  | block :: rest => blockUnplaced block :: blocksUnplaced rest

end

attribute [simp] Operand.unplaced Call.unplaced Node.unplaced operandsUnplaced blockUnplaced
  blocksUnplaced

def FieldDeclaration.unplaced (field : FieldDeclaration) : FieldDeclaration :=
  { field with type := field.type.unplaced }

def StructItem.unplaced (item : StructItem) : StructItem :=
  { name := item.name, fields := item.fields.map FieldDeclaration.unplaced, position := .start }

def Parameter.unplaced (parameter : Parameter) : Parameter :=
  { parameter with type := parameter.type.unplaced }

def FunctionItem.unplaced (item : FunctionItem) : FunctionItem :=
  { item with
    position := .start
    parameters := item.parameters.map Parameter.unplaced
    returnType? := item.returnType?.map TypeRef.unplaced
    body := blockUnplaced item.body }

/-- A diagnostic for its cause alone. -/
def Diagnostic.unplaced (diagnostic : Diagnostic) : Diagnostic :=
  { diagnostic with position := .start }

/-- All places taken to one. -/
def nowhere : Position → Position := fun _ => .start

theorem StructItem.moved_nowhere : StructItem.moved nowhere = StructItem.unplaced := rfl

theorem blockMoved_nowhere : blockMoved nowhere = blockUnplaced := by
  delta blockMoved blockUnplaced
  rfl

theorem FunctionItem.moved_nowhere : FunctionItem.moved nowhere = FunctionItem.unplaced := by
  funext item
  rw [moved, unplaced, blockMoved_nowhere]
  rfl

theorem Diagnostic.moved_nowhere : Diagnostic.moved nowhere = Diagnostic.unplaced := rfl

end SlotCompiler
