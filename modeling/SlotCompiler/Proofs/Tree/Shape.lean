import SlotCompiler.Proofs.Tree.Locking
import SlotCompiler.Proofs.Tree.Mutability

/-!
Contract: numbering the fields of a tree keeps its shape.
-/

namespace SlotCompiler

def TreePart.StaysRead (types : TypeTable) (slots : Slot → TypeId) (before after : Context) :
    TreePart → Prop
  | .operand value => Reads (.operand (value.numbered types slots)) before after
  | .operands _ => True
  | .steps members => ∀ object, Reads (.steps (numberSteps types slots object members)) before after
  | .node statement => Reads (.node (statement.numbered types slots)) before after
  | .nodes statements => Reads (.nodes (blockNumbered types slots statements)) before after
  | .block locks statements =>
    Reads (.block locks (blockNumbered types slots statements)) before after
  | .arms conditions blocks =>
    Reads (.arms (operandsNumbered types slots conditions) (blocksNumbered types slots blocks))
      before after

theorem Reads.staysRead (types : TypeTable) (slots : Slot → TypeId) {part before after}
    (read : Reads part before after) : part.StaysRead types slots before after := by
  induction read with
  | visible found => exact .visible found
  | literal => exact .literal
  | string => exact .string
  | access found _ projected => exact .access found (projected _)
  | binary _ _ added left right => exact .binary left right added
  | call arguments recorded => exact .call arguments recorded
  | noOperands | moreOperands => trivial
  | noSteps => exact fun _ => .noSteps
  | moreSteps added _ tail => exact fun _ => .moreSteps added (tail _)
  | declaration _ declared initial => exact .declaration initial declared
  | assignment found _ assigned => exact .assignment found assigned
  | memberAssignment found _ _ projected assigned =>
    exact .memberAssignment found (projected _) assigned
  | ret => exact .ret
  | retValue _ returned => exact .retValue returned
  | callStatement called => exact .callStatement called
  | conditional _ chained => exact .conditional chained
  | loop _ _ tested repeated => exact .loop tested repeated
  | sync found distinct few _ guarded => exact .sync found distinct few guarded
  | noNodes => exact .noNodes
  | moreNodes _ _ head tail => exact .moreNodes head tail
  | block _ inside => exact .block inside
  | arm _ _ _ tested entered rest => exact .arm tested entered rest
  | alternative _ entered => exact .alternative entered
  | noAlternative => exact .noAlternative

/-! ## Statements -/

section Numbered

variable (types : TypeTable) (slots : Slot → TypeId)

theorem length_operandsNumbered (values : List Operand) :
    (operandsNumbered types slots values).length = values.length := by
  induction values with
  | nil => rfl
  | cons value rest ih => rw [operandsNumbered, List.length_cons, ih, List.length_cons]

theorem length_blocksNumbered (blocks : List (List Node)) :
    (blocksNumbered types slots blocks).length = blocks.length := by
  induction blocks with
  | nil => rfl
  | cons block rest ih => rw [blocksNumbered, List.length_cons, ih, List.length_cons]

mutual

theorem Node.alwaysReturns_numbered (node : Node) :
    (node.numbered types slots).alwaysReturns = node.alwaysReturns := by
  cases node with
  | ret value? => cases value? <;> simp [Node.alwaysReturns]
  | conditional conditions blocks =>
    simp [Node.alwaysReturns, length_operandsNumbered, length_blocksNumbered,
      blocksAlwaysReturn_numbered blocks]
  | sync locks body => simp [Node.alwaysReturns, blockAlwaysReturns_numbered body]
  | _ => simp [Node.alwaysReturns]

theorem blockAlwaysReturns_numbered (block : List Node) :
    blockAlwaysReturns (blockNumbered types slots block) = blockAlwaysReturns block := by
  cases block with
  | nil => rfl
  | cons node rest =>
    simp [blockAlwaysReturns, node.alwaysReturns_numbered, blockAlwaysReturns_numbered rest]

theorem blocksAlwaysReturn_numbered (blocks : List (List Node)) :
    blocksAlwaysReturn (blocksNumbered types slots blocks) = blocksAlwaysReturn blocks := by
  cases blocks with
  | nil => rfl
  | cons block rest =>
    simp [blocksAlwaysReturn, blockAlwaysReturns_numbered block, blocksAlwaysReturn_numbered rest]

end

mutual

theorem Node.returnsUnder_numbered (limit held : Nat) (node : Node) :
    (node.numbered types slots).returnsUnder limit held = node.returnsUnder limit held := by
  cases node with
  | ret value? => cases value? <;> simp [Node.returnsUnder]
  | conditional conditions blocks =>
    simp [Node.returnsUnder, blocksReturnUnder_numbered limit held blocks]
  | loop condition body => simp [Node.returnsUnder, blockReturnsUnder_numbered limit held body]
  | sync locks body => simp [Node.returnsUnder, blockReturnsUnder_numbered limit _ body]
  | _ => simp [Node.returnsUnder]

theorem blockReturnsUnder_numbered (limit held : Nat) (block : List Node) :
    blockReturnsUnder limit held (blockNumbered types slots block) =
      blockReturnsUnder limit held block := by
  cases block with
  | nil => rfl
  | cons node rest =>
    simp [blockReturnsUnder, node.returnsUnder_numbered limit held,
      blockReturnsUnder_numbered limit held rest]

theorem blocksReturnUnder_numbered (limit held : Nat) (blocks : List (List Node)) :
    blocksReturnUnder limit held (blocksNumbered types slots blocks) =
      blocksReturnUnder limit held blocks := by
  cases blocks with
  | nil => rfl
  | cons block rest =>
    simp [blocksReturnUnder, blockReturnsUnder_numbered limit held block,
      blocksReturnUnder_numbered limit held rest]

end

mutual

theorem Node.relocks_numbered (held : List Slot) (node : Node) :
    (node.numbered types slots).relocks held = node.relocks held := by
  cases node with
  | ret value? => cases value? <;> simp [Node.relocks]
  | conditional conditions blocks => simp [Node.relocks, blocksRelock_numbered held blocks]
  | loop condition body => simp [Node.relocks, blockRelocks_numbered held body]
  | sync locks body => simp [Node.relocks, blockRelocks_numbered _ body]
  | _ => simp [Node.relocks]

theorem blockRelocks_numbered (held : List Slot) (block : List Node) :
    blockRelocks held (blockNumbered types slots block) = blockRelocks held block := by
  cases block with
  | nil => rfl
  | cons node rest =>
    simp [blockRelocks, node.relocks_numbered held, node.alwaysReturns_numbered,
      blockRelocks_numbered held rest]

theorem blocksRelock_numbered (held : List Slot) (blocks : List (List Node)) :
    blocksRelock held (blocksNumbered types slots blocks) = blocksRelock held blocks := by
  cases blocks with
  | nil => rfl
  | cons block rest =>
    simp [blocksRelock, blockRelocks_numbered held block, blocksRelock_numbered held rest]

end

mutual

theorem Node.assigned_numbered (node : Node) :
    (node.numbered types slots).assigned = node.assigned := by
  cases node with
  | ret value? => cases value? <;> simp [Node.assigned]
  | conditional conditions blocks => simp [Node.assigned, blocksAssigned_numbered blocks]
  | loop condition body => simp [Node.assigned, blockAssigned_numbered body]
  | sync locks body => simp [Node.assigned, blockAssigned_numbered body]
  | _ => simp [Node.assigned]

theorem blockAssigned_numbered (block : List Node) :
    blockAssigned (blockNumbered types slots block) = blockAssigned block := by
  cases block with
  | nil => rfl
  | cons node rest => simp [blockAssigned, node.assigned_numbered, blockAssigned_numbered rest]

theorem blocksAssigned_numbered (blocks : List (List Node)) :
    blocksAssigned (blocksNumbered types slots blocks) = blocksAssigned blocks := by
  cases blocks with
  | nil => rfl
  | cons block rest =>
    simp [blocksAssigned, blockAssigned_numbered block, blocksAssigned_numbered rest]

end

end Numbered

end SlotCompiler
