import SlotCompiler.Proofs.Parse.Frame

/-!
Contract: the slots that the parts of a body define.
-/

namespace SlotCompiler

/-! ## Defined slots -/

def stepsTargets (members : List MemberStep) : List Slot := members.map MemberStep.destination

def interleave : List (List Slot) → List (List Slot) → List Slot
  | [], blocks => blocks.flatten
  | conditions, [] => conditions.flatten
  | condition :: conditions, block :: blocks => condition ++ block ++ interleave conditions blocks

theorem interleave_perm (conditions blocks : List (List Slot)) :
    (interleave conditions blocks).Perm (conditions.flatten ++ blocks.flatten) := by
  induction conditions generalizing blocks with
  | nil => simp [interleave]
  | cons condition conditions ih =>
    cases blocks with
    | nil => simp [interleave]
    | cons block blocks =>
      simp only [interleave, List.flatten_cons, List.append_assoc]
      apply List.Perm.append_left
      have moved := (ih blocks).append_left block
      refine moved.trans ?_
      simp only [← List.append_assoc]
      exact List.Perm.append_right _ List.perm_append_comm

mutual

def Operand.targets : Operand → List Slot
  | .variable _ => []
  | .literal _ => []
  | .string _ => []
  | .node inner => inner.targets
  | .call invoked => invoked.targets

def Call.targets : Call → List Slot
  | ⟨_, arguments, _⟩ => (operandsTargets arguments).flatten

def Node.targets : Node → List Slot
  | .declaration _ slot _ _ value _ => value.targets ++ [slot]
  | .assignment _ value _ => value.targets
  | .access chain => stepsTargets chain.steps
  | .memberAssignment target _ _ value _ => stepsTargets target.steps ++ value.targets
  | .ret none _ _ => []
  | .ret (some value) _ _ => value.targets
  | .binary _ lhs rhs destination _ => lhs.targets ++ rhs.targets ++ [destination]
  | .call invoked => invoked.targets
  | .conditional conditions blocks _ =>
    interleave (operandsTargets conditions) (blocksTargets blocks)
  | .loop condition body _ => condition.targets ++ nodesTargets body
  | .sync _ body _ => nodesTargets body

def operandsTargets : List Operand → List (List Slot)
  | [] => []
  | value :: rest => value.targets :: operandsTargets rest

def nodesTargets : List Node → List Slot
  | [] => []
  | node :: rest => node.targets ++ nodesTargets rest

def blocksTargets : List (List Node) → List (List Slot)
  | [] => []
  | block :: rest => nodesTargets block :: blocksTargets rest

end

attribute [simp] Operand.targets Call.targets Node.targets operandsTargets nodesTargets
  blocksTargets

def TreePart.targets : TreePart → List Slot
  | .operand value => value.targets
  | .operands values => (operandsTargets values).flatten
  | .steps members => stepsTargets members
  | .node statement => statement.targets
  | .nodes statements => nodesTargets statements
  | .block _ statements => nodesTargets statements
  | .arms conditions blocks => interleave (operandsTargets conditions) (blocksTargets blocks)

theorem MemberChain.mem_stepsTargets_or_eq (chain : MemberChain) :
    chain.valueSlot ∈ stepsTargets chain.steps ∨ chain.valueSlot = chain.source := by
  unfold valueSlot stepsTargets
  cases last : chain.steps.getLast? with
  | none => exact .inr rfl
  | some step => exact .inl (List.mem_map_of_mem (List.mem_of_getLast? last))

/-! ## Slots handed out -/

namespace Variables

variable {frame later : Variables}

variable {slots : List Slot}

/-- The slots were handed out one after the other. -/
structure HandsOut (frame : Variables) (slots : List Slot) (later : Variables) : Prop where
  size_eq : later.size = frame.size + slots.length
  numbers_eq : slots.map UInt16.toNat = List.range' frame.size slots.length

namespace HandsOut

theorem nothing (frame : Variables) : frame.HandsOut [] frame := ⟨rfl, rfl⟩

theorem append {middle first second} (early : frame.HandsOut first middle)
    (late : middle.HandsOut second later) : frame.HandsOut (first ++ second) later where
  size_eq := by
    rw [late.size_eq, early.size_eq, List.length_append, Nat.add_assoc]
  numbers_eq := by
    rw [List.map_append, early.numbers_eq, late.numbers_eq, early.size_eq, List.length_append,
      List.range'_append_1]

theorem nodup (handed : frame.HandsOut slots later) : slots.Nodup := by
  apply List.Nodup.of_map UInt16.toNat
  rw [handed.numbers_eq]
  exact List.nodup_range'

theorem mem_iff (handed : frame.HandsOut slots later) (slot : Slot) :
    slot ∈ slots ↔ frame.size ≤ slot.toNat ∧ slot.toNat < later.size := by
  have inNumbers : slot ∈ slots ↔ slot.toNat ∈ slots.map UInt16.toNat := by
    constructor
    · exact List.mem_map_of_mem
    · intro member
      obtain ⟨other, isMember, same⟩ := List.mem_map.mp member
      rwa [← UInt16.toNat_inj.mp same]
  rw [inNumbers, handed.numbers_eq, List.mem_range'_1, handed.size_eq]

end HandsOut

theorem Takes.handsOut {slot} (takes : frame.Takes slot later) : frame.HandsOut [slot] later :=
  ⟨takes.size_eq, by simp [takes.slot_eq]⟩

end Variables

theorem Reads.handsOut {part before after} (read : Reads part before after) :
    before.frame.HandsOut part.targets after.frame := by
  induction read with
  | visible | literal | string | noOperands | noSteps | ret | noNodes | noAlternative =>
    exact .nothing _
  | access _ _ projected => exact projected
  | binary _ _ added left right => exact (left.append right).append added.takes.handsOut
  | @call invoked _ _ _ _ recorded arguments =>
    rw [recorded.frame_eq]
    cases invoked
    exact arguments
  | moreOperands _ _ head tail => exact head.append tail
  | moreSteps added _ tail => exact added.takes.handsOut.append tail
  | declaration _ declared initial => exact initial.append declared.takes.handsOut
  | assignment _ _ assigned => exact assigned
  | memberAssignment _ _ _ projected assigned => exact projected.append assigned
  | retValue _ returned => exact returned
  | callStatement _ called => exact called
  | conditional _ chained => exact chained
  | loop _ _ tested repeated => exact tested.append repeated
  | sync _ _ _ _ guarded => exact guarded
  | moreNodes _ _ head tail => exact head.append tail
  | block _ inside => exact inside
  | arm _ _ _ tested entered rest => exact (tested.append entered).append rest
  | @alternative otherwise _ _ _ entered =>
    have single : (TreePart.arms [] [otherwise]).targets = nodesTargets otherwise := by
      simp [TreePart.targets, operandsTargets, blocksTargets, interleave]
    rw [single]
    exact entered

theorem Reads.valueSlot_lt {chain : MemberChain} {before after}
    (read : Reads (.steps chain.steps) before after)
    (source : chain.source.toNat < before.frame.size) :
    chain.valueSlot.toNat < after.frame.size := by
  rcases chain.mem_stepsTargets_or_eq with isTarget | isSource
  · exact ((read.handsOut.mem_iff _).mp isTarget).2
  · rw [isSource]
    exact source.trans_le read.grows.size_le

end SlotCompiler
