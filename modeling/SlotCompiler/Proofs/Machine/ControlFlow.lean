import SlotCompiler.Proofs.Machine.Jumps

/-!
Contract: where control can go in a word sequence.
-/

namespace SlotCompiler

variable {instruction : Instruction} {index distance : Nat} {code : List Instruction}

/-- Where control can go from an instruction at an index. -/
def Instruction.successors (instruction : Instruction) (index : Nat) : List Nat :=
  match instruction with
  | .jump _ => (instruction.jumpTarget? index).toList
  | .jumpIfFalse _ _ => (instruction.jumpTarget? index).toList ++ [index + 1]
  | .ret | .retValue _ => []
  | _ => [index + instruction.width]

theorem Instruction.successors_of_isPlain (plain : instruction.isPlain = true) :
    instruction.successors index = [index + instruction.width] := by
  cases instruction with
  | jump | jumpIfFalse | ret | retValue => contradiction
  | _ => rfl

theorem Instruction.successors_jump (near : distance < 0x80000000) :
    (jump (Int32.ofNat distance)).successors index = [index + distance] := by
  show ((jump (Int32.ofNat distance)).jumpTarget? index).toList = _
  rw [jumpTarget?_jump near]
  rfl

theorem Instruction.successors_jump_back (near : distance < 0x80000000) :
    (jump (-Int32.ofNat distance)).successors (index + distance) = [index] := by
  show ((jump (-Int32.ofNat distance)).jumpTarget? (index + distance)).toList = _
  rw [jumpTarget?_jump_back near]
  rfl

theorem Instruction.successors_jumpIfFalse {condition} (near : distance < 0x80000000) :
    (jumpIfFalse condition (Int32.ofNat distance)).successors index =
      [index + distance, index + 1] := by
  show ((jumpIfFalse condition (Int32.ofNat distance)).jumpTarget? index).toList ++ _ = _
  rw [jumpTarget?_jumpIfFalse near]
  rfl

/-- Control that starts at the first word can come to an index. -/
inductive Reaches (words : List Word) : Nat → Prop where
  | start : Reaches words 0
  | step {index next instruction} (here : Reaches words index)
      (decoded : (index, instruction) ∈ (Decoding.ofWords words).items)
      (goes : next ∈ instruction.successors index) : Reaches words next

/-! ## Places of instructions -/

theorem le_of_mem_placed {base} (member : (index, instruction) ∈ placed base code) :
    base ≤ index := by
  obtain ⟨before, after, _, indexEq⟩ := mem_placed_iff.mp member
  omega

theorem lt_of_mem_placed (member : (index, instruction) ∈ placed 0 code) : index < extent code := by
  obtain ⟨before, after, rfl, indexEq⟩ := mem_placed_iff.mp member
  have positive := instruction.width_pos
  rw [extent_append, extent_cons]
  omega

theorem placed_unique {base first second} (firstPlaced : (index, first) ∈ placed base code)
    (secondPlaced : (index, second) ∈ placed base code) : first = second := by
  induction code generalizing base with
  | nil => exact absurd firstPlaced List.not_mem_nil
  | cons head rest ih =>
    have positive := head.width_pos
    rw [placed, List.mem_cons] at firstPlaced secondPlaced
    rcases firstPlaced with firstHead | firstRest
    · rcases secondPlaced with secondHead | secondRest
      · exact (Prod.mk.inj firstHead).2.trans (Prod.mk.inj secondHead).2.symm
      · have late := le_of_mem_placed secondRest
        have early := (Prod.mk.inj firstHead).1
        omega
    · rcases secondPlaced with secondHead | secondRest
      · have late := le_of_mem_placed firstRest
        have early := (Prod.mk.inj secondHead).1
        omega
      · exact ih firstRest secondRest

end SlotCompiler
