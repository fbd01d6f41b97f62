import SlotCompiler.Proofs.Machine.Encoding

/-!
Contract: where the jumps of an instruction sequence go.
-/

namespace SlotCompiler

variable {instruction : Instruction} {index : Nat} {code : List Instruction}

namespace Instruction

variable {distance : Nat}

/-- The instruction may go elsewhere than to the next one. -/
def isJump : Instruction → Bool
  | .jump _ => true
  | .jumpIfFalse _ _ => true
  | _ => false

def isPlain : Instruction → Bool
  | .jump _ | .jumpIfFalse _ _ | .ret | .retValue _ => false
  | _ => true

/-- The instruction goes on to the next one and leaves locks alone. -/
def isComputing : Instruction → Bool
  | .nop | .loadImmediate _ _ | .loadConstant _ _ | .move _ _ | .binary _ _ _ _
  | .memberLoad _ _ _ | .memberStore _ _ _ => true
  | _ => false

theorem isPlain_of_isComputing (computing : instruction.isComputing = true) :
    instruction.isPlain = true := by
  cases instruction with
  | jump | jumpIfFalse | ret | retValue => contradiction
  | _ => rfl

theorem isJump_eq_false_of_isPlain (plain : instruction.isPlain = true) :
    instruction.isJump = false := by
  cases instruction with
  | jump | jumpIfFalse => contradiction
  | _ => rfl

private theorem target_forward (near : distance < 0x80000000) :
    (if (index : Int) + (Int32.ofNat distance).toInt < 0 then none
      else some ((index : Int) + (Int32.ofNat distance).toInt).toNat) =
      some (index + distance) := by
  rw [Int32.toInt_ofNat_of_lt near, if_neg (by omega)]
  congr 1

theorem jumpTarget?_jump (near : distance < 0x80000000) :
    (jump (Int32.ofNat distance)).jumpTarget? index = some (index + distance) :=
  target_forward near

theorem jumpTarget?_jumpIfFalse {condition} (near : distance < 0x80000000) :
    (jumpIfFalse condition (Int32.ofNat distance)).jumpTarget? index = some (index + distance) :=
  target_forward near

theorem jumpTarget?_jump_back {index distance} (near : distance < 0x80000000) :
    (jump (-Int32.ofNat distance)).jumpTarget? (index + distance) = some index := by
  have offsetEq : (-Int32.ofNat distance).toInt = -(distance : Int) := by
    rw [Int32.toInt_neg, Int32.toInt_ofNat_of_lt near, Int.bmod_eq_of_le] <;> omega
  show (if ((index + distance : Nat) : Int) + (-Int32.ofNat distance).toInt < 0 then none
    else some (((index + distance : Nat) : Int) + (-Int32.ofNat distance).toInt).toNat) = some index
  rw [offsetEq, if_neg (by omega)]
  congr 1
  omega

end Instruction

/-! ## Boundaries -/

def Boundary (code : List Instruction) (index : Nat) : Prop :=
  ∃ before after, code = before ++ after ∧ extent before = index

theorem boundary_start (code : List Instruction) : Boundary code 0 := ⟨[], code, rfl, rfl⟩

theorem boundary_end (code : List Instruction) : Boundary code (extent code) :=
  ⟨code, [], (List.append_nil code).symm, rfl⟩

theorem Boundary.embed (boundary : Boundary code index) (before after : List Instruction) :
    Boundary (before ++ code ++ after) (extent before + index) := by
  obtain ⟨early, late, codeEq, extentEq⟩ := boundary
  refine ⟨before ++ early, late ++ after, ?_, ?_⟩
  · rw [codeEq]
    simp only [List.append_assoc]
  · rw [extent_append, extentEq]

theorem Boundary.placed_or_end (boundary : Boundary code index) :
    (∃ instruction, (index, instruction) ∈ placed 0 code) ∨ index = extent code := by
  obtain ⟨before, after, rfl, rfl⟩ := boundary
  cases after with
  | nil =>
    right
    rw [List.append_nil]
  | cons instruction rest =>
    left
    exact ⟨instruction, mem_placed_iff.mpr ⟨before, rest, rfl, (Nat.zero_add _).symm⟩⟩

/-! ## Jumps within a sequence -/

def LandsIn (code : List Instruction) (placement : Nat × Instruction) : Prop :=
  placement.2.isJump = true → ∀ base, ∃ target,
    placement.2.jumpTarget? (base + placement.1) = some (base + target) ∧ Boundary code target

def AllLandIn (code : List Instruction) (index : Nat) (part : List Instruction) : Prop :=
  ∀ placement ∈ placed index part, LandsIn code placement

def JumpsLand (code : List Instruction) : Prop := AllLandIn code 0 code

theorem allLandIn_append {first second} :
    AllLandIn code index (first ++ second) ↔
      AllLandIn code index first ∧ AllLandIn code (index + extent first) second := by
  unfold AllLandIn
  rw [placed_append, List.forall_mem_append]

theorem allLandIn_cons {rest} :
    AllLandIn code index (instruction :: rest) ↔
      LandsIn code (index, instruction) ∧ AllLandIn code (index + instruction.width) rest := by
  unfold AllLandIn
  rw [placed, List.forall_mem_cons]

theorem allLandIn_of_straight {part}
    (straight : ∀ instruction ∈ part, instruction.isJump = false) : AllLandIn code index part := by
  rintro ⟨place, instruction⟩ member isJump
  obtain ⟨before, after, rfl, _⟩ := mem_placed_iff.mp member
  rw [straight instruction (List.mem_append_right _ List.mem_cons_self)] at isJump
  contradiction

theorem JumpsLand.embed {part} (land : JumpsLand part) (before after : List Instruction) :
    AllLandIn (before ++ part ++ after) (extent before) part := by
  rintro ⟨place, instruction⟩ member isJump base
  obtain ⟨early, late, partEq, placeEq⟩ := mem_placed_iff.mp member
  have inPart : (extent early, instruction) ∈ placed 0 part :=
    mem_placed_iff.mpr ⟨early, late, partEq, (Nat.zero_add _).symm⟩
  obtain ⟨target, targetEq, boundary⟩ := land _ inPart isJump (base + extent before)
  refine ⟨extent before + target, ?_, boundary.embed before after⟩
  rw [show base + place = base + extent before + extent early by omega, ← Nat.add_assoc base]
  exact targetEq

theorem jumpsLand_of_straight (straight : ∀ instruction ∈ code, instruction.isJump = false) :
    JumpsLand code :=
  allLandIn_of_straight straight

theorem jumpsLand_of_plain (plain : ∀ instruction ∈ code, instruction.isPlain = true) :
    JumpsLand code :=
  jumpsLand_of_straight fun instruction member =>
    Instruction.isJump_eq_false_of_isPlain (plain instruction member)

theorem JumpsLand.append {first second} (early : JumpsLand first)
    (late : JumpsLand second) : JumpsLand (first ++ second) := by
  refine allLandIn_append.mpr ⟨?_, ?_⟩
  · have embedded := early.embed [] second
    simpa only [List.nil_append, extent_nil] using embedded
  · have embedded := late.embed first []
    simpa only [List.append_nil, Nat.zero_add] using embedded

end SlotCompiler
