import SlotCompiler.Proofs.Machine.Tracking

/-!
Contract: the slots that instructions read and write.
-/

namespace SlotCompiler

variable {instruction : Instruction} {dst : Slot} {code : List Instruction}

namespace Instruction

def reads : Instruction → List Slot
  | .move _ src => [src]
  | .jumpIfFalse condition _ => [condition]
  | .retValue src => [src]
  | .binary _ _ lhs rhs => [lhs, rhs]
  | .memberLoad _ object _ => [object]
  | .memberStore object _ src => [object, src]
  | .syncAcquire slot _ => [slot]
  | .nop | .loadImmediate _ _ | .loadConstant _ _ | .jump _ | .ret | .syncRelease _ => []

def destination? : Instruction → Option Slot
  | .loadImmediate dst _ => some dst
  | .loadConstant dst _ => some dst
  | .move dst _ => some dst
  | .binary _ dst _ _ => some dst
  | .memberLoad dst _ _ => some dst
  | .nop | .jump _ | .jumpIfFalse _ _ | .ret | .retValue _ | .memberStore _ _ _
  | .syncAcquire _ _ | .syncRelease _ => none

end Instruction

/-! ## Slots with a value -/

def Tracker.written : Tracker (List Slot) where
  start := []
  after instruction slots := instruction.destination?.toList ++ slots
  after_jump _ _ := rfl
  after_jumpIfFalse _ _ _ := rfl

def HasValue (parameters : Nat) (written : List Slot) (slot : Slot) : Prop :=
  slot.toNat < parameters ∨ slot ∈ written

def Monitor.readsWritten (parameters : Nat) : Monitor (List Slot) where
  toTracker := .written
  permits instruction written := ∀ slot ∈ instruction.reads, HasValue parameters written slot
  permits_jump _ _ _ member := absurd member List.not_mem_nil

def Filled (parameters : Nat) (known : Slot → Prop) (written : List Slot) : Prop :=
  ∀ slot, known slot → HasValue parameters written slot

section Filled

variable {parameters : Nat} {known : Slot → Prop} {written : List Slot}

section

variable (filled : Filled parameters known written)

include filled

theorem Filled.mono {fewer : Slot → Prop} (within : ∀ slot, fewer slot → known slot) :
    Filled parameters fewer written :=
  fun slot isKnown => filled slot (within slot isKnown)

theorem Filled.after (instruction : Instruction) :
    Filled parameters known (Tracker.written.after instruction written) :=
  fun slot isKnown => (filled slot isKnown).imp_right (List.mem_append_right _)

theorem Filled.after_writing (writes : instruction.destination? = some dst) :
    Filled parameters (fun slot => known slot ∨ slot = dst)
      (Tracker.written.after instruction written) := by
  rintro slot (isKnown | rfl)
  · exact filled.after instruction slot isKnown
  · right
    simp [Tracker.written, writes]

theorem Filled.permits (reads : ∀ slot ∈ instruction.reads, known slot) :
    (Monitor.readsWritten parameters).permits instruction written :=
  fun slot member => filled slot (reads slot member)

end

theorem upholds_writing {instruction : Instruction} (plain : instruction.isPlain = true) {dst}
    (writes : instruction.destination? = some dst)
    (reads : ∀ slot ∈ instruction.reads, known slot) :
    (Monitor.readsWritten parameters).Upholds (Filled parameters known) [instruction]
      (Filled parameters fun slot => known slot ∨ slot = dst) :=
  Monitor.upholds_of_plain plain fun _ filled => ⟨filled.permits reads, filled.after_writing writes⟩

theorem upholds_reading (reads : ∀ instruction ∈ code,
      instruction.isPlain = true ∧ ∀ slot ∈ instruction.reads, known slot) :
    (Monitor.readsWritten parameters).Upholds (Filled parameters known) code
      (Filled parameters known) :=
  Monitor.upholds_of_forall_plain fun instruction member =>
    ⟨(reads instruction member).1,
      fun _ filled => ⟨filled.permits (reads instruction member).2, filled.after instruction⟩⟩

end Filled

/-! ## Instructions that write a slot -/

def writes (code : List Instruction) (slot : Slot) : Nat :=
  code.countP fun instruction => instruction.destination? == some slot

@[simp] theorem writes_nil (slot : Slot) : writes [] slot = 0 := rfl

@[simp] theorem writes_append (first second : List Instruction) (slot : Slot) :
    writes (first ++ second) slot = writes first slot + writes second slot :=
  List.countP_append

theorem writes_cons (instruction : Instruction) (rest : List Instruction) (slot : Slot) :
    writes (instruction :: rest) slot = writes [instruction] slot + writes rest slot :=
  writes_append [instruction] rest slot

theorem writes_single (writesDst : instruction.destination? = some dst) (slot : Slot) :
    writes [instruction] slot = if slot = dst then 1 else 0 := by
  rw [writes, List.countP_singleton, writesDst]
  by_cases same : slot = dst
  · simp [same]
  · simp [same, Ne.symm same]

theorem writes_eq_zero (silent : ∀ instruction ∈ code, instruction.destination? = none)
    (slot : Slot) : writes code slot = 0 := by
  refine List.countP_eq_zero.mpr fun instruction member => ?_
  simp [silent instruction member]

theorem writes_pos_iff {slot} :
    0 < writes code slot ↔ ∃ instruction ∈ code, instruction.destination? = some slot := by
  simp [writes, List.countP_pos_iff]

theorem length_filter_placed (base : Nat) (code : List Instruction) (slot : Slot) :
    ((placed base code).filter fun placement =>
      placement.2.destination? == some slot).length = writes code slot := by
  induction code generalizing base with
  | nil => rfl
  | cons instruction rest ih =>
    rw [placed, writes_cons, ← ih (base + instruction.width), List.filter_cons]
    by_cases isWriter : instruction.destination? = some slot
    · simp [writes, isWriter, Nat.add_comm]
    · simp [writes, isWriter]

end SlotCompiler
