import SlotCompiler.Proofs.Machine.ControlFlow
import SlotCompiler.Proofs.Machine.Execution

/-!
Contract: the locks that are held along control paths.
-/

namespace SlotCompiler

variable {instruction : Instruction} {index : Nat} {part code : List Instruction}
  {entry exit : LockStack} {inner : Nat → LockStack}

/-- Locks by the slots that name their objects, the last one taken first. -/
abbrev LockStack := List (HeldLock Slot)

namespace Instruction

def locksAfter (held : LockStack) : Instruction → LockStack
  | .syncAcquire slot exclusive => ⟨slot, exclusive⟩ :: held
  | .syncRelease count => held.drop count.toNat
  | _ => held

/-- The instruction ends the function. -/
def isReturn : Instruction → Bool
  | .ret | .retValue _ => true
  | _ => false

def Permits (held : LockStack) : Instruction → Prop
  | .syncRelease count => count.toNat ≤ held.length
  | .ret | .retValue _ => held = []
  | _ => True

theorem locksAfter_of_isComputing (computing : instruction.isComputing = true) (held : LockStack) :
    instruction.locksAfter held = held ∧ instruction.Permits held := by
  cases instruction with
  | jump | jumpIfFalse | ret | retValue | syncAcquire | syncRelease => contradiction
  | _ => exact ⟨rfl, trivial⟩

end Instruction

/-- Control that starts at the first word without a lock can come to an index
with these locks. -/
inductive ReachesHolding (words : List Word) : Nat → LockStack → Prop where
  | start : ReachesHolding words 0 []
  | step {index next held instruction} (here : ReachesHolding words index held)
      (decoded : (index, instruction) ∈ (Decoding.ofWords words).items)
      (goes : next ∈ instruction.successors index) :
      ReachesHolding words next (instruction.locksAfter held)

theorem reaches_iff_holding {words} :
    Reaches words index ↔ ∃ held, ReachesHolding words index held := by
  constructor
  · intro reaches
    induction reaches with
    | start => exact ⟨[], .start⟩
    | step _ decoded goes holding =>
      obtain ⟨held, holding⟩ := holding
      exact ⟨_, holding.step decoded goes⟩
  · rintro ⟨held, holding⟩
    induction holding with
    | start => exact .start
    | step _ decoded goes reaches => exact reaches.step decoded goes

/-! ## Locks by place -/

/-- With locks given to every offset of a sequence: the instruction is permitted
where it stands, and control goes to offsets with the locks it then holds,
wherever the sequence stands. -/
structure Keeps (held : Nat → LockStack) (limit : Nat) (placement : Nat × Instruction) : Prop where
  permits : placement.2.Permits (held placement.1)
  goes : ∀ base, ∀ next ∈ placement.2.successors (base + placement.1),
    ∃ target, next = base + target ∧ target ≤ limit ∧
      held target = placement.2.locksAfter (held placement.1)

def AllKeep (held : Nat → LockStack) (limit index : Nat) (part : List Instruction) : Prop :=
  ∀ placement ∈ placed index part, Keeps held limit placement

/-- A sequence that is entered and left with certain locks, with the locks of
every place in it. -/
structure Carries (code : List Instruction) (entry exit : LockStack) (held : Nat → LockStack) :
    Prop where
  start : held 0 = entry
  finish : held (extent code) = exit
  keeps : AllKeep held (extent code) 0 code

def Continues (held : Nat → LockStack) (index : Nat) (part : List Instruction)
    (inner : Nat → LockStack) : Prop :=
  ∀ offset ≤ extent part, held (index + offset) = inner offset

theorem allKeep_append {held : Nat → LockStack} {limit first second} :
    AllKeep held limit index (first ++ second) ↔
      AllKeep held limit index first ∧ AllKeep held limit (index + extent first) second := by
  unfold AllKeep
  rw [placed_append, List.forall_mem_append]

theorem allKeep_cons {held : Nat → LockStack} {limit rest} :
    AllKeep held limit index (instruction :: rest) ↔
      Keeps held limit (index, instruction) ∧
        AllKeep held limit (index + instruction.width) rest := by
  unfold AllKeep
  rw [placed, List.forall_mem_cons]

theorem allKeep_nil (held : Nat → LockStack) (limit index : Nat) : AllKeep held limit index [] :=
  fun _ member => absurd member List.not_mem_nil

theorem Carries.keeps_within {held : Nat → LockStack} {limit}
    (carries : Carries part entry exit inner) (continues : Continues held index part inner)
    (within : index + extent part ≤ limit) : AllKeep held limit index part := by
  rintro ⟨place, instruction⟩ member
  obtain ⟨early, late, partEq, placeEq⟩ := mem_placed_iff.mp member
  have inPart : (extent early, instruction) ∈ placed 0 part :=
    mem_placed_iff.mpr ⟨early, late, partEq, (Nat.zero_add _).symm⟩
  have earlyLe : extent early ≤ extent part := by
    rw [partEq, extent_append]
    omega
  have heldEq : held place = inner (extent early) := by
    rw [placeEq]
    exact continues _ earlyLe
  have keeps := carries.keeps _ inPart
  refine ⟨?_, fun base next goes => ?_⟩
  · show instruction.Permits (held place)
    rw [heldEq]
    exact keeps.permits
  · rw [placeEq, ← Nat.add_assoc] at goes
    obtain ⟨target, nextEq, targetLe, lands⟩ := keeps.goes (base + index) next goes
    refine ⟨index + target, by omega, by omega, ?_⟩
    rw [continues target targetLe, lands, ← heldEq]

/-! ## Joining sequences -/

def overlay (outer : Nat → LockStack) (index : Nat) (part : List Instruction)
    (inner : Nat → LockStack) (offset : Nat) : LockStack :=
  if index ≤ offset ∧ offset ≤ index + extent part then inner (offset - index) else outer offset

theorem continues_overlay (outer : Nat → LockStack) (index : Nat) (part : List Instruction)
    (inner : Nat → LockStack) : Continues (overlay outer index part inner) index part inner := by
  intro offset offsetLe
  rw [overlay, if_pos (by omega), Nat.add_sub_cancel_left]

theorem overlay_of_outside {outer : Nat → LockStack} {offset}
    (outside : offset < index ∨ index + extent part < offset) :
    overlay outer index part inner offset = outer offset := by
  rw [overlay, if_neg (by omega)]

theorem Carries.overlay_eq {outer : Nat → LockStack} (carries : Carries part entry entry inner)
    {offset} (around : offset ≤ index ∨ index + extent part ≤ offset)
    (outerEq : outer offset = entry) : overlay outer index part inner offset = entry := by
  by_cases atStart : offset = index
  · rw [atStart]
    exact (continues_overlay outer index part inner 0 (Nat.zero_le _)).trans carries.start
  by_cases atEnd : offset = index + extent part
  · rw [atEnd]
    exact (continues_overlay outer index part inner _ (le_refl _)).trans carries.finish
  · rw [overlay_of_outside (by omega), outerEq]

theorem Carries.append {first second middle} {early late : Nat → LockStack}
    (firstCarries : Carries first entry middle early)
    (secondCarries : Carries second middle exit late) :
    ∃ held, Carries (first ++ second) entry exit held ∧ Continues held 0 first early ∧
      Continues held (extent first) second late := by
  let held : Nat → LockStack := fun offset =>
    if offset < extent first then early offset else late (offset - extent first)
  have inFirst : Continues held 0 first early := by
    intro offset offsetLe
    simp only [held, Nat.zero_add]
    split
    · rfl
    · have atEnd : offset = extent first := by omega
      rw [atEnd, Nat.sub_self, secondCarries.start, firstCarries.finish]
  have inSecond : Continues held (extent first) second late := by
    intro offset _
    simp only [held]
    rw [if_neg (by omega), Nat.add_sub_cancel_left]
  refine ⟨held, ⟨?_, ?_, ?_⟩, inFirst, inSecond⟩
  · have atStart := inFirst 0 (Nat.zero_le _)
    rw [atStart, firstCarries.start]
  · rw [extent_append, inSecond _ (le_refl _), secondCarries.finish]
  · refine allKeep_append.mpr ⟨firstCarries.keeps_within inFirst ?_, ?_⟩
    · rw [extent_append]
      omega
    · rw [Nat.zero_add]
      exact secondCarries.keeps_within inSecond (extent_append ..).ge

theorem carries_nil (entry : LockStack) : Carries [] entry entry (fun _ => entry) :=
  ⟨rfl, rfl, allKeep_nil _ _ _⟩

theorem carries_of_plain {instruction : Instruction} (plain : instruction.isPlain = true) {entry}
    (permits : instruction.Permits entry) :
    ∃ held, Carries [instruction] entry (instruction.locksAfter entry) held := by
  let held : Nat → LockStack := fun offset =>
    if offset = 0 then entry else instruction.locksAfter entry
  have extentEq : extent [instruction] = instruction.width := by
    rw [extent_cons, extent_nil, Nat.add_zero]
  have atEnd : held instruction.width = instruction.locksAfter entry :=
    if_neg instruction.width_pos.ne'
  refine ⟨held, rfl, by rw [extentEq, atEnd], allKeep_cons.mpr ⟨⟨permits, ?_⟩, allKeep_nil _ _ _⟩⟩
  intro base next goes
  rw [Instruction.successors_of_isPlain plain, List.mem_singleton] at goes
  exact ⟨instruction.width, goes, extentEq.ge, atEnd⟩

theorem carries_of_final {instruction : Instruction} {entry} (exit : LockStack)
    (final : ∀ index, instruction.successors index = []) (permits : instruction.Permits entry) :
    ∃ held, Carries [instruction] entry exit held := by
  let held : Nat → LockStack := fun offset => if offset = 0 then entry else exit
  have extentEq : extent [instruction] = instruction.width := by
    rw [extent_cons, extent_nil, Nat.add_zero]
  refine ⟨held, rfl, ?_, allKeep_cons.mpr ⟨⟨permits, ?_⟩, allKeep_nil _ _ _⟩⟩
  · rw [extentEq]
    exact if_neg instruction.width_pos.ne'
  · intro base next goes
    rw [final] at goes
    exact absurd goes List.not_mem_nil

theorem carries_of_computing (computing : ∀ instruction ∈ code, instruction.isComputing = true)
    (entry : LockStack) : Carries code entry entry (fun _ => entry) := by
  refine ⟨rfl, rfl, ?_⟩
  rintro ⟨place, instruction⟩ member
  obtain ⟨before, after, rfl, placeEq⟩ := mem_placed_iff.mp member
  have isComputing := computing instruction (List.mem_append_right _ List.mem_cons_self)
  obtain ⟨kept, permits⟩ := instruction.locksAfter_of_isComputing isComputing entry
  refine ⟨permits, fun base next goes => ?_⟩
  rw [Instruction.successors_of_isPlain (Instruction.isPlain_of_isComputing isComputing),
    List.mem_singleton] at goes
  refine ⟨place + instruction.width, by omega, ?_, kept.symm⟩
  rw [extent_append, extent_cons]
  omega

/-! ## Jumps -/

section Jumps

variable {held : Nat → LockStack} {limit offset distance : Nat}

theorem keeps_jump (near : distance < 0x80000000) (within : offset + distance ≤ limit)
    (there : held (offset + distance) = held offset) :
    Keeps held limit (offset, .jump (Int32.ofNat distance)) := by
  refine ⟨trivial, fun base next goes => ?_⟩
  rw [Instruction.successors_jump near, List.mem_singleton, Nat.add_assoc] at goes
  exact ⟨_, goes, within, there⟩

theorem keeps_jump_back (near : distance < 0x80000000) (there : held 0 = held distance) :
    Keeps held limit (distance, .jump (-Int32.ofNat distance)) := by
  refine ⟨trivial, fun base next goes => ?_⟩
  rw [Instruction.successors_jump_back near, List.mem_singleton] at goes
  exact ⟨0, goes, Nat.zero_le _, there⟩

theorem keeps_jumpIfFalse {condition} (near : distance < 0x80000000) (ahead : 0 < distance)
    (within : offset + distance ≤ limit) (there : held (offset + distance) = held offset)
    (next : held (offset + 1) = held offset) :
    Keeps held limit (offset, .jumpIfFalse condition (Int32.ofNat distance)) := by
  refine ⟨trivial, fun base index goes => ?_⟩
  rw [Instruction.successors_jumpIfFalse near, List.mem_pair, Nat.add_assoc, Nat.add_assoc] at goes
  rcases goes with jumps | falls
  · exact ⟨_, jumps, within, there⟩
  · exact ⟨_, falls, by omega, next⟩

end Jumps

/-! ## Reached places -/

theorem Carries.held_eq {held : Nat → LockStack} (carries : Carries code [] exit held) {stack}
    (holding : ReachesHolding (encode code) index stack) : held index = stack := by
  induction holding with
  | start => exact carries.start
  | @step index next stack instruction _ decoded goes heldEq =>
    rw [Decoding.ofWords_encode] at decoded
    have keeps := carries.keeps _ (List.mem_toArray.mp decoded)
    rw [← Nat.zero_add index] at goes
    obtain ⟨target, nextEq, _, lands⟩ := keeps.goes 0 next goes
    rw [nextEq, Nat.zero_add, lands]
    exact congrArg (Instruction.locksAfter · instruction) heldEq

theorem Carries.permits_of_reaches {held : Nat → LockStack} (carries : Carries code [] exit held)
    {stack} (holding : ReachesHolding (encode code) index stack)
    (decoded : (index, instruction) ∈ (Decoding.ofWords (encode code)).items) :
    instruction.Permits stack := by
  rw [Decoding.ofWords_encode] at decoded
  have keeps := carries.keeps _ (List.mem_toArray.mp decoded)
  rw [← carries.held_eq holding]
  exact keeps.permits

end SlotCompiler
