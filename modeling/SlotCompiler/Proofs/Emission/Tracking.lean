import SlotCompiler.Proofs.Emission.Code
import SlotCompiler.Proofs.Machine.Tracking

/-!
Contract: control paths through loops and arms.
-/

namespace SlotCompiler

/-- A loop in a whole, cut at each of its parts. -/
structure LoopStands (slot : Slot) (condition body before rest whole : List Instruction) :
    Prop where
  atCondition : whole = before ++ condition ++
    (.jumpIfFalse slot (Int32.ofNat (extent body + 2)) :: body ++
      .jump (-Int32.ofNat (extent condition + 1 + extent body)) :: rest)
  atExit : whole = (before ++ condition) ++ .jumpIfFalse slot (Int32.ofNat (extent body + 2)) ::
    (body ++ .jump (-Int32.ofNat (extent condition + 1 + extent body)) :: rest)
  atBody : whole = (before ++ condition ++ [.jumpIfFalse slot (Int32.ofNat (extent body + 2))]) ++
    body ++ .jump (-Int32.ofNat (extent condition + 1 + extent body)) :: rest
  atBack : whole =
    (before ++ condition ++ .jumpIfFalse slot (Int32.ofNat (extent body + 2)) :: body) ++
      .jump (-Int32.ofNat (extent condition + 1 + extent body)) :: rest

theorem loopStands (slot : Slot) (condition body before rest : List Instruction) :
    LoopStands slot condition body before rest
      (before ++ loopCode slot condition body ++ rest) := by
  constructor <;> simp [loopCode]

/-- An arm in a whole, cut at each of its parts. -/
structure ArmStands (slot : Slot) (condition block others before rest whole : List Instruction) :
    Prop where
  atCondition : whole = before ++ condition ++
    (.jumpIfFalse slot (Int32.ofNat (extent block + 2)) :: block ++
      .jump (Int32.ofNat (extent others + 1)) :: others ++ rest)
  atSkip : whole = (before ++ condition) ++ .jumpIfFalse slot (Int32.ofNat (extent block + 2)) ::
    (block ++ .jump (Int32.ofNat (extent others + 1)) :: others ++ rest)
  atBlock : whole = (before ++ condition ++ [.jumpIfFalse slot (Int32.ofNat (extent block + 2))]) ++
    block ++ (.jump (Int32.ofNat (extent others + 1)) :: others ++ rest)
  atExit : whole =
    (before ++ condition ++ .jumpIfFalse slot (Int32.ofNat (extent block + 2)) :: block) ++
      .jump (Int32.ofNat (extent others + 1)) :: (others ++ rest)
  atOthers : whole =
    (before ++ condition ++ .jumpIfFalse slot (Int32.ofNat (extent block + 2)) :: block ++
      [.jump (Int32.ofNat (extent others + 1))]) ++ others ++ rest

theorem armStands (slot : Slot) (condition block others before rest : List Instruction) :
    ArmStands slot condition block others before rest
      (before ++ armCode slot condition block others ++ rest) := by
  constructor <;> simp [armCode]

section Sequences

variable {whole before rest : List Instruction}

variable {State : Type} {slot : Slot} {condition body block others : List Instruction}

namespace Monitor

variable {monitor : Monitor State} {pre tested inner post : State → Prop}

theorem upholds_loopCode (backNear : extent condition + 1 + extent body < jumpReach)
    (exitNear : extent body + 2 < jumpReach) (tests : monitor.Upholds pre condition tested)
    (chooses : ∀ state, tested state →
      (∀ offset, monitor.permits (.jumpIfFalse slot offset) state) ∧ inner state ∧ post state)
    (repeats : monitor.Upholds inner body pre) :
    monitor.Upholds pre (loopCode slot condition body) post := by
  intro before rest stops steps onward
  have stands := loopStands slot condition body before rest
  -- A round takes steps, so the next round may be taken as safe for fewer.
  induction steps with
  | zero => exact fun _ _ => trivial
  | succ steps ih =>
    have nextRound := ih fun state left => (onward state left).pred
    intro state entered
    refine tests.safe stands.atCondition rfl (fun state isTested => ?_) entered
    obtain ⟨permitted, enters, leaves⟩ := chooses state isTested
    refine safe_of_placed stands.atExit (extent_append ..).symm (permitted _) fun next goes => ?_
    rw [monitor.after_jumpIfFalse]
    rw [Instruction.successors_jumpIfFalse exitNear, List.mem_pair] at goes
    rcases goes with rfl | rfl
    · have left := (onward state leaves).pred
      rwa [extent_loopCode, ← Nat.add_assoc] at left
    · refine repeats.safe stands.atBody (by simp [Nat.add_assoc]) (fun state repeated => ?_) enters
      cases steps with
      | zero => exact trivial
      | succ steps =>
        refine safe_of_placed stands.atBack (by simp [Nat.add_assoc, Nat.add_comm 1])
          (monitor.permits_jump _ _) fun next goes => ?_
        have backEq : extent before + extent condition + 1 + extent body =
            extent before + (extent condition + 1 + extent body) := by
          omega
        rw [backEq, Instruction.successors_jump_back backNear, List.mem_singleton] at goes
        rw [monitor.after_jump, goes]
        exact (nextRound state repeated).pred

theorem upholds_armCode {skipped : State → Prop} (skipNear : extent block + 2 < jumpReach)
    (exitNear : extent others + 1 < jumpReach) (tests : monitor.Upholds pre condition tested)
    (chooses : ∀ state, tested state →
      (∀ offset, monitor.permits (.jumpIfFalse slot offset) state) ∧ inner state ∧ skipped state)
    (takes : monitor.Upholds inner block post) (skips : monitor.Upholds skipped others post) :
    monitor.Upholds pre (armCode slot condition block others) post := by
  intro before rest stops steps onward state entered
  have stands := armStands slot condition block others before rest
  have endEq : extent before + extent (armCode slot condition block others) =
      extent before + extent condition + 1 + extent block + (extent others + 1) := by
    rw [extent_armCode]
    omega
  rw [endEq] at onward
  refine tests.safe stands.atCondition rfl (fun state isTested => ?_) entered
  cases steps with
  | zero => exact trivial
  | succ steps =>
    obtain ⟨permitted, enters, passes⟩ := chooses state isTested
    refine safe_of_placed stands.atSkip (extent_append ..).symm (permitted _) fun next goes => ?_
    rw [monitor.after_jumpIfFalse]
    rw [Instruction.successors_jumpIfFalse skipNear, List.mem_pair] at goes
    rcases goes with rfl | rfl
    · refine skips.safe stands.atOthers (by simp; omega) (fun state left => ?_) passes
      have atEnd : extent before + extent condition + (extent block + 2) + extent others =
          extent before + extent condition + 1 + extent block + (extent others + 1) := by
        omega
      rw [atEnd]
      exact (onward state left).pred
    · refine takes.safe stands.atBlock (by simp [Nat.add_assoc]) (fun state left => ?_) enters
      cases steps with
      | zero => exact trivial
      | succ steps =>
        refine safe_of_placed stands.atExit (by simp [Nat.add_assoc, Nat.add_comm 1])
          (monitor.permits_jump _ _) fun next goes => ?_
        rw [Instruction.successors_jump exitNear, List.mem_singleton] at goes
        rw [monitor.after_jump, goes]
        exact (onward state left).pred.pred

end Monitor

theorem confines_loopCode {leaves} (test : Confines condition True)
    (repeated : Confines body leaves) (backNear : extent condition + 1 + extent body < jumpReach)
    (exitNear : extent body + 2 < jumpReach) : Confines (loopCode slot condition body) True :=
  Monitor.upholds_loopCode backNear exitNear test
    (fun _ _ => ⟨fun _ => trivial, trivial, trivial⟩) (repeated.mono fun _ => trivial)

theorem confines_armCode {leaves restLeaves} (test : Confines condition True)
    (taken : Confines block leaves) (skipped : Confines others restLeaves)
    (skipNear : extent block + 2 < jumpReach) (exitNear : extent others + 1 < jumpReach) :
    Confines (armCode slot condition block others) (leaves ∨ restLeaves) :=
  Monitor.upholds_armCode skipNear exitNear test
    (fun _ _ => ⟨fun _ => trivial, trivial, trivial⟩) (taken.mono .inl) (skipped.mono .inr)

/-! ## Ways through -/

section Paths

variable {whole before rest : List Instruction}

variable {tracker : Tracker State} {entry between exit : State}

/-- After a condition, its jump goes to either side. -/
theorem Tracker.Passes.branch {distance next} (tests : tracker.Passes condition entry between)
    (near : distance < jumpReach)
    (wholeEq : whole = before ++ condition ++ .jumpIfFalse slot (Int32.ofNat distance) :: rest)
    (goes : next = extent before + extent condition + distance ∨
      next = extent before + extent condition + 1) :
    tracker.Path whole (extent before, entry) (next, between) := by
  have isNext : next ∈ (Instruction.jumpIfFalse slot (Int32.ofNat distance)).successors
      (extent before + extent condition) := by
    rwa [Instruction.successors_jumpIfFalse near, List.mem_pair]
  have branches : tracker.Path whole (_, between) (next, _) :=
    path_of_placed wholeEq (extent_append ..).symm isNext
  rw [tracker.after_jumpIfFalse] at branches
  exact (tests.path wholeEq rfl).trans branches

theorem Tracker.passes_loopCode (tests : tracker.Passes condition entry exit)
    (exitNear : extent body + 2 < jumpReach) :
    tracker.Passes (loopCode slot condition body) entry exit := by
  intro before rest
  have stands := loopStands slot condition body before rest
  have leaves := tests.branch exitNear stands.atExit (.inl rfl)
  rwa [Nat.add_assoc, ← extent_loopCode slot] at leaves

theorem Tracker.passes_armCode_taken (tests : tracker.Passes condition entry between)
    (skipNear : extent block + 2 < jumpReach) (exitNear : extent others + 1 < jumpReach)
    (takes : tracker.Passes block between exit) :
    tracker.Passes (armCode slot condition block others) entry exit := by
  intro before rest
  have stands := armStands slot condition block others before rest
  have through := takes.path stands.atBlock
    (show extent before + extent condition + 1 = _ by simp [Nat.add_assoc])
  have isNext : extent before + extent (armCode slot condition block others) ∈
      (Instruction.jump (Int32.ofNat (extent others + 1))).successors
        (extent before + extent condition + 1 + extent block) := by
    rw [Instruction.successors_jump exitNear, List.mem_singleton, extent_armCode]
    omega
  have leaves : tracker.Path _ (_, exit) (_, _) := Tracker.path_of_placed stands.atExit
    (by simp [Nat.add_assoc, Nat.add_comm 1]) isNext
  rw [tracker.after_jump] at leaves
  exact ((tests.branch skipNear stands.atSkip (.inr rfl)).trans through).trans leaves

theorem Tracker.passes_armCode_skipped (tests : tracker.Passes condition entry between)
    (skipNear : extent block + 2 < jumpReach) (skips : tracker.Passes others between exit) :
    tracker.Passes (armCode slot condition block others) entry exit := by
  intro before rest
  have stands := armStands slot condition block others before rest
  have through := skips.path stands.atOthers
    (show extent before + extent condition + (extent block + 2) = _ by simp; omega)
  have endEq : extent before + extent condition + (extent block + 2) + extent others =
      extent before + extent (armCode slot condition block others) := by
    rw [extent_armCode]
    omega
  rw [endEq] at through
  exact (tests.branch skipNear stands.atSkip (.inl rfl)).trans through

end Paths

namespace Monitor

variable {monitor : Monitor State} {entry between : State}

theorem breaks_loopCode (breaks : monitor.Breaks body between)
    (exitNear : extent body + 2 < jumpReach) (tests : monitor.Passes condition entry between) :
    monitor.Breaks (loopCode slot condition body) entry := by
  intro before rest
  have stands := loopStands slot condition body before rest
  exact .of_path (tests.branch exitNear stands.atExit (.inr rfl))
    (breaks.offends stands.atBody (by simp [Nat.add_assoc]))

theorem breaks_armCode_taken (breaks : monitor.Breaks block between)
    (skipNear : extent block + 2 < jumpReach) (tests : monitor.Passes condition entry between) :
    monitor.Breaks (armCode slot condition block others) entry := by
  intro before rest
  have stands := armStands slot condition block others before rest
  exact .of_path (tests.branch skipNear stands.atSkip (.inr rfl))
    (breaks.offends stands.atBlock (by simp [Nat.add_assoc]))

theorem breaks_armCode_skipped (breaks : monitor.Breaks others between)
    (skipNear : extent block + 2 < jumpReach) (tests : monitor.Passes condition entry between) :
    monitor.Breaks (armCode slot condition block others) entry := by
  intro before rest
  have stands := armStands slot condition block others before rest
  exact .of_path (tests.branch skipNear stands.atSkip (.inl rfl))
    (breaks.offends stands.atOthers (by simp; omega))

end Monitor

end Sequences

end SlotCompiler
