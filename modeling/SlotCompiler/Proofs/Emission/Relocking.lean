import SlotCompiler.Proofs.Emission.ControlFlow
import SlotCompiler.Proofs.Emission.Locking

/-!
Contract: when emitted code takes a lock that it holds.
-/

namespace SlotCompiler

open Monitor Tracker

variable {fragment : Fragment} {before after : Context} {stock finish : Stock}

/-! ## The rule -/

def Instruction.relocks (held : LockStack) : Instruction → Bool
  | .syncAcquire slot _ => (held.map HeldLock.object).contains slot
  | _ => false

def Tracker.held : Tracker LockStack where
  start := []
  after instruction held := instruction.locksAfter held
  after_jump _ _ := rfl
  after_jumpIfFalse _ _ _ := rfl

@[simp]
theorem Tracker.held_after (instruction : Instruction) (held : LockStack) :
    Tracker.held.after instruction held = instruction.locksAfter held := rfl

def Monitor.locksOnce : Monitor LockStack where
  toTracker := .held
  permits instruction held := instruction.relocks held = false
  permits_jump _ _ := rfl

theorem reachesHolding_iff {words index held} :
    ReachesHolding words index held ↔ Tracker.held.Reaches words index held := by
  constructor
  · intro holding
    induction holding with
    | start => exact .start
    | step _ decoded goes reaches => exact reaches.step decoded goes
  · intro reaches
    induction reaches with
    | start => exact .start
    | step _ decoded goes holding => exact holding.step decoded goes

/-! ## Code that leaves locks alone -/

theorem Instruction.relocks_of_isComputing {instruction : Instruction}
    (computing : instruction.isComputing = true) (held : LockStack) :
    instruction.relocks held = false := by
  cases instruction with
  | syncAcquire => contradiction
  | _ => rfl

section Parts

variable {code : List Instruction} {entry : LockStack} {locks : List Lock}

theorem upholds_computing (computing : ∀ instruction ∈ code, instruction.isComputing = true)
    (invariant : LockStack → Prop) : locksOnce.Upholds invariant code invariant := by
  refine upholds_of_forall_plain fun instruction member => ?_
  have isComputing := computing instruction member
  refine ⟨Instruction.isPlain_of_isComputing isComputing, fun held holds =>
    ⟨Instruction.relocks_of_isComputing isComputing held, ?_⟩⟩
  rw [show locksOnce.after instruction held = held from
    (Instruction.locksAfter_of_isComputing isComputing held).1]
  exact holds

theorem passes_computing (computing : ∀ instruction ∈ code, instruction.isComputing = true)
    (entry : LockStack) : held.Passes code entry entry :=
  passes_of_forall_plain fun instruction member =>
    ⟨Instruction.isPlain_of_isComputing (computing instruction member),
      (Instruction.locksAfter_of_isComputing (computing instruction member) entry).1⟩

/-! ## Sync blocks -/

theorem objects_lockStack (locks : List Lock) (entry : LockStack) :
    (lockStack locks ++ entry).map HeldLock.object =
      (locks.map Lock.slot).reverse ++ entry.map HeldLock.object := by
  simp [lockStack, Function.comp_def]

theorem passes_acquisitions (locks : List Lock) (entry : LockStack) :
    held.Passes (acquisitions locks) entry (lockStack locks ++ entry) := by
  induction locks generalizing entry with
  | nil => exact passes_nil _ entry
  | cons lock rest ih =>
    rw [lockStack_cons]
    have taken : held.Passes [.syncAcquire lock.slot lock.exclusive] entry
        (⟨lock.slot, lock.exclusive⟩ :: entry) :=
      passes_of_plain rfl
    exact taken.append (ih _)

theorem upholds_acquisitions (distinct : (locks.map Lock.slot).Nodup)
    (fresh : ∀ lock ∈ locks, lock.slot ∉ entry.map HeldLock.object) :
    locksOnce.Upholds (· = entry) (acquisitions locks) (· = lockStack locks ++ entry) := by
  induction locks generalizing entry with
  | nil => exact upholds_nil _ _
  | cons lock rest ih =>
    rw [lockStack_cons]
    rw [List.map_cons, List.nodup_cons] at distinct
    obtain ⟨lockFresh, restFresh⟩ := List.forall_mem_cons.mp fresh
    have taken : locksOnce.Upholds (· = entry) [.syncAcquire lock.slot lock.exclusive]
        (· = ⟨lock.slot, lock.exclusive⟩ :: entry) := by
      refine upholds_of_plain rfl ?_
      rintro held rfl
      refine ⟨?_, rfl⟩
      simpa [locksOnce, Instruction.relocks] using lockFresh
    refine taken.append (ih distinct.2 fun other isOther => ?_)
    have apart : other.slot ≠ lock.slot := fun same =>
      distinct.1 (same ▸ List.mem_map_of_mem isOther)
    simpa [apart] using restFresh other isOther

theorem breaks_acquisitions (again : ∃ lock ∈ locks, lock.slot ∈ entry.map HeldLock.object) :
    locksOnce.Breaks (acquisitions locks) entry := by
  obtain ⟨lock, isLock, isHeld⟩ := again
  obtain ⟨earlier, later, rfl⟩ := List.append_of_mem isLock
  have forbidden : ¬ locksOnce.permits (.syncAcquire lock.slot lock.exclusive)
      (lockStack earlier ++ entry) := by
    have stillHeld := objects_lockStack earlier entry ▸ List.mem_append_right _ isHeld
    simp only [locksOnce, Instruction.relocks, Bool.not_eq_false]
    exact List.contains_iff_mem.mpr stillHeld
  have codeEq : acquisitions (earlier ++ lock :: later) = acquisitions earlier ++
      ([.syncAcquire lock.slot lock.exclusive] ++ acquisitions later) := by
    simp [acquisitions]
  rw [codeEq]
  exact ((breaks_of_not_permits forbidden).append _).after (passes_acquisitions earlier entry)

theorem locksAfter_release (few : locks.length < 0x10000) (entry : LockStack) :
    (Instruction.syncRelease (UInt16.ofNat locks.length)).locksAfter (lockStack locks ++ entry) =
      entry := by
  rw [Instruction.locksAfter, UInt16.toNat_ofNat_of_lt' few, ← length_lockStack, List.drop_left]

theorem passes_release (few : locks.length < 0x10000) (entry : LockStack) :
    Tracker.held.Passes [.syncRelease (UInt16.ofNat locks.length)] (lockStack locks ++ entry)
      entry := by
  have released : Tracker.held.Passes [.syncRelease (UInt16.ofNat locks.length)]
      (lockStack locks ++ entry) _ := Tracker.passes_of_plain rfl
  rwa [Tracker.held_after, locksAfter_release few] at released

theorem upholds_release (few : locks.length < 0x10000) (leaves : Prop) :
    locksOnce.Upholds (fun held => leaves ∧ held = lockStack locks ++ entry)
      [.syncRelease (UInt16.ofNat locks.length)] (fun held => leaves ∧ held = entry) := by
  refine upholds_of_plain rfl ?_
  rintro held ⟨left, rfl⟩
  exact ⟨rfl, left, locksAfter_release few entry⟩

theorem upholds_ending {instruction : Instruction} {pre post : LockStack → Prop}
    (final : ∀ index, instruction.successors index = [])
    (takesNone : ∀ held, instruction.relocks held = false) (count : Nat) :
    locksOnce.Upholds pre (releases count ++ [instruction]) post := by
  have released : locksOnce.Upholds (fun _ => True) (releases count) (fun _ => True) := by
    refine upholds_of_forall_plain fun release member =>
      ⟨releases_plain count release member, fun held _ => ⟨?_, trivial⟩⟩
    unfold releases at member
    split at member
    · rw [List.mem_singleton.mp member]
      rfl
    · exact absurd member List.not_mem_nil
  have returned : locksOnce.Upholds (fun _ => True) [instruction] post :=
    upholds_of_final final fun held _ => takesNone held
  exact (released.append returned).mono (fun _ _ => trivial) fun _ => id

end Parts

/-! ## Emitted code -/

def Fragment.relocks (held : List Slot) : Fragment → Bool
  | .node statement => statement.relocks held
  | .nodes statements => blockRelocks held statements
  | .arms _ blocks => blocksRelock held blocks

/-- A way through the code of a part that can be left gives back every lock that
it takes. -/
theorem Emits.passes_held {code} (emits : Emits fragment stock code finish)
    (read : Reads fragment.part before after) (leaves : fragment.alwaysReturns = false)
    (entry : LockStack) : held.Passes code entry entry := by
  induction emits generalizing before after entry with
  | declaration stored | assignment stored => exact passes_computing stored.computing entry
  | value loaded => exact passes_computing loaded.computing entry
  | memberAssignment object loaded =>
    have operands := (passes_computing (memberLoads?_computing object) entry).append
      (passes_computing loaded.computing entry)
    exact operands.append (passes_computing (List.forall_mem_singleton.mpr rfl) entry)
  | ret | retValue => contradiction
  | conditional _ arms =>
    have .conditional chained := read
    exact arms chained leaves entry
  | loop tested _ _ exitNear _ =>
    exact passes_loopCode (passes_computing tested.computing entry) exitNear
  | @sync locks _ _ _ _ _ _ guarded =>
    have .sync _ _ few (.block inside) := read
    have locked := guarded inside leaves (lockStack locks ++ entry)
    exact ((passes_acquisitions locks entry).append locked).append (passes_release few entry)
  | nil => exact passes_nil _ entry
  | cons _ _ head tail =>
    obtain ⟨headLeaves, tailLeaves⟩ := Bool.or_eq_false_iff.mp leaves
    have .moreNodes headRead tailRead := read
    exact (head headRead headLeaves entry).append (tail tailRead tailLeaves entry)
  | arm conditionLoaded _ _ skipNear exitNear block rest =>
    have .arm _ (.block inside) restRead := read
    have tests := passes_computing conditionLoaded.computing entry
    rw [alwaysReturns_arm] at leaves
    rcases Bool.and_eq_false_iff.mp leaves with blockLeaves | restLeaves
    · exact passes_armCode_taken tests skipNear exitNear (block inside blockLeaves entry)
    · exact passes_armCode_skipped tests skipNear (rest restRead restLeaves entry)
  | alternative _ taken =>
    have .alternative (.block inside) := read
    refine taken inside ?_ entry
    simpa [Fragment.alwaysReturns, blocksAlwaysReturn] using leaves
  | done => exact passes_nil _ entry

/-- Where the tree locks nothing twice, no path through the code does, and the
locks at the end are those at the start. -/
theorem Emits.upholds_locksOnce {code} (emits : Emits fragment stock code finish)
    (read : Reads fragment.part before after) {entry : LockStack}
    (once : fragment.relocks (entry.map HeldLock.object) = false) :
    locksOnce.Upholds (· = entry) code
      fun held => fragment.alwaysReturns = false ∧ held = entry := by
  induction emits generalizing before after entry with
  | declaration stored | assignment stored =>
    exact (upholds_computing stored.computing _).mono (fun _ => id) fun _ => .intro rfl
  | value loaded => cases loaded <;> cases read
  | memberAssignment object loaded =>
    have operands := (upholds_computing (memberLoads?_computing object) (· = entry)).append
      (upholds_computing loaded.computing _)
    exact (operands.append (upholds_computing (List.forall_mem_singleton.mpr rfl) _)).mono
      (fun _ => id) fun _ => .intro rfl
  | ret => exact upholds_ending (fun _ => rfl) (fun _ => rfl) _
  | retValue loaded =>
    rw [List.append_assoc]
    exact (upholds_computing loaded.computing _).append
      (upholds_ending (fun _ => rfl) (fun _ => rfl) _)
  | conditional _ arms =>
    have .conditional chained := read
    exact arms chained once
  | loop tested _ backNear exitNear repeated =>
    have .loop _ (.block inside) := read
    exact upholds_loopCode backNear exitNear
      (upholds_computing tested.computing _)
      (fun held same => ⟨fun _ => rfl, same, rfl, same⟩)
      ((repeated inside once).mono (fun _ => id) fun _ => And.right)
  | @sync locks _ _ _ _ _ _ guarded =>
    have .sync _ distinct few (.block inside) := read
    obtain ⟨fresh, insideOnce⟩ := Bool.or_eq_false_iff.mp once
    have noneHeld : ∀ lock ∈ locks, lock.slot ∉ entry.map HeldLock.object := by
      simpa using fresh
    rw [← objects_lockStack] at insideOnce
    have locked := (upholds_acquisitions distinct noneHeld).append (guarded inside insideOnce)
    exact locked.append (upholds_release few _)
  | nil => exact (upholds_nil _ _).mono (fun _ => id) fun _ => .intro rfl
  | @cons node _ _ _ _ _ _ _ _ head tail =>
    obtain ⟨headOnce, tailOnce⟩ := Bool.or_eq_false_iff.mp once
    have .moreNodes headRead tailRead := read
    refine (head headRead headOnce).append ?_
    cases returns : node.alwaysReturns with
    | true =>
      -- Control does not come to the rest.
      refine upholds_of_false fun held left => ?_
      exact Bool.false_ne_true (left.1.symm.trans returns)
    | false =>
      rw [returns] at tailOnce
      refine (tail tailRead tailOnce).mono (fun _ => And.right) fun _ left => ?_
      exact ⟨Bool.or_eq_false_iff.mpr ⟨returns, left.1⟩, left.2⟩
  | arm conditionLoaded _ _ skipNear exitNear block rest =>
    obtain ⟨blockOnce, restOnce⟩ := Bool.or_eq_false_iff.mp once
    simp only [alwaysReturns_arm, Bool.and_eq_false_iff]
    have .arm _ (.block inside) restRead := read
    refine upholds_armCode skipNear exitNear
      (upholds_computing conditionLoaded.computing _)
      (fun held same => ⟨fun _ => rfl, same, same⟩)
      ((block inside blockOnce).mono (fun _ => id) fun _ left => ⟨?_, left.2⟩)
      ((rest restRead restOnce).mono (fun _ => id) fun _ left => ⟨?_, left.2⟩)
    · exact .inl left.1
    · exact .inr left.1
  | alternative _ taken =>
    have .alternative (.block inside) := read
    refine (taken inside (Bool.or_eq_false_iff.mp once).1).mono (fun _ => id)
      fun _ left => ⟨?_, left.2⟩
    simpa [Fragment.alwaysReturns, blocksAlwaysReturn] using left.1
  | done => exact (upholds_nil _ _).mono (fun _ => id) fun _ => .intro rfl

theorem Emits.breaks_locksOnce {code} (emits : Emits fragment stock code finish)
    (read : Reads fragment.part before after) {entry : LockStack}
    (again : fragment.relocks (entry.map HeldLock.object) = true) :
    locksOnce.Breaks code entry := by
  induction emits generalizing before after entry with
  | declaration | assignment | memberAssignment | ret | retValue | nil | done => contradiction
  | value loaded => cases loaded <;> cases read
  | conditional _ arms =>
    have .conditional chained := read
    exact arms chained again
  | loop tested _ _ exitNear repeated =>
    have .loop _ (.block inside) := read
    exact breaks_loopCode (repeated inside again) exitNear (passes_computing tested.computing entry)
  | @sync locks _ _ _ _ _ _ guarded =>
    have .sync _ _ _ (.block inside) := read
    refine Monitor.Breaks.append ?_ _
    rcases Bool.or_eq_true_iff.mp again with outer | inner
    · refine (breaks_acquisitions ?_).append _
      simpa using outer
    · rw [← objects_lockStack] at inner
      exact (guarded inside inner).after (passes_acquisitions locks entry)
  | cons headEmitted _ head tail =>
    have .moreNodes headRead tailRead := read
    rcases Bool.or_eq_true_iff.mp again with early | late
    · exact (head headRead early).append _
    · obtain ⟨leaves, late⟩ := Bool.and_eq_true_iff.mp late
      have passes := headEmitted.passes_held headRead ((Bool.not_eq_true' _).mp leaves) entry
      exact (tail tailRead late).after passes
  | arm conditionLoaded _ _ skipNear _ block rest =>
    have .arm _ (.block inside) restRead := read
    have tests := passes_computing conditionLoaded.computing entry
    rcases Bool.or_eq_true_iff.mp again with taken | skipped
    · exact breaks_armCode_taken (block inside taken) skipNear tests
    · exact breaks_armCode_skipped (rest restRead skipped) skipNear tests
  | alternative _ taken =>
    have .alternative (.block inside) := read
    refine taken inside ?_
    simpa [Fragment.relocks, blocksRelock] using again

end SlotCompiler
