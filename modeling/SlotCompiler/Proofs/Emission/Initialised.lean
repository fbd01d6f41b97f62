import SlotCompiler.Proofs.Emission.Effects
import SlotCompiler.Proofs.Emission.Tracking
import SlotCompiler.Proofs.Machine.Dataflow

/-!
Contract: emitted code reads no slot before it is written.

What is known at the start of a statement is read off the scopes alone.  The
slots of intermediate values are known only inside the code of one operand.
-/

namespace SlotCompiler

open Monitor

section Operands

variable {parameters : Nat} {known : Slot → Prop} {before after : Context}
  {stock finish : Stock} {code : List Instruction}

variable {value : Operand}

theorem memberLoads?_readsWritten {object steps} (loaded : memberLoads? object steps = some code)
    (seen : known object) :
    (readsWritten parameters).Upholds (Filled parameters known) code
      (Filled parameters fun slot => known slot ∨ slot = lastSlot object steps) := by
  induction steps generalizing object code known with
  | nil =>
    cases loaded
    refine (upholds_nil _ _).mono (fun _ => id) fun _ filled => filled.mono ?_
    rintro slot (isKnown | rfl)
    · exact isKnown
    · exact seen
  | cons step rest ih =>
    obtain ⟨field, others, _, restLoaded, rfl⟩ := memberLoads?_cons loaded
    have head : (readsWritten parameters).Upholds (Filled parameters known)
        [.memberLoad step.destination object field]
        (Filled parameters fun slot => known slot ∨ slot = step.destination) :=
      upholds_writing rfl rfl (List.forall_mem_singleton.mpr seen)
    have both := head.append (ih restLoaded (.inr rfl))
    exact both.mono (fun _ => id) fun _ filled => filled.mono fun slot => Or.imp_left .inl

theorem Loads.readsWritten {slot} (loads : Loads value slot stock code finish)
    (read : Reads (.operand value) before after)
    (sees : ∀ held, before.scopes.Holds held → known held) :
    (readsWritten parameters).Upholds (Filled parameters known) code
      (Filled parameters fun other => known other ∨ other = slot) := by
  induction loads generalizing before after known with
  | held =>
    have .visible found := read
    refine (upholds_nil _ _).mono (fun _ => id) fun _ filled => filled.mono ?_
    rintro other (isKnown | rfl)
    · exact isKnown
    · exact sees _ (ScopeChain.holds_of_lookup? found)
  | literal | string => exact upholds_writing rfl rfl fun _ member => absurd member List.not_mem_nil
  | @access chain _ _ loaded =>
    have .access found _ := read
    rw [chain.valueSlot_eq]
    exact memberLoads?_readsWritten loaded (sees _ (ScopeChain.holds_of_lookup? found))
  | @binary operator lhs rhs destination leftSlot rightSlot position _ _ _ _ _ _ _ left right =>
    have .binary leftRead rightRead added := read
    have operands := (left leftRead sees).append (right rightRead fun held isHeld =>
      .inl (sees held (leftRead.scopes_eq rfl ▸ isHeld)))
    have combines : (readsWritten parameters).Upholds
        (Filled parameters fun other =>
          (known other ∨ other = leftSlot) ∨ other = rightSlot)
        [.binary operator destination leftSlot rightSlot]
        (Filled parameters fun other =>
          ((known other ∨ other = leftSlot) ∨ other = rightSlot) ∨ other = destination) :=
      upholds_writing rfl rfl (by simp [Instruction.reads])
    exact (operands.append combines).mono (fun _ => id) fun _ filled =>
      filled.mono fun other => Or.imp_left (.inl ∘ .inl)

theorem Stores.readsWritten {dst} (stores : Stores value dst stock code finish)
    (read : Reads (.operand value) before after) :
    (readsWritten parameters).Upholds (Filled parameters before.scopes.Holds) code
      (Filled parameters fun slot => before.scopes.Holds slot ∨ slot = dst) := by
  cases stores with
  | literal | string => exact upholds_writing rfl rfl fun _ member => absurd member List.not_mem_nil
  | kept _ loaded => exact loaded.readsWritten read fun _ => id
  | @moved _ src _ _ _ _ _ loaded =>
    have moves : (readsWritten parameters).Upholds
        (Filled parameters fun slot => before.scopes.Holds slot ∨ slot = src) [.move dst src]
        (Filled parameters fun slot => (before.scopes.Holds slot ∨ slot = src) ∨ slot = dst) :=
      upholds_writing rfl rfl (by simp [Instruction.reads])
    exact ((loaded.readsWritten read fun _ => id).append moves).mono (fun _ => id)
      fun _ filled => filled.mono fun slot => Or.imp_left .inl

private theorem upholds_return {instruction : Instruction} {locks} {post : List Slot → Prop}
    (final : ∀ index, instruction.successors index = [])
    (reads : ∀ slot ∈ instruction.reads, known slot) :
    (readsWritten parameters).Upholds (Filled parameters known)
      (releases locks ++ [instruction]) post := by
  have released : (readsWritten parameters).Upholds (Filled parameters known)
      (releases locks) (Filled parameters known) := by
    refine upholds_reading fun release member => ⟨releases_plain locks release member, ?_⟩
    unfold releases at member
    split at member
    · rw [List.mem_singleton.mp member]
      exact fun _ none => absurd none List.not_mem_nil
    · exact absurd member List.not_mem_nil
  exact released.append (upholds_of_final final fun _ filled => filled.permits reads)

end Operands

private theorem upholds_block {parameters locks body before after code}
    (entered : Reads (.block locks body) before after)
    (inside : ∀ {before after}, Reads (.nodes body) before after →
      (readsWritten parameters).Upholds (Filled parameters before.scopes.Holds) code
        (Filled parameters after.scopes.Holds)) :
    (readsWritten parameters).Upholds (Filled parameters before.scopes.Holds) code
      (Filled parameters after.scopes.Holds) := by
  have sameScopes := entered.scopes_eq rfl
  have .block insideRead := entered
  have same : (before.scopes.enter locks).SameBlocks _ := insideRead.sameBlocks
  rw [sameScopes]
  exact (inside insideRead).mono
    (fun _ filled => filled.mono fun slot held => ScopeChain.holds_enter_iff.mp held)
    fun _ filled => filled.mono fun slot held => same.holds held

/-- On every path through the code of a part, only slots with a value are read,
and at its end all names in scope have one. -/
theorem Emits.readsWritten {parameters fragment before after stock finish code}
    (emits : Emits fragment stock code finish) (read : Reads fragment.part before after) :
    (Monitor.readsWritten parameters).Upholds (Filled parameters before.scopes.Holds) code
      (Filled parameters after.scopes.Holds) := by
  induction emits generalizing before after with
  | declaration stored =>
    have .declaration initial declared := read
    refine (stored.readsWritten initial).mono (fun _ => id) fun _ filled => filled.mono ?_
    intro slot held
    rcases declared.holds_iff.mp held with isNew | earlier
    · exact .inr isNew
    · exact .inl (initial.scopes_eq rfl ▸ earlier)
  | assignment stored =>
    have .assignment found assigned := read
    rw [assigned.scopes_eq rfl]
    exact (stored.readsWritten assigned).mono (fun _ => id) fun _ filled =>
      filled.mono fun _ => .inl
  | value loaded => cases loaded <;> cases read
  | @memberAssignment target member field value position src _ _ _ _ object loaded =>
    have .memberAssignment found projected assigned := read
    have sameScopes := (assigned.scopes_eq rfl).trans (projected.scopes_eq rfl)
    have object : (Monitor.readsWritten parameters).Upholds _ _ _ :=
      memberLoads?_readsWritten object (ScopeChain.holds_of_lookup? found)
    rw [← target.valueSlot_eq] at object
    have operands := object.append (loaded.readsWritten assigned fun held isHeld =>
      .inl (projected.scopes_eq rfl ▸ isHeld))
    let known : Slot → Prop := fun other =>
      (before.scopes.Holds other ∨ other = target.valueSlot) ∨ other = src
    have stores : (Monitor.readsWritten parameters).Upholds (Filled parameters known)
        [.memberStore target.valueSlot field src] (Filled parameters known) :=
      upholds_reading (List.forall_mem_singleton.mpr ⟨rfl, by simp [Instruction.reads, known]⟩)
    rw [sameScopes]
    exact (operands.append stores).mono (fun _ => id) fun _ filled =>
      filled.mono fun _ => .inl ∘ .inl
  | ret => exact upholds_return (fun _ => rfl) fun _ member => absurd member List.not_mem_nil
  | retValue loaded =>
    have .retValue returned := read
    rw [List.append_assoc]
    exact (loaded.readsWritten returned fun _ => id).append
      (upholds_return (fun _ => rfl) (List.forall_mem_singleton.mpr (.inr rfl)))
  | conditional _ arms =>
    have .conditional chained := read
    exact arms chained
  | loop tested _ backNear exitNear repeated =>
    have .loop testedRead repeatedRead := read
    have sameScopes := (repeatedRead.scopes_eq rfl).trans (testedRead.scopes_eq rfl)
    have body := upholds_block repeatedRead repeated
    rw [repeatedRead.scopes_eq rfl, testedRead.scopes_eq rfl] at body
    rw [sameScopes]
    refine Monitor.upholds_loopCode backNear exitNear
      (tested.readsWritten testedRead fun _ => id) (fun _ filled => ⟨?_, ?_, ?_⟩) body
    · exact fun _ => filled.permits (List.forall_mem_singleton.mpr (.inr rfl))
    · exact filled.mono fun _ => .inl
    · exact filled.mono fun _ => .inl
  | @sync locks _ _ _ _ _ _ guarded =>
    have .sync found _ _ guardedRead := read
    have acquires : (Monitor.readsWritten parameters).Upholds
        (Filled parameters before.scopes.Holds) (acquisitions locks)
        (Filled parameters before.scopes.Holds) := by
      refine upholds_reading fun acquire member => ?_
      obtain ⟨lock, isLock, rfl⟩ := List.mem_map.mp member
      exact ⟨rfl, List.forall_mem_singleton.mpr (ScopeChain.holds_of_lookup? (found lock isLock))⟩
    have releases : (Monitor.readsWritten parameters).Upholds
        (Filled parameters after.scopes.Holds) [.syncRelease (UInt16.ofNat locks.length)]
        (Filled parameters after.scopes.Holds) :=
      upholds_reading (List.forall_mem_singleton.mpr
        ⟨rfl, fun _ none => absurd none List.not_mem_nil⟩)
    exact (acquires.append (upholds_block guardedRead guarded)).append releases
  | nil =>
    cases read
    exact Monitor.upholds_nil _ _
  | cons _ _ head tail =>
    have .moreNodes headRead tailRead := read
    exact (head headRead).append (tail tailRead)
  | arm conditionLoaded _ _ skipNear exitNear block rest =>
    have .arm testedRead enteredRead restRead := read
    have taken := upholds_block enteredRead block
    have others := rest restRead
    have sameScopes := (restRead.scopes_eq rfl).trans (enteredRead.scopes_eq rfl)
    rw [sameScopes, enteredRead.scopes_eq rfl, testedRead.scopes_eq rfl] at others
    rw [enteredRead.scopes_eq rfl, testedRead.scopes_eq rfl] at taken
    rw [sameScopes, testedRead.scopes_eq rfl]
    refine Monitor.upholds_armCode skipNear exitNear
      (conditionLoaded.readsWritten testedRead fun _ => id) (fun _ filled => ⟨?_, ?_, ?_⟩)
      taken others
    · exact fun _ => filled.permits (List.forall_mem_singleton.mpr (.inr rfl))
    · exact filled.mono fun _ => .inl
    · exact filled.mono fun _ => .inl
  | alternative _ taken =>
    have .alternative entered := read
    exact upholds_block entered taken
  | done =>
    cases read
    exact Monitor.upholds_nil _ _

end SlotCompiler
