import SlotCompiler.Proofs.Emission.Jumps
import SlotCompiler.Proofs.Emission.Tracking

/-!
Contract: where control can go in emitted code.
-/

namespace SlotCompiler

def Fragment.alwaysReturns : Fragment → Bool
  | .node statement => statement.alwaysReturns
  | .nodes statements => blockAlwaysReturns statements
  | .arms conditions blocks =>
    decide (conditions.length < blocks.length) && blocksAlwaysReturn blocks

theorem alwaysReturns_arm (condition : Operand) (conditions : List Operand) (block : List Node)
    (blocks : List (List Node)) :
    (Fragment.arms (condition :: conditions) (block :: blocks)).alwaysReturns =
      ((Fragment.nodes block).alwaysReturns &&
        (Fragment.arms conditions blocks).alwaysReturns) := by
  simp only [Fragment.alwaysReturns, blocksAlwaysReturn, List.length_cons, Nat.add_lt_add_iff_right]
  exact Bool.and_left_comm ..

/-! ## Emitted code -/

/-- Emitted code keeps control to itself; where the tree always returns, control
does not even leave over the end. -/
theorem Emits.confines {fragment stock finish code} (emits : Emits fragment stock code finish) :
    Confines code (fragment.alwaysReturns = false) := by
  induction emits with
  | declaration stored | assignment stored =>
    exact (confines_of_plain (plain_of_computing stored.computing)).mono fun _ => rfl
  | value loaded =>
    refine (confines_of_plain loaded.plain).mono fun _ => ?_
    cases loaded <;> rfl
  | memberAssignment object loaded =>
    have objectPlain := plain_of_computing (memberLoads?_computing object)
    have computed := (confines_of_plain objectPlain).append (confines_of_plain loaded.plain)
    exact (computed.append (confines_of_plain (List.forall_mem_singleton.mpr rfl))).mono
      fun _ => rfl
  | @ret locks =>
    have returned := (confines_of_plain (releases_plain locks)).append
      (confines_of_final .ret fun _ => rfl)
    exact returned.mono fun leaves => leaves.2.elim
  | @retValue _ locks _ src _ _ _ loaded =>
    have computed := (confines_of_plain loaded.plain).append
      (confines_of_plain (releases_plain locks))
    have returned := computed.append (confines_of_final (.retValue src) fun _ => rfl)
    exact returned.mono fun leaves => leaves.2.elim
  | conditional _ arms => exact arms
  | loop tested _ backNear exitNear repeated =>
    exact (confines_loopCode (confines_of_plain tested.plain) repeated backNear exitNear).mono
      fun _ => rfl
  | @sync locks _ _ _ _ _ _ guarded =>
    have locked := (confines_of_plain (acquisitions_plain locks)).append guarded
    exact (locked.append (confines_of_plain (List.forall_mem_singleton.mpr rfl))).mono
      fun leaves => leaves.1.2
  | nil => exact confines_nil.mono fun _ => rfl
  | cons _ _ head tail =>
    exact (head.append tail).mono fun leaves => Bool.or_eq_false_iff.mpr leaves
  | arm conditionLoaded _ _ skipNear exitNear taken rest =>
    refine (confines_armCode (confines_of_plain conditionLoaded.plain) taken rest skipNear
      exitNear).mono ?_
    rw [alwaysReturns_arm]
    exact Bool.and_eq_false_iff.mpr
  | alternative _ taken =>
    refine taken.mono fun leaves => ?_
    rw [Fragment.alwaysReturns, blocksAlwaysReturn]
    exact Bool.and_eq_false_iff.mpr (.inr (Bool.and_eq_false_iff.mpr (.inl leaves)))
  | done => exact confines_nil.mono fun _ => rfl

end SlotCompiler
