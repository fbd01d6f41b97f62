import SlotCompiler.Proofs.Emission.Layout
import SlotCompiler.Proofs.Tree.Typing

/-!
Contract: why emission can fail.
-/

namespace SlotCompiler

variable {frame : Variables}

def Cause.isOverflow : Cause → Bool
  | .tooManyVariables _ | .tooManyConstants | .jumpTooFar _ => true
  | _ => false

theorem BufferFault.isOverflow_cause (fault : BufferFault) : fault.cause.isOverflow = true := by
  cases fault <;> rfl

namespace Emit

def FailsByOverflow {α : Type} (step : Emit α) : Prop :=
  ∀ start fault finish, step start = .error fault finish → fault.cause.isOverflow = true

namespace FailsByOverflow

variable {α β : Type} {position : Position}

theorem pure (value : α) : FailsByOverflow (Pure.pure value : Emit α) := by
  intro start fault finish failed
  cases failed

theorem bind {first} {next : α → Emit β} (head : FailsByOverflow first)
    (tail : ∀ value, FailsByOverflow (next value)) : FailsByOverflow (first >>= next) := by
  intro start fault finish failed
  change EStateM.bind first next start = .error fault finish at failed
  unfold EStateM.bind at failed
  cases ran : first start with
  | ok value middle =>
    rw [ran] at failed
    exact tail value middle fault finish failed
  | error other middle =>
    rw [ran] at failed
    cases failed
    exact head start fault finish ran

theorem instruction (given : Instruction) : FailsByOverflow (Emit.instruction given) := by
  intro start fault finish failed
  cases failed

theorem here : FailsByOverflow Emit.here := by
  intro start fault finish failed
  cases failed

theorem placeholder (given : Instruction) : FailsByOverflow (Emit.placeholder given) :=
  here.bind fun index => (instruction given).bind fun _ => pure index

theorem edit (change : CodeBuffer.Edit α) : FailsByOverflow (Emit.edit position change) := by
  intro start fault finish failed
  unfold Emit.edit at failed
  cases ran : change start.buffer with
  | ok value buffer =>
    simp only [ran] at failed
    cases failed
  | error refused buffer =>
    simp only [ran] at failed
    cases failed
    exact refused.isOverflow_cause

theorem temporary (function : String) (type : TypeId) :
    FailsByOverflow (Emit.temporary function type position) := by
  intro start fault finish failed
  unfold Emit.temporary at failed
  split at failed
  rename_i buffer frame
  split at failed
  · cases failed
  · cases failed
    rfl

theorem loadString (text : String) (dst : Slot) :
    FailsByOverflow (Emit.loadString text dst position) :=
  (edit (CodeBuffer.intern text)).bind fun _ => instruction _

theorem into (operand : Operand) (dst : Slot) {source}
    (brought : FailsByOverflow source) : FailsByOverflow (Emit.into operand dst position source) := by
  unfold Emit.into
  split
  · exact instruction _
  · exact loadString _ dst
  · refine brought.bind fun src => ?_
    by_cases same : src = dst
    · rw [if_pos same]
      exact pure ()
    · rw [if_neg same]
      exact instruction _

theorem fieldNumber (number : UInt16) : FailsByOverflow (Emit.fieldNumber (some number) position) :=
  pure number

theorem projections {types type object steps} (members : HasMembers types frame type steps) :
    FailsByOverflow (Emit.projections object steps) := by
  induction steps generalizing type object with
  | nil => exact pure ()
  | cons step rest ih =>
    obtain ⟨number, fieldType, numbered, _, _, others⟩ := members
    unfold Emit.projections
    rw [numbered]
    exact (fieldNumber number).bind fun _ => (instruction _).bind fun _ =>
      ih others

theorem arm {condition block} (tested : FailsByOverflow condition)
    (entered : FailsByOverflow block) : FailsByOverflow (Emit.arm position condition block) :=
  tested.bind fun _ => (placeholder _).bind fun _ => entered.bind fun _ =>
    (placeholder _).bind fun exit => (edit _).bind fun _ => pure exit

theorem landAll (exits : List Nat) : FailsByOverflow (Emit.landAll position exits) := by
  induction exits with
  | nil => exact pure ()
  | cons exit rest ih => exact (edit _).bind fun _ => ih

theorem loop {condition body} (tested : FailsByOverflow condition)
    (repeated : FailsByOverflow body) : FailsByOverflow (Emit.loop position condition body) :=
  here.bind fun _ => tested.bind fun _ => (placeholder _).bind fun _ => repeated.bind fun _ =>
    (edit _).bind fun _ => edit _

theorem acquire (locks : List Lock) : FailsByOverflow (Emit.acquire locks) := by
  induction locks with
  | nil => exact pure ()
  | cons lock rest ih => exact (instruction _).bind fun _ => ih

theorem ret (src? : Option Slot) (locks : Nat) : FailsByOverflow (Emit.ret src? locks) := by
  rw [ret_eq]
  by_cases locked : 0 < locks
  · rw [if_pos locked]
    exact (instruction _).bind fun _ => instruction _
  · rw [if_neg locked]
    exact instruction _

end FailsByOverflow

end Emit

/-! ## Well-typed trees -/

open Emit (FailsByOverflow)

theorem HasType.load_failsByOverflow {types value type} (typed : HasType types frame value type)
    (function : String) (position : Position) : FailsByOverflow (value.load function position) := by
  induction typed generalizing position with
  | held =>
    rw [Operand.load]
    exact .pure _
  | literal =>
    rw [Operand.load]
    exact (FailsByOverflow.temporary function _).bind fun slot =>
      (FailsByOverflow.instruction _).bind fun _ => .pure slot
  | string =>
    rw [Operand.load]
    exact (FailsByOverflow.temporary function _).bind fun slot =>
      (FailsByOverflow.loadString _ slot).bind fun _ => .pure slot
  | access _ members _ => exact (FailsByOverflow.projections members).bind fun _ => .pure _
  | binary _ _ _ _ left right =>
    exact ((left _).bind fun _ => (right _).bind fun _ => .instruction _).bind fun _ => .pure _

def Fragment.FailsByOverflow (function : String) : Fragment → Prop
  | .node statement => Emit.FailsByOverflow (statement.emit function)
  | .nodes statements => Emit.FailsByOverflow (emitNodes function statements)
  | .arms conditions blocks => ∀ position : Position,
      (∀ exits, Emit.FailsByOverflow (Emit.arms position exits
        ((loaders function position conditions).zip (blockEmitters function blocks)))) ∧
      ∀ alternative, (blockEmitters function blocks)[(loaders function position conditions).length]? =
        some alternative → Emit.FailsByOverflow alternative

theorem failsByOverflow_conditional {function conditions blocks position}
    (arms : (Fragment.arms conditions blocks).FailsByOverflow function) :
    (Fragment.node (.conditional conditions blocks position)).FailsByOverflow function := by
  obtain ⟨entered, alternative⟩ := arms position
  refine (entered #[]).bind fun exits => ?_
  cases found : (blockEmitters function blocks)[(loaders function position conditions).length]? with
  | some block => exact (alternative block found).bind fun _ => .landAll _
  | none => exact .landAll _

theorem Checked.failsByOverflow {env fragment} (checked : Checked env frame fragment)
    (function : String) : fragment.FailsByOverflow function := by
  induction checked with
  | declaration typed _ => exact .into _ _ (typed.load_failsByOverflow function _)
  | assignment typed _ => exact .into _ _ (typed.load_failsByOverflow function _)
  | memberAssignment _ members _ _ typed =>
    exact (FailsByOverflow.projections members).bind fun _ =>
      (typed.load_failsByOverflow function _).bind fun _ =>
        (FailsByOverflow.fieldNumber _).bind fun _ => .instruction _
  | ret => exact .ret none _
  | retValue typed _ =>
    exact (typed.load_failsByOverflow function _).bind fun src => .ret (some src) _
  | conditional _ arms => exact failsByOverflow_conditional arms
  | loop tested _ repeated => exact .loop (tested.load_failsByOverflow function _) repeated
  | sync _ _ guarded =>
    exact (FailsByOverflow.acquire _).bind fun _ => guarded.bind fun _ => .instruction _
  | nil => exact .pure ()
  | cons _ _ head tail => exact head.bind fun _ => tail
  | arm tested _ _ entered rest =>
    intro position
    obtain ⟨restEntered, restAlternative⟩ := rest position
    refine ⟨fun exits => ?_, restAlternative⟩
    exact (FailsByOverflow.arm (tested.load_failsByOverflow function position) entered).bind
      fun exit => restEntered (exits.push exit)
  | alternative _ entered =>
    intro position
    simp only [loaders, blockEmitters, List.zip_nil_left, List.length_nil,
      List.getElem?_cons_zero, Option.some.injEq, forall_eq']
    exact ⟨fun exits => .pure exits, entered⟩
  | noAlternative =>
    intro position
    simp only [blockEmitters, List.zip_nil_right]
    exact ⟨fun exits => .pure exits, fun _ found => by simp at found⟩

end SlotCompiler
