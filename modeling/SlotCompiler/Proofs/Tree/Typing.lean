import SlotCompiler.Proofs.Emission.Code
import SlotCompiler.Proofs.Tree.Targets
import SlotCompiler.Proofs.Tree.TypeRules

/-!
Contract: types of operands and statements, judged against one final table.
-/

namespace SlotCompiler

variable {type : TypeId}

/-! ## Tables that get types -/

namespace Variables

variable {first second third frame later : Variables} {slots : Slot → Prop} {slot : Slot}

/-- The same variables; the given slots now have types and no other changed. -/
structure Fills (slots : Slot → Prop) (frame later : Variables) : Prop where
  size_eq : later.size = frame.size
  typed : ∀ slot, slots slot → ∃ type, later.typeOf? slot = some type
  others : ∀ slot, ¬ slots slot → later.typeOf? slot = frame.typeOf? slot

def Lacks (frame : Variables) (slots : Slot → Prop) : Prop :=
  ∀ slot, slots slot → frame.typeOf? slot = none

/-- At least the types known before. -/
structure Refines (frame later : Variables) : Prop where
  keeps : ∀ {slot type}, frame.typeOf? slot = some type → later.typeOf? slot = some type

theorem Refines.trans (early : first.Refines second) (late : second.Refines third) :
    first.Refines third :=
  ⟨fun known => late.keeps (early.keeps known)⟩

theorem Fills.refines (fills : Fills slots frame later) (lacks : frame.Lacks slots) :
    frame.Refines later := by
  refine ⟨?_⟩
  intro slot type known
  by_cases isFilled : slots slot
  · rw [lacks slot isFilled] at known
    contradiction
  · rw [fills.others slot isFilled, known]

theorem Fills.none (frame : Variables) : Fills (fun _ => False) frame frame :=
  ⟨rfl, fun _ impossible => impossible.elim, fun _ _ => rfl⟩

theorem Fills.trans {early late : Slot → Prop} (filled : Fills early first second)
    (more : Fills late second third) : Fills (fun slot => early slot ∨ late slot) first third := by
  refine ⟨more.size_eq.trans filled.size_eq, ?_, ?_⟩
  · intro slot member
    by_cases isLate : late slot
    · exact more.typed slot isLate
    · rw [more.others slot isLate]
      exact filled.typed slot (member.resolve_right isLate)
  · intro slot outside
    rw [more.others slot fun isLate => outside (.inr isLate),
      filled.others slot fun isEarly => outside (.inl isEarly)]

theorem Fills.congr {others : Slot → Prop} (fills : Fills slots frame later)
    (same : ∀ slot, others slot ↔ slots slot) : Fills others frame later :=
  ⟨fills.size_eq, fun slot member => fills.typed slot ((same slot).mp member),
    fun slot outside => fills.others slot fun member => outside ((same slot).mpr member)⟩

theorem Lacks.mono {fewer : Slot → Prop} (lacks : frame.Lacks slots)
    (within : ∀ slot, fewer slot → slots slot) : frame.Lacks fewer :=
  fun slot member => lacks slot (within slot member)

theorem Lacks.after {filled : Slot → Prop} (lacks : frame.Lacks slots)
    (fills : Fills filled frame later) (apart : ∀ slot, slots slot → ¬ filled slot) :
    later.Lacks slots := by
  intro slot member
  rw [fills.others slot (apart slot member)]
  exact lacks slot member

@[simp] theorem size_setType (frame : Variables) (slot : Slot) (type : TypeId) :
    (frame.setType slot type).size = frame.size :=
  Array.size_modify

theorem typeOf?_setType (inFrame : slot.toNat < frame.size) (type : TypeId) (other : Slot) :
    (frame.setType slot type).typeOf? other =
      if other = slot then some type else frame.typeOf? other := by
  unfold typeOf? get? setType
  rw [Array.getElem?_modify]
  by_cases same : other = slot
  · rw [if_pos same, same, if_pos rfl]
    obtain ⟨entry, found⟩ : ∃ entry, frame.entries[slot.toNat]? = some entry :=
      ⟨_, Array.getElem?_eq_getElem inFrame⟩
    rw [found]
    rfl
  · have apart : slot.toNat ≠ other.toNat := fun equal =>
      same (UInt16.toNat_inj.mp equal.symm)
    rw [if_neg apart, if_neg same]

theorem fills_setType (inFrame : slot.toNat < frame.size) (type : TypeId) :
    Fills (· = slot) frame (frame.setType slot type) := by
  refine ⟨size_setType .., ?_, ?_⟩
  · intro other same
    exact ⟨type, by rw [typeOf?_setType inFrame, if_pos same]⟩
  · intro other apart
    rw [typeOf?_setType inFrame, if_neg apart]

end Variables

def Between (low high : Nat) (slot : Slot) : Prop := low ≤ slot.toNat ∧ slot.toNat < high

/-! ## Judgements -/

def TypeTable.fieldAt? (types : TypeTable) (type : TypeId) (number : UInt16) : Option TypeId := do
  let fields ← types.fields? type
  let field ← fields[number.toNat]?
  some field.type

theorem TypeTable.fieldAt?_of_field? {types : TypeTable} {fieldType name number}
    (found : types.field? type name = some (number, fieldType)) :
    types.fieldAt? type number = some fieldType := by
  obtain ⟨fields, isStruct, found⟩ := Option.bind_eq_some_iff.mp found
  obtain ⟨index, _, found⟩ := Option.bind_eq_some_iff.mp found
  obtain ⟨field, atIndex, found⟩ := Option.bind_eq_some_iff.mp found
  by_cases isNarrow : index < 0x10000
  · rw [if_pos isNarrow] at found
    cases found
    unfold fieldAt?
    rw [isStruct]
    show (do
      let field ← fields[(UInt16.ofNat index).toNat]?
      some field.type) = some field.type
    rw [UInt16.toNat_ofNat_of_lt' isNarrow, atIndex]
    rfl
  · rw [if_neg isNarrow] at found
    contradiction

def HasMembers (types : TypeTable) (frame : Variables) : TypeId → List MemberStep → Prop
  | _, [] => True
  | type, step :: rest =>
    ∃ number fieldType, step.field? = some number ∧
      types.fieldAt? type number = some fieldType ∧
      frame.typeOf? step.destination = some fieldType ∧ HasMembers types frame fieldType rest

/-- An operand has a type, given the types of all slots. -/
inductive HasType (types : TypeTable) (frame : Variables) : Operand → TypeId → Prop where
  | held {slot type} (known : frame.typeOf? slot = some type) :
      HasType types frame (.variable slot) type
  | literal {value} : HasType types frame (.literal value) value.type
  | string {text} : HasType types frame (.string text) .string
  | access {chain : MemberChain} {objectType type}
      (object : frame.typeOf? chain.source = some objectType)
      (members : HasMembers types frame objectType chain.steps)
      (known : frame.typeOf? chain.valueSlot = some type) :
      HasType types frame (.node (.access chain)) type
  | binary {operator : Operator} {lhs rhs destination position leftType rightType type}
      (left : HasType types frame lhs leftType) (right : HasType types frame rhs rightType)
      (result : operator.resultType? leftType rightType = some type)
      (known : frame.typeOf? destination = some type) :
      HasType types frame (.node (.binary operator lhs rhs destination position)) type

/-- A statement, a block or the rest of a conditional is well typed. -/
inductive Checked (env : TypeEnv) (frame : Variables) : Fragment → Prop where
  | declaration {name slot isMutable declared? value position type}
      (typed : HasType env.types frame value type) (known : frame.typeOf? slot = some type) :
      Checked env frame (.node (.declaration name slot isMutable declared? value position))
  | assignment {slot value position type} (typed : HasType env.types frame value type)
      (known : frame.typeOf? slot = some type) :
      Checked env frame (.node (.assignment slot value position))
  | memberAssignment {target : MemberChain}
      {member number value position sourceType objectType fieldType}
      (source : frame.typeOf? target.source = some sourceType)
      (members : HasMembers env.types frame sourceType target.steps)
      (object : frame.typeOf? target.valueSlot = some objectType)
      (field : env.types.fieldAt? objectType number = some fieldType)
      (typed : HasType env.types frame value fieldType) :
      Checked env frame (.node (.memberAssignment target member (some number) value position))
  | ret {locks position} (noResult : env.returnType? = none) :
      Checked env frame (.node (.ret none locks position))
  | retValue {value locks position type} (typed : HasType env.types frame value type)
      (result : env.returnType? = some type) :
      Checked env frame (.node (.ret (some value) locks position))
  | conditional {conditions blocks position} (arms : Checked env frame (.arms conditions blocks)) :
      Checked env frame (.node (.conditional conditions blocks position))
  | loop {condition body position} (tested : HasType env.types frame condition .bool)
      (repeated : Checked env frame (.nodes body)) :
      Checked env frame (.node (.loop condition body position))
  | sync {locks body position} (held : ∀ lock ∈ locks, ∃ type, frame.typeOf? lock.slot = some type)
      (guarded : Checked env frame (.nodes body)) :
      Checked env frame (.node (.sync locks body position))
  | nil : Checked env frame (.nodes [])
  | cons {node rest} (head : Checked env frame (.node node))
      (tail : Checked env frame (.nodes rest)) : Checked env frame (.nodes (node :: rest))
  | arm {condition conditions block blocks} (tested : HasType env.types frame condition .bool)
      (entered : Checked env frame (.nodes block))
      (rest : Checked env frame (.arms conditions blocks)) :
      Checked env frame (.arms (condition :: conditions) (block :: blocks))
  | alternative {block others} (entered : Checked env frame (.nodes block)) :
      Checked env frame (.arms [] (block :: others))
  | noAlternative {conditions} : Checked env frame (.arms conditions [])

section Refinement

variable {types : TypeTable} {env : TypeEnv} {frame later : Variables}
  (refines : frame.Refines later)

include refines

theorem HasMembers.mono {steps} (members : HasMembers types frame type steps) :
    HasMembers types later type steps := by
  induction steps generalizing type with
  | nil => trivial
  | cons step rest ih =>
    obtain ⟨number, fieldType, numbered, field, known, others⟩ := members
    exact ⟨number, fieldType, numbered, field, refines.keeps known, ih others⟩

theorem HasType.mono {value} (typed : HasType types frame value type) :
    HasType types later value type := by
  induction typed with
  | held known => exact .held (refines.keeps known)
  | literal => exact .literal
  | string => exact .string
  | access object members known =>
    exact .access (refines.keeps object) (members.mono refines) (refines.keeps known)
  | binary _ _ result known left right => exact .binary left right result (refines.keeps known)

theorem Checked.mono {fragment} (checked : Checked env frame fragment) :
    Checked env later fragment := by
  induction checked with
  | declaration typed known => exact .declaration (typed.mono refines) (refines.keeps known)
  | assignment typed known => exact .assignment (typed.mono refines) (refines.keeps known)
  | memberAssignment source members object field typed =>
    exact .memberAssignment (refines.keeps source) (members.mono refines) (refines.keeps object)
      field (typed.mono refines)
  | ret noResult => exact .ret noResult
  | retValue typed result => exact .retValue (typed.mono refines) result
  | conditional _ arms => exact .conditional arms
  | loop tested _ repeated => exact .loop (tested.mono refines) repeated
  | sync held _ guarded =>
    refine .sync (fun lock member => ?_) guarded
    obtain ⟨type, known⟩ := held lock member
    exact ⟨type, refines.keeps known⟩
  | nil => exact .nil
  | cons _ _ head tail => exact .cons head tail
  | arm tested _ _ entered rest => exact .arm (tested.mono refines) entered rest
  | alternative _ entered => exact .alternative entered
  | noAlternative => exact .noAlternative

end Refinement

/-! ## Accepted trees -/

def TreePart.Checks (env : TypeEnv) (isMutable : Slot → Prop) (frame : Variables)
    (slots : Slot → TypeId) : TreePart → Prop
  | .operand value => ∀ {type : TypeId}, value.Accepted env.types slots type →
      HasType env.types frame (value.numbered env.types slots) type
  | .operands _ => True
  | .steps members => ∀ (object : Slot) (final : TypeId),
      Leads env.types slots (slots object) members final →
      HasMembers env.types frame (slots object) (numberSteps env.types slots object members)
  | .node statement => statement.Accepted env isMutable slots →
      Checked env frame (.node (statement.numbered env.types slots))
  | .nodes statements | .block _ statements => BlockAccepted env isMutable slots statements →
      Checked env frame (.nodes (blockNumbered env.types slots statements))
  | .arms conditions blocks => ConditionsAccepted env.types slots conditions →
      BlocksAccepted env isMutable slots blocks →
      Checked env frame (.arms (operandsNumbered env.types slots conditions)
        (blocksNumbered env.types slots blocks))

section Accepted

variable {env : TypeEnv} {isMutable : Slot → Prop} {frame : Variables} {slots : Slot → TypeId}
  {limit : Nat} (known : ∀ slot : Slot, slot.toNat < limit → frame.typeOf? slot = some (slots slot))

variable {before after : Context}

include known

theorem checks_moreSteps {step : MemberStep} {rest} (inFrame : step.destination.toNat < limit)
    (tail : (TreePart.steps rest).Checks env isMutable frame slots) :
    (TreePart.steps (step :: rest)).Checks env isMutable frame slots := by
  intro object final leads
  obtain ⟨number, fieldType, found, rfl, others⟩ := leads_cons_iff.mp leads
  refine ⟨number, _, ?_, TypeTable.fieldAt?_of_field? found, known _ inFrame, tail _ final others⟩
  simp [TypeTable.fieldNumber?, found]

theorem Reads.valueSlot_known {chain : MemberChain} (read : Reads (.steps chain.steps) before after)
    (room : after.frame.size ≤ limit) (source : chain.source.toNat < before.frame.size) :
    frame.typeOf? (chain.numbered env.types slots).valueSlot = some (slots chain.valueSlot) := by
  rw [MemberChain.valueSlot_numbered]
  exact known _ ((read.valueSlot_lt source).trans_le room)

/-- Whatever was read is well typed by a table that holds the types of all its
slots, if these types accept it. -/
theorem Reads.checks {part} (read : Reads part before after) (bounded : before.Bounded)
    (room : after.frame.size ≤ limit) : part.Checks env isMutable frame slots := by
  have visible {context : Context} {name : String} {slot : Slot} (bounded : context.Bounded)
      (found : context.scopes.lookup? name = some slot) (room : context.frame.size ≤ limit) :
      slot.toNat < limit :=
    (bounded.slot_lt found).trans_le room
  induction read with
  | visible found =>
    intro type accepted
    rw [← accepted_variable_iff.mp accepted]
    exact .held (known _ (visible bounded found room))
  | literal =>
    intro type accepted
    rw [← accepted_literal_iff.mp accepted]
    exact .literal
  | string =>
    intro type accepted
    rw [← accepted_string_iff.mp accepted]
    exact .string
  | @access _ chain _ _ found projectedRead projected =>
    intro type accepted
    have leads := accepted_access_iff.mp accepted
    have source := visible bounded found (projectedRead.grows.size_le.trans room)
    have typeEq : slots chain.valueSlot = type := leads.type_eq chain.position rfl
    rw [← typeEq]
    exact .access (known _ source) (projected bounded room _ _ leads)
      (projectedRead.valueSlot_known known room (bounded.slot_lt found))
  | binary leftRead rightRead added left right =>
    intro type accepted
    obtain ⟨leftType, rightType, isLeft, isRight, result, rfl⟩ := accepted_binary_iff.mp accepted
    have lateRoom := added.takes.grows.size_le.trans room
    exact .binary (left bounded (rightRead.grows.size_le.trans lateRoom) isLeft)
      (right (leftRead.bounded bounded) lateRoom isRight) result
      (known _ (added.takes.slot_lt.trans_le room))
  | call =>
    intro type accepted
    exact absurd accepted not_accepted_call
  | noOperands | moreOperands => trivial
  | noSteps =>
    intro object final leads
    trivial
  | moreSteps added tailRead tail =>
    exact checks_moreSteps known
      (added.takes.slot_lt.trans_le (tailRead.grows.size_le.trans room))
      (tail (bounded.of_scopes_eq added.takes.grows added.scopes_eq) room)
  | declaration _ declared initial =>
    intro accepted
    obtain ⟨type, isInitial, _, rfl⟩ := accepted_declaration_iff.mp accepted
    exact .declaration (initial bounded (declared.takes.grows.size_le.trans room) isInitial)
      (known _ (declared.takes.slot_lt.trans_le room))
  | assignment found assignedRead assigned =>
    intro accepted
    obtain ⟨_, isAssigned⟩ := accepted_assignment_iff.mp accepted
    exact .assignment (assigned bounded room isAssigned)
      (known _ (visible bounded found (assignedRead.grows.size_le.trans room)))
  | @memberAssignment _ _ target _ _ _ _ _ _ found projectedRead assignedRead projected assigned =>
    intro accepted
    obtain ⟨_, objectType, number, fieldType, leads, isField, isAssigned⟩ :=
      accepted_memberAssignment_iff.mp accepted
    have middleRoom := assignedRead.grows.size_le.trans room
    have source := visible bounded found (projectedRead.grows.size_le.trans middleRoom)
    have typeEq : slots target.valueSlot = objectType := leads.type_eq target.position rfl
    subst typeEq
    simp only [Node.numbered, TypeTable.fieldNumber?, isField, Option.map_some]
    exact .memberAssignment (known _ source) (projected bounded middleRoom _ _ leads)
      (projectedRead.valueSlot_known known middleRoom (bounded.slot_lt found))
      (TypeTable.fieldAt?_of_field? isField)
      (assigned (projectedRead.bounded bounded) room isAssigned)
  | ret =>
    intro accepted
    exact .ret (accepted_ret_iff.mp accepted).symm
  | retValue _ returned =>
    intro accepted
    obtain ⟨type, isReturned, result⟩ := accepted_retValue_iff.mp accepted
    exact .retValue (returned bounded room isReturned) result.symm
  | callStatement =>
    intro accepted
    exact absurd accepted not_accepted_callStatement
  | conditional _ chained =>
    intro accepted
    obtain ⟨tested, entered⟩ := accepted_conditional_iff.mp accepted
    exact .conditional (chained bounded room tested entered)
  | loop testedRead repeatedRead tested repeated =>
    intro accepted
    obtain ⟨isTested, isRepeated⟩ := accepted_loop_iff.mp accepted
    exact .loop (tested bounded (repeatedRead.grows.size_le.trans room) isTested)
      (repeated (testedRead.bounded bounded) room isRepeated)
  | sync found _ _ guardedRead guarded =>
    intro accepted
    refine .sync (fun lock member => ⟨_, known _ ?_⟩)
      (guarded bounded room (accepted_sync_iff.mp accepted))
    exact visible bounded (found lock member) (guardedRead.grows.size_le.trans room)
  | noNodes =>
    intro accepted
    exact .nil
  | moreNodes headRead tailRead head tail =>
    intro accepted
    obtain ⟨isHead, isTail⟩ := blockAccepted_cons_iff.mp accepted
    exact .cons (head bounded (tailRead.grows.size_le.trans room) isHead)
      (tail (headRead.bounded bounded) room isTail)
  | block _ inside => exact inside (bounded.enter _) room
  | arm testedRead enteredRead restRead tested entered rest =>
    intro conditionsAccepted blocksAccepted
    obtain ⟨isTested, restTested⟩ := conditionsAccepted_cons_iff.mp conditionsAccepted
    obtain ⟨isEntered, restEntered⟩ := blocksAccepted_cons_iff.mp blocksAccepted
    have middleBounded := testedRead.bounded bounded
    have lateRoom := restRead.grows.size_le.trans room
    exact .arm (tested bounded (enteredRead.grows.size_le.trans lateRoom) isTested)
      (entered middleBounded lateRoom isEntered)
      (rest (enteredRead.bounded middleBounded) room restTested restEntered)
  | alternative _ entered =>
    intro _ blocksAccepted
    exact .alternative (entered bounded room (blocksAccepted_cons_iff.mp blocksAccepted).1)
  | noAlternative =>
    intro _ _
    exact .noAlternative

end Accepted

end SlotCompiler
