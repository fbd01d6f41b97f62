import Mathlib
import SlotCompiler.Tree.Typing

/-!
Contract: the type system of function bodies, as rules.

The rules read a tree whose field numbers are unknown: a member is found by its
name.
-/

namespace SlotCompiler

variable {final : TypeId}

/-! ## Fields -/

/-- The struct type has a field of the name, first at this number.  Numbers have
16 bits, so a struct has no field past the last of them. -/
def TypeTable.HasField (types : TypeTable) (type : TypeId) (name : String) (number : UInt16)
    (fieldType : TypeId) : Prop :=
  ∃ fields, types.fields? type = some fields ∧ fields[number.toNat]? = some ⟨name, fieldType⟩ ∧
    ∀ earlier < number.toNat, ∀ field, fields[earlier]? = some field → field.name ≠ name

theorem TypeTable.field?_eq_some_iff {types : TypeTable} {type fieldType name number} :
    types.field? type name = some (number, fieldType) ↔
      types.HasField type name number fieldType := by
  unfold field? HasField
  simp only [Option.bind_eq_bind, Option.bind_eq_some_iff]
  refine exists_congr fun fields => and_congr_right fun _ => ?_
  constructor
  · rintro ⟨index, found, field, atIndex, numbered⟩
    by_cases isNarrow : index < 0x10000
    · rw [if_pos isNarrow] at numbered
      cases numbered
      obtain ⟨inFields, isNamed, isFirst⟩ := Array.findIdx?_eq_some_iff_getElem.mp found
      rw [Array.getElem?_eq_getElem inFields] at atIndex
      cases atIndex
      rw [UInt16.toNat_ofNat_of_lt' isNarrow, Array.getElem?_eq_getElem inFields]
      refine ⟨?_, ?_⟩
      · rw [← eq_of_beq isNamed]
      · intro earlier isEarlier other atEarlier
        have apart := isFirst earlier isEarlier
        obtain ⟨_, rfl⟩ := Array.getElem?_eq_some_iff.mp atEarlier
        simpa using apart
    · rw [if_neg isNarrow] at numbered
      contradiction
  · rintro ⟨atNumber, isFirst⟩
    obtain ⟨inFields, isField⟩ := Array.getElem?_eq_some_iff.mp atNumber
    refine ⟨number.toNat, ?_, ⟨name, fieldType⟩, atNumber, ?_⟩
    · apply Array.findIdx?_eq_some_iff_getElem.mpr
      refine ⟨inFields, by rw [isField]; exact beq_self_eq_true name, ?_⟩
      intro earlier isEarlier
      have inEarlier : earlier < fields.size := isEarlier.trans inFields
      have apart := isFirst earlier isEarlier _ (Array.getElem?_eq_getElem inEarlier)
      simpa using apart
    · rw [if_pos number.toNat_lt, UInt16.ofNat_toNat]

/-! ## Rules -/

/-- Members lead from an object of one type to a value of another, and every
step leaves the type of its field in its slot. -/
inductive Leads (types : TypeTable) (slots : Slot → TypeId) :
    TypeId → List MemberStep → TypeId → Prop where
  | done {type} : Leads types slots type [] type
  | step {type fieldType final : TypeId} {number : UInt16} {step : MemberStep}
      {rest : List MemberStep} (field : types.HasField type step.member number fieldType)
      (held : slots step.destination = fieldType) (others : Leads types slots fieldType rest final) :
      Leads types slots type (step :: rest) final

/-- An operand has a type.  Nothing is known about what functions give, so a
call may have any. -/
inductive OperandTyped (types : TypeTable) (slots : Slot → TypeId) : Operand → TypeId → Prop where
  | variable {slot} : OperandTyped types slots (.variable slot) (slots slot)
  | literal {value} : OperandTyped types slots (.literal value) value.type
  | string {text} : OperandTyped types slots (.string text) .string
  | access {chain : MemberChain} {type}
      (members : Leads types slots (slots chain.source) chain.steps type) :
      OperandTyped types slots (.node (.access chain)) type
  | binary {operator : Operator} {lhs rhs destination position leftType rightType type}
      (left : OperandTyped types slots lhs leftType)
      (right : OperandTyped types slots rhs rightType)
      (result : operator.resultType? leftType rightType = some type)
      (held : slots destination = type) :
      OperandTyped types slots (.node (.binary operator lhs rhs destination position)) type
  | call {invoked type} : OperandTyped types slots (.call invoked) type

/-- A statement is well typed. -/
inductive NodeTyped (env : TypeEnv) (isMutable : Slot → Prop) (slots : Slot → TypeId) :
    Node → Prop where
  | declaration {name slot mutable declared? value position type}
      (initial : OperandTyped env.types slots value type)
      (declared : ∀ declared ∈ declared?, env.types.lookup? declared.name = some type)
      (held : slots slot = type) :
      NodeTyped env isMutable slots (.declaration name slot mutable declared? value position)
  | assignment {slot value position} (mutable : isMutable slot)
      (assigned : OperandTyped env.types slots value (slots slot)) :
      NodeTyped env isMutable slots (.assignment slot value position)
  | memberAssignment {target : MemberChain}
      {member field? value position objectType fieldType number} (mutable : isMutable target.source)
      (object : Leads env.types slots (slots target.source) target.steps objectType)
      (field : env.types.HasField objectType member number fieldType)
      (assigned : OperandTyped env.types slots value fieldType) :
      NodeTyped env isMutable slots (.memberAssignment target member field? value position)
  | ret {locks position} (noResult : env.returnType? = none) :
      NodeTyped env isMutable slots (.ret none locks position)
  | retValue {value locks position type} (returned : OperandTyped env.types slots value type)
      (result : env.returnType? = some type) :
      NodeTyped env isMutable slots (.ret (some value) locks position)
  | call {invoked} : NodeTyped env isMutable slots (.call invoked)
  | conditional {conditions blocks position}
      (tested : ∀ condition ∈ conditions, OperandTyped env.types slots condition .bool)
      (entered : ∀ block ∈ blocks, ∀ node ∈ block, NodeTyped env isMutable slots node) :
      NodeTyped env isMutable slots (.conditional conditions blocks position)
  | loop {condition body position} (tested : OperandTyped env.types slots condition .bool)
      (repeated : ∀ node ∈ body, NodeTyped env isMutable slots node) :
      NodeTyped env isMutable slots (.loop condition body position)
  | sync {locks body position} (guarded : ∀ node ∈ body, NodeTyped env isMutable slots node) :
      NodeTyped env isMutable slots (.sync locks body position)

/-! ## Calls -/

mutual

def Operand.isCallFree : Operand → Bool
  | .variable _ => true
  | .literal _ => true
  | .string _ => true
  | .node inner => inner.isCallFree
  | .call _ => false

def Node.isCallFree : Node → Bool
  | .declaration _ _ _ _ value _ => value.isCallFree
  | .assignment _ value _ => value.isCallFree
  | .access _ => true
  | .memberAssignment _ _ _ value _ => value.isCallFree
  | .ret none _ _ => true
  | .ret (some value) _ _ => value.isCallFree
  | .binary _ lhs rhs _ _ => lhs.isCallFree && rhs.isCallFree
  | .call _ => false
  | .conditional conditions blocks _ => operandsCallFree conditions && blocksCallFree blocks
  | .loop condition body _ => condition.isCallFree && blockCallFree body
  | .sync _ body _ => blockCallFree body

def operandsCallFree : List Operand → Bool
  | [] => true
  | value :: rest => value.isCallFree && operandsCallFree rest

def blockCallFree : List Node → Bool
  | [] => true
  | node :: rest => node.isCallFree && blockCallFree rest

def blocksCallFree : List (List Node) → Bool
  | [] => true
  | block :: rest => blockCallFree block && blocksCallFree rest

end

attribute [simp] Operand.isCallFree Node.isCallFree operandsCallFree blockCallFree blocksCallFree

/-! ## Field numbers -/

def TypeTable.fieldNumber? (types : TypeTable) (type : TypeId) (member : String) : Option UInt16 :=
  (types.field? type member).map Prod.fst

/-- Members after an object in a slot, each with the number of its field. -/
def numberSteps (types : TypeTable) (slots : Slot → TypeId) :
    Slot → List MemberStep → List MemberStep
  | _, [] => []
  | object, step :: rest =>
    { step with field? := types.fieldNumber? (slots object) step.member } ::
      numberSteps types slots step.destination rest

def MemberChain.numbered (types : TypeTable) (slots : Slot → TypeId) (chain : MemberChain) :
    MemberChain :=
  { chain with steps := numberSteps types slots chain.source chain.steps }

mutual

def Operand.numbered (types : TypeTable) (slots : Slot → TypeId) : Operand → Operand
  | .variable slot => .variable slot
  | .literal value => .literal value
  | .string text => .string text
  | .node inner => .node (inner.numbered types slots)
  | .call invoked => .call invoked

def Node.numbered (types : TypeTable) (slots : Slot → TypeId) : Node → Node
  | .declaration name slot isMutable declared? value position =>
    .declaration name slot isMutable declared? (value.numbered types slots) position
  | .assignment slot value position => .assignment slot (value.numbered types slots) position
  | .access chain => .access (chain.numbered types slots)
  | .memberAssignment target member _ value position =>
    .memberAssignment (target.numbered types slots) member
      (types.fieldNumber? (slots target.valueSlot) member) (value.numbered types slots) position
  | .ret none locks position => .ret none locks position
  | .ret (some value) locks position => .ret (some (value.numbered types slots)) locks position
  | .binary operator lhs rhs destination position =>
    .binary operator (lhs.numbered types slots) (rhs.numbered types slots) destination position
  | .call invoked => .call invoked
  | .conditional conditions blocks position =>
    .conditional (operandsNumbered types slots conditions) (blocksNumbered types slots blocks)
      position
  | .loop condition body position =>
    .loop (condition.numbered types slots) (blockNumbered types slots body) position
  | .sync locks body position => .sync locks (blockNumbered types slots body) position

def operandsNumbered (types : TypeTable) (slots : Slot → TypeId) : List Operand → List Operand
  | [] => []
  | value :: rest => value.numbered types slots :: operandsNumbered types slots rest

def blockNumbered (types : TypeTable) (slots : Slot → TypeId) : List Node → List Node
  | [] => []
  | node :: rest => node.numbered types slots :: blockNumbered types slots rest

def blocksNumbered (types : TypeTable) (slots : Slot → TypeId) :
    List (List Node) → List (List Node)
  | [] => []
  | block :: rest => blockNumbered types slots block :: blocksNumbered types slots rest

end

attribute [simp] Operand.numbered Node.numbered operandsNumbered blockNumbered blocksNumbered

/-! ## Members -/

theorem MemberChain.valueSlot_cons (source : Slot) (step : MemberStep) (rest : List MemberStep)
    (position place : Position) :
    valueSlot ⟨source, step :: rest, position⟩ = valueSlot ⟨step.destination, rest, place⟩ := by
  cases rest with
  | nil => rfl
  | cons next others =>
    simp only [valueSlot, List.getLast?_cons_cons]
    rw [List.getLast?_eq_some_getLast (List.cons_ne_nil next others)]

theorem Leads.type_eq {types} {slots : Slot → TypeId} {source steps type}
    (leads : Leads types slots type steps final)
    (position : Position) (held : slots source = type) :
    slots (MemberChain.valueSlot ⟨source, steps, position⟩) = final := by
  induction leads generalizing source with
  | done => exact held
  | step _ stepHeld _ ih =>
    rw [MemberChain.valueSlot_cons]
    exact ih stepHeld

theorem MemberChain.valueSlot_numbered (types : TypeTable) (slots : Slot → TypeId)
    (chain : MemberChain) : (chain.numbered types slots).valueSlot = chain.valueSlot := by
  obtain ⟨source, steps, position⟩ := chain
  induction steps generalizing source with
  | nil => rfl
  | cons step rest ih =>
    rw [valueSlot_cons _ step rest position position, ← ih]
    exact valueSlot_cons _ _ _ position position

/-! ## Acceptance -/

def Operand.Accepted (types : TypeTable) (slots : Slot → TypeId) (value : Operand)
    (type : TypeId) : Prop :=
  value.isCallFree = true ∧ OperandTyped types slots value type

def Node.Accepted (env : TypeEnv) (isMutable : Slot → Prop) (slots : Slot → TypeId)
    (node : Node) : Prop :=
  node.isCallFree = true ∧ NodeTyped env isMutable slots node

def ConditionsAccepted (types : TypeTable) (slots : Slot → TypeId) (conditions : List Operand) :
    Prop :=
  operandsCallFree conditions = true ∧
    ∀ condition ∈ conditions, OperandTyped types slots condition .bool

def BlockAccepted (env : TypeEnv) (isMutable : Slot → Prop) (slots : Slot → TypeId)
    (block : List Node) : Prop :=
  blockCallFree block = true ∧ ∀ node ∈ block, NodeTyped env isMutable slots node

def BlocksAccepted (env : TypeEnv) (isMutable : Slot → Prop) (slots : Slot → TypeId)
    (blocks : List (List Node)) : Prop :=
  blocksCallFree blocks = true ∧
    ∀ block ∈ blocks, ∀ node ∈ block, NodeTyped env isMutable slots node

section Rules

variable {slot : Slot} {value : Operand}

variable {invoked : Call} {locks : Nat} {condition : Operand} {body : List Node}

variable {types : TypeTable} {env : TypeEnv} {isMutable : Slot → Prop} {slots : Slot → TypeId}
  {position : Position} {type : TypeId}

theorem leads_cons_iff {step rest} :
    Leads types slots type (step :: rest) final ↔
      ∃ number fieldType, types.field? type step.member = some (number, fieldType) ∧
        slots step.destination = fieldType ∧ Leads types slots fieldType rest final := by
  simp only [TypeTable.field?_eq_some_iff]
  constructor
  · intro leads
    have .step field held others := leads
    exact ⟨_, _, field, held, others⟩
  · rintro ⟨number, fieldType, field, held, others⟩
    exact .step field held others

theorem leads_nil_iff : Leads types slots type [] final ↔ type = final := by
  constructor
  · intro leads
    cases leads
    rfl
  · rintro rfl
    exact .done

theorem accepted_variable_iff :
    (Operand.variable slot).Accepted types slots type ↔ slots slot = type := by
  constructor
  · rintro ⟨_, typed⟩
    cases typed
    rfl
  · rintro rfl
    exact ⟨by simp [Operand.isCallFree], .variable⟩

theorem accepted_literal_iff {value} :
    (Operand.literal value).Accepted types slots type ↔ value.type = type := by
  constructor
  · rintro ⟨_, typed⟩
    cases typed
    rfl
  · rintro rfl
    exact ⟨by simp [Operand.isCallFree], .literal⟩

theorem accepted_string_iff {text} :
    (Operand.string text).Accepted types slots type ↔ TypeId.string = type := by
  constructor
  · rintro ⟨_, typed⟩
    cases typed
    rfl
  · rintro rfl
    exact ⟨by simp [Operand.isCallFree], .string⟩

theorem not_accepted_call : ¬ (Operand.call invoked).Accepted types slots type := by
  simp [Operand.Accepted, Operand.isCallFree]

theorem accepted_access_iff {chain} :
    (Operand.node (.access chain)).Accepted types slots type ↔
      Leads types slots (slots chain.source) chain.steps type := by
  constructor
  · rintro ⟨_, typed⟩
    have .access members := typed
    exact members
  · intro members
    exact ⟨by simp [Operand.isCallFree, Node.isCallFree], .access members⟩

theorem accepted_binary_iff {operator lhs rhs destination} :
    (Operand.node (.binary operator lhs rhs destination position)).Accepted types slots type ↔
      ∃ leftType rightType, lhs.Accepted types slots leftType ∧ rhs.Accepted types slots rightType ∧
        operator.resultType? leftType rightType = some type ∧ slots destination = type := by
  simp only [Operand.Accepted, Operand.isCallFree, Node.isCallFree, Bool.and_eq_true]
  constructor
  · rintro ⟨⟨leftFree, rightFree⟩, typed⟩
    have .binary left right result held := typed
    exact ⟨_, _, ⟨leftFree, left⟩, ⟨rightFree, right⟩, result, held⟩
  · rintro ⟨leftType, rightType, ⟨leftFree, left⟩, ⟨rightFree, right⟩, result, held⟩
    exact ⟨⟨leftFree, rightFree⟩, .binary left right result held⟩

theorem accepted_declaration_iff {name mutable declared?} :
    (Node.declaration name slot mutable declared? value position).Accepted env isMutable slots ↔
      ∃ type, value.Accepted env.types slots type ∧
        (∀ declared ∈ declared?, env.types.lookup? declared.name = some type) ∧
        slots slot = type := by
  constructor
  · rintro ⟨free, typed⟩
    have .declaration initial declared held := typed
    exact ⟨_, ⟨free, initial⟩, declared, held⟩
  · rintro ⟨type, ⟨free, initial⟩, declared, held⟩
    exact ⟨free, .declaration initial declared held⟩

theorem accepted_assignment_iff :
    (Node.assignment slot value position).Accepted env isMutable slots ↔
      isMutable slot ∧ value.Accepted env.types slots (slots slot) := by
  constructor
  · rintro ⟨free, typed⟩
    have .assignment mutable assigned := typed
    exact ⟨mutable, free, assigned⟩
  · rintro ⟨mutable, free, assigned⟩
    exact ⟨free, .assignment mutable assigned⟩

theorem accepted_memberAssignment_iff {target member field?} :
    (Node.memberAssignment target member field? value position).Accepted env isMutable slots ↔
      isMutable target.source ∧ ∃ objectType number fieldType,
        Leads env.types slots (slots target.source) target.steps objectType ∧
        env.types.field? objectType member = some (number, fieldType) ∧
        value.Accepted env.types slots fieldType := by
  simp only [Node.Accepted, Operand.Accepted, Node.isCallFree, TypeTable.field?_eq_some_iff]
  constructor
  · rintro ⟨free, typed⟩
    have .memberAssignment mutable object field assigned := typed
    exact ⟨mutable, _, _, _, object, field, free, assigned⟩
  · rintro ⟨mutable, objectType, number, fieldType, object, field, free, assigned⟩
    exact ⟨free, .memberAssignment mutable object field assigned⟩

theorem accepted_ret_iff :
    (Node.ret none locks position).Accepted env isMutable slots ↔ none = env.returnType? := by
  constructor
  · rintro ⟨_, typed⟩
    have .ret noResult := typed
    exact noResult.symm
  · intro noResult
    exact ⟨by simp [Node.isCallFree], .ret noResult.symm⟩

theorem accepted_retValue_iff :
    (Node.ret (some value) locks position).Accepted env isMutable slots ↔
      ∃ type, value.Accepted env.types slots type ∧ some type = env.returnType? := by
  constructor
  · rintro ⟨free, typed⟩
    have .retValue returned result := typed
    exact ⟨_, ⟨free, returned⟩, result.symm⟩
  · rintro ⟨type, ⟨free, returned⟩, result⟩
    exact ⟨free, .retValue returned result.symm⟩

theorem not_accepted_callStatement : ¬ (Node.call invoked).Accepted env isMutable slots := by
  simp [Node.Accepted, Node.isCallFree]

theorem accepted_conditional_iff {conditions blocks} :
    (Node.conditional conditions blocks position).Accepted env isMutable slots ↔
      ConditionsAccepted env.types slots conditions ∧
        BlocksAccepted env isMutable slots blocks := by
  simp only [Node.Accepted, ConditionsAccepted, BlocksAccepted, Node.isCallFree, Bool.and_eq_true]
  constructor
  · rintro ⟨⟨conditionsFree, blocksFree⟩, typed⟩
    have .conditional tested entered := typed
    exact ⟨⟨conditionsFree, tested⟩, blocksFree, entered⟩
  · rintro ⟨⟨conditionsFree, tested⟩, blocksFree, entered⟩
    exact ⟨⟨conditionsFree, blocksFree⟩, .conditional tested entered⟩

theorem accepted_loop_iff :
    (Node.loop condition body position).Accepted env isMutable slots ↔
      condition.Accepted env.types slots .bool ∧ BlockAccepted env isMutable slots body := by
  simp only [Node.Accepted, Operand.Accepted, BlockAccepted, Node.isCallFree, Bool.and_eq_true]
  constructor
  · rintro ⟨⟨conditionFree, bodyFree⟩, typed⟩
    have .loop tested repeated := typed
    exact ⟨⟨conditionFree, tested⟩, bodyFree, repeated⟩
  · rintro ⟨⟨conditionFree, tested⟩, bodyFree, repeated⟩
    exact ⟨⟨conditionFree, bodyFree⟩, .loop tested repeated⟩

theorem accepted_sync_iff {locks} :
    (Node.sync locks body position).Accepted env isMutable slots ↔
      BlockAccepted env isMutable slots body := by
  constructor
  · rintro ⟨free, typed⟩
    have .sync guarded := typed
    exact ⟨free, guarded⟩
  · rintro ⟨free, guarded⟩
    exact ⟨free, .sync guarded⟩

theorem conditionsAccepted_cons_iff {rest} :
    ConditionsAccepted types slots (condition :: rest) ↔
      condition.Accepted types slots .bool ∧ ConditionsAccepted types slots rest := by
  simp only [ConditionsAccepted, Operand.Accepted, operandsCallFree, Bool.and_eq_true,
    List.forall_mem_cons]
  exact and_and_and_comm

theorem blockAccepted_cons_iff {node rest} :
    BlockAccepted env isMutable slots (node :: rest) ↔
      node.Accepted env isMutable slots ∧ BlockAccepted env isMutable slots rest := by
  simp only [BlockAccepted, Node.Accepted, blockCallFree, Bool.and_eq_true, List.forall_mem_cons]
  exact and_and_and_comm

theorem blocksAccepted_cons_iff {block rest} :
    BlocksAccepted env isMutable slots (block :: rest) ↔
      BlockAccepted env isMutable slots block ∧ BlocksAccepted env isMutable slots rest := by
  simp only [BlocksAccepted, BlockAccepted, blocksCallFree, Bool.and_eq_true, List.forall_mem_cons]
  exact and_and_and_comm

theorem conditionsAccepted_nil : ConditionsAccepted types slots [] :=
  ⟨by simp [operandsCallFree], fun _ member => absurd member List.not_mem_nil⟩

theorem blockAccepted_nil : BlockAccepted env isMutable slots [] :=
  ⟨by simp [blockCallFree], fun _ member => absurd member List.not_mem_nil⟩

theorem blocksAccepted_nil : BlocksAccepted env isMutable slots [] :=
  ⟨by simp [blocksCallFree], fun _ member => absurd member List.not_mem_nil⟩

end Rules

end SlotCompiler
