import SlotCompiler.Proofs.Tree.Targets

/-!
Contract: what a body does to its variables, in the order in which it is read.
-/

namespace SlotCompiler

variable {frame later : Variables} {slot : Slot} {before after : Context}

/-- Something that happens to the variables while a body is read.  `ρ` is what is
known of a variable that is used, and `σ` of one that is new. -/
inductive BodyEvent (ρ σ : Type) where
  /-- A block begins that holds some locks. -/
  | opens (locks : Nat)
  | closes
  | declares (name : String) (isMutable : Bool) (given : σ)
  /-- The result of an operator or of a member has a variable of its own. -/
  | computes (given : σ)
  | uses (referred : ρ)
  | calls (name : String)
deriving DecidableEq, Repr

/-- An event of a tree, where variables are known by their slots. -/
abbrev SlotEvent := BodyEvent Slot Slot

/-- Events in a block of their own. -/
def enclosed {ρ σ : Type} (locks : Nat) (events : List (BodyEvent ρ σ)) :
    List (BodyEvent ρ σ) :=
  .opens locks :: events ++ [.closes]

/-- The parts of two rows in turn, and what is left of the longer one. -/
def alternate {α : Type} : List (List α) → List (List α) → List α
  | [], blocks => blocks.flatten
  | conditions, [] => conditions.flatten
  | condition :: conditions, block :: blocks => condition ++ block ++ alternate conditions blocks

/-! ## Events of trees -/

def stepsTrace (members : List MemberStep) : List SlotEvent :=
  members.map fun step => .computes step.destination

mutual

def Operand.trace : Operand → List SlotEvent
  | .variable slot => [.uses slot]
  | .literal _ => []
  | .string _ => []
  | .node inner => inner.trace
  | .call invoked => invoked.trace

def Call.trace : Call → List SlotEvent
  | ⟨name, arguments, _⟩ => (operandsTraces arguments).flatten ++ [.calls name]

def Node.trace : Node → List SlotEvent
  | .declaration name slot isMutable _ value _ => value.trace ++ [.declares name isMutable slot]
  | .assignment slot value _ => .uses slot :: value.trace
  | .access chain => .uses chain.source :: stepsTrace chain.steps
  | .memberAssignment target _ _ value _ =>
    .uses target.source :: stepsTrace target.steps ++ value.trace
  | .ret none _ _ => []
  | .ret (some value) _ _ => value.trace
  | .binary _ lhs rhs destination _ => lhs.trace ++ rhs.trace ++ [.computes destination]
  | .call invoked => invoked.trace
  | .conditional conditions blocks _ => alternate (operandsTraces conditions) (blocksTraces blocks)
  | .loop condition body _ => condition.trace ++ enclosed 0 (nodesTrace body)
  | .sync locks body _ =>
    locks.map (fun lock => .uses lock.slot) ++ enclosed locks.length (nodesTrace body)

def operandsTraces : List Operand → List (List SlotEvent)
  | [] => []
  | value :: rest => value.trace :: operandsTraces rest

/-- The events of all statements of a block. -/
def nodesTrace : List Node → List SlotEvent
  | [] => []
  | node :: rest => node.trace ++ nodesTrace rest

def blocksTraces : List (List Node) → List (List SlotEvent)
  | [] => []
  | block :: rest => enclosed 0 (nodesTrace block) :: blocksTraces rest

end

attribute [simp] Operand.trace Call.trace Node.trace operandsTraces nodesTrace blocksTraces

def TreePart.trace : TreePart → List SlotEvent
  | .operand value => value.trace
  | .operands values => (operandsTraces values).flatten
  | .steps members => stepsTrace members
  | .node statement => statement.trace
  | .nodes statements => nodesTrace statements
  | .block locks statements => enclosed locks (nodesTrace statements)
  | .arms conditions blocks => alternate (operandsTraces conditions) (blocksTraces blocks)

theorem TreePart.trace_alternative (otherwise : List Node) :
    (TreePart.arms [] [otherwise]).trace = enclosed 0 (nodesTrace otherwise) := by
  simp [TreePart.trace, alternate]

def parametersTrace (parameters : List Parameter) : List SlotEvent :=
  parameters.map fun parameter => .declares parameter.name parameter.isMutable parameter.slot

/-- The events of a function, whose parameters are declared first. -/
def FunctionItem.trace (item : FunctionItem) : List SlotEvent :=
  parametersTrace item.parameters ++ nodesTrace item.body

/-! ## Slots of events -/

namespace BodyEvent

def slots : SlotEvent → List Slot
  | .declares _ _ slot => [slot]
  | .computes slot => [slot]
  | .uses slot => [slot]
  | _ => []

def definition? : SlotEvent → Option (Slot × Variable)
  | .declares name isMutable slot =>
    some (slot, { name, isTemporary := false, isMutable, type? := none })
  | .computes slot =>
    some (slot,
      { name := s!"$t{slot.toNat}", isTemporary := true, isMutable := false, type? := none })
  | _ => none

end BodyEvent

def definitions (events : List SlotEvent) : List (Slot × Variable) :=
  events.filterMap BodyEvent.definition?

@[simp] theorem definitions_append (first second : List SlotEvent) :
    definitions (first ++ second) = definitions first ++ definitions second :=
  List.filterMap_append

@[simp] theorem definitions_enclosed (locks : Nat) (events : List SlotEvent) :
    definitions (enclosed locks events) = definitions events := by
  have nothing : definitions [.closes] = [] := rfl
  show definitions (events ++ [.closes]) = definitions events
  rw [definitions_append, nothing, List.append_nil]

/-! ## Variables defined -/

namespace Variables

/-- The definitions were added to a frame one after the other, and its earlier
variables are untouched. -/
structure Defines (frame : Variables) (defined : List (Slot × Variable)) (later : Variables) :
    Prop where
  handsOut : frame.HandsOut (defined.map Prod.fst) later
  recorded : ∀ definition ∈ defined, later.get? definition.1 = some definition.2
  kept : ∀ {slot entry}, frame.get? slot = some entry → later.get? slot = some entry

namespace Defines

theorem nothing (frame : Variables) : frame.Defines [] frame :=
  ⟨.nothing frame, fun _ member => absurd member List.not_mem_nil, id⟩

theorem append {middle first second} (early : frame.Defines first middle)
    (late : middle.Defines second later) :
    frame.Defines (first ++ second) later where
  handsOut := by
    rw [List.map_append]
    exact early.handsOut.append late.handsOut
  recorded := by
    intro definition member
    rcases List.mem_append.mp member with isFirst | isSecond
    · exact late.kept (early.recorded definition isFirst)
    · exact late.recorded definition isSecond
  kept found := late.kept (early.kept found)

end Defines

theorem append_defines {entry : Variable} (unknown : entry.type? = none)
    (appended : frame.append entry = (some slot, later)) : frame.Defines [(slot, entry)] later := by
  have takes := append_takes unknown appended
  obtain ⟨_, _, entriesEq⟩ := append_eq_some appended
  refine ⟨takes.handsOut, ?_, ?_⟩
  · intro definition member
    rw [List.mem_singleton.mp member]
    show later.entries[slot.toNat]? = some entry
    rw [entriesEq, takes.slot_eq]
    exact Array.getElem?_push_size
  · intro other found frameFound
    show later.entries[other.toNat]? = some found
    have inFrame := (Array.getElem?_eq_some_iff.mp frameFound).1
    rw [entriesEq, Array.getElem?_push, if_neg (Nat.ne_of_lt inFrame)]
    exact frameFound

end Variables

theorem Context.Adds.defines (adds : before.Adds slot after) :
    before.frame.Defines (definitions [.computes slot]) after.frame := by
  have slotEq := adds.takes.slot_eq
  obtain ⟨frame, added, rfl⟩ := adds
  have defines := Variables.append_defines rfl added
  rw [← slotEq] at defines
  exact defines

theorem Context.Declares.defines {name isMutable}
    (declares : before.Declares name isMutable slot after) :
    before.frame.Defines (definitions [.declares name isMutable slot]) after.frame := by
  obtain ⟨_, frame, scopes, added, _, rfl⟩ := declares
  exact Variables.append_defines rfl added

theorem Reads.defines {part} (read : Reads part before after) :
    before.frame.Defines (definitions part.trace) after.frame := by
  induction read with
  | visible | literal | string | noOperands | noSteps | ret | noNodes | noAlternative =>
    exact .nothing _
  | access _ _ projected => exact projected
  | @binary _ lhs rhs _ _ _ _ _ _ _ _ added left right =>
    show Variables.Defines _ (definitions (lhs.trace ++ rhs.trace ++ _)) _
    rw [definitions_append, definitions_append]
    exact (left.append right).append added.defines
  | @call invoked _ _ _ _ recorded arguments =>
    rw [recorded.frame_eq]
    cases invoked
    show Variables.Defines _ (definitions (List.flatten _ ++ [.calls _])) _
    rw [definitions_append]
    exact arguments.append (.nothing _)
  | moreOperands _ _ head tail =>
    show Variables.Defines _ (definitions (Operand.trace _ ++ List.flatten _)) _
    rw [definitions_append]
    exact head.append tail
  | moreSteps added _ tail => exact added.defines.append tail
  | declaration _ declared initial =>
    show Variables.Defines _ (definitions (Operand.trace _ ++ _)) _
    rw [definitions_append]
    exact initial.append declared.defines
  | assignment _ _ assigned => exact assigned
  | @memberAssignment _ _ target _ value _ _ _ _ _ _ _ projected assigned =>
    show Variables.Defines _ (definitions (stepsTrace target.steps ++ value.trace)) _
    rw [definitions_append]
    exact projected.append assigned
  | retValue _ returned => exact returned
  | callStatement _ called => exact called
  | conditional _ chained => exact chained
  | loop _ _ tested repeated =>
    show Variables.Defines _ (definitions (Operand.trace _ ++ enclosed 0 _)) _
    rw [definitions_append]
    exact tested.append repeated
  | @sync locks body _ _ _ _ _ _ _ guarded =>
    have noLocks : definitions (locks.map fun lock => .uses lock.slot) = [] := by
      simp [definitions, BodyEvent.definition?]
    show Variables.Defines _
      (definitions (locks.map _ ++ enclosed locks.length (nodesTrace body))) _
    rw [definitions_append, noLocks]
    exact guarded
  | moreNodes _ _ head tail =>
    show Variables.Defines _ (definitions (Node.trace _ ++ nodesTrace _)) _
    rw [definitions_append]
    exact head.append tail
  | block _ inside =>
    show Variables.Defines _ (definitions (enclosed _ (nodesTrace _))) _
    rw [definitions_enclosed]
    exact inside
  | arm _ _ _ tested entered rest =>
    show Variables.Defines _
      (definitions (Operand.trace _ ++ enclosed 0 (nodesTrace _) ++ alternate _ _)) _
    rw [definitions_append, definitions_append]
    exact (tested.append entered).append rest
  | alternative _ entered =>
    rw [TreePart.trace_alternative]
    exact entered

/-! ## Slots mentioned -/

def SlotsBelow (bound : Nat) (events : List SlotEvent) : Prop :=
  ∀ event ∈ events, ∀ slot ∈ event.slots, slot.toNat < bound

namespace SlotsBelow

variable {bound : Nat} {events first second : List SlotEvent}

theorem nil (bound : Nat) : SlotsBelow bound [] := fun _ member => absurd member List.not_mem_nil

theorem single {event : SlotEvent} (below : ∀ slot ∈ event.slots, slot.toNat < bound) :
    SlotsBelow bound [event] := by
  intro other member
  rwa [List.mem_singleton.mp member]

theorem append (early : SlotsBelow bound first) (late : SlotsBelow bound second) :
    SlotsBelow bound (first ++ second) :=
  List.forall_mem_append.mpr ⟨early, late⟩

theorem mono {larger} (below : SlotsBelow bound events) (le : bound ≤ larger) :
    SlotsBelow larger events :=
  fun event member slot mentioned => (below event member slot mentioned).trans_le le

theorem enclose (below : SlotsBelow bound events) (locks : Nat) :
    SlotsBelow bound (enclosed locks events) :=
  ((single fun _ mentioned => absurd mentioned List.not_mem_nil).append below).append
    (single fun _ mentioned => absurd mentioned List.not_mem_nil)

end SlotsBelow

theorem Context.Bounded.uses {context : Context} {name} (bounded : context.Bounded)
    (grows : context.frame.Grows later) (found : context.scopes.lookup? name = some slot) :
    SlotsBelow later.size [.uses slot] := by
  apply SlotsBelow.single
  intro mentioned isSlot
  rw [List.mem_singleton.mp isSlot]
  exact (bounded.slot_lt found).trans_le grows.size_le

theorem Variables.Takes.mentions (takes : frame.Takes slot later) {event : SlotEvent}
    (slotsEq : event.slots = [slot]) : SlotsBelow later.size [event] := by
  apply SlotsBelow.single
  intro mentioned isSlot
  rw [slotsEq] at isSlot
  rw [List.mem_singleton.mp isSlot]
  exact takes.slot_lt

theorem Reads.slotsBelow {part} (read : Reads part before after)
    (bounded : before.Bounded) : SlotsBelow after.frame.size part.trace := by
  induction read with
  | literal | string | noOperands | noSteps | ret | noNodes | noAlternative => exact .nil _
  | visible found => exact bounded.uses (.refl _) found
  | access found projectedRead projected =>
    exact (bounded.uses projectedRead.grows found).append (projected bounded)
  | binary leftRead rightRead added left right =>
    have leftBelow := (left bounded).mono (rightRead.grows.trans added.takes.grows).size_le
    have rightBelow := (right (leftRead.bounded bounded)).mono added.takes.grows.size_le
    exact (leftBelow.append rightBelow).append (added.takes.mentions rfl)
  | @call invoked _ _ _ _ recorded arguments =>
    rw [recorded.frame_eq]
    cases invoked
    exact (arguments bounded).append (.single fun _ mentioned => absurd mentioned List.not_mem_nil)
  | moreOperands headRead tailRead head tail =>
    exact ((head bounded).mono tailRead.grows.size_le).append (tail (headRead.bounded bounded))
  | moreSteps added tailRead tail =>
    have addedBounded := bounded.of_scopes_eq added.takes.grows added.scopes_eq
    exact ((added.takes.mentions rfl).mono tailRead.grows.size_le).append (tail addedBounded)
  | declaration _ declared initial =>
    exact ((initial bounded).mono declared.takes.grows.size_le).append (declared.takes.mentions rfl)
  | assignment found assignedRead assigned =>
    exact (bounded.uses assignedRead.grows found).append (assigned bounded)
  | memberAssignment found projectedRead assignedRead projected assigned =>
    have usesBelow := bounded.uses (projectedRead.grows.trans assignedRead.grows) found
    have stepsBelow := (projected bounded).mono assignedRead.grows.size_le
    exact (usesBelow.append stepsBelow).append (assigned (projectedRead.bounded bounded))
  | retValue _ returned => exact returned bounded
  | callStatement _ called => exact called bounded
  | conditional _ chained => exact chained bounded
  | loop testedRead repeatedRead tested repeated =>
    exact ((tested bounded).mono repeatedRead.grows.size_le).append
      (repeated (testedRead.bounded bounded))
  | sync found _ _ guardedRead guarded =>
    refine SlotsBelow.append ?_ (guarded bounded)
    intro event member slot mentioned
    obtain ⟨lock, isLock, rfl⟩ := List.mem_map.mp member
    exact bounded.uses guardedRead.grows (found lock isLock) _ List.mem_cons_self slot mentioned
  | moreNodes headRead tailRead head tail =>
    exact ((head bounded).mono tailRead.grows.size_le).append (tail (headRead.bounded bounded))
  | block _ inside => exact (inside (bounded.enter _)).enclose _
  | arm testedRead enteredRead restRead tested entered rest =>
    have testedBelow := (tested bounded).mono (enteredRead.grows.trans restRead.grows).size_le
    have enteredBelow := (entered (testedRead.bounded bounded)).mono restRead.grows.size_le
    exact (testedBelow.append enteredBelow).append
      (rest (enteredRead.bounded (testedRead.bounded bounded)))
  | alternative _ entered =>
    rw [TreePart.trace_alternative]
    exact entered bounded

end SlotCompiler
