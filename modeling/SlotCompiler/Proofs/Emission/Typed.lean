import SlotCompiler.Proofs.Emission.Stock

/-!
Contract: the operands of emitted code.

All types are those of one table, the last one.  It agrees with every earlier
table on the slots that had a type there.
-/

namespace SlotCompiler

variable {type : TypeId}

namespace Instruction

def slots : Instruction → List Slot
  | .loadImmediate dst _ => [dst]
  | .loadConstant dst _ => [dst]
  | .move dst src => [dst, src]
  | .jumpIfFalse condition _ => [condition]
  | .retValue src => [src]
  | .binary _ dst lhs rhs => [dst, lhs, rhs]
  | .memberLoad dst object _ => [dst, object]
  | .memberStore object _ src => [object, src]
  | .syncAcquire slot _ => [slot]
  | .nop | .jump _ | .ret | .syncRelease _ => []

/-- The number of the string that an instruction loads. -/
def constant? : Instruction → Option UInt16
  | .loadConstant _ index => some index
  | _ => none

def kindType : ImmediateKind → TypeId
  | .int => .int
  | .float => .float
  | .bool => .bool

/-- The instruction fits the types of its slots and the result of its
function. -/
def WellTyped (types : TypeTable) (returnType? : Option TypeId) (frame : Variables) :
    Instruction → Prop
  | .loadImmediate dst value => frame.typeOf? dst = some (kindType value.kind)
  | .loadConstant dst _ => frame.typeOf? dst = some .string
  | .move dst src => ∃ type, frame.typeOf? src = some type ∧ frame.typeOf? dst = some type
  | .jumpIfFalse condition _ => frame.typeOf? condition = some .bool
  | .ret => returnType? = none
  | .retValue src => ∃ type, frame.typeOf? src = some type ∧ returnType? = some type
  | .binary operator dst lhs rhs => ∃ left right type, frame.typeOf? lhs = some left ∧
      frame.typeOf? rhs = some right ∧ frame.typeOf? dst = some type ∧
      operator.resultType? left right = some type
  | .memberLoad dst object field => ∃ type fields entry, frame.typeOf? object = some type ∧
      types.fields? type = some fields ∧ fields[field.toNat]? = some entry ∧
      frame.typeOf? dst = some entry.type
  | .memberStore object field src => ∃ type fields entry, frame.typeOf? object = some type ∧
      types.fields? type = some fields ∧ fields[field.toNat]? = some entry ∧
      frame.typeOf? src = some entry.type
  | .nop | .jump _ | .syncAcquire _ _ | .syncRelease _ => True

end Instruction

def Stock.Supplies (stock : Stock) : Instruction → Prop
  | .loadConstant _ index => index.toNat < stock.constants.size
  | .syncAcquire slot _ => ∃ type, stock.frame.typeOf? slot = some type
  | _ => True

def Instruction.Fits (types : TypeTable) (returnType? : Option TypeId) (stock : Stock)
    (instruction : Instruction) : Prop :=
  instruction.WellTyped types returnType? stock.frame ∧ stock.Supplies instruction

namespace Instruction.Fits

variable {types : TypeTable} {returnType? : Option TypeId} {stock : Stock}
  {instruction : Instruction}

theorem slot_typed (fits : instruction.Fits types returnType? stock) {slot}
    (member : slot ∈ instruction.slots) : ∃ type, stock.frame.typeOf? slot = some type := by
  obtain ⟨typed, supplied⟩ := fits
  cases instruction with
  | loadImmediate dst value | loadConstant dst index | jumpIfFalse condition offset =>
    rw [List.mem_singleton.mp member]
    exact ⟨_, typed⟩
  | syncAcquire slot exclusive =>
    rw [List.mem_singleton.mp member]
    exact supplied
  | retValue src =>
    obtain ⟨type, known, _⟩ := typed
    rw [List.mem_singleton.mp member]
    exact ⟨type, known⟩
  | move dst src =>
    obtain ⟨type, srcKnown, dstKnown⟩ := typed
    rcases List.mem_pair.mp member with rfl | rfl
    · exact ⟨type, dstKnown⟩
    · exact ⟨type, srcKnown⟩
  | binary operator dst lhs rhs =>
    obtain ⟨left, right, type, leftKnown, rightKnown, known, _⟩ := typed
    rcases List.mem_cons.mp member with rfl | isOperand
    · exact ⟨type, known⟩
    rcases List.mem_pair.mp isOperand with rfl | rfl
    · exact ⟨left, leftKnown⟩
    · exact ⟨right, rightKnown⟩
  | memberLoad dst object field =>
    obtain ⟨type, _, entry, objectKnown, _, _, known⟩ := typed
    rcases List.mem_pair.mp member with rfl | rfl
    · exact ⟨entry.type, known⟩
    · exact ⟨type, objectKnown⟩
  | memberStore object field src =>
    obtain ⟨type, _, entry, objectKnown, _, _, known⟩ := typed
    rcases List.mem_pair.mp member with rfl | rfl
    · exact ⟨type, objectKnown⟩
    · exact ⟨entry.type, known⟩
  | nop | jump | ret | syncRelease => exact absurd member List.not_mem_nil

theorem constant_lt (fits : instruction.Fits types returnType? stock) {index}
    (member : index ∈ instruction.constant?) : index.toNat < stock.constants.size := by
  cases instruction with
  | loadConstant dst loaded =>
    rw [Option.some.inj member.symm]
    exact fits.2
  | _ => contradiction

end Instruction.Fits

theorem kindType_kind (value : Immediate) : Instruction.kindType value.kind = value.type := by
  cases value <;> rfl

theorem TypeTable.exists_field_of_fieldAt? {types : TypeTable} {fieldType number}
    (found : types.fieldAt? type number = some fieldType) :
    ∃ fields entry, types.fields? type = some fields ∧ fields[number.toNat]? = some entry ∧
      entry.type = fieldType := by
  obtain ⟨fields, isStruct, found⟩ := Option.bind_eq_some_iff.mp found
  obtain ⟨entry, atNumber, found⟩ := Option.bind_eq_some_iff.mp found
  exact ⟨fields, entry, isStruct, atNumber, Option.some.inj found⟩

section Code

variable {types : TypeTable} {returnType? : Option TypeId} {stock finish last : Stock}
  {code : List Instruction}

variable {value : Operand}

private theorem memberLoads?_fits {object objectType steps}
    (loaded : memberLoads? object steps = some code)
    (known : last.frame.typeOf? object = some objectType)
    (members : HasMembers types last.frame objectType steps) :
    ∀ instruction ∈ code, instruction.Fits types returnType? last := by
  induction steps generalizing object objectType code with
  | nil =>
    cases loaded
    exact fun _ member => absurd member List.not_mem_nil
  | cons step rest ih =>
    obtain ⟨field, others, fieldEq, restLoaded, rfl⟩ := memberLoads?_cons loaded
    obtain ⟨number, fieldType, numbered, isField, stepKnown, restMembers⟩ := members
    rw [fieldEq] at numbered
    cases numbered
    obtain ⟨fields, entry, isStruct, atNumber, rfl⟩ := TypeTable.exists_field_of_fieldAt? isField
    exact List.forall_mem_cons.mpr
      ⟨⟨⟨objectType, fields, entry, known, isStruct, atNumber, stepKnown⟩, trivial⟩,
        ih restLoaded stepKnown restMembers⟩

private theorem constant_lt_of_intern? {text index}
    (interned : stock.intern? text = some (index, finish)) (within : stock.Bounded)
    (grows : finish.Grows last) : index.toNat < last.constants.size :=
  (Array.getElem?_eq_some_iff.mp
    (constant_of_grows grows.constants (Stock.intern?_constant within interned))).1

theorem Loads.fits {slot} (loads : Loads value slot stock code finish) (within : stock.Bounded)
    (grows : finish.Grows last) (typed : HasType types last.frame value type) :
    (∀ instruction ∈ code, instruction.Fits types returnType? last) ∧
      last.frame.typeOf? slot = some type := by
  induction loads generalizing type with
  | held =>
    have .held known := typed
    exact ⟨fun _ member => absurd member List.not_mem_nil, known⟩
  | @literal value _ _ _ allocated =>
    cases typed
    have known := grows.refines.keeps (Stock.temporary?_adds allocated).known
    refine ⟨List.forall_mem_singleton.mpr ⟨?_, trivial⟩, known⟩
    show last.frame.typeOf? _ = some (Instruction.kindType value.kind)
    rw [kindType_kind, known]
  | string allocated interned =>
    cases typed
    have adds := Stock.temporary?_adds allocated
    have known := adds.known
    rw [← Stock.intern?_frame_eq interned] at known
    have kept := grows.refines.keeps known
    exact ⟨List.forall_mem_singleton.mpr
      ⟨kept, constant_lt_of_intern? interned (adds.grows.bounded within) grows⟩, kept⟩
  | access loaded =>
    have .access object members known := typed
    exact ⟨memberLoads?_fits loaded object members, known⟩
  | binary leftLoaded rightLoaded left right =>
    have .binary leftTyped rightTyped result known := typed
    obtain ⟨leftCode, leftKnown⟩ := left within (rightLoaded.grows.trans grows) leftTyped
    obtain ⟨rightCode, rightKnown⟩ := right (leftLoaded.grows.bounded within) grows rightTyped
    refine ⟨List.forall_mem_append.mpr
      ⟨List.forall_mem_append.mpr ⟨leftCode, rightCode⟩,
        List.forall_mem_singleton.mpr ⟨?_, trivial⟩⟩, known⟩
    exact ⟨_, _, _, leftKnown, rightKnown, known, result⟩

theorem Stores.fits {dst} (stores : Stores value dst stock code finish) (within : stock.Bounded)
    (grows : finish.Grows last) (typed : HasType types last.frame value type)
    (known : last.frame.typeOf? dst = some type) :
    ∀ instruction ∈ code, instruction.Fits types returnType? last := by
  cases stores with
  | @literal value =>
    cases typed
    refine List.forall_mem_singleton.mpr ⟨?_, trivial⟩
    show last.frame.typeOf? dst = some (Instruction.kindType value.kind)
    rw [kindType_kind, known]
  | string interned =>
    cases typed
    exact List.forall_mem_singleton.mpr ⟨known, constant_lt_of_intern? interned within grows⟩
  | kept _ loaded => exact (loaded.fits within grows typed).1
  | moved _ loaded =>
    obtain ⟨fits, srcKnown⟩ := loaded.fits within grows typed
    exact List.forall_mem_append.mpr
      ⟨fits, List.forall_mem_singleton.mpr ⟨⟨type, srcKnown, known⟩, trivial⟩⟩

private theorem releases_fits (locks : Nat) :
    ∀ instruction ∈ releases locks, instruction.Fits types returnType? last := by
  unfold releases
  split
  · exact List.forall_mem_singleton.mpr ⟨trivial, trivial⟩
  · exact fun _ member => absurd member List.not_mem_nil

private theorem acquisitions_fits {locks}
    (held : ∀ lock ∈ locks, ∃ type, last.frame.typeOf? lock.slot = some type) :
    ∀ instruction ∈ acquisitions locks, instruction.Fits types returnType? last := by
  intro instruction member
  obtain ⟨lock, isLock, rfl⟩ := List.mem_map.mp member
  exact ⟨trivial, held lock isLock⟩

end Code

theorem Emits.fits {env fragment stock finish last code}
    (emits : Emits fragment stock code finish) (within : stock.Bounded)
    (grows : finish.Grows last) (checked : Checked env last.frame fragment) :
    ∀ instruction ∈ code, instruction.Fits env.types env.returnType? last := by
  induction emits with
  | declaration stored =>
    have .declaration typed known := checked
    exact stored.fits within grows typed known
  | assignment stored =>
    have .assignment typed known := checked
    exact stored.fits within grows typed known
  | value loaded => cases loaded <;> cases checked
  | memberAssignment object loaded =>
    have .memberAssignment source members objectKnown field typed := checked
    obtain ⟨valueCode, srcKnown⟩ := loaded.fits within grows typed
    obtain ⟨fields, entry, isStruct, atNumber, rfl⟩ := TypeTable.exists_field_of_fieldAt? field
    exact List.forall_mem_append.mpr ⟨List.forall_mem_append.mpr
      ⟨memberLoads?_fits object source members, valueCode⟩,
      List.forall_mem_singleton.mpr
        ⟨⟨_, fields, entry, objectKnown, isStruct, atNumber, srcKnown⟩, trivial⟩⟩
  | ret =>
    have .ret noResult := checked
    exact List.forall_mem_append.mpr
      ⟨releases_fits _, List.forall_mem_singleton.mpr ⟨noResult, trivial⟩⟩
  | retValue loaded =>
    have .retValue typed result := checked
    obtain ⟨valueCode, srcKnown⟩ := loaded.fits within grows typed
    exact List.forall_mem_append.mpr
      ⟨List.forall_mem_append.mpr ⟨valueCode, releases_fits _⟩,
        List.forall_mem_singleton.mpr ⟨⟨_, srcKnown, result⟩, trivial⟩⟩
  | conditional _ arms =>
    have .conditional armsChecked := checked
    exact arms within grows armsChecked
  | loop tested repeatedEmitted _ _ repeated =>
    have .loop conditionTyped bodyChecked := checked
    obtain ⟨conditionCode, conditionKnown⟩ :=
      tested.fits within (repeatedEmitted.grows.trans grows) conditionTyped
    have bodyCode := repeated (tested.grows.bounded within) grows bodyChecked
    exact List.forall_mem_append.mpr ⟨List.forall_mem_append.mpr ⟨conditionCode,
      List.forall_mem_cons.mpr ⟨⟨conditionKnown, trivial⟩, bodyCode⟩⟩,
      List.forall_mem_singleton.mpr ⟨trivial, trivial⟩⟩
  | sync _ guarded =>
    have .sync held bodyChecked := checked
    exact List.forall_mem_append.mpr ⟨List.forall_mem_append.mpr
      ⟨acquisitions_fits held, guarded within grows bodyChecked⟩,
      List.forall_mem_singleton.mpr ⟨trivial, trivial⟩⟩
  | nil | done => exact fun _ member => absurd member List.not_mem_nil
  | cons headEmitted tailEmitted head tail =>
    have .cons headChecked tailChecked := checked
    exact List.forall_mem_append.mpr
      ⟨head within (tailEmitted.grows.trans grows) headChecked,
        tail (headEmitted.grows.bounded within) grows tailChecked⟩
  | arm conditionLoaded blockEmitted restEmitted _ _ block rest =>
    have .arm conditionTyped blockChecked restChecked := checked
    have restGrows := restEmitted.grows.trans grows
    have testedWithin := conditionLoaded.grows.bounded within
    obtain ⟨conditionCode, conditionKnown⟩ :=
      conditionLoaded.fits within (blockEmitted.grows.trans restGrows) conditionTyped
    have blockCode := block testedWithin restGrows blockChecked
    have restCode := rest (blockEmitted.grows.bounded testedWithin) grows restChecked
    exact List.forall_mem_append.mpr ⟨List.forall_mem_append.mpr ⟨conditionCode,
      List.forall_mem_cons.mpr ⟨⟨conditionKnown, trivial⟩, blockCode⟩⟩,
      List.forall_mem_cons.mpr ⟨⟨trivial, trivial⟩, restCode⟩⟩
  | alternative _ taken =>
    have .alternative blockChecked := checked
    exact taken within grows blockChecked

end SlotCompiler
