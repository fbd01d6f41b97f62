import SlotCompiler.Proofs.Tree.Typing

/-!
Contract: what emission adds to the variables and constants of a function.
-/

namespace SlotCompiler

variable {slot : Slot} {type : TypeId} {text : String} {stock finish : Stock}
  {code : List Instruction}

theorem Variables.slot_lt_of_typeOf? {frame : Variables} (known : frame.typeOf? slot = some type) :
    slot.toNat < frame.size := by
  obtain ⟨entry, found, _⟩ := Option.bind_eq_some_iff.mp known
  exact (Array.getElem?_eq_some_iff.mp found).1

theorem constant_of_grows {constants later : Array String}
    (known : constants.toList <+: later.toList) {number : Nat}
    (found : constants[number]? = some text) : later[number]? = some text := by
  rw [← Array.getElem?_toList] at found ⊢
  obtain ⟨more, laterEq⟩ := known
  rw [← laterEq]
  exact (List.getElem?_append_left (List.getElem?_eq_some_iff.mp found).1).trans found

namespace Stock

variable {later : Stock} {index : UInt16}

/-- Every slot and every constant has a 16-bit number. -/
structure Bounded (stock : Stock) : Prop where
  frame_le : stock.frame.size ≤ Variables.capacity
  constants_le : stock.constants.size ≤ CodeBuffer.constantCapacity

/-- More variables, all typed, and more constants. -/
structure Grows (stock later : Stock) : Prop where
  size_le : stock.frame.size ≤ later.frame.size
  typeOf?_eq : ∀ slot, slot.toNat < stock.frame.size →
    later.frame.typeOf? slot = stock.frame.typeOf? slot
  typed : ∀ slot, Between stock.frame.size later.frame.size slot →
    ∃ type, later.frame.typeOf? slot = some type
  constants : stock.constants.toList <+: later.constants.toList
  bounded : stock.Bounded → later.Bounded

theorem Grows.refl (stock : Stock) : stock.Grows stock where
  size_le := le_refl _
  typeOf?_eq _ _ := rfl
  typed _ member := absurd member.1 (Nat.not_le.mpr member.2)
  constants := List.prefix_refl _
  bounded := id

theorem Grows.trans {first second third : Stock} (early : first.Grows second)
    (late : second.Grows third) : first.Grows third where
  size_le := early.size_le.trans late.size_le
  typeOf?_eq slot inFrame := by
    rw [late.typeOf?_eq slot (inFrame.trans_le early.size_le), early.typeOf?_eq slot inFrame]
  typed slot member := by
    by_cases isEarly : slot.toNat < second.frame.size
    · rw [late.typeOf?_eq slot isEarly]
      exact early.typed slot ⟨member.1, isEarly⟩
    · exact late.typed slot ⟨Nat.not_lt.mp isEarly, member.2⟩
  constants := early.constants.trans late.constants
  bounded := late.bounded ∘ early.bounded

theorem Grows.refines (grows : stock.Grows later) : stock.frame.Refines later.frame := by
  refine ⟨?_⟩
  intro slot type known
  rw [grows.typeOf?_eq slot (Variables.slot_lt_of_typeOf? known), known]

/-- A new temporary has the next slot and its type; nothing else changes. -/
structure Adds (stock : Stock) (slot : Slot) (type : TypeId) (later : Stock) : Prop where
  slot_eq : slot.toNat = stock.frame.size
  size_eq : later.frame.size = stock.frame.size + 1
  size_le : later.frame.size ≤ Variables.capacity
  known : later.frame.typeOf? slot = some type
  others : ∀ other, other ≠ slot → later.frame.typeOf? other = stock.frame.typeOf? other
  constants_eq : later.constants = stock.constants

theorem temporary?_adds (allocated : stock.temporary? type = some (slot, later)) :
    stock.Adds slot type later := by
  unfold temporary? at allocated
  split at allocated
  · rename_i given frame added
    cases allocated
    have takes := Variables.addTemporary_takes added
    have inFrame := takes.slot_lt
    refine ⟨takes.slot_eq, (Variables.size_setType ..).trans takes.size_eq,
      (Variables.size_setType ..).trans_le takes.size_le, ?_, ?_, rfl⟩
    · show (frame.setType slot type).typeOf? slot = some type
      rw [Variables.typeOf?_setType inFrame, if_pos rfl]
    · intro other apart
      show (frame.setType slot type).typeOf? other = stock.frame.typeOf? other
      rw [Variables.typeOf?_setType inFrame, if_neg apart, takes.typeOf?_eq]
  · contradiction

theorem Adds.slot_lt (adds : stock.Adds slot type later) : slot.toNat < later.frame.size := by
  rw [adds.slot_eq, adds.size_eq]
  exact Nat.lt_succ_self _

theorem Adds.grows (adds : stock.Adds slot type later) : stock.Grows later where
  size_le := by
    rw [adds.size_eq]
    exact Nat.le_succ _
  typeOf?_eq other inFrame := by
    apply adds.others
    rintro rfl
    exact absurd adds.slot_eq inFrame.ne
  typed other member := by
    have slotEq := adds.slot_eq
    have sizeEq := adds.size_eq
    have same : other = slot := by
      rw [← UInt16.toNat_inj]
      obtain ⟨lower, upper⟩ := member
      omega
    exact ⟨type, same ▸ adds.known⟩
  constants := by rw [adds.constants_eq]
  bounded within := ⟨adds.size_le, adds.constants_eq ▸ within.constants_le⟩

theorem intern?_grows (interned : stock.intern? text = some (index, later)) :
    stock.Grows later := by
  unfold intern? at interned
  split at interned
  · cases interned
    exact .refl stock
  · split at interned
    · rename_i hasRoom
      cases interned
      exact {
        size_le := le_refl _
        typeOf?_eq := fun _ _ => rfl
        typed := fun _ member => absurd member.1 (Nat.not_le.mpr member.2)
        constants := by
          rw [Array.toList_push]
          exact List.prefix_append _ _
        bounded := fun within => ⟨within.frame_le, by
          rw [Array.size_push]
          exact hasRoom⟩ }
    · contradiction

theorem intern?_frame_eq (interned : stock.intern? text = some (index, later)) :
    later.frame = stock.frame := by
  unfold intern? at interned
  split at interned
  · cases interned
    rfl
  · split at interned
    · cases interned
      rfl
    · contradiction

theorem intern?_constant (within : stock.Bounded)
    (interned : stock.intern? text = some (index, later)) :
    later.constants[index.toNat]? = some text := by
  have limit := within.constants_le
  unfold intern? at interned
  split at interned
  · rename_i place found
    cases interned
    obtain ⟨inPool, isText, _⟩ := Array.findIdx?_eq_some_iff_getElem.mp found
    rw [UInt16.toNat_ofNat_of_lt' (inPool.trans_le limit), Array.getElem?_eq_getElem inPool]
    rw [beq_iff_eq.mp isText]
  · split at interned
    · rename_i hasRoom
      cases interned
      rw [UInt16.toNat_ofNat_of_lt' hasRoom]
      exact Array.getElem?_push_size
    · contradiction

end Stock

abbrev Fragment.part : Fragment → TreePart
  | .node statement => .node statement
  | .nodes statements => .nodes statements
  | .arms conditions blocks => .arms conditions blocks

/-! ## Code only adds -/

theorem Loads.grows {value} (loads : Loads value slot stock code finish) : stock.Grows finish := by
  induction loads with
  | held => exact .refl _
  | literal allocated => exact (Stock.temporary?_adds allocated).grows
  | string allocated interned =>
    exact (Stock.temporary?_adds allocated).grows.trans (Stock.intern?_grows interned)
  | access => exact .refl _
  | binary _ _ left right => exact left.trans right

theorem Stores.grows {value dst} (stores : Stores value dst stock code finish) :
    stock.Grows finish := by
  cases stores with
  | literal => exact .refl _
  | string interned => exact Stock.intern?_grows interned
  | kept _ loaded => exact loaded.grows
  | moved _ loaded => exact loaded.grows

theorem Emits.grows {fragment} (emits : Emits fragment stock code finish) : stock.Grows finish := by
  induction emits with
  | declaration stored => exact stored.grows
  | assignment stored => exact stored.grows
  | value loaded => exact loaded.grows
  | memberAssignment _ loaded => exact loaded.grows
  | ret | nil | done => exact .refl _
  | retValue loaded => exact loaded.grows
  | conditional _ arms => exact arms
  | loop tested _ _ _ repeated => exact tested.grows.trans repeated
  | sync _ guarded => exact guarded
  | cons _ _ head tail => exact head.trans tail
  | arm conditionLoaded _ _ _ _ block rest => exact (conditionLoaded.grows.trans block).trans rest
  | alternative _ taken => exact taken

end SlotCompiler
