import SlotCompiler.Proofs.Parse.Frame
import SlotCompiler.Proofs.Tree.TypeRules

/-!
Contract: only mutable variables are assigned to.
-/

namespace SlotCompiler

variable {slot : Slot} {before after : Context}

def Variable.untyped (entry : Variable) : Variable := { entry with type? := none }

theorem Variable.isMutable_eq_of_untyped {first second : Variable}
    (same : first.untyped = second.untyped) : first.isMutable = second.isMutable := by
  show first.untyped.isMutable = second.untyped.isMutable
  rw [same]

theorem Variable.isTemporary_eq_of_untyped {first second : Variable}
    (same : first.untyped = second.untyped) : first.isTemporary = second.isTemporary := by
  show first.untyped.isTemporary = second.untyped.isTemporary
  rw [same]

namespace Variables

variable {frame later : Variables}

variable {first second third : Variables}

/-- No temporary may be assigned to. -/
def FixesTemporaries (frame : Variables) : Prop :=
  ∀ slot entry, frame.get? slot = some entry → entry.isTemporary = true → entry.isMutable = false

/-- All variables of a frame are in a later one, perhaps with other types, and
no temporary was added that may be assigned to. -/
structure Becomes (frame later : Variables) : Prop where
  keeps : ∀ {slot entry}, frame.get? slot = some entry →
    ∃ other, later.get? slot = some other ∧ other.untyped = entry.untyped
  fixes : frame.FixesTemporaries → later.FixesTemporaries

theorem Becomes.refl (frame : Variables) : frame.Becomes frame :=
  ⟨fun found => ⟨_, found, rfl⟩, id⟩

theorem Becomes.trans (early : first.Becomes second) (late : second.Becomes third) :
    first.Becomes third := by
  refine ⟨fun found => ?_, late.fixes ∘ early.fixes⟩
  obtain ⟨middle, middleFound, middleEq⟩ := early.keeps found
  obtain ⟨other, otherFound, otherEq⟩ := late.keeps middleFound
  exact ⟨other, otherFound, otherEq.trans middleEq⟩

def Retypes (frame later : Variables) : Prop :=
  ∀ slot, (later.get? slot).map Variable.untyped = (frame.get? slot).map Variable.untyped

theorem Retypes.refl (frame : Variables) : frame.Retypes frame := fun _ => rfl

theorem Retypes.trans (early : first.Retypes second) (late : second.Retypes third) :
    first.Retypes third :=
  fun slot => (late slot).trans (early slot)

theorem retypes_setType (frame : Variables) (slot : Slot) (type : TypeId) :
    frame.Retypes (frame.setType slot type) := by
  intro other
  unfold get? setType
  rw [Array.getElem?_modify]
  by_cases same : slot.toNat = other.toNat
  · rw [if_pos same, Option.map_map]
    rfl
  · rw [if_neg same]

theorem Retypes.becomes (retypes : frame.Retypes later) : frame.Becomes later := by
  constructor
  · intro slot entry found
    have same := retypes slot
    rw [found, Option.map_some, Option.map_eq_some_iff] at same
    exact same
  · intro fixes slot entry found isTemporary
    have same := retypes slot
    rw [found, Option.map_some, eq_comm, Option.map_eq_some_iff] at same
    obtain ⟨earlier, earlierFound, sameEntry⟩ := same
    rw [← Variable.isTemporary_eq_of_untyped sameEntry] at isTemporary
    rw [← Variable.isMutable_eq_of_untyped sameEntry]
    exact fixes slot earlier earlierFound isTemporary

theorem append_becomes {entry : Variable}
    (fixed : entry.isTemporary = true → entry.isMutable = false)
    (appended : frame.append entry = (some slot, later)) :
    frame.Becomes later ∧ later.get? slot = some entry := by
  obtain ⟨_, slotEq, entriesEq⟩ := append_eq_some appended
  refine ⟨⟨?_, ?_⟩, ?_⟩
  · intro other found isFound
    refine ⟨found, ?_, rfl⟩
    have inFrame := (Array.getElem?_eq_some_iff.mp isFound).1
    rw [get?, entriesEq]
    exact (Array.getElem?_push_lt inFrame).trans
      ((Array.getElem?_eq_getElem inFrame).symm.trans isFound)
  · intro fixes other found isFound
    rw [get?, entriesEq, Array.getElem?_push] at isFound
    split at isFound
    · cases isFound
      exact fixed
    · exact fixes other found isFound
  · rw [get?, slotEq, entriesEq]
    exact Array.getElem?_push_size

/-- A slot that may be assigned to. -/
def IsMutable (frame : Variables) (slot : Slot) : Prop :=
  ∃ entry, frame.get? slot = some entry ∧ entry.isMutable = true

theorem Becomes.isMutable (becomes : frame.Becomes later) (isMutable : frame.IsMutable slot) :
    later.IsMutable slot := by
  obtain ⟨entry, found, mutable⟩ := isMutable
  obtain ⟨other, otherFound, same⟩ := becomes.keeps found
  exact ⟨other, otherFound, (Variable.isMutable_eq_of_untyped same).trans mutable⟩

end Variables

/-! ## Reading -/

theorem Context.Adds.becomes (adds : before.Adds slot after) :
    before.frame.Becomes after.frame := by
  obtain ⟨frame, added, rfl⟩ := adds
  exact (Variables.append_becomes (fun _ => rfl) added).1

theorem Context.Declares.becomes {name isMutable}
    (declares : before.Declares name isMutable slot after) :
    before.frame.Becomes after.frame ∧
      after.frame.get? slot = some ⟨name, false, isMutable, none⟩ := by
  obtain ⟨_, frame, scopes, added, _, rfl⟩ := declares
  refine Variables.append_becomes ?_ added
  intro isTemporary
  contradiction

theorem Reads.becomes {part} (read : Reads part before after) :
    before.frame.Becomes after.frame := by
  refine read.relates (fun before after => before.frame.Becomes after.frame)
    (fun _ => .refl _) .trans (fun declares => declares.becomes.1) (fun adds => adds.becomes)
    (fun records => ?_) id
  rw [records.frame_eq]
  exact .refl _

theorem ReadsParameters.becomes {parameters}
    (read : ReadsParameters parameters before after) : before.frame.Becomes after.frame :=
  read.relates (fun before after => before.frame.Becomes after.frame)
    (fun _ => .refl _) .trans fun declares => declares.becomes.1

theorem ReadsParameters.entry {parameters} (read : ReadsParameters parameters before after)
    {parameter} (member : parameter ∈ parameters) :
    ∃ entry, after.frame.get? parameter.slot = some entry ∧ entry.isTemporary = false ∧
      entry.isMutable = parameter.isMutable := by
  induction read with
  | nil => exact absurd member List.not_mem_nil
  | cons declared rest ih =>
    rcases List.mem_cons.mp member with rfl | inRest
    · obtain ⟨entry, found, same⟩ := rest.becomes.keeps declared.becomes.2
      exact ⟨entry, found, Variable.isTemporary_eq_of_untyped same,
        Variable.isMutable_eq_of_untyped same⟩
    · exact ih inRest

/-! ## Assignments -/

mutual

def Node.assigned : Node → List Slot
  | .assignment slot _ _ => [slot]
  | .conditional _ blocks _ => blocksAssigned blocks
  | .loop _ body _ => blockAssigned body
  | .sync _ body _ => blockAssigned body
  | _ => []

def blockAssigned : List Node → List Slot
  | [] => []
  | node :: rest => node.assigned ++ blockAssigned rest

def blocksAssigned : List (List Node) → List Slot
  | [] => []
  | block :: rest => blockAssigned block ++ blocksAssigned rest

end

section Accepted

variable {env : TypeEnv} {isMutable : Slot → Prop} {slots : Slot → TypeId}

mutual

theorem Node.assigned_isMutable {node} (typed : NodeTyped env isMutable slots node) {slot}
    (assigned : slot ∈ node.assigned) : isMutable slot := by
  cases node with
  | assignment other value position =>
    rw [Node.assigned, List.mem_singleton] at assigned
    have .assignment mutable _ := typed
    exact assigned ▸ mutable
  | conditional conditions blocks position =>
    rw [Node.assigned] at assigned
    have .conditional _ entered := typed
    exact blocksAssigned_isMutable entered assigned
  | loop condition body position =>
    rw [Node.assigned] at assigned
    have .loop _ repeated := typed
    exact blockAssigned_isMutable repeated assigned
  | sync locks body position =>
    rw [Node.assigned] at assigned
    have .sync guarded := typed
    exact blockAssigned_isMutable guarded assigned
  | _ => simp [Node.assigned] at assigned

theorem blockAssigned_isMutable {block} (typed : ∀ node ∈ block, NodeTyped env isMutable slots node)
    {slot} (assigned : slot ∈ blockAssigned block) : isMutable slot := by
  cases block with
  | nil => simp [blockAssigned] at assigned
  | cons node rest =>
    obtain ⟨head, tail⟩ := List.forall_mem_cons.mp typed
    rw [blockAssigned, List.mem_append] at assigned
    rcases assigned with inHead | inTail
    · exact node.assigned_isMutable head inHead
    · exact blockAssigned_isMutable tail inTail

theorem blocksAssigned_isMutable {blocks}
    (typed : ∀ block ∈ blocks, ∀ node ∈ block, NodeTyped env isMutable slots node) {slot}
    (assigned : slot ∈ blocksAssigned blocks) : isMutable slot := by
  cases blocks with
  | nil => simp [blocksAssigned] at assigned
  | cons block rest =>
    obtain ⟨head, tail⟩ := List.forall_mem_cons.mp typed
    rw [blocksAssigned, List.mem_append] at assigned
    rcases assigned with inHead | inTail
    · exact blockAssigned_isMutable head inHead
    · exact blocksAssigned_isMutable tail inTail

end

end Accepted

end SlotCompiler
