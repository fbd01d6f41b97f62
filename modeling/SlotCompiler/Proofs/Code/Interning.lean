import SlotCompiler.Proofs.Emission.Stock
import SlotCompiler.Proofs.Success

/-!
Contract: the pool of constants holds each of its strings once, under a number
that never changes.
-/

namespace SlotCompiler

namespace CodeBuffer

variable {buffer : CodeBuffer} {text : String}

/-- The buffer after strings were interned in turn.  A refused string does not end
this. -/
def internAll (buffer : CodeBuffer) (texts : List String) : CodeBuffer :=
  texts.foldl (fun buffer text => endState (intern text buffer)) buffer

/-- A string is found, appended, or refused. -/
theorem intern_cases (buffer : CodeBuffer) (text : String) :
    (∃ place, buffer.constants[place]? = some text ∧
      intern text buffer = .ok (UInt16.ofNat place) buffer) ∨
    (text ∉ buffer.constants ∧ buffer.constants.size < constantCapacity ∧
      intern text buffer = .ok (UInt16.ofNat buffer.constants.size)
        { buffer with constants := buffer.constants.push text }) ∨
    (text ∉ buffer.constants ∧ constantCapacity ≤ buffer.constants.size ∧
      intern text buffer = .error .tooManyConstants buffer) := by
  unfold intern
  cases found : buffer.constants.findIdx? (· == text) with
  | some place =>
    obtain ⟨inPool, isText, _⟩ := Array.findIdx?_eq_some_iff_getElem.mp found
    refine .inl ⟨place, ?_, rfl⟩
    rw [Array.getElem?_eq_getElem inPool, beq_iff_eq.mp isText]
  | none =>
    have isNew : text ∉ buffer.constants := fun member =>
      absurd (Array.findIdx?_eq_none_iff.mp found text member) (by simp)
    by_cases room : buffer.constants.size < constantCapacity
    · exact .inr (.inl ⟨isNew, room, if_pos room⟩)
    · exact .inr (.inr ⟨isNew, Nat.not_lt.mp room, if_neg room⟩)

/-- No string stands twice, and every string has a 16-bit number. -/
structure Interning (buffer : CodeBuffer) : Prop where
  distinct : buffer.constants.toList.Nodup
  size_le : buffer.constants.size ≤ constantCapacity

theorem Interning.intern (interning : buffer.Interning) (text : String) :
    (endState (CodeBuffer.intern text buffer)).Interning := by
  rcases buffer.intern_cases text with ⟨_, _, ran⟩ | ⟨isNew, room, ran⟩ | ⟨_, _, ran⟩
  · exact ran ▸ interning
  · rw [ran]
    refine ⟨?_, ?_⟩
    · show (buffer.constants.push text).toList.Nodup
      rw [Array.toList_push, List.nodup_append_comm]
      exact List.nodup_cons.mpr ⟨fun member => isNew (Array.mem_toList_iff.mp member),
        interning.distinct⟩
    · show (buffer.constants.push text).size ≤ constantCapacity
      rw [Array.size_push]
      exact room
  · exact ran ▸ interning

theorem Interning.internAll (interning : buffer.Interning) (texts : List String) :
    (buffer.internAll texts).Interning := by
  induction texts generalizing buffer with
  | nil => exact interning
  | cons text rest ih => exact ih (interning.intern text)

theorem interning_empty : empty.Interning := ⟨List.nodup_nil, Nat.zero_le _⟩

theorem internAll_grows (buffer : CodeBuffer) (texts : List String) :
    buffer.constants.toList <+: (buffer.internAll texts).constants.toList := by
  induction texts generalizing buffer with
  | nil => exact List.prefix_refl _
  | cons text rest ih =>
    refine .trans ?_ (ih (endState (intern text buffer)))
    rcases buffer.intern_cases text with ⟨_, _, ran⟩ | ⟨_, _, ran⟩ | ⟨_, _, ran⟩
    · rw [ran]
      exact List.prefix_refl _
    · rw [ran]
      exact Array.toList_push ▸ List.prefix_append _ _
    · rw [ran]
      exact List.prefix_refl _

/-- The number of a string leads back to it. -/
theorem Interning.constant_eq (interning : buffer.Interning) {index later}
    (ok : CodeBuffer.intern text buffer = .ok index later) :
    later.constants[index.toNat]? = some text := by
  have limit := interning.size_le
  rcases buffer.intern_cases text with ⟨place, found, ran⟩ | ⟨_, room, ran⟩ | ⟨_, _, ran⟩
  · cases ran.symm.trans ok
    have inPool := (Array.getElem?_eq_some_iff.mp found).1
    rw [UInt16.toNat_ofNat_of_lt' (inPool.trans_le limit)]
    exact found
  · cases ran.symm.trans ok
    rw [UInt16.toNat_ofNat_of_lt' room]
    exact Array.getElem?_push_size
  · cases ran.symm.trans ok

theorem intern_eq_error_iff (interning : buffer.Interning) {fault later} :
    intern text buffer = .error fault later ↔
      (text ∉ buffer.constants ∧ buffer.constants.size = constantCapacity) ∧
        fault = .tooManyConstants ∧ later = buffer := by
  have limit := interning.size_le
  rcases buffer.intern_cases text with ⟨place, found, ran⟩ | ⟨_, room, ran⟩ | ⟨isNew, full, ran⟩
  · have isOld : text ∈ buffer.constants := Array.mem_of_getElem? found
    rw [ran]
    exact iff_of_false (fun failed => by cases failed) fun holds => holds.1.1 isOld
  · rw [ran]
    exact iff_of_false (fun failed => by cases failed) fun holds => room.ne holds.1.2
  · rw [ran]
    constructor
    · rintro ⟨⟩
      exact ⟨⟨isNew, limit.antisymm full⟩, rfl, rfl⟩
    · rintro ⟨_, rfl, rfl⟩
      rfl

end CodeBuffer

end SlotCompiler
