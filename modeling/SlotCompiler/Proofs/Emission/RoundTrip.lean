import SlotCompiler.Proofs.Emission.Layout

/-!
Contract: instructions are decoded as they were emitted.
-/

namespace SlotCompiler

def emitAll (code : List Instruction) : CodeBuffer := code.foldl CodeBuffer.emit .empty

theorem words_emitAll (code : List Instruction) : (emitAll code).words = encode code := by
  have emitted : ∀ buffer : CodeBuffer,
      (code.foldl CodeBuffer.emit buffer).words = buffer.words ++ encode code := by
    induction code with
    | nil => simp
    | cons instruction rest ih =>
      intro buffer
      rw [List.foldl_cons, ih, CodeBuffer.words_emit, encode_cons, List.append_assoc]
  exact emitted .empty

theorem size_emitAll (code : List Instruction) : (emitAll code).size = extent code := by
  rw [← CodeBuffer.length_words, words_emitAll, extent]

theorem placed_eq_mapIdx (base : Nat) (code : List Instruction) :
    placed base code =
      code.mapIdx fun number instruction => (base + extent (code.take number), instruction) := by
  induction code generalizing base with
  | nil => rfl
  | cons instruction rest ih =>
    rw [placed, ih, List.mapIdx_cons]
    simp only [List.take_zero, List.take_succ_cons, extent_nil, extent_cons, Nat.add_zero,
      Nat.add_assoc]

theorem not_mem_placed_inside {base index before after} {outer inner : Instruction}
    (starts : base + extent before < index) (inside : index < base + extent before + outer.width) :
    (index, inner) ∉ placed base (before ++ outer :: after) := by
  intro member
  rw [placed_append, placed, List.mem_append, List.mem_cons] at member
  rcases member with isEarlier | isOuter | isLater
  · obtain ⟨earlier, later, rfl, rfl⟩ := mem_placed_iff.mp isEarlier
    rw [extent_append] at starts
    omega
  · have indexEq : index = base + extent before := congrArg Prod.fst isOuter
    omega
  · obtain ⟨earlier, later, _, rfl⟩ := mem_placed_iff.mp isLater
    omega

/-- Decoding undoes emission.  For every instruction sequence, the emitted words are
decoded without a fault to exactly these instructions in order, each with the index
of the word that it was emitted at.  The payload of a wide load, whatever its bits,
is never decoded as an instruction. -/
theorem decoding_of_emitted (code : List Instruction) :
    let decoding := Decoding.ofWords (emitAll code).words
    decoding.fault? = none ∧
      decoding.items.toList =
        code.mapIdx (fun number instruction => ((emitAll (code.take number)).size, instruction)) ∧
      ∀ before dst value after, code = before ++ .loadImmediate dst value :: after →
        value.narrow? = none →
          (emitAll code).words[(emitAll before).size + 1]? = some (Word.payload value.bits) ∧
          ∀ instruction, ((emitAll before).size + 1, instruction) ∉ decoding.items := by
  intro decoding
  have decodingEq : decoding = { items := (placed 0 code).toArray, fault? := none } := by
    rw [← Decoding.ofWords_encode, ← words_emitAll]
  rw [decodingEq]
  refine ⟨rfl, ?_, ?_⟩
  · simp only [size_emitAll, placed_eq_mapIdx, Nat.zero_add]
  · rintro before dst value after rfl isWide
    have wordsEq : (Instruction.loadImmediate dst value).words =
        [Word.loadImmediateWide dst value.kind, Word.payload value.bits] := by
      rw [Instruction.words, isWide]
    have widthEq : (Instruction.loadImmediate dst value).width = 2 := congrArg List.length wordsEq
    rw [size_emitAll, words_emitAll]
    refine ⟨?_, fun instruction member => ?_⟩
    · rw [encode_append, encode_cons, wordsEq, extent,
        List.getElem?_append_right (Nat.le_add_right _ _), Nat.add_sub_cancel_left]
      rfl
    · exact not_mem_placed_inside (by omega) (by omega) (List.mem_toArray.mp member)

/-- A wide integer whose payload reads like a return, before a store that swaps its
operands. -/
theorem decoding_of_emitted_disguised :
    let load := Instruction.loadImmediate 3 (.int 0x100000012)
    let store := Instruction.memberStore 1 2 3
    let decoding := Decoding.ofWords (emitAll [load, store]).words
    Word.opcode? (.payload 0x100000012) = some .ret ∧
      decoding.fault? = none ∧ decoding.items.toList = [(0, load), (2, store)] ∧
      ∀ instruction, (1, instruction) ∉ decoding.items := by
  intro load store decoding
  obtain ⟨noFault, itemsEq, passesOver⟩ := decoding_of_emitted [load, store]
  refine ⟨by decide, noFault, ?_, ?_⟩
  · rw [itemsEq]
    rfl
  · exact (passesOver [] 3 (.int 0x100000012) [store] rfl (by decide)).2

end SlotCompiler
