import SlotCompiler.Proofs.Program.WellTyped

/-!
Contract: every function of a compiled program is well formed.
-/

namespace SlotCompiler

/-- Code that a machine can run without looking outside of it: it decodes, its
operands exist, and its jumps go to instructions or to the end. -/
structure FunctionCode.WellFormed (function : FunctionCode) : Prop where
  decodes : (Decoding.ofWords function.code.toList).fault? = none
  slots : ∀ placement ∈ (Decoding.ofWords function.code.toList).items,
    ∀ slot ∈ placement.2.slots, slot.toNat < function.frameSize
  frame : function.frameSize ≤ 0x10000
  constants : ∀ placement ∈ (Decoding.ofWords function.code.toList).items,
    ∀ index ∈ placement.2.constant?, index.toNat < function.constants.size
  jumps : ∀ placement ∈ (Decoding.ofWords function.code.toList).items,
    placement.2.isJump = true → ∃ target, placement.2.jumpTarget? placement.1 = some target ∧
      (target = function.code.size ∨
        ∃ other ∈ (Decoding.ofWords function.code.toList).items, other.1 = target)

theorem FunctionCode.ComesFrom.wellFormed {function : FunctionCode} {types item typed code finish}
    (comesFrom : function.ComesFrom types item typed code finish) {entered left}
    (read : item.WasRead entered left) : function.WellFormed := by
  have emitted := comesFrom.emitted
  have fits {placement : Nat × Instruction}
      (member : placement ∈ (Decoding.ofWords function.code.toList).items) :=
    comesFrom.fits read _ (comesFrom.mem_of_decoded member)
  have lands : JumpsLand (code ++ closing typed.returnType?) := by
    refine emitted.jumpsLand.append (jumpsLand_of_straight ?_)
    unfold closing
    split
    · exact List.forall_mem_singleton.mpr rfl
    · exact fun _ member => absurd member List.not_mem_nil
  have decoding := Decoding.ofWords_encode (code ++ closing typed.returnType?)
  rw [← comesFrom.words_eq] at decoding
  refine ⟨by rw [decoding], ?_, ?_, ?_, ?_⟩
  · intro placement member slot named
    obtain ⟨type, known⟩ := (fits member).slot_typed named
    rw [comesFrom.frameSize_eq]
    exact Variables.slot_lt_of_typeOf? known
  · rw [comesFrom.frameSize_eq]
    have within := (typeFunction_fits read comesFrom.typedOk).stock_bounded read
    exact (emitted.grows.bounded within).frame_le
  · intro placement member index named
    rw [comesFrom.constants_eq]
    exact (fits member).constant_lt named
  · intro placement member isJump
    rw [decoding] at member ⊢
    obtain ⟨target, targetEq, boundary⟩ := lands placement (List.mem_toArray.mp member) isJump 0
    rw [Nat.zero_add, Nat.zero_add] at targetEq
    refine ⟨target, targetEq, ?_⟩
    rcases boundary.placed_or_end with ⟨instruction, isPlaced⟩ | atEnd
    · exact .inr ⟨(target, instruction), List.mem_toArray.mpr isPlaced, rfl⟩
    · refine .inl (atEnd.trans ?_)
      rw [← Array.length_toList, comesFrom.words_eq, extent]

/-- Every function of a compiled program is well formed, and its parameters
occupy the first slots of its frame, in order. -/
theorem compile_wellFormed {config : Config} {source : Source} {program : Program}
    (compiled : (compile config source).outcome = .ok program) {function : FunctionCode}
    (member : function ∈ program.functions) :
    function.WellFormed ∧
      ∃ item ∈ (parseSource source).1.file.functions,
        (∃ layer, compileFunction program.types item layer = .ok function) ∧
        item.parameters.length ≤ function.frameSize ∧
        ∀ (number : Nat) (parameter : Parameter), item.parameters[number]? = some parameter →
          parameter.slot.toNat = number := by
  obtain ⟨item, inFile, isWhole, ⟨entered, left, read⟩, layer, ok⟩ :=
    compile_origin compiled member
  obtain ⟨typed, code, finish, comesFrom⟩ := compileFunction_comesFrom ok
  have fits := typeFunction_fits read comesFrom.typedOk
  refine ⟨comesFrom.wellFormed read, item, inFile, ⟨layer, ok⟩, ?_, ?_⟩
  · rw [comesFrom.frameSize_eq, ← read.entered_size]
    exact (read.body.grows.size_le.trans fits.size_eq.ge).trans comesFrom.emitted.grows.size_le
  · intro number parameter found
    exact read.parameter_slot found

/-- The code of a loop with a two-word load, followed by a conditional whose arms
both return. -/
theorem compile_wellFormed_loop :
    ∃ function ∈ compiledFunctions Config.standard ⟨"loop",
      "fn f(a: int, mut b: int) -> int \x7b
        while (a < b) \x7b b = b - 5000000000; \x7d
        if (a == b) \x7b return 1; \x7d else \x7b return 2; \x7d \x7d"⟩,
      ((Decoding.ofWords function.code.toList).items.any fun placement =>
        placement.2.width == 2) = true ∧ function.WellFormed :=
  exists_compiledFunction (by decide +kernel) fun compiled member =>
    (compile_wellFormed compiled member).1

end SlotCompiler
