import SlotCompiler.Proofs.Program.WellFormed

/-!
Contract: control never runs off the end of a compiled function.
-/

namespace SlotCompiler

/-- The instruction returns as a function with such a result does. -/
def Instruction.Returns (returnType? : Option TypeId) : Instruction → Prop
  | .ret => returnType? = none
  | .retValue _ => returnType?.isSome = true
  | _ => False

/-- Every path from the first word stays on instructions of the function, and
can only end in one of its returns. -/
structure FunctionCode.StaysInside (function : FunctionCode) : Prop where
  inside : ∀ index, Reaches function.code.toList index → index < function.code.size
  decoded : ∀ index, Reaches function.code.toList index →
    ∃ instruction, (index, instruction) ∈ (Decoding.ofWords function.code.toList).items
  ends : ∀ index instruction, Reaches function.code.toList index →
    (index, instruction) ∈ (Decoding.ofWords function.code.toList).items →
    instruction.successors index = [] → instruction.Returns function.returnType?
  /-- Jumps to the end are never taken. -/
  endJumps : ∀ index instruction,
    (index, instruction) ∈ (Decoding.ofWords function.code.toList).items →
    function.code.size ∈ instruction.successors index → ¬ Reaches function.code.toList index

theorem Instruction.returns_of_final {types returnType? frame index} {instruction : Instruction}
    (final : instruction.successors index = [])
    (jumps : instruction.isJump = true → ∃ target, instruction.jumpTarget? index = some target)
    (fits : instruction.WellTyped types returnType? frame) : instruction.Returns returnType? := by
  cases instruction with
  | ret => exact fits
  | retValue src =>
    obtain ⟨type, _, resultEq⟩ := fits
    show returnType?.isSome = true
    rw [resultEq]
    rfl
  | jump offset =>
    obtain ⟨target, targetEq⟩ := jumps rfl
    change ((jump offset).jumpTarget? index).toList = [] at final
    rw [targetEq] at final
    exact absurd final (List.cons_ne_nil _ _)
  | jumpIfFalse condition offset =>
    change ((jumpIfFalse condition offset).jumpTarget? index).toList ++ [index + 1] = [] at final
    exact absurd (List.append_eq_nil_iff.mp final).2 (List.cons_ne_nil _ _)
  | _ => contradiction

section Function

variable {function : FunctionCode} {types : TypeTable} {item : FunctionItem}
  {typed : TypedFunction} {code : List Instruction} {finish : Stock} {entered left : Context}

theorem FunctionCode.ComesFrom.confines
    (comesFrom : function.ComesFrom types item typed code finish)
    (read : item.WasRead entered left) :
    Confines (code ++ closing typed.returnType?) False := by
  have bodyConfines := comesFrom.emitted.confines
  cases result : typed.returnType? with
  | none =>
    have closed := bodyConfines.append (confines_of_final .ret fun _ => rfl)
    exact closed.mono fun leaves => leaves.2
  | some type =>
    have fits := typeFunction_fits read comesFrom.typedOk
    have returns := fits.returns (by rw [result]; rfl)
    rw [closing, if_neg (by simp), List.append_nil]
    exact bodyConfines.mono fun leaves => Bool.noConfusion (returns.symm.trans leaves)

theorem FunctionCode.ComesFrom.staysInside
    (comesFrom : function.ComesFrom types item typed code finish)
    (read : item.WasRead entered left) : function.StaysInside := by
  have confines := comesFrom.confines read
  have wellFormed := comesFrom.wellFormed read
  have sizeEq : function.code.size = extent (code ++ closing typed.returnType?) := by
    rw [← Array.length_toList, comesFrom.words_eq, extent]
  have isPlaced : ∀ index, Reaches function.code.toList index →
      ∃ instruction, (index, instruction) ∈ placed 0 (code ++ closing typed.returnType?) := by
    intro index reaches
    rw [comesFrom.words_eq] at reaches
    exact confines.placed_of_reaches reaches
  have inside : ∀ index, Reaches function.code.toList index → index < function.code.size := by
    intro index reaches
    obtain ⟨instruction, here⟩ := isPlaced index reaches
    rw [sizeEq]
    exact lt_of_mem_placed here
  refine ⟨inside, ?_, ?_, ?_⟩
  · intro index reaches
    obtain ⟨instruction, here⟩ := isPlaced index reaches
    refine ⟨instruction, ?_⟩
    rw [comesFrom.words_eq, Decoding.ofWords_encode]
    exact List.mem_toArray.mpr here
  · intro index instruction _ decoded final
    have fitsHere := comesFrom.fits read _ (comesFrom.mem_of_decoded decoded)
    rw [comesFrom.returnType?_eq]
    refine Instruction.returns_of_final final (fun isJump => ?_) fitsHere.1
    obtain ⟨target, targetEq, _⟩ := wellFormed.jumps _ decoded isJump
    exact ⟨target, targetEq⟩
  · intro index instruction decoded goes reaches
    exact Nat.lt_irrefl _ (inside _ (reaches.step decoded goes))

end Function

theorem emitBlock_confines {name block start finish}
    (ran : emitBlock name block start = .ok () finish) (returns : blockAlwaysReturns block = true)
    {index} (reaches : Reaches (finish.buffer.code.toList.drop start.buffer.size) index) :
    index < (finish.buffer.code.toList.drop start.buffer.size).length := by
  obtain ⟨code, emitted, appended⟩ := emitNodes_ok name block ran
  have wordsEq : finish.buffer.code.toList.drop start.buffer.size = encode code := by
    show finish.buffer.words.drop start.buffer.size = encode code
    rw [appended, ← CodeBuffer.length_words, List.drop_left]
  rw [wordsEq] at reaches ⊢
  have stays : Confines code False :=
    emitted.confines.mono fun leaves => Bool.noConfusion (returns.symm.trans leaves)
  obtain ⟨instruction, here⟩ := stays.placed_of_reaches reaches
  exact lt_of_mem_placed here

/-- Control never runs off the end of a function of a compiled program, and a
block that is taken to always return is never left over its end. -/
theorem compile_staysInside {config : Config} {source : Source} {program : Program}
    (compiled : (compile config source).outcome = .ok program) {function : FunctionCode}
    (member : function ∈ program.functions) :
    function.StaysInside ∧
      ∀ name block start finish, emitBlock name block start = .ok () finish →
        blockAlwaysReturns block = true →
        ∀ index, Reaches (finish.buffer.code.toList.drop start.buffer.size) index →
          index < (finish.buffer.code.toList.drop start.buffer.size).length := by
  obtain ⟨item, _, _, ⟨entered, left, read⟩, layer, ok⟩ := compile_origin compiled member
  obtain ⟨typed, code, finish, comesFrom⟩ := compileFunction_comesFrom ok
  refine ⟨comesFrom.staysInside read, ?_⟩
  intro name block start finish ran returns index reaches
  exact emitBlock_confines ran returns reaches

/-- Both arms return, so the jump over the second one, which goes to the end of
the code, is never taken. -/
theorem compile_staysInside_arms :
    ∃ function ∈ compiledFunctions Config.standard ⟨"arms",
      "fn f(a: int) -> int \x7b if (a == 1) \x7b return 1; \x7d else \x7b return 2; \x7d \x7d"⟩,
      ((Decoding.ofWords function.code.toList).items.any fun placement =>
        (placement.2.successors placement.1).contains function.code.size) = true ∧
      function.StaysInside :=
  exists_compiledFunction (by decide +kernel) fun compiled member =>
    (compile_staysInside compiled member).1

end SlotCompiler
