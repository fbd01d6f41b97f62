import SlotCompiler.Proofs.Emission.Typed
import SlotCompiler.Proofs.Program.Origin

/-!
Contract: every function of a compiled program is well typed.
-/

namespace SlotCompiler

section Function

variable {function : FunctionCode} {types : TypeTable} {item : FunctionItem}
  {typed : TypedFunction} {code : List Instruction} {finish : Stock} {entered left : Context}

section

variable (comesFrom : function.ComesFrom types item typed code finish)

include comesFrom

theorem FunctionCode.ComesFrom.mem_of_decoded {placement}
    (decoded : placement ∈ (Decoding.ofWords function.code.toList).items) :
    placement.2 ∈ code ++ closing typed.returnType? := by
  rw [comesFrom.words_eq, Decoding.ofWords_encode] at decoded
  obtain ⟨before, after, codeEq, _⟩ := mem_placed_iff.mp (List.mem_toArray.mp decoded)
  rw [codeEq]
  exact List.mem_append_right _ List.mem_cons_self

theorem FunctionCode.ComesFrom.fits (read : item.WasRead entered left) :
    ∀ instruction ∈ code ++ closing typed.returnType?,
      instruction.Fits types typed.returnType? finish := by
  have fits := typeFunction_fits read comesFrom.typedOk
  have emitted := comesFrom.emitted
  have checked := fits.checked.mono emitted.grows.refines
  refine List.forall_mem_append.mpr
    ⟨emitted.fits (fits.stock_bounded read) (.refl finish) checked, ?_⟩
  cases result : typed.returnType? with
  | none => exact List.forall_mem_singleton.mpr ⟨rfl, trivial⟩
  | some type => exact fun _ member => absurd member List.not_mem_nil

theorem FunctionCode.ComesFrom.slot_typed (read : item.WasRead entered left) (slot : Slot)
    (inFrame : slot.toNat < finish.frame.size) : ∃ type, finish.frame.typeOf? slot = some type := by
  have fits := typeFunction_fits read comesFrom.typedOk
  have grows := comesFrom.emitted.grows
  by_cases isNamed : slot.toNat < typed.frame.size
  · rw [grows.typeOf?_eq slot isNamed]
    exact fits.allTyped slot isNamed
  · exact grows.typed slot ⟨Nat.not_lt.mp isNamed, inFrame⟩

end

end Function

/-- Every function of a compiled program has a type for each slot, and each of
its instructions fits these types. -/
theorem compile_wellTyped {config : Config} {source : Source} {program : Program}
    (compiled : (compile config source).outcome = .ok program) {function : FunctionCode}
    (member : function ∈ program.functions) :
    ∃ item ∈ (parseSource source).1.file.functions,
      (∃ layer, compileFunction program.types item layer = .ok function) ∧
      ∃ frame, emittedFrame program.types item = .ok frame ∧
        frame.size = function.frameSize ∧
        (∀ slot : Slot, slot.toNat < function.frameSize →
          ∃ type, frame.typeOf? slot = some type) ∧
        ∀ placement ∈ (Decoding.ofWords function.code.toList).items,
          placement.2.WellTyped program.types function.returnType? frame := by
  obtain ⟨item, inFile, isWhole, ⟨entered, left, read⟩, layer, ok⟩ :=
    compile_origin compiled member
  obtain ⟨typed, code, finish, comesFrom⟩ := compileFunction_comesFrom ok
  refine ⟨item, inFile, ⟨layer, ok⟩, finish.frame, comesFrom.emittedFrame_eq,
    comesFrom.frameSize_eq.symm, ?_, ?_⟩
  · intro slot inFrame
    rw [comesFrom.frameSize_eq] at inFrame
    exact comesFrom.slot_typed read slot inFrame
  · intro placement decoded
    rw [comesFrom.returnType?_eq]
    exact (comesFrom.fits read _ (comesFrom.mem_of_decoded decoded)).1

/-- The code of a function with strings, numbers of both kinds and a
condition. -/
theorem compile_wellTyped_choice :
    ∃ function ∈ compiledFunctions Config.standard ⟨"choice",
      "fn f(name: string, limit: float) -> string \x7b
        mut size = 2.5; const n = 7 + 1;
        if (size < limit && n != 0) \x7b size = size * limit; return name + \"a\"; \x7d
        return \"none\"; \x7d"⟩,
      ((Decoding.ofWords function.code.toList).items.any fun placement =>
        (placement.2.jumpTarget? placement.1).isSome) = true ∧
      ∃ types item frame, emittedFrame types item = .ok frame ∧
        (∃ layer, compileFunction types item layer = .ok function) ∧
        (∀ slot : Slot, slot.toNat < function.frameSize →
          ∃ type, frame.typeOf? slot = some type) ∧
        ∀ placement ∈ (Decoding.ofWords function.code.toList).items,
          placement.2.WellTyped types function.returnType? frame := by
  refine exists_compiledFunction (by decide +kernel) fun compiled member => ?_
  obtain ⟨item, _, isCompiled, frame, frameEq, _, slots, fits⟩ :=
    compile_wellTyped compiled member
  exact ⟨_, item, frame, frameEq, isCompiled, slots, fits⟩

end SlotCompiler
