import SlotCompiler.Proofs.Emission.Initialised
import SlotCompiler.Proofs.Program.Signatures

/-!
Contract: compiled functions read no slot before it is written.
-/

namespace SlotCompiler

/-- On every path, a slot that is read is a parameter or was written before. -/
def FunctionCode.ReadsWritten (function : FunctionCode) : Prop :=
  ∀ index written instruction, Tracker.written.Reaches function.code.toList index written →
    (index, instruction) ∈ (Decoding.ofWords function.code.toList).items →
    ∀ slot ∈ instruction.reads, slot.toNat < function.parameters.length ∨ slot ∈ written

theorem compileFunction_parameters_length {types item layer function}
    (ok : compileFunction types item layer = .ok function) :
    function.parameters.length = item.parameters.length := by
  obtain ⟨_, _, parametersEq, _⟩ := compileFunction_signature ok
  simpa using congrArg List.length parametersEq

section Function

variable {function : FunctionCode} {types : TypeTable} {item : FunctionItem}
  {typed : TypedFunction} {code : List Instruction} {finish : Stock} {entered left : Context}

theorem FunctionItem.WasRead.parameter_slots (read : item.WasRead entered left) :
    item.parameters.map (fun parameter => parameter.slot.toNat) =
      List.range item.parameters.length := by
  apply List.ext_getElem
  · simp
  · intro number inParameters _
    have inItem : number < item.parameters.length := by simpa using inParameters
    simp [read.parameter_slot (List.getElem?_eq_getElem inItem)]

theorem FunctionCode.ComesFrom.upholds_readsWritten
    (comesFrom : function.ComesFrom types item typed code finish) (read : item.WasRead entered left)
    (parameters : Nat) :
    (Monitor.readsWritten parameters).Upholds (Filled parameters entered.scopes.Holds)
      (code ++ closing typed.returnType?) (fun _ => True) := by
  have fits := typeFunction_fits read comesFrom.typedOk
  refine (comesFrom.emitted.readsWritten fits.body).append ?_
  unfold closing
  split
  · exact Monitor.upholds_of_final (fun _ => rfl) fun _ _ _ member => absurd member List.not_mem_nil
  · exact (Monitor.upholds_nil _ _).mono (fun _ => id) fun _ _ => trivial

end Function

/-- In every function of a compiled program, on every path, a slot that is read
is a parameter or was written before on the same path.  The parameters have the
first slots, in order. -/
theorem compile_readsWritten {config : Config} {source : Source} {program : Program}
    (compiled : (compile config source).outcome = .ok program) {function : FunctionCode}
    (member : function ∈ program.functions) :
    function.ReadsWritten ∧
      ∃ item ∈ (parseSource source).1.file.functions, ∃ layer,
        compileFunction program.types item layer = .ok function ∧
        item.parameters.map (fun parameter => parameter.slot.toNat) =
          List.range function.parameters.length := by
  obtain ⟨item, inFile, _, ⟨entered, left, read⟩, layer, ok⟩ := compile_origin compiled member
  obtain ⟨typed, code, finish, comesFrom⟩ := compileFunction_comesFrom ok
  have lengthEq := compileFunction_parameters_length ok
  refine ⟨?_, item, inFile, layer, ok, ?_⟩
  · intro index written instruction reaches decoded
    rw [comesFrom.words_eq] at reaches decoded
    have starts : Filled function.parameters.length entered.scopes.Holds [] := by
      intro slot held
      left
      rw [lengthEq, ← read.entered_size]
      exact read.entered_bounded slot held
    exact (comesFrom.upholds_readsWritten read _).permits_of_decoded starts reaches decoded
  · rw [lengthEq]
    exact read.parameter_slots

/-- A variable that hides a parameter is read in a loop, where only its
declaration before the loop has written it. -/
theorem compile_readsWritten_hidden :
    ∃ function ∈ compiledFunctions Config.standard ⟨"hidden",
      "fn f(a: int, mut b: int) -> int \x7b
        if (a < b) \x7b const a = b; while (a < b) \x7b b = b - a; \x7d \x7d return b; \x7d"⟩,
      ((Decoding.ofWords function.code.toList).items.any fun placement =>
        placement.2.reads.contains 3) = true ∧
      function.ReadsWritten :=
  exists_compiledFunction (by decide +kernel) fun compiled member =>
    (compile_readsWritten compiled member).1

end SlotCompiler
