import SlotCompiler.Proofs.Emission.Faults
import SlotCompiler.Proofs.Program.TypeDecision

/-!
Contract: faults of the compiler itself do not arise.
-/

namespace SlotCompiler

theorem Cause.ne_of_not_isInternal {cause : Cause} (proper : cause.isInternal = false) :
    (∀ name, cause ≠ .unresolvedType name) ∧ cause ≠ .unsupportedConstruct statementConstruct := by
  constructor
  · rintro name rfl
    contradiction
  · rintro rfl
    revert proper
    decide

theorem Cause.cases_of_isOverflow {cause : Cause} (overflow : cause.isOverflow = true) :
    (∃ function, cause = .tooManyVariables function) ∨ cause = .tooManyConstants ∨
      ∃ distance, cause = .jumpTooFar distance := by
  unfold isOverflow at overflow
  split at overflow
  · exact .inl ⟨_, rfl⟩
  · exact .inr (.inl rfl)
  · exact .inr (.inr ⟨_, rfl⟩)
  · contradiction

theorem Decided.proper {α β : Type} {frame targets} {accepted : (Slot → TypeId) → β → Prop}
    {numbered : (Slot → TypeId) → α} {resolved}
    (decided : Decided frame targets accepted numbered resolved) {fault}
    (refused : resolved.outcome = .error fault) : fault.cause.isInternal = false := by
  cases decided with
  | found finds => contradiction
  | refused proper never =>
    cases refused
    exact proper

theorem emitFunction_failsByOverflow {env frame body} (checked : Checked env frame (.nodes body))
    (name : String) (returnType? : Option TypeId) :
    Emit.FailsByOverflow (emitFunction name body returnType?) := by
  have emitted : Emit.FailsByOverflow (emitBlock name body) := checked.failsByOverflow name
  cases returnType? with
  | none => exact emitted.bind fun _ => .instruction .ret
  | some type => exact emitted.bind fun _ => .pure ()

/-- No fault of the compiler arises for a function that was read without fault,
whatever the types of the program and of its parameters: resolution never misses a
type and never finds a statement in place of a value, and emission after it fails
only when the variables, the string constants or a jump do not fit. -/
theorem resolve_and_emit_noInternalFault {source : Source} {item : FunctionItem}
    (member : item ∈ (parseSource source).1.file.functions) (isWhole : item.isBroken = false)
    {types : TypeTable} {parameters : Array TypeId} {frame : Variables}
    (typed : typeParameters ⟨types, none⟩ item.parameters item.frame #[] =
      .ok (parameters, frame)) (returnType? : Option TypeId) :
    let resolved := resolveBlock ⟨types, returnType?⟩ item.body frame
    (∀ fault, resolved.outcome = .error fault →
      (∀ name, fault.cause ≠ .unresolvedType name) ∧
        fault.cause ≠ .unsupportedConstruct statementConstruct) ∧
    (resolved.outcome = .ok () → ∀ fault finish,
      emitFunction item.name resolved.tree returnType? ⟨.empty, resolved.frame⟩ =
        .error fault finish →
      (∃ function, fault.cause = .tooManyVariables function) ∨ fault.cause = .tooManyConstants ∨
        ∃ distance, fault.cause = .jumpTooFar distance) := by
  intro resolved
  obtain ⟨entered, left, read⟩ := parseSource_functionsRead source item member isWhole
  obtain ⟨given, frameEq⟩ := typeParameters_eq_giveTypes typed
  constructor
  · intro fault refused
    have decided := read.decided ⟨types, returnType?⟩ given
    rw [← frameEq] at decided
    exact Cause.ne_of_not_isInternal (decided.proper refused)
  · intro ok fault finish failed
    subst frameEq
    apply Cause.cases_of_isOverflow
    exact emitFunction_failsByOverflow ((read.resolved ok).checked read) item.name returnType? _
      fault finish failed

def mixedSumSource : Source :=
  ⟨"sum", "fn f(a: int) -> int \x7b return a + \"x\"; \x7d"⟩

/-- A body that adds a string to a number is refused, for a reason of its own. -/
theorem resolve_and_emit_noInternalFault_mixedSum :
    ∃ item ∈ (parseSource mixedSumSource).1.file.functions, ∃ parameters frame fault,
      item.isBroken = false ∧
      typeParameters ⟨.primitive, none⟩ item.parameters item.frame #[] = .ok (parameters, frame) ∧
      (resolveBlock ⟨.primitive, some .int⟩ item.body frame).outcome = .error fault ∧
      (∀ name, fault.cause ≠ .unresolvedType name) ∧
      fault.cause ≠ .unsupportedConstruct statementConstruct := by
  have passes : (parseSource mixedSumSource).1.file.functions.any (fun item =>
      !item.isBroken && (typeParameters ⟨.primitive, none⟩ item.parameters item.frame
        #[]).toOption.any fun found =>
          !(resolveBlock ⟨.primitive, some .int⟩ item.body found.2).outcome.isOk) = true := by
    decide +kernel
  obtain ⟨item, member, passes⟩ := exists_function passes
  obtain ⟨isWhole, passes⟩ := Bool.and_eq_true_iff.mp passes
  have isWhole : item.isBroken = false := by simpa using isWhole
  cases typed : typeParameters ⟨.primitive, none⟩ item.parameters item.frame #[] with
  | error fault =>
    rw [typed] at passes
    exact absurd passes Bool.false_ne_true
  | ok found =>
    rw [typed] at passes
    cases refused : (resolveBlock ⟨.primitive, some .int⟩ item.body found.2).outcome with
    | ok _ =>
      have fails : (!(resolveBlock ⟨.primitive, some .int⟩ item.body found.2).outcome.isOk) =
          true := passes
      rw [refused] at fails
      exact absurd fails Bool.false_ne_true
    | error fault =>
      refine ⟨item, member, found.1, found.2, fault, isWhole, typed, refused, ?_⟩
      exact (resolve_and_emit_noInternalFault member isWhole typed (some .int)).1 fault refused

end SlotCompiler
