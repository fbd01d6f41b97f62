import SlotCompiler.Proofs.Parse.Advance
import SlotCompiler.Proofs.Parse.FileGrammar

/-!
Contract: the function items of a parsed file.
-/

namespace SlotCompiler

variable {input : Input} {holds : FunctionItem → Prop} {parsed : ParsedFile}

namespace Parser

theorem function_fault {fuel later item fault?}
    (ran : function fuel input = .ok (item, fault?) later) :
    item.isBroken = true ∧ item.body = [] ∨ fault? = none := by
  obtain ⟨⟨signature, entered⟩, started, _, ran⟩ := bind_eq_ok_iff.mp ran
  unfold functionBody at ran
  dsimp only at ran
  split at ran
  · cases ran
    exact .inr rfl
  · cases ran
    exact .inl ⟨rfl, rfl⟩

end Parser

namespace ParsedFile

def AllFunctions (holds : FunctionItem → Prop) (parsed : ParsedFile) : Prop :=
  ∀ item ∈ parsed.file.functions, holds item

def FunctionsRead (parsed : ParsedFile) : Prop :=
  ∀ item ∈ parsed.file.functions, item.isBroken = false → item.IsRead

theorem AllFunctions.addFunctionResult (all : parsed.AllFunctions holds)
    {result : FunctionItem × Option Diagnostic} (added : holds result.1) :
    (parsed.addFunctionResult result).AllFunctions holds := by
  have functionsEq : (parsed.addFunctionResult result).file.functions =
      parsed.file.functions.push result.1 := by
    unfold ParsedFile.addFunctionResult
    cases result.2 <;> rfl
  intro item member
  rw [functionsEq, Array.mem_push] at member
  rcases member with earlier | rfl
  · exact all item earlier
  · exact added

end ParsedFile

namespace Input

theorem itemOrRecover_allFunctions {α : Type} {step} {add : ParsedFile → α → ParsedFile}
    (all : parsed.AllFunctions holds)
    (added : ∀ {value rest}, step input = .ok value rest → (add parsed value).AllFunctions holds) :
    (itemOrRecover step add parsed input).1.AllFunctions holds := by
  unfold itemOrRecover
  split
  · rename_i stepRan
    exact added stepRan
  · exact all

theorem itemsWithin_allFunctions {start : Ahead} {budget fuel}
    (each : ∀ {input later item fault?}, start.Precedes input.ahead →
      Parser.function budget input = .ok (item, fault?) later → holds item)
    (precedes : start.Precedes input.ahead) (all : parsed.AllFunctions holds) :
    (itemsWithin budget fuel parsed input).1.AllFunctions holds := by
  induction fuel generalizing parsed input with
  | zero => exact all
  | succ fuel ih =>
    rw [itemsWithin_succ]
    split
    · exact all
    · apply ih
      · exact precedes.trans (precedes_oneItem budget _ parsed input.peek.2)
      · unfold oneItem
        split
        · exact itemOrRecover_allFunctions all fun _ => all
        split
        · exact itemOrRecover_allFunctions all fun ran =>
            all.addFunctionResult (@each input.peek.2 _ _ _ precedes ran)
        · exact itemOrRecover_allFunctions all fun _ => all

end Input

theorem parseSource_functions_written (source : Source) :
    (parseSource source).1.AllFunctions fun item => item.isBroken = true ∧ item.body = [] ∨
      ∃ written tokens, tokens <:+: (TokenStream.ofText source.text).tokens ∧
        DerivesItem (.function written) tokens ∧ written.tree? = some item := by
  refine Input.itemsWithin_allFunctions ?_ (.refl (Input.ofSource source).ahead) ?_
  · intro input later item fault? precedes ran
    refine (Parser.function_fault ran).imp_right ?_
    rintro rfl
    have enough : 4 * input.ahead.tokens.length + 3 ≤ (Input.ofSource source).budget := by
      have shorter := precedes.tokens.length_le
      have enoughAtStart := (Input.ofSource source).le_budget
      omega
    obtain ⟨written, tokens, consumes, derives, built⟩ :=
      Parser.function_written precedes.nesting_eq enough ran
    refine ⟨written, tokens, ?_, derives, built⟩
    have isFront : tokens <+: input.ahead.tokens := ⟨_, consumes.tokens_eq.symm⟩
    exact isFront.isInfix.trans precedes.tokens.isInfix
  · intro item member
    exact absurd member (Array.not_mem_empty item)

theorem parseSource_functionsRead (source : Source) : (parseSource source).1.FunctionsRead := by
  intro item member isWhole
  rcases parseSource_functions_written source item member with ⟨isBroken, _⟩ | found
  · rw [isWhole] at isBroken
    contradiction
  · obtain ⟨written, tokens, _, _, built⟩ := found
    exact written.tree?_isRead built

theorem exists_function {source} {test : FunctionItem → Bool}
    (passes : (parseSource source).1.file.functions.any test = true) :
    ∃ item ∈ (parseSource source).1.file.functions, test item = true := by
  obtain ⟨index, inside, holds⟩ := Array.any_eq_true.mp passes
  exact ⟨_, Array.getElem_mem inside, holds⟩

end SlotCompiler
