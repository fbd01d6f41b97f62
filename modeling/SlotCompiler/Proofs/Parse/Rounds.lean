import SlotCompiler.Proofs.Parse.Advance
import SlotCompiler.Proofs.Parse.FileGrammar

/-!
Contract: the rounds in which the items of a source are read.
-/

namespace SlotCompiler

/-! ## What was read stays -/

/-- What was read first is the beginning of what was read later. -/
structure ParsedFile.Continues (early late : ParsedFile) : Prop where
  structs : early.file.structs.toList <+: late.file.structs.toList
  functions : early.file.functions.toList <+: late.file.functions.toList
  faults : early.faults.toList <+: late.faults.toList

namespace ParsedFile

variable {early middle late : ParsedFile}

theorem Continues.refl (parsed : ParsedFile) : parsed.Continues parsed :=
  ⟨List.prefix_refl _, List.prefix_refl _, List.prefix_refl _⟩

theorem Continues.trans (first : early.Continues middle) (second : middle.Continues late) :
    early.Continues late :=
  ⟨first.structs.trans second.structs, first.functions.trans second.functions,
    first.faults.trans second.faults⟩

theorem prefix_push {α : Type} (given : Array α) (value : α) :
    given.toList <+: (given.push value).toList :=
  Array.toList_push ▸ List.prefix_append _ _

theorem continues_addStruct (parsed : ParsedFile) (item : StructItem) :
    parsed.Continues (parsed.addStruct item) :=
  { Continues.refl parsed with structs := prefix_push _ item }

theorem continues_addFault (parsed : ParsedFile) (fault : Diagnostic) :
    parsed.Continues (parsed.addFault fault) :=
  { Continues.refl parsed with faults := prefix_push _ fault }

theorem continues_addFunctionResult (parsed : ParsedFile)
    (result : FunctionItem × Option Diagnostic) :
    parsed.Continues (parsed.addFunctionResult result) := by
  have added : parsed.Continues (parsed.addFunction result.1) :=
    { Continues.refl parsed with functions := prefix_push _ result.1 }
  rcases result with ⟨item, _ | fault⟩
  · exact added
  · exact added.trans (continues_addFault _ fault)

theorem Continues.function_eq {result}
    (continues : (early.addFunctionResult result).Continues late) :
    late.file.functions[early.file.functions.size]? = some result.1 := by
  have functionsEq : (early.addFunctionResult result).file.functions.toList =
      early.file.functions.toList ++ [result.1] := by
    rcases result with ⟨item, _ | fault⟩
    · exact Array.toList_push
    · exact Array.toList_push
  obtain ⟨others, lateEq⟩ := continues.functions
  rw [← Array.getElem?_toList, ← lateEq, functionsEq, List.append_assoc, ← Array.length_toList,
    List.getElem?_append_right (Nat.le_refl _), Nat.sub_self]
  rfl

theorem Continues.fault_eq {fault rest} (continues : middle.Continues late)
    (faultsEq : middle.faults.toList = early.faults.toList ++ fault :: rest) :
    late.faults[early.faults.size]? = some fault := by
  obtain ⟨others, lateEq⟩ := continues.faults
  rw [← Array.getElem?_toList, ← lateEq, faultsEq, List.append_assoc, ← Array.length_toList,
    List.getElem?_append_right (Nat.le_refl _), Nat.sub_self]
  rfl

end ParsedFile

namespace Input

theorem continues_itemOrRecover {α : Type} {step} {add : ParsedFile → α → ParsedFile}
    {parsed : ParsedFile} (added : ∀ value, parsed.Continues (add parsed value)) (input : Input) :
    parsed.Continues (itemOrRecover step add parsed input).1 := by
  unfold itemOrRecover
  split
  · exact added _
  · exact parsed.continues_addFault _

theorem continues_oneItem (budget : Nat) (kind : TokenKind) (parsed : ParsedFile)
    (input : Input) : parsed.Continues (oneItem budget kind parsed input).1 := by
  unfold oneItem
  split
  · exact continues_itemOrRecover parsed.continues_addStruct input
  split
  · exact continues_itemOrRecover parsed.continues_addFunctionResult input
  · exact continues_itemOrRecover (fun _ => .refl parsed) input

theorem continues_itemsWithin (budget fuel : Nat) (parsed : ParsedFile) (input : Input) :
    parsed.Continues (itemsWithin budget fuel parsed input).1 := by
  induction fuel generalizing parsed input with
  | zero => exact .refl parsed
  | succ fuel ih =>
    rw [itemsWithin_succ]
    split
    · exact .refl parsed
    · exact (continues_oneItem budget _ parsed _).trans (ih _ _)

end Input

/-! ## Rounds -/

/-- What one round of a source makes of what was read before it. -/
def Source.afterRound (source : Source) (parsed : ParsedFile) (input : Input) :
    ParsedFile × Input :=
  Input.oneItem (Input.ofSource source).budget input.peek.1.kind parsed input.peek.2

/-- The items of a source are read in rounds, up to the end of the file.  Before one of
them, `parsed` has been read and `input` is left. -/
inductive Source.Round (source : Source) : ParsedFile → Input → Prop where
  | first : Round source .empty (.ofSource source)
  | next {parsed input} (round : Round source parsed input) (goesOn : input.ahead.tokens ≠ []) :
      Round source (source.afterRound parsed input).1 (source.afterRound parsed input).2

namespace Source.Round

variable {source : Source} {parsed : ParsedFile} {input : Input}

theorem afterRound_precedes {token rest} (tokensEq : input.ahead.tokens = token :: rest)
    (source : Source) (parsed : ParsedFile) :
    Ahead.Precedes ⟨rest, input.nesting⟩ (source.afterRound parsed input).2.ahead := by
  have kindEq : input.peek.1.kind = token.kind := by
    rw [Input.peek_kind, Ahead.kind, tokensEq]
    rfl
  rw [afterRound, kindEq]
  exact @Input.precedes_oneItem_of_cons input.peek.2 token rest tokensEq _ parsed

theorem precedes (round : source.Round parsed input) :
    (Input.ofSource source).ahead.Precedes input.ahead := by
  induction round with
  | first => exact .refl _
  | @next parsed input _ _ earlier =>
    exact earlier.trans (Input.precedes_oneItem _ _ parsed input.peek.2)

theorem proper (round : source.Round parsed input) :
    ∀ token ∈ input.ahead.tokens, token.kind ≠ .endOfFile :=
  fun token member =>
    TokenStream.ofText_kind_ne source.text token (round.precedes.tokens.subset member)

theorem goes_on (round : source.Round parsed input) :
    ∃ fuel, input.ahead.tokens.length < fuel ∧
      Input.itemsWithin (Input.ofSource source).budget fuel parsed input = parseSource source := by
  induction round with
  | first => exact ⟨_, Nat.lt_succ_self _, rfl⟩
  | @next parsed input round goesOn ih =>
    obtain ⟨fuel, enough, finishes⟩ := ih
    obtain ⟨token, rest, tokensEq⟩ := List.exists_cons_of_ne_nil goesOn
    have shorter : (source.afterRound parsed input).2.ahead.tokens.length ≤ rest.length :=
      (afterRound_precedes tokensEq source parsed).tokens.length_le
    rw [tokensEq, List.length_cons] at enough
    obtain _ | fuel := fuel
    · omega
    have isProper : token.kind ≠ .endOfFile := round.proper token (tokensEq ▸ List.mem_cons_self)
    have kindEq : input.peek.1.kind = token.kind := by
      rw [Input.peek_kind, Ahead.kind, tokensEq]
      rfl
    rw [Input.itemsWithin_succ, if_neg (kindEq ▸ isProper)] at finishes
    exact ⟨fuel, by omega, finishes⟩

theorem continues (round : source.Round parsed input) :
    parsed.Continues (parseSource source).1 := by
  obtain ⟨fuel, _, finishes⟩ := round.goes_on
  rw [← finishes]
  exact Input.continues_itemsWithin _ fuel parsed input

theorem le_budget (round : source.Round parsed input) :
    4 * input.ahead.tokens.length + 3 ≤ (Input.ofSource source).budget := by
  have shorter := round.precedes.tokens.length_le
  have enoughAtStart := (Input.ofSource source).le_budget
  omega

end Source.Round

end SlotCompiler
