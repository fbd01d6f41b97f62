import SlotCompiler.Proofs.Grammar.File
import SlotCompiler.Proofs.Parse.StatementSoundness

/-!
Contract: every file parsed without faults is written by the grammar.
-/

namespace SlotCompiler

namespace Parser

variable {seen : Std.HashSet String}

variable {given all : Array FieldDeclaration}

variable {input later : Input} {fuel : Nat}

/-! ## Structs -/

/-- The names that a struct has so far are those of its fields, all different. -/
structure SeenFields (fields : List FieldDeclaration) (seen : Std.HashSet String) : Prop where
  contains_iff : ∀ name, seen.contains name ↔ name ∈ fields.map FieldDeclaration.name
  distinct : (fields.map FieldDeclaration.name).Nodup

theorem seenFields_nil : SeenFields [] ∅ where
  contains_iff name := by simp
  distinct := List.nodup_nil

theorem SeenFields.insert {fields} (isSeen : SeenFields fields seen) {name}
    (isNew : ¬ seen.contains name) (type : TypeRef) :
    SeenFields (fields ++ [⟨name, type⟩]) (seen.insert name) where
  contains_iff other := by
    rw [Std.HashSet.contains_insert, Bool.or_eq_true, isSeen.contains_iff, List.map_append,
      List.mem_append, beq_iff_eq]
    simp [or_comm, eq_comm]
  distinct := by
    rw [isSeen.contains_iff] at isNew
    rw [List.map_append, List.nodup_append]
    refine ⟨isSeen.distinct, List.nodup_singleton _, ?_⟩
    rintro other member _ last rfl
    rw [List.mem_singleton.mp last] at member
    exact isNew member

theorem structFields_then (ran : structFields (fuel + 1) given seen input = .ok all later) :
    (∃ closing, closing.kind = .rightBrace ∧ input.Consumes [closing] later ∧ all = given) ∨
    ∃ token name type tokens state, token.content = .identifier name ∧ ¬ seen.contains name ∧
      DerivesType .colon (some type) tokens ∧ input.Consumes (token :: tokens) state ∧
      (do
        if ← accept .comma then
          structFields fuel (given.push ⟨name, type⟩) (seen.insert name)
        else
          let _ ← expect .rightBrace
          return given.push ⟨name, type⟩ : Parser (Array FieldDeclaration)) state =
        .ok all later := by
  rw [structFields] at ran
  obtain ⟨isClosed, started, acceptRan, ran⟩ := bind_eq_ok_iff.mp ran
  cases isClosed with
  | true =>
    cases ran
    obtain ⟨closing, closes, consumes⟩ := accept_true (by decide) acceptRan
    exact .inl ⟨closing, closes, consumes, rfl⟩
  | false =>
    obtain ⟨_, aheadEq⟩ := accept_false acceptRan
    obtain ⟨⟨name, position⟩, named, nameRan, ran⟩ := bind_eq_ok_iff.mp ran
    obtain ⟨token, isName, _, nameConsumed⟩ := identifier_ok nameRan
    dsimp only at ran
    by_cases isKnown : seen.contains name
    · rw [if_pos isKnown] at ran
      contradiction
    rw [if_neg isKnown] at ran
    obtain ⟨colon, marked, colonRan, ran⟩ := bind_eq_ok_iff.mp ran
    obtain ⟨isColon, colonConsumed⟩ := expect_ok (by decide) colonRan
    obtain ⟨type, typed, typeRan, ran⟩ := bind_eq_ok_iff.mp ran
    obtain ⟨sign, typeText, isType, rfl, typeConsumed⟩ := typeName_ok typeRan
    refine .inr ⟨token, name, _, _, typed, isName, isKnown, .present isColon isType, ?_, ran⟩
    exact (Input.consumes_nothing aheadEq).trans
      (nameConsumed.trans (colonConsumed.trans typeConsumed))

theorem structFields_written (isSeen : SeenFields given.toList seen)
    (enough : input.ahead.tokens.length < fuel)
    (ran : structFields fuel given seen input = .ok all later) :
    ∃ fields tokens closing, input.Consumes (tokens ++ [closing]) later ∧
      DerivesFields fields tokens ∧ closing.kind = .rightBrace ∧
      all.toList = given.toList ++ fields ∧ (all.toList.map FieldDeclaration.name).Nodup := by
  induction fuel generalizing given seen input with
  | zero => contradiction
  | succ fuel ih =>
    rcases structFields_then ran with ⟨closing, closes, consumes, rfl⟩ |
      ⟨token, name, type, typeTokens, typed, isName, isNew, typeDerives, reached, ran⟩
    · exact ⟨[], [], closing, consumes, .none, closes, (List.append_nil _).symm, isSeen.distinct⟩
    have nowSeen := isSeen.insert isNew type
    rw [← Array.toList_push] at nowSeen
    obtain ⟨isComma, separated, commaRan, ran⟩ := bind_eq_ok_iff.mp ran
    cases isComma with
    | true =>
      obtain ⟨comma, isComma, commaConsumed⟩ := accept_true (by decide) commaRan
      have shorter := (reached.trans commaConsumed).length_lt
      obtain ⟨fields, tokens, closing, consumes, derives, closes, allEq, distinct⟩ :=
        ih nowSeen (by omega) ran
      rw [toList_push_append] at allEq
      refine ⟨_, _, closing, ?_, .more isName typeDerives isComma derives, closes, allEq, distinct⟩
      have joined := (reached.trans commaConsumed).trans consumes
      simpa using joined
    | false =>
      obtain ⟨_, sameAhead⟩ := accept_false commaRan
      obtain ⟨closing, closed, closeRan, ran⟩ := bind_eq_ok_iff.mp ran
      cases ran
      obtain ⟨closes, closeConsumed⟩ := expect_ok (by decide) closeRan
      refine ⟨_, _, closing, ?_, .last isName typeDerives, closes, Array.toList_push,
        nowSeen.distinct⟩
      have joined := (reached.trans (Input.consumes_nothing sameAhead)).trans closeConsumed
      simpa using joined

theorem structItem_written {item} (enough : input.ahead.tokens.length ≤ fuel)
    (ran : structItem fuel input = .ok item later) :
    ∃ tokens, input.Consumes tokens later ∧ DerivesItem (.struct item) tokens ∧
      (item.fields.map FieldDeclaration.name).Nodup := by
  obtain ⟨keyword, started, keywordRan, ran⟩ := bind_eq_ok_iff.mp ran
  obtain ⟨isStruct, keywordConsumed⟩ := expect_ok (by decide) keywordRan
  obtain ⟨⟨name, position⟩, named, nameRan, ran⟩ := bind_eq_ok_iff.mp ran
  obtain ⟨token, isName, _, nameConsumed⟩ := identifier_ok nameRan
  obtain ⟨opening, opened, openRan, ran⟩ := bind_eq_ok_iff.mp ran
  obtain ⟨opens, openConsumed⟩ := expect_ok (by decide) openRan
  have reached := keywordConsumed.trans (nameConsumed.trans openConsumed)
  have shorter := reached.length_lt
  obtain ⟨all, closed, fieldsRan, ran⟩ := bind_eq_ok_iff.mp ran
  cases ran
  obtain ⟨fields, tokens, closing, consumes, derives, closes, allEq, distinct⟩ :=
    structFields_written seenFields_nil (by omega) fieldsRan
  refine ⟨_, reached.trans consumes, ?_, distinct⟩
  rw [show all.toList = fields from allEq]
  exact .struct isStruct isName opens derives closes

end Parser

/-! ## Functions -/

namespace BodyParser

variable {body after : BodyInput} {fuel : Nat}

variable {given all : Array Parameter}

theorem parameterList_then (ran : parameterList (fuel + 1) given body = .ok all after) :
    ∃ isMutable name slot type tokens typeTokens state, DerivesName isMutable name tokens ∧
      DerivesType .colon (some type) typeTokens ∧
      body.input.Consumes (tokens ++ typeTokens) state.input ∧
      body.context.declare? name isMutable = some (slot, state.context) ∧
      (do
        if ← Parser.accept .comma then
          parameterList fuel (given.push ⟨name, slot, isMutable, type⟩)
        else
          let _ ← Parser.expect .rightParen
          return given.push ⟨name, slot, isMutable, type⟩ : BodyParser (Array Parameter)) state =
        .ok all after := by
  rw [parameterList] at ran
  obtain ⟨isMutable, name, position, nameTokens, named, nameDerives, namePasses, ran⟩ :=
    name_then ran
  obtain ⟨colon, marked, isColon, colonPasses, ran⟩ := expect_then (by decide) ran
  obtain ⟨type, typed, typeRan, ran⟩ := bind_eq_ok_iff.mp ran
  obtain ⟨typeRan, sameContext⟩ := lift_eq_ok typeRan
  obtain ⟨sign, typeText, isType, rfl, typeConsumed⟩ := Parser.typeName_ok typeRan
  have reached := namePasses.trans (colonPasses.trans ⟨typeConsumed, sameContext⟩)
  obtain ⟨slot, entered, declareRan, ran⟩ := bind_eq_ok_iff.mp ran
  obtain ⟨declared, sameInput⟩ := declare_declared declareRan
  rw [reached.context_eq] at declared
  refine ⟨isMutable, name, slot, _, _, _, entered, nameDerives, .present isColon isType, ?_,
    declared, ran⟩
  rw [sameInput]
  exact reached.consumes

theorem parameterList_written (ran : parameterList fuel given body = .ok all after) :
    ∃ first written parameters tokens closing,
      body.input.Consumes (tokens ++ [closing]) after.input ∧
      DerivesParameters (first :: written) tokens ∧ closing.kind = .rightParen ∧
      parametersTree? (first :: written) body.context = some (parameters, after.context) ∧
      all.toList = given.toList ++ parameters := by
  induction fuel generalizing given body with
  | zero => exact (exhausted_ok ran).elim
  | succ fuel ih =>
    obtain ⟨isMutable, name, slot, type, nameTokens, typeTokens, entered, nameDerives,
      typeDerives, reached, declared, ran⟩ := parameterList_then ran
    rcases accept_then (by decide) ran with
      ⟨comma, next, isComma, commaPasses, ran⟩ | ⟨last, lastPasses, ran⟩
    · obtain ⟨first, written, parameters, tokens, closing, consumes, derives, closes, built,
        allEq⟩ := ih ran
      rw [commaPasses.context_eq] at built
      rw [toList_push_append] at allEq
      refine ⟨_, _, _, _, closing, ?_, .more nameDerives typeDerives isComma derives, closes,
        parametersTree?_cons_eq_some.mpr ⟨slot, _, parameters, declared, built, rfl⟩, allEq⟩
      have joined := reached.trans (commaPasses.consumes.trans consumes)
      simpa using joined
    · obtain ⟨closing, closed, closes, closePasses, ran⟩ := expect_then (by decide) ran
      cases ran
      have ended := lastPasses.trans closePasses
      rw [← ended.context_eq] at declared
      exact ⟨_, _, _, _, closing, reached.trans ended.consumes, .last nameDerives typeDerives,
        closes, parametersTree?_cons_eq_some.mpr ⟨slot, _, [], declared, rfl, rfl⟩,
        Array.toList_push⟩

theorem parameters_then {α : Type} {value} {next : Array Parameter → BodyParser α}
    (ran : (do
        let isClosed ← (liftM (Parser.accept .rightParen) : BodyParser Bool)
        let parameters ← if isClosed then pure #[] else parameterList fuel #[]
        next parameters : BodyParser α) body = .ok value after) :
    ∃ parameters written tokens closing state,
      body.input.Consumes (tokens ++ [closing]) state.input ∧
      DerivesParameters written tokens ∧ closing.kind = .rightParen ∧
      parametersTree? written body.context = some (parameters.toList, state.context) ∧
      next parameters state = .ok value after := by
  rcases accept_then (by decide) ran with
    ⟨closing, state, closes, passes, ran⟩ | ⟨state, passes, ran⟩
  · refine ⟨#[], [], [], closing, state, passes.consumes, .none, closes, ?_, ran⟩
    rw [passes.context_eq]
    rfl
  · obtain ⟨parameters, last, listRan, ran⟩ := bind_eq_ok_iff.mp ran
    obtain ⟨first, written, trees, tokens, closing, consumes, derives, closes, built, allEq⟩ :=
      parameterList_written listRan
    rw [passes.context_eq, ← show parameters.toList = trees from allEq] at built
    exact ⟨parameters, _, tokens, closing, last, passes.consumes.trans consumes, derives, closes,
      built, ran⟩

end BodyParser

namespace Parser

variable {input later : Input} {fuel : Nat}

theorem signature_written {signature entered}
    (ran : Parser.signature fuel input = .ok (signature, entered) later) :
    ∃ written tokens opening, input.Consumes (tokens ++ [opening]) later ∧
      DerivesHeader signature.name written signature.returnType? signature.position tokens ∧
      opening.kind = .leftBrace ∧
      parametersTree? written (.initial signature.name) =
        some (signature.parameters, entered) := by
  obtain ⟨keyword, started, keywordRan, ran⟩ := bind_eq_ok_iff.mp ran
  obtain ⟨isFunction, keywordConsumed⟩ := expect_ok (by decide) keywordRan
  obtain ⟨⟨name, position⟩, named, nameRan, ran⟩ := bind_eq_ok_iff.mp ran
  obtain ⟨token, isName, _, nameConsumed⟩ := identifier_ok nameRan
  dsimp only at ran
  split at ran
  · rename_i given last context afterRan
    cases ran
    obtain ⟨opening, opened, opens, openPasses, afterRan⟩ :=
      BodyParser.expect_then (by decide) afterRan
    obtain ⟨parameters, written, tokens, closing, listed, consumes, derives, closes, built,
      afterRan⟩ := BodyParser.parameters_then afterRan
    obtain ⟨returnType?, typeTokens, returned, typeDerives, typePasses, afterRan⟩ :=
      BodyParser.typeAfter_then (by decide) afterRan
    obtain ⟨brace, entered, isBrace, bracePasses, afterRan⟩ :=
      BodyParser.expect_then (by decide) afterRan
    cases afterRan
    have ended := typePasses.trans bracePasses
    rw [openPasses.context_eq, ← ended.context_eq] at built
    refine ⟨written, _, brace, ?_, .mk isFunction isName opens derives closes typeDerives,
      isBrace, built⟩
    have joined := keywordConsumed.trans (nameConsumed.trans
      (openPasses.consumes.trans (consumes.trans ended.consumes)))
    simpa using joined
  · contradiction

theorem function_written {item} (isOutside : input.nesting = 0)
    (enough : 4 * input.ahead.tokens.length + 3 ≤ fuel)
    (ran : function fuel input = .ok (item, none) later) :
    ∃ written tokens, input.Consumes tokens later ∧ DerivesItem (.function written) tokens ∧
      written.tree? = some item := by
  obtain ⟨⟨signature, entered⟩, started, signatureRan, ran⟩ := bind_eq_ok_iff.mp ran
  obtain ⟨parameters, tokens, opening, headConsumed, headed, opens, parametersBuilt⟩ :=
    signature_written signatureRan
  dsimp only at ran
  unfold functionBody at ran
  split at ran
  · rename_i nodes last left statementsRan
    cases ran
    have shorter := headConsumed.length_le
    have enoughLeft : 4 * started.ahead.tokens.length + 3 ≤ fuel := by omega
    obtain ⟨body, trees, others, closing, bodyConsumed, derives, closes, bodyBuilt, nodesEq⟩ :=
      (BodyParser.writesStatements fuel).sequence enoughLeft statementsRan
    rw [headConsumed.nesting_eq, isOutside] at bodyBuilt
    refine ⟨⟨signature.name, parameters, signature.returnType?, body, signature.position⟩, _, ?_,
      .function headed (.block opens derives closes), WrittenFunction.tree?_eq_some.mpr
        ⟨_, entered, trees, left, parametersBuilt, bodyBuilt, ?_⟩⟩
    · have joined := headConsumed.trans bodyConsumed
      simpa using joined
    · rw [← show nodes.toList = trees from nodesEq]
      rfl
  · cases ran

end Parser

/-! ## Files -/

namespace Input

variable {kind : TokenKind}

def oneItem (budget : Nat) (kind : TokenKind) (parsed : ParsedFile) (input : Input) :
    ParsedFile × Input :=
  if kind = .structKw then
    itemOrRecover (Parser.structItem budget) ParsedFile.addStruct parsed input
  else if kind = .fnKw then
    itemOrRecover (Parser.function budget) ParsedFile.addFunctionResult parsed input
  else
    itemOrRecover strayToken (fun parsed _ => parsed) parsed input

theorem itemsWithin_succ (budget fuel : Nat) (parsed : ParsedFile) (input : Input) :
    itemsWithin budget (fuel + 1) parsed input =
      if input.peek.1.kind = .endOfFile then (parsed, input.peek.2)
      else
        itemsWithin budget fuel (oneItem budget input.peek.1.kind parsed input.peek.2).1
          (oneItem budget input.peek.1.kind parsed input.peek.2).2 := rfl

variable {parsed : ParsedFile} {input : Input} {budget fuel : Nat}

theorem peek_ahead (input : Input) : input.peek.2.ahead = input.ahead := rfl

theorem peek_kind (input : Input) : input.peek.1.kind = input.ahead.kind := by
  rcases input with ⟨⟨name, stream, pending, consumed, inspected, finished⟩, depth, nesting⟩
  cases pending with
  | nil => rfl
  | cons token rest => rfl

theorem itemOrRecover_clean {α : Type} {step} {add : ParsedFile → α → ParsedFile}
    (clean : (itemOrRecover step add parsed input).1.faults = #[]) :
    ∃ value later, step input = .ok value later ∧ (add parsed value).faults = #[] ∧
      itemOrRecover step add parsed input = (add parsed value, later) := by
  unfold itemOrRecover at clean ⊢
  cases stepRan : step input with
  | ok value later =>
    simp only [stepRan] at clean
    exact ⟨value, later, rfl, clean, rfl⟩
  | error fault later =>
    simp only [stepRan, ParsedFile.addFault] at clean
    exact absurd clean (Array.push_ne_empty)

theorem addFunctionResult_clean {result} (clean : (parsed.addFunctionResult result).faults = #[]) :
    result.2 = none ∧ parsed.faults = #[] := by
  rcases result with ⟨item, fault?⟩
  cases fault? with
  | none => exact ⟨rfl, clean⟩
  | some fault => exact absurd clean (Array.push_ne_empty)

theorem oneItem_faults (clean : (oneItem budget kind parsed input).1.faults = #[]) :
    parsed.faults = #[] := by
  unfold oneItem at clean
  split at clean
  · obtain ⟨item, later, _, wasClean, _⟩ := itemOrRecover_clean clean
    exact wasClean
  split at clean
  · obtain ⟨result, later, _, stepClean, _⟩ := itemOrRecover_clean clean
    exact (addFunctionResult_clean stepClean).2
  · obtain ⟨_, later, _, wasClean, _⟩ := itemOrRecover_clean clean
    exact wasClean

theorem itemsWithin_faults (clean : (itemsWithin budget fuel parsed input).1.faults = #[]) :
    parsed.faults = #[] := by
  induction fuel generalizing parsed input with
  | zero => exact clean
  | succ fuel ih =>
    rw [itemsWithin_succ] at clean
    split at clean
    · exact clean
    · exact oneItem_faults (ih clean)

theorem oneItem_written (isOutside : input.nesting = 0)
    (enough : 4 * input.ahead.tokens.length + 3 ≤ budget)
    (clean : (oneItem budget kind parsed input).1.faults = #[]) :
    ∃ item tokens, input.Consumes tokens (oneItem budget kind parsed input).2 ∧
      DerivesItem item tokens ∧
      parsed.file.add? item = some (oneItem budget kind parsed input).1.file := by
  unfold oneItem at clean ⊢
  by_cases isStruct : kind = .structKw
  · simp only [if_pos isStruct] at clean ⊢
    obtain ⟨item, later, stepRan, _, resultEq⟩ := itemOrRecover_clean clean
    obtain ⟨tokens, consumes, derives, distinct⟩ := Parser.structItem_written (by omega) stepRan
    rw [resultEq]
    exact ⟨.struct item, tokens, consumes, derives, if_pos distinct⟩
  simp only [if_neg isStruct] at clean ⊢
  by_cases isFunction : kind = .fnKw
  · simp only [if_pos isFunction] at clean ⊢
    obtain ⟨⟨item, fault?⟩, later, stepRan, stepClean, resultEq⟩ := itemOrRecover_clean clean
    obtain ⟨rfl, _⟩ := addFunctionResult_clean stepClean
    obtain ⟨written, tokens, consumes, derives, built⟩ :=
      Parser.function_written isOutside enough stepRan
    rw [resultEq]
    refine ⟨.function written, tokens, consumes, derives, ?_⟩
    simp only [File.add?, built]
    rfl
  · simp only [if_neg isFunction] at clean ⊢
    obtain ⟨_, _, stepRan, _, _⟩ := itemOrRecover_clean clean
    obtain ⟨token, last, _, failed⟩ := bind_eq_ok_iff.mp stepRan
    contradiction

theorem itemsWithin_written (proper : ∀ token ∈ input.ahead.tokens, token.kind ≠ .endOfFile)
    (isOutside : input.nesting = 0) (enough : 4 * input.ahead.tokens.length + 3 ≤ budget)
    (rounds : input.ahead.tokens.length < fuel)
    (clean : (itemsWithin budget fuel parsed input).1.faults = #[]) :
    ∃ items, DerivesItems items input.ahead.tokens ∧
      items.foldlM File.add? parsed.file =
        some (itemsWithin budget fuel parsed input).1.file := by
  induction fuel generalizing parsed input with
  | zero => contradiction
  | succ fuel ih =>
    rw [itemsWithin_succ] at clean ⊢
    by_cases isEnd : input.peek.1.kind = .endOfFile
    · rw [if_pos isEnd]
      rw [peek_kind] at isEnd
      cases tokensEq : input.ahead.tokens with
      | nil => exact ⟨[], .none, rfl⟩
      | cons token rest =>
        have firstEnds : token.kind = .endOfFile := by
          rwa [Ahead.kind, tokensEq] at isEnd
        exact absurd firstEnds (proper token (tokensEq ▸ List.mem_cons_self))
    · rw [if_neg isEnd] at clean ⊢
      rw [← peek_ahead input] at proper enough rounds ⊢
      replace isOutside : input.peek.2.nesting = 0 := isOutside
      obtain ⟨item, tokens, consumes, derives, added⟩ :=
        oneItem_written isOutside enough (itemsWithin_faults clean)
      have positive := derives.length_pos
      have lengthEq := consumes.length_eq
      have properLeft := consumes.tokens_eq ▸ proper
      obtain ⟨items, restDerives, restBuilt⟩ := ih
        (fun token member => properLeft token (List.mem_append_right _ member))
        (consumes.nesting_eq.trans isOutside) (by omega) (by omega) clean
      refine ⟨item :: items, consumes.tokens_eq ▸ .more derives restDerives, ?_⟩
      rw [List.foldlM_cons, added]
      exact restBuilt

end Input

end SlotCompiler
