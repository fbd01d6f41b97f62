import SlotCompiler.Proofs.Grammar.Steps
import SlotCompiler.Proofs.Parse.Item
import SlotCompiler.Proofs.Parse.Rounds

/-!
Contract: names in a source are resolved by lexical scope.
-/

namespace SlotCompiler

/-! ## The round of a function -/

namespace Source.Round

variable {source : Source} {parsed : ParsedFile} {input : Input} {written : WrittenFunction}
  {tokens rest : List Token}

variable {cause : Cause}

theorem afterRound_function (source : Source) (parsed : ParsedFile)
    (tokensEq : input.ahead.tokens = tokens ++ rest)
    (derives : DerivesItem (.function written) tokens) :
    source.afterRound parsed input =
      Input.itemOrRecover (Parser.function (Input.ofSource source).budget)
        ParsedFile.addFunctionResult parsed input.peek.2 := by
  have isFunction : input.peek.1.kind = .fnKw := by
    rw [Input.peek_kind, Ahead.kind, tokensEq]
    exact derives.nextKind_eq rest
  rw [afterRound, isFunction, Input.oneItem, if_neg (by decide), if_pos rfl]

section Outcome

variable (round : source.Round parsed input) (tokensEq : input.ahead.tokens = tokens ++ rest)

include round tokensEq

theorem peek_ahead_eq : input.peek.2.ahead = ⟨tokens ++ rest, 0⟩ := by
  have nestingEq : input.ahead.nesting = 0 := round.precedes.nesting_eq
  rw [Input.peek_ahead, ← tokensEq, ← nestingEq]

variable (derives : DerivesItem (.function written) tokens)

include derives

theorem continues_function :
    (Input.itemOrRecover (Parser.function (Input.ofSource source).budget)
      ParsedFile.addFunctionResult parsed input.peek.2).1.Continues (parseSource source).1 := by
  rw [← afterRound_function source parsed tokensEq derives]
  apply (round.next _).continues
  rw [tokensEq]
  exact List.append_ne_nil_of_left_ne_nil (List.ne_nil_of_length_pos derives.length_pos) rest

theorem adds_fault
    (failed : parametersBuild written.parameters (.initial written.name) = .error cause) :
    ∃ fault, (parseSource source).1.faults[parsed.faults.size]? = some fault ∧
      fault.cause = cause := by
  have enough := tokensEq ▸ round.le_budget
  obtain ⟨fault, later, ran, isCause⟩ := Parser.refuses_function derives failed enough
    input.peek.2 (round.peek_ahead_eq tokensEq)
  have continues := round.continues_function tokensEq derives
  simp only [Input.itemOrRecover, ran] at continues
  exact ⟨fault, continues.fault_eq Array.toList_push, isCause⟩

variable {parameters : List Parameter} {entered : Context}
  (built : parametersBuild written.parameters (.initial written.name) = .ok (parameters, entered))

include built

theorem adds_whole {nodes left}
    (bodyBuilt : statementsBuild written.body 0 entered = .ok (nodes, left)) :
    ∃ item, (parseSource source).1.file.functions[parsed.file.functions.size]? = some item ∧
      item.isBroken = false := by
  have enough := tokensEq ▸ round.le_budget
  obtain ⟨later, ran, _⟩ := Parser.takes_function derives built bodyBuilt enough
    input.peek.2 (round.peek_ahead_eq tokensEq)
  have continues := round.continues_function tokensEq derives
  simp only [Input.itemOrRecover, ran] at continues
  exact ⟨_, continues.function_eq, rfl⟩

theorem adds_broken (failed : statementsBuild written.body 0 entered = .error cause) :
    ∃ item fault,
      (parseSource source).1.file.functions[parsed.file.functions.size]? = some item ∧
      item.isBroken = true ∧ (parseSource source).1.faults[parsed.faults.size]? = some fault ∧
      fault.cause = cause := by
  have enough := tokensEq ▸ round.le_budget
  obtain ⟨item, fault, later, ran, isBroken, isCause⟩ := Parser.function_of_refused derives built
    failed (round.peek_ahead_eq tokensEq) enough
  have continues := round.continues_function tokensEq derives
  simp only [Input.itemOrRecover, ran] at continues
  exact ⟨item, fault, continues.function_eq, isBroken, continues.fault_eq Array.toList_push,
    isCause⟩

end Outcome

theorem broken_iff_firstUnknown (round : source.Round parsed input)
    (tokensEq : input.ahead.tokens = tokens ++ rest)
    (derives : DerivesItem (.function written) tokens) (name : String) :
    (∃ item fault,
      (parseSource source).1.file.functions[parsed.file.functions.size]? = some item ∧
      item.isBroken = true ∧ (parseSource source).1.faults[parsed.faults.size]? = some fault ∧
      fault.cause = .cannotFindSymbol name) ↔ written.FirstUnknown name := by
  rw [WrittenFunction.firstUnknown_iff, written.follow_steps]
  cases built : parametersBuild written.parameters (.initial written.name) with
  | error cause =>
    have otherCause : cause ≠ .cannotFindSymbol name := by
      rintro rfl
      exact parametersBuild_ne_missing _ _ name built
    obtain ⟨given, isGiven, isCause⟩ := round.adds_fault tokensEq derives built
    rw [Building.bind_of_error built]
    constructor
    · rintro ⟨item, fault, _, _, isFault, isMissing⟩
      cases isGiven.symm.trans isFault
      exact absurd (isCause.symm.trans isMissing) otherCause
    · rintro ⟨⟩
      exact absurd rfl otherCause
  | ok result =>
    obtain ⟨parameters, entered⟩ := result
    rw [Building.bind_of_ok built]
    cases bodyBuilt : statementsBuild written.body 0 entered with
    | error cause =>
      obtain ⟨item, given, isItem, isBroken, isGiven, isCause⟩ :=
        round.adds_broken tokensEq derives built bodyBuilt
      rw [Building.bind_of_error bodyBuilt]
      constructor
      · rintro ⟨_, fault, _, _, isFault, isMissing⟩
        cases isGiven.symm.trans isFault
        rw [← isCause, isMissing]
      · rintro ⟨⟩
        exact ⟨item, given, isItem, isBroken, isGiven, isCause⟩
    | ok result =>
      obtain ⟨item, isItem, isWhole⟩ := round.adds_whole tokensEq derives built bodyBuilt
      rw [Building.bind_of_ok bodyBuilt]
      constructor
      · rintro ⟨other, _, isOther, isBroken, _⟩
        cases isItem.symm.trans isOther
        exact absurd (isWhole.symm.trans isBroken) Bool.false_ne_true
      · intro isMissing
        contradiction

end Source.Round

/-! ## Names of a source -/

/-- Names resolve by lexical scope.  In a whole function every name that is used has the
slot of the declaration that it stands for: of those that are complete before it and
whose block is still open, the one in the innermost block.  A function that the
grammar writes is broken for a missing name exactly if all before a use of the name is
in order and no such declaration is there. -/
theorem parseSource_resolves_names (source : Source) :
    (∀ item ∈ (parseSource source).1.file.functions, item.isBroken = false →
      ∃ written tokens, tokens <:+: (TokenStream.ofText source.text).tokens ∧
        DerivesItem (.function written) tokens ∧ written.tree? = some item ∧
        Resolves [] written.events item.trace) ∧
    ∀ {parsed input written tokens rest}, source.Round parsed input →
      input.ahead.tokens = tokens ++ rest → DerivesItem (.function written) tokens →
      ∀ name, (∃ item fault,
        (parseSource source).1.file.functions[parsed.file.functions.size]? = some item ∧
        item.isBroken = true ∧ (parseSource source).1.faults[parsed.faults.size]? = some fault ∧
        fault.cause = .cannotFindSymbol name) ↔ written.FirstUnknown name := by
  refine ⟨?_, fun round tokensEq derives => round.broken_iff_firstUnknown tokensEq derives⟩
  intro item member isWhole
  rcases parseSource_functions_written source item member with ⟨isBroken, _⟩ | found
  · exact absurd (isWhole.symm.trans isBroken) Bool.false_ne_true
  · obtain ⟨written, tokens, isPart, derives, built⟩ := found
    obtain ⟨after, followed⟩ := WrittenFunction.follow_of_tree built
    exact ⟨written, tokens, isPart, derives, built,
      (follow_resolves written.levelAfter_steps followed ScopeChain.describes_initial).1⟩

private def hiddenSource : Source :=
  ⟨"main", "fn f() \x7b while (true) \x7b const b = 1; \x7d b = 2; \x7d
fn g(mut a: int) \x7b while (true) \x7b const a = a; \x7d a = 1; \x7d"⟩

private def firstLineToken (index : Nat) (content : Content) (text : String) : Token :=
  ⟨content, ⟨index, 1, index + 1⟩, text⟩

private def hiddenBlockTokens : List Token :=
  [firstLineToken 22 (.plain .leftBrace) "\x7b", firstLineToken 24 (.plain .constKw) "const",
    firstLineToken 30 (.identifier "b") "b", firstLineToken 32 (.plain .assign) "=",
    firstLineToken 34 (.int 1) "1", firstLineToken 35 (.plain .semicolon) ";",
    firstLineToken 37 (.plain .rightBrace) "\x7d"]

private def hiddenTokens : List Token :=
  [firstLineToken 0 (.plain .fnKw) "fn", firstLineToken 3 (.identifier "f") "f",
    firstLineToken 4 (.plain .leftParen) "(", firstLineToken 5 (.plain .rightParen) ")",
    firstLineToken 7 (.plain .leftBrace) "\x7b", firstLineToken 9 (.plain .whileKw) "while",
    firstLineToken 15 (.plain .leftParen) "(", firstLineToken 16 (.plain .trueKw) "true",
    firstLineToken 20 (.plain .rightParen) ")"] ++ hiddenBlockTokens ++
  [firstLineToken 39 (.identifier "b") "b", firstLineToken 41 (.plain .assign) "=",
    firstLineToken 43 (.int 2) "2", firstLineToken 44 (.plain .semicolon) ";",
    firstLineToken 46 (.plain .rightBrace) "\x7d"]

private def hiddenFunction : WrittenFunction :=
  { name := "f", parameters := [], returnType? := none, position := ⟨0, 1, 1⟩,
    body :=
      [.loop (.literal (.bool true))
        [.declaration false "b" none (.literal (.int 1)) ⟨24, 1, 25⟩] ⟨9, 1, 10⟩,
      .assignment "b" (.literal (.int 2)) ⟨39, 1, 40⟩] }

private theorem derives_hiddenFunction : DerivesItem (.function hiddenFunction) hiddenTokens := by
  have literal {token : Token} {value : Immediate} (isLiteral : token.content.literal? = some value) :
      Derives (.tier 1 (.literal value)) [token] :=
    (Derives.literal isLiteral).loosen (by decide) (by decide)
  have assigned {assign number semicolon : Token} {value : Immediate}
      (assigns : assign.kind = .assign) (isLiteral : number.content.literal? = some value)
      (ends : semicolon.kind = .semicolon) :
      DerivesAssigned (.literal value) [assign, number, semicolon] :=
    .mk assigns (literal isLiteral) ends
  have declaration : DerivesStatement (.single
      (.declaration false "b" none (.literal (.int 1)) ⟨24, 1, 25⟩))
      (hiddenBlockTokens.drop 1 |>.take 5) :=
    @DerivesStatement.declaration (firstLineToken 24 (.plain .constKw) "const") _ _ _ _ _ _
      (.inl rfl) rfl .absent (assigned rfl rfl rfl)
  have block : DerivesStatement (.block
      [.declaration false "b" none (.literal (.int 1)) ⟨24, 1, 25⟩]) hiddenBlockTokens :=
    .block rfl (.moreStatements declaration .noStatements) rfl
  have test : Derives (.tier 1 (.literal (.bool true)))
      [firstLineToken 16 (.plain .trueKw) "true"] := literal rfl
  have loop := @DerivesStatement.loop (firstLineToken 9 (.plain .whileKw) "while") _ _ _ rfl
    (@DerivesStatement.guarded (firstLineToken 15 (.plain .leftParen) "(")
      (firstLineToken 20 (.plain .rightParen) ")") _ _ _ _ rfl test rfl block)
  have assignment := @DerivesStatement.assignment (firstLineToken 39 (.identifier "b") "b") _ _
    [firstLineToken 41 (.plain .assign) "=", firstLineToken 43 (.int 2) "2",
      firstLineToken 44 (.plain .semicolon) ";"] rfl (assigned rfl rfl rfl)
  have body := @DerivesStatement.block (firstLineToken 7 (.plain .leftBrace) "\x7b")
    (firstLineToken 46 (.plain .rightBrace) "\x7d") _ _ rfl
    (.moreStatements loop (.moreStatements assignment .noStatements)) rfl
  have header := @DerivesHeader.mk (firstLineToken 0 (.plain .fnKw) "fn")
    (firstLineToken 3 (.identifier "f") "f") (firstLineToken 4 (.plain .leftParen) "(")
    (firstLineToken 5 (.plain .rightParen) ")") _ _ _ _ _ rfl rfl rfl .none rfl .absent
  have whole := DerivesItem.function header body
  exact whole

theorem parseSource_resolves_names_hidden :
    (∃ item ∈ (parseSource hiddenSource).1.file.functions, item.isBroken = false ∧
      item.trace = [.declares "a" true 0, .opens 0, .uses 0, .declares "a" false 1, .closes,
        .uses 0] ∧
      ∃ written tokens, tokens <:+: (TokenStream.ofText hiddenSource.text).tokens ∧
        DerivesItem (.function written) tokens ∧ written.tree? = some item ∧
        Resolves [] written.events item.trace) ∧
    hiddenSource.Round .empty (.ofSource hiddenSource) ∧
    DerivesItem (.function hiddenFunction) hiddenTokens ∧ hiddenFunction.FirstUnknown "b" ∧
    ∃ item fault, (parseSource hiddenSource).1.file.functions[0]? = some item ∧
      item.isBroken = true ∧ (parseSource hiddenSource).1.faults[0]? = some fault ∧
      fault.cause = .cannotFindSymbol "b" := by
  have tokensEq : (Input.ofSource hiddenSource).ahead.tokens =
      hiddenTokens ++ (TokenStream.ofText hiddenSource.text).tokens.drop 21 := by
    decide +kernel
  have isUnknown : hiddenFunction.FirstUnknown "b" := by
    apply WrittenFunction.firstUnknown_iff.mpr
    rfl
  refine ⟨?_, .first, derives_hiddenFunction, isUnknown, ?_⟩
  · have passes : (parseSource hiddenSource).1.file.functions.any (fun item =>
        !item.isBroken && item.trace == [.declares "a" true 0, .opens 0, .uses 0,
          .declares "a" false 1, .closes, .uses 0]) = true := by
      decide +kernel
    obtain ⟨item, member, passes⟩ := exists_function passes
    obtain ⟨isWhole, traceEq⟩ := Bool.and_eq_true_iff.mp passes
    have isWhole : item.isBroken = false := by simpa using isWhole
    exact ⟨item, member, isWhole, eq_of_beq traceEq,
      (parseSource_resolves_names hiddenSource).1 item member isWhole⟩
  · exact ((parseSource_resolves_names hiddenSource).2 .first tokensEq derives_hiddenFunction
      "b").mpr isUnknown

end SlotCompiler
