import SlotCompiler.Proofs.Grammar.Statement
import SlotCompiler.Proofs.Parse.ExpressionSoundness

/-!
Contract: every parsed statement is written by the grammar.
-/

namespace SlotCompiler

variable {name : String} {α : Type} {value : α} {front : List Token}

/-! ## Types -/

theorem Content.kind_ne_of_typeName? {content}
    (isType : Parser.typeName? content = some name) : content.kind ≠ .endOfFile := by
  cases content with
  | plain kind =>
    rintro rfl
    contradiction
  | identifier found => exact nofun
  | int | float | char | string | invalid => contradiction

namespace Parser

variable {input later : Input}

theorem typeName_ok {type} (ran : typeName input = .ok type later) :
    ∃ token name, typeName? token.content = some name ∧ type = ⟨name, token.position⟩ ∧
      input.Consumes [token] later := by
  obtain ⟨token, middle, peekRan, ran⟩ := bind_eq_ok_iff.mp ran
  obtain ⟨contentEq, aheadEq, isHead⟩ := peek_ok peekRan
  cases isType : typeName? token.content with
  | none =>
    simp only [isType] at ran
    contradiction
  | some name =>
    simp only [isType] at ran
    obtain ⟨taken, last, nextRan, ran⟩ := bind_eq_ok_iff.mp ran
    cases ran
    have proper : input.ahead.kind ≠ .endOfFile := by
      rw [Ahead.kind_eq, ← contentEq]
      exact Content.kind_ne_of_typeName? isType
    obtain ⟨rest, tokensEq⟩ := isHead proper
    obtain ⟨_, consumes⟩ := next_ok (aheadEq ▸ proper) nextRan
    have sameTokens := consumes.tokens_eq
    rw [aheadEq, tokensEq, List.singleton_append] at sameTokens
    obtain ⟨rfl, rfl⟩ := List.cons.inj sameTokens
    refine ⟨token, name, isType, rfl, tokensEq, ?_⟩
    exact consumes.nesting_eq.trans (congrArg Ahead.nesting aheadEq)

theorem typeAfter_ok {mark type?} (proper : mark ≠ .endOfFile)
    (ran : typeAfter mark input = .ok type? later) :
    ∃ tokens, DerivesType mark type? tokens ∧ input.Consumes tokens later := by
  obtain ⟨isMarked, middle, acceptRan, ran⟩ := bind_eq_ok_iff.mp ran
  cases isMarked with
  | true =>
    obtain ⟨sign, isMark, signConsumed⟩ := accept_true proper acceptRan
    obtain ⟨type, last, typeRan, ran⟩ := bind_eq_ok_iff.mp ran
    cases ran
    obtain ⟨token, name, isType, rfl, typeConsumed⟩ := typeName_ok typeRan
    exact ⟨[sign, token], .present isMark isType, signConsumed.trans typeConsumed⟩
  | false =>
    cases ran
    obtain ⟨_, aheadEq⟩ := accept_false acceptRan
    exact ⟨[], .absent, Input.consumes_nothing aheadEq⟩

end Parser

namespace BodyParser

variable {body middle after : BodyInput} {fuel : Nat}

/-! ## Parts of statements -/

theorem name_then {next : Bool → String × Position → BodyParser α}
    (ran : (do
        let isMutable ← (liftM (Parser.accept .mutKw) : BodyParser Bool)
        let named ← (liftM Parser.identifier : BodyParser (String × Position))
        next isMutable named : BodyParser α) body = .ok value after) :
    ∃ isMutable name position tokens state, DerivesName isMutable name tokens ∧
      body.Passes tokens state ∧ next isMutable (name, position) state = .ok value after := by
  rcases accept_then (by decide) ran with
    ⟨keyword, state, isMut, passes, ran⟩ | ⟨state, passes, ran⟩
  · obtain ⟨token, name, last, isName, lastPasses, ran⟩ := identifier_then ran
    exact ⟨true, name, _, _, last, .mutable isMut isName, passes.trans lastPasses, ran⟩
  · obtain ⟨token, name, last, isName, lastPasses, ran⟩ := identifier_then ran
    exact ⟨false, name, _, _, last, .plain isName, passes.trans lastPasses, ran⟩

theorem typeAfter_then {mark} {next : Option TypeRef → BodyParser α} (proper : mark ≠ .endOfFile)
    (ran : ((liftM (Parser.typeAfter mark) : BodyParser (Option TypeRef)) >>= next) body =
      .ok value after) :
    ∃ type? tokens state, DerivesType mark type? tokens ∧ body.Passes tokens state ∧
      next type? state = .ok value after := by
  obtain ⟨type?, state, typeRan, ran⟩ := bind_eq_ok_iff.mp ran
  obtain ⟨typeRan, sameContext⟩ := lift_eq_ok typeRan
  obtain ⟨tokens, derives, consumes⟩ := Parser.typeAfter_ok proper typeRan
  exact ⟨type?, tokens, state, derives, ⟨consumes, sameContext⟩, ran⟩

theorem expression_written {value} (passes : body.Passes front middle)
    (enough : 4 * middle.input.ahead.tokens.length + 2 ≤ fuel)
    (ran : expression fuel middle = .ok value after) :
    ∃ written tokens, body.input.Consumes (front ++ tokens) after.input ∧
      Derives (.tier 1 written) tokens ∧
      written.tree? body.input.nesting body.context = some (value, after.context) := by
  obtain ⟨written, tokens, consumes, derives, built, _⟩ :=
    (writesExpressions fuel).binary (le_refl 1) (by decide) enough ran
  exact ⟨written, tokens, passes.consumes.trans consumes, derives, passes.before built⟩

theorem assigned_then {result} {next : Operand → BodyParser α}
    (passes : body.Passes front middle) (enough : 4 * middle.input.ahead.tokens.length ≤ fuel + 2)
    (ran : (do
        let _ ← (liftM (Parser.expect .assign) : BodyParser Token)
        let value ← expression fuel
        let _ ← (liftM (Parser.expect .semicolon) : BodyParser Token)
        next value : BodyParser α) middle = .ok result after) :
    ∃ value written tokens state, body.input.Consumes (front ++ tokens) state.input ∧
      DerivesAssigned written tokens ∧
      written.tree? body.input.nesting body.context = some (value, state.context) ∧
      next value state = .ok result after := by
  obtain ⟨assign, started, assigns, assignPasses, ran⟩ := expect_then (by decide) ran
  obtain ⟨value, last, valueRan, ran⟩ := bind_eq_ok_iff.mp ran
  have shorter := assignPasses.consumes.length_lt
  obtain ⟨written, tokens, consumes, derives, built⟩ :=
    expression_written (passes.trans assignPasses) (by omega) valueRan
  obtain ⟨semicolon, ended, ends, endPasses, ran⟩ := expect_then (by decide) ran
  refine ⟨value, written, assign :: tokens ++ [semicolon], ended, ?_, .mk assigns derives ends,
    ?_, ran⟩
  · have joined := consumes.trans endPasses.consumes
    simpa using joined
  · rw [endPasses.context_eq]
    exact built

theorem declare_declared {isMutable position slot}
    (ran : declare name isMutable position body = .ok slot after) :
    body.context.declare? name isMutable = some (slot, after.context) ∧
      after.input = body.input := by
  refine ⟨Context.declare?_eq_some_iff.mpr (declare_ok ran), ?_⟩
  obtain ⟨_, state, freshRan, ran⟩ := bind_eq_ok_iff.mp ran
  obtain ⟨_, rfl⟩ := requireFresh_ok freshRan
  obtain ⟨given, state, allocateRan, ran⟩ := bind_eq_ok_iff.mp ran
  obtain ⟨frame, _, rfl⟩ := allocate_ok allocateRan
  obtain ⟨_, state, scopesRan, ran⟩ := bind_eq_ok_iff.mp ran
  cases ran
  cases scopesRan
  rfl

end BodyParser

def BodyInput.Writes (body : BodyInput) (node : Node) (after : BodyInput) : Prop :=
  ∃ written tokens, body.input.Consumes tokens after.input ∧
    DerivesStatement (.single written) tokens ∧
    written.tree? body.input.nesting body.context = some (node, after.context)

namespace BodyParser

variable {node : Node}

variable {token : Token} {locks : Nat} {node? : Option Node}

variable {body middle after : BodyInput} {fuel : Nat}

/-! ## Single statements -/

theorem declaration_written
    (declares : body.input.ahead.kind = .constKw ∨ body.input.ahead.kind = .mutKw)
    (enough : 4 * body.input.ahead.tokens.length ≤ fuel)
    (ran : declaration fuel body = .ok node after) : body.Writes node after := by
  have proper : body.input.ahead.kind ≠ .endOfFile := by
    rcases declares with isConst | isMut
    · rw [isConst]
      decide
    · rw [isMut]
      decide
  obtain ⟨keyword, started, contentEq, keywordPasses, ran⟩ := next_then proper ran
  have kindEq : keyword.kind = body.input.ahead.kind := congrArg Content.kind contentEq
  rw [← kindEq] at declares
  obtain ⟨token, name, named, isName, namePasses, ran⟩ := identifier_then ran
  obtain ⟨_, fresh, freshRan, ran⟩ := bind_eq_ok_iff.mp ran
  obtain ⟨_, rfl⟩ := requireFresh_ok freshRan
  obtain ⟨declared?, typeTokens, typed, typeDerives, typePasses, ran⟩ :=
    typeAfter_then (by decide) ran
  have front := keywordPasses.trans (namePasses.trans typePasses)
  have shorter := front.consumes.length_lt
  obtain ⟨value, written, tokens, ended, consumes, derives, built, ran⟩ :=
    assigned_then front (by omega) ran
  obtain ⟨slot, last, declareRan, ran⟩ := bind_eq_ok_iff.mp ran
  cases ran
  obtain ⟨declared, sameInput⟩ := declare_declared declareRan
  refine ⟨_, _, ?_, .declaration declares isName typeDerives derives,
    bind_of_some built (bind_of_some declared rfl)⟩
  rw [sameInput]
  exact consumes

theorem assignment_written (isName : token.content = .identifier name)
    (passes : body.Passes [token] middle) (enough : 4 * middle.input.ahead.tokens.length ≤ fuel + 2)
    (ran : assignment fuel name token.position middle = .ok node after) :
    body.Writes node after := by
  obtain ⟨slot, looked, lookupRan, ran⟩ := bind_eq_ok_iff.mp ran
  obtain ⟨found, rfl⟩ := lookup_ok lookupRan
  obtain ⟨value, last, valueRan, ran⟩ := bind_eq_ok_iff.mp ran
  obtain ⟨rfl, rfl⟩ := pure_eq_ok_iff.mp ran
  obtain ⟨given, written, tokens, ended, consumes, derives, built, ran⟩ :=
    assigned_then passes enough valueRan
  obtain ⟨rfl, rfl⟩ := pure_eq_ok_iff.mp ran
  rw [passes.context_eq] at found
  exact ⟨_, _, consumes, .assignment isName derives,
    bind_of_some found (bind_of_some built rfl)⟩

theorem memberAssignment_written (isName : token.content = .identifier name)
    (passes : body.Passes [token] middle) (enough : 4 * middle.input.ahead.tokens.length ≤ fuel + 2)
    (ran : memberAssignment fuel name token.position middle = .ok node after) :
    body.Writes node after := by
  obtain ⟨source, looked, lookupRan, ran⟩ := bind_eq_ok_iff.mp ran
  obtain ⟨found, rfl⟩ := lookup_ok lookupRan
  rw [passes.context_eq] at found
  obtain ⟨names, listed, namesRan, ran⟩ := bind_eq_ok_iff.mp ran
  obtain ⟨members, chain, chainConsumed, chainDerives, namesEq, listedContext, _⟩ :=
    memberNames_derives namesRan
  cases last : names.back? with
  | none =>
    simp only [last] at ran
    obtain ⟨_, _, _, failed⟩ := bind_eq_ok_iff.mp ran
    contradiction
  | some final =>
    rcases final with ⟨member, place⟩
    simp only [last] at ran
    obtain ⟨target, _, projectRan, ran⟩ := bind_eq_ok_iff.mp ran
    obtain ⟨steps, projected, stepsRan, projectRan⟩ := bind_eq_ok_iff.mp projectRan
    obtain ⟨rfl, rfl⟩ := pure_eq_ok_iff.mp projectRan
    obtain ⟨stepsBuilt, sameInput⟩ := projectSteps_tree stepsRan
    obtain ⟨value, _, valueRan, ran⟩ := bind_eq_ok_iff.mp ran
    obtain ⟨rfl, rfl⟩ := pure_eq_ok_iff.mp ran
    have reached : body.input.Consumes ([token] ++ chain) projected.input := by
      rw [sameInput]
      exact passes.consumes.trans chainConsumed
    have shorter := chainConsumed.length_le
    rw [← sameInput] at shorter
    obtain ⟨given, written, tokens, ended, consumes, derives, built, ran⟩ :=
      assigned_then (.refl projected) (by omega) valueRan
    obtain ⟨rfl, rfl⟩ := pure_eq_ok_iff.mp ran
    have membersEq : members = names.pop.toList ++ [(member, place)] := by
      have namesEq : names.toList = members := namesEq
      rw [← namesEq, Array.toList_pop]
      refine (List.dropLast_append_getLast? _ ?_).symm
      rw [Array.getLast?_toList, last]
      rfl
    rw [membersEq] at chainDerives
    rw [listedContext, passes.context_eq] at stepsBuilt
    rw [reached.nesting_eq] at built
    refine ⟨_, _, ?_, .memberAssignment isName chainDerives derives,
      bind_of_some found (bind_of_some stepsBuilt (bind_of_some built rfl))⟩
    have joined := reached.trans consumes
    rwa [List.append_assoc] at joined

theorem returnStatement_written (enough : 4 * body.input.ahead.tokens.length ≤ fuel)
    (ran : returnStatement fuel body = .ok node after) : body.Writes node after := by
  obtain ⟨keyword, started, returns, passes, ran⟩ := expect_then (by decide) ran
  obtain ⟨state, statePasses, _, ran⟩ := peekKind_then ran
  have front := passes.trans statePasses
  have shorter := front.consumes.length_lt
  by_cases isBare : started.input.ahead.kind = .semicolon
  · rw [if_pos isBare] at ran
    obtain ⟨value?, _, noneRan, ran⟩ := bind_eq_ok_iff.mp ran
    cases noneRan
    obtain ⟨semicolon, ended, ends, endPasses, ran⟩ := expect_then (by decide) ran
    obtain ⟨_, last, getRan, ran⟩ := bind_eq_ok_iff.mp ran
    cases getRan
    cases ran
    have whole := front.trans endPasses
    refine ⟨_, _, whole.consumes, .returnNothing returns ends, ?_⟩
    rw [whole.context_eq]
    rfl
  · rw [if_neg isBare] at ran
    obtain ⟨value?, last, someRan, ran⟩ := bind_eq_ok_iff.mp ran
    obtain ⟨value, valueRan, rfl⟩ := map_eq_ok_iff.mp someRan
    obtain ⟨written, tokens, consumes, derives, built⟩ :=
      expression_written front (by omega) valueRan
    obtain ⟨semicolon, ended, ends, endPasses, ran⟩ := expect_then (by decide) ran
    obtain ⟨_, last, getRan, ran⟩ := bind_eq_ok_iff.mp ran
    cases getRan
    cases ran
    rw [← endPasses.context_eq] at built
    exact ⟨_, _, consumes.trans endPasses.consumes, .returnValue returns derives ends,
      bind_of_some built rfl⟩

theorem namedStatement_written (enough : 4 * body.input.ahead.tokens.length ≤ fuel)
    (ran : namedStatement fuel body = .ok node after) : body.Writes node after := by
  obtain ⟨token, name, named, isName, namePasses, ran⟩ := identifier_then ran
  obtain ⟨state, statePasses, _, ran⟩ := peekKind_then ran
  have passes : body.Passes [token] state := namePasses.trans statePasses
  have shorter := passes.consumes.length_lt
  by_cases isAssignment : named.input.ahead.kind = .assign
  · rw [if_pos isAssignment] at ran
    exact assignment_written isName passes (by omega) ran
  rw [if_neg isAssignment] at ran
  by_cases isMember : named.input.ahead.kind = .dot
  · rw [if_pos isMember] at ran
    exact memberAssignment_written isName passes (by omega) ran
  rw [if_neg isMember] at ran
  by_cases isCall : named.input.ahead.kind = .leftParen
  · rw [if_pos isCall] at ran
    obtain ⟨invoked, called, callRan, ran⟩ := bind_eq_ok_iff.mp ran
    obtain ⟨values, tokens, consumes, derives, built⟩ :=
      (writesExpressions fuel).call (by omega) callRan
    obtain ⟨semicolon, ended, ends, endPasses, ran⟩ := expect_then (by decide) ran
    cases ran
    rw [← endPasses.context_eq] at built
    obtain ⟨_, argumentsBuilt, built⟩ := Option.bind_eq_some_iff.mp (passes.before built)
    obtain ⟨_, recorded, ⟨⟩⟩ := Option.bind_eq_some_iff.mp built
    exact ⟨_, _, (passes.consumes.trans consumes).trans endPasses.consumes,
      .call (derives token isName) ends, bind_of_some argumentsBuilt (bind_of_some recorded rfl)⟩
  · rw [if_neg isCall] at ran
    obtain ⟨_, _, _, failed⟩ := bind_eq_ok_iff.mp ran
    contradiction

/-! ## Locks -/

theorem lockList_written {given locks} (ran : lockList fuel given body = .ok locks after) :
    ∃ written rest tokens, body.Passes tokens after ∧ DerivesLocks written tokens ∧
      locksTree? body.context.scopes written = some rest ∧
      locks.toList = given.toList ++ rest := by
  induction fuel generalizing given body with
  | zero => exact (exhausted_ok ran).elim
  | succ fuel ih =>
    obtain ⟨exclusive, name, position, tokens, named, derives, passes, ran⟩ := name_then ran
    obtain ⟨slot, looked, lookupRan, ran⟩ := bind_eq_ok_iff.mp ran
    obtain ⟨found, rfl⟩ := lookup_ok lookupRan
    rw [passes.context_eq] at found
    by_cases isTwice : (given.any fun lock => lock.slot == slot) = true
    · rw [if_pos isTwice] at ran
      contradiction
    rw [if_neg isTwice] at ran
    rcases accept_then (by decide) ran with
      ⟨comma, state, isComma, commaPasses, ran⟩ | ⟨state, statePasses, ran⟩
    · obtain ⟨written, rest, others, restPasses, restDerives, restBuilt, locksEq⟩ := ih ran
      have front := passes.trans commaPasses
      rw [front.context_eq] at restBuilt
      refine ⟨⟨name, exclusive⟩ :: written, ⟨name, slot, exclusive⟩ :: rest, _, ?_,
        .more derives isComma restDerives, bind_of_some found (bind_of_some restBuilt rfl), ?_⟩
      · have joined := front.trans restPasses
        rwa [List.append_assoc] at joined
      · rw [locksEq, toList_push_append]
    · cases ran
      have whole := passes.trans statePasses
      rw [List.append_nil] at whole
      exact ⟨[⟨name, exclusive⟩], [⟨name, slot, exclusive⟩], tokens, whole, .last derives,
        bind_of_some found rfl, Array.toList_push⟩

/-! ## Blocks -/

theorem inScope_view {step} (ran : inScope locks step body = .ok value after) :
    ∃ closed, step ⟨body.input, body.context.withScopes (body.context.scopes.enter locks)⟩ =
        .ok value closed ∧
      after = ⟨closed.input, closed.context.withScopes closed.context.scopes.leave⟩ := by
  unfold inScope at ran
  have enters : modifyScopes (ScopeChain.enter · locks) body = .ok ()
      ⟨body.input, body.context.withScopes (body.context.scopes.enter locks)⟩ := rfl
  simp only [enters] at ran
  split at ran
  · rename_i given closed stepRan
    cases ran
    exact ⟨closed, stepRan, rfl⟩
  · contradiction

def WritesOrEnds (body after : BodyInput) : Option Node → Prop
  | some node => body.Writes node after
  | none => ∃ closing, closing.kind = .rightBrace ∧ body.Passes [closing] after

def WritesSequence (body : BodyInput) (given all : Array Node) (after : BodyInput) : Prop :=
  ∃ written nodes tokens closing, body.input.Consumes (tokens ++ [closing]) after.input ∧
    DerivesStatement (.sequence written) tokens ∧ closing.kind = .rightBrace ∧
    statementsTree? written body.input.nesting body.context = some (nodes, after.context) ∧
    all.toList = given.toList ++ nodes

def WritesArms (body : BodyInput) (given conditions : Array Operand) (before blocks : Array Block)
    (after : BodyInput) : Prop :=
  ∃ written others more tokens, body.input.Consumes tokens after.input ∧
    DerivesStatement (.arms written) tokens ∧
    written.tree? body.input.nesting body.context = some ((others, more), after.context) ∧
    conditions.toList = given.toList ++ others ∧ blocks.toList = before.toList ++ more

/-- With some fuel, whatever the statement parsers give was written by the
grammar, as long as the fuel is enough for the tokens. -/
structure WritesStatements (fuel : Nat) : Prop where
  statement : ∀ {node? : Option Node} {body after : BodyInput},
    4 * body.input.ahead.tokens.length + 2 ≤ fuel → statement fuel body = .ok node? after →
    WritesOrEnds body after node?
  block : ∀ {locks : Nat} {nodes : List Node} {body after : BodyInput},
    4 * body.input.ahead.tokens.length + 2 ≤ fuel → block fuel locks body = .ok nodes after →
    ∃ written tokens, body.input.Consumes tokens after.input ∧
      DerivesStatement (.block written) tokens ∧
      blockTree? written locks body.input.nesting body.context = some (nodes, after.context)
  sequence : ∀ {given all : Array Node} {body after : BodyInput},
    4 * body.input.ahead.tokens.length + 3 ≤ fuel → statements fuel given body = .ok all after →
    WritesSequence body given all after
  arms : ∀ {given conditions : Array Operand} {before blocks : Array Block}
    {body after : BodyInput}, 4 * body.input.ahead.tokens.length + 2 ≤ fuel →
    conditionalArms fuel given before body = .ok (conditions, blocks) after →
    WritesArms body given conditions before blocks after

private theorem writesStatements_zero : WritesStatements 0 where
  statement _ ran := (exhausted_ok ran).elim
  block _ ran := (exhausted_ok ran).elim
  sequence _ ran := (exhausted_ok ran).elim
  arms _ ran := (exhausted_ok ran).elim

section Written

variable (writes : WritesStatements fuel)

include writes

private theorem block_written {nodes} (enough : 4 * body.input.ahead.tokens.length + 2 ≤ fuel + 1)
    (ran : block (fuel + 1) locks body = .ok nodes after) :
    ∃ written tokens, body.input.Consumes tokens after.input ∧
      DerivesStatement (.block written) tokens ∧
      blockTree? written locks body.input.nesting body.context = some (nodes, after.context) := by
  rw [block] at ran
  obtain ⟨opening, opened, opens, passes, ran⟩ := expect_then (by decide) ran
  obtain ⟨deep, deepRan, contextEq, aheadEq⟩ := restoringNesting_view ran
  obtain ⟨nested, isShallow, nestedContext, nestedAhead, scopeRan⟩ := descend_then deepRan
  obtain ⟨closed, insideRan, rfl⟩ := inScope_view scopeRan
  obtain ⟨all, _, statementsRan, insideRan⟩ := bind_eq_ok_iff.mp insideRan
  cases insideRan
  have shorter := passes.consumes.length_lt
  have nestedTokens : nested.input.ahead.tokens = opened.input.ahead.tokens := by rw [nestedAhead]
  obtain ⟨written, inner, tokens, closing, consumes, derives, closes, built, allEq⟩ :=
    writes.sequence (by rw [nestedTokens]; omega) statementsRan
  have insideTokens : nested.input.ahead.tokens = _ := consumes.tokens_eq
  have below : nested.input.nesting = body.input.nesting + 1 := by
    rw [← passes.consumes.nesting_eq]
    exact congrArg Ahead.nesting nestedAhead
  refine ⟨written, opening :: tokens ++ [closing], ⟨?_, ?_⟩, .block opens derives closes, ?_⟩
  · have afterTokens : after.input.ahead.tokens = _ := congrArg Ahead.tokens aheadEq
    rw [passes.consumes.tokens_eq, ← nestedTokens, insideTokens, afterTokens]
    simp
  · rw [← passes.consumes.nesting_eq]
    exact congrArg Ahead.nesting aheadEq
  · rw [contextEq, show all.toList = inner from allEq]
    have sameContext : nested.context = body.context := nestedContext.trans passes.context_eq
    rw [sameContext] at built
    rw [show Input.nesting _ = _ from below] at built
    rw [passes.consumes.nesting_eq] at isShallow
    exact Context.enclosed?_eq_some_iff.mpr ⟨isShallow, _, built, rfl⟩

private theorem sequence_written {given all}
    (enough : 4 * body.input.ahead.tokens.length + 3 ≤ fuel + 1)
    (ran : statements (fuel + 1) given body = .ok all after) :
    WritesSequence body given all after := by
  rw [statements] at ran
  obtain ⟨node?, state, statementRan, ran⟩ := bind_eq_ok_iff.mp ran
  have first := writes.statement (by omega) statementRan
  cases node? with
  | none =>
    cases ran
    obtain ⟨closing, closes, passes⟩ := first
    refine ⟨[], [], [], closing, passes.consumes, .noStatements, closes, ?_,
      (List.append_nil _).symm⟩
    rw [passes.context_eq]
    rfl
  | some node =>
    obtain ⟨written, tokens, consumes, derives, built⟩ := first
    have shorter := derives.length_pos
    have lengthEq := consumes.length_eq
    obtain ⟨rest, nodes, others, closing, restConsumed, restDerives, closes, restBuilt, allEq⟩ :=
      writes.sequence (by omega) ran
    rw [consumes.nesting_eq] at restBuilt
    refine ⟨written :: rest, node :: nodes, tokens ++ others, closing, ?_,
      .moreStatements derives restDerives, closes,
      bind_of_some built (bind_of_some restBuilt rfl), ?_⟩
    · rw [List.append_assoc]
      exact consumes.trans restConsumed
    · rw [allEq, toList_push_append]

private theorem guarded_then {result} {next : Operand → List Node → BodyParser α}
    (passes : body.Passes front middle) (enough : 4 * middle.input.ahead.tokens.length ≤ fuel)
    (ran : (do
        let condition ← parenthesised fuel
        let arm ← block fuel 0
        next condition arm : BodyParser α) middle = .ok result after) :
    ∃ test nodes condition written tokens state,
      body.input.Consumes (front ++ tokens) state.input ∧
      DerivesStatement (.guarded condition written) tokens ∧
      guardedTree? condition written body.input.nesting body.context =
        some ((test, nodes), state.context) ∧
      next test nodes state = .ok result after := by
  obtain ⟨test, tested, testRan, ran⟩ := bind_eq_ok_iff.mp ran
  obtain ⟨opening, opened, opens, openPasses, testRan⟩ := expect_then (by decide) testRan
  obtain ⟨_, checked, conditionRan, testRan⟩ := bind_eq_ok_iff.mp testRan
  have shorter := openPasses.consumes.length_lt
  obtain ⟨condition, tokens, consumes, derives, built⟩ :=
    expression_written (passes.trans openPasses) (by omega) conditionRan
  obtain ⟨closing, closed, closes, closePasses, testRan⟩ := expect_then (by decide) testRan
  cases testRan
  obtain ⟨nodes, state, blockRan, ran⟩ := bind_eq_ok_iff.mp ran
  have reached := consumes.trans closePasses.consumes
  have startLength := passes.consumes.length_eq
  have reachedLength := reached.length_eq
  simp only [List.length_append, List.length_singleton] at reachedLength
  obtain ⟨written, taken, blockConsumed, blockDerives, blockBuilt⟩ :=
    writes.block (by omega) blockRan
  rw [reached.nesting_eq, closePasses.context_eq] at blockBuilt
  refine ⟨_, nodes, condition, written, _, state, ?_,
    .guarded opens derives closes blockDerives,
    bind_of_some built (bind_of_some blockBuilt rfl), ran⟩
  have joined := reached.trans blockConsumed
  simpa using joined

private theorem arms_written {given conditions before blocks}
    (enough : 4 * body.input.ahead.tokens.length + 2 ≤ fuel + 1)
    (ran : conditionalArms (fuel + 1) given before body = .ok (conditions, blocks) after) :
    WritesArms body given conditions before blocks after := by
  rw [conditionalArms] at ran
  obtain ⟨test, nodes, condition, taken, tokens, state, consumes, derives, built, ran⟩ :=
    guarded_then writes (.refl body) (by omega) ran
  rw [List.nil_append] at consumes
  have lengthEq := consumes.length_eq
  rcases accept_then (by decide) ran with
    ⟨keyword, other, isElse, elsePasses, ran⟩ | ⟨last, lastPasses, ran⟩
  · have reached := consumes.trans elsePasses.consumes
    have shorter := elsePasses.consumes.length_lt
    rcases accept_then (by decide) ran with
      ⟨another, next, isIf, ifPasses, ran⟩ | ⟨next, nextPasses, ran⟩
    · have further := ifPasses.consumes.length_lt
      obtain ⟨written, others, more, rest, restConsumed, restDerives, restBuilt, conditionsEq,
        blocksEq⟩ := writes.arms (by omega) ran
      rw [(reached.trans ifPasses.consumes).nesting_eq, ifPasses.context_eq,
        elsePasses.context_eq] at restBuilt
      refine ⟨.more condition taken written, test :: others, nodes :: more, _, ?_,
        .moreArms derives isElse isIf restDerives,
        bind_of_some built (bind_of_some restBuilt rfl), ?_, ?_⟩
      · have joined := (reached.trans ifPasses.consumes).trans restConsumed
        simpa using joined
      · rw [conditionsEq, toList_push_append]
      · rw [blocksEq, toList_push_append]
    · have further := nextPasses.consumes.length_le
      obtain ⟨alternative, last, blockRan, ran⟩ := bind_eq_ok_iff.mp ran
      obtain ⟨pairEq, rfl⟩ := pure_eq_ok_iff.mp ran
      cases pairEq
      obtain ⟨written, others, blockConsumed, blockDerives, blockBuilt⟩ :=
        writes.block (by omega) blockRan
      rw [(reached.trans nextPasses.consumes).nesting_eq, nextPasses.context_eq,
        elsePasses.context_eq] at blockBuilt
      refine ⟨.otherwise condition taken written, [test], [nodes, alternative], _, ?_,
        .otherwise derives isElse blockDerives, bind_of_some built (bind_of_some blockBuilt rfl),
        Array.toList_push, ?_⟩
      · have joined := (reached.trans nextPasses.consumes).trans blockConsumed
        simpa using joined
      · rw [Array.toList_push, Array.toList_push, List.append_assoc]
        rfl
  · obtain ⟨pairEq, rfl⟩ := pure_eq_ok_iff.mp ran
    cases pairEq
    rw [← lastPasses.context_eq] at built
    refine ⟨.last condition taken, [test], [nodes], tokens, ?_, .lastArm derives,
      bind_of_some built rfl, Array.toList_push, Array.toList_push⟩
    have joined := consumes.trans lastPasses.consumes
    rwa [List.append_nil] at joined

private theorem sync_written {keyword : Token} (guards : keyword.kind = .syncKw)
    (passes : body.Passes [keyword] middle)
    (enough : 4 * middle.input.ahead.tokens.length + 2 ≤ fuel)
    (ran : (do
        let locks ← lockList fuel #[]
        if 0x10000 ≤ locks.size then
          fail (.tooManyVariables (← get).context.function) keyword.position
        else
          let guarded ← block fuel locks.size
          return some (.sync locks.toList guarded keyword.position) :
          BodyParser (Option Node)) middle = .ok node? after) : WritesOrEnds body after node? := by
  obtain ⟨locks, listed, locksRan, ran⟩ := bind_eq_ok_iff.mp ran
  have noLocks : Lockable middle.context.scopes #[].toList := ⟨by simp, List.nodup_nil⟩
  have lockable := (lockList_ok locksRan noLocks).1
  obtain ⟨written, found, tokens, listPasses, listDerives, listBuilt, locksEq⟩ :=
    lockList_written locksRan
  rw [show locks.toList = found from locksEq] at lockable
  have sizeEq : locks.size = found.length := by
    rw [← Array.length_toList, show locks.toList = found from locksEq]
  by_cases isMany : 0x10000 ≤ locks.size
  · rw [if_pos isMany] at ran
    obtain ⟨_, state, _, failed⟩ := bind_eq_ok_iff.mp ran
    contradiction
  rw [if_neg isMany] at ran
  obtain ⟨nodes, last, blockRan, ran⟩ := bind_eq_ok_iff.mp ran
  cases ran
  have shorter := listPasses.consumes.length_le
  obtain ⟨inside, taken, blockConsumed, blockDerives, blockBuilt⟩ :=
    writes.block (by omega) blockRan
  have front := passes.trans listPasses
  rw [front.consumes.nesting_eq, front.context_eq, sizeEq] at blockBuilt
  rw [passes.context_eq] at listBuilt
  rw [sizeEq] at isMany
  rw [show locks.toList = found from locksEq]
  refine ⟨_, _, ?_, .sync guards listDerives blockDerives, bind_of_some listBuilt
    (Option.ite_none_right_eq_some.mpr
      ⟨⟨lockable.distinct, by omega⟩, bind_of_some blockBuilt rfl⟩)⟩
  have joined := front.consumes.trans blockConsumed
  rwa [List.append_assoc] at joined

private theorem statement_written (enough : 4 * body.input.ahead.tokens.length + 2 ≤ fuel + 1)
    (ran : statement (fuel + 1) body = .ok node? after) : WritesOrEnds body after node? := by
  rw [statement] at ran
  obtain ⟨seen, state, seenEq, statePasses, aheadEq, ran⟩ := peek_then ran
  have kindEq : seen.kind = state.input.ahead.kind := by
    rw [aheadEq]
    exact congrArg Content.kind seenEq
  have sameStart {node : Node} (found : state.Writes node after) : body.Writes node after := by
    obtain ⟨written, tokens, consumes, derives, built⟩ := found
    exact ⟨written, tokens, statePasses.consumes.trans consumes, derives, statePasses.before built⟩
  rw [← aheadEq] at enough
  by_cases isReturn : seen.kind = .returnKw
  · rw [if_pos isReturn] at ran
    obtain ⟨node, nodeRan, rfl⟩ := map_eq_ok_iff.mp ran
    exact sameStart (returnStatement_written (by omega) nodeRan)
  rw [if_neg isReturn] at ran
  by_cases isDeclaration : seen.kind = .constKw ∨ seen.kind = .mutKw
  · rw [if_pos isDeclaration] at ran
    obtain ⟨node, nodeRan, rfl⟩ := map_eq_ok_iff.mp ran
    rw [kindEq] at isDeclaration
    exact sameStart (declaration_written isDeclaration (by omega) nodeRan)
  rw [if_neg isDeclaration] at ran
  by_cases isConditional : seen.kind = .ifKw
  · rw [if_pos isConditional] at ran
    obtain ⟨keyword, started, tests, passes, ran⟩ := expect_then (by decide) ran
    obtain ⟨⟨conditions, blocks⟩, last, armsRan, ran⟩ := bind_eq_ok_iff.mp ran
    cases ran
    have shorter := passes.consumes.length_lt
    obtain ⟨written, others, more, tokens, consumes, derives, built, conditionsEq, blocksEq⟩ :=
      writes.arms (by omega) armsRan
    apply sameStart
    rw [show conditions.toList = others from conditionsEq,
      show blocks.toList = more from blocksEq]
    exact ⟨_, _, passes.consumes.trans consumes, .conditional tests derives,
      bind_of_some (passes.before built) rfl⟩
  rw [if_neg isConditional] at ran
  by_cases isLoop : seen.kind = .whileKw
  · rw [if_pos isLoop] at ran
    obtain ⟨keyword, started, repeats, passes, ran⟩ := expect_then (by decide) ran
    have shorter := passes.consumes.length_lt
    obtain ⟨test, nodes, condition, written, tokens, last, consumes, derives, built, ran⟩ :=
      guarded_then writes passes (by omega) ran
    cases ran
    exact sameStart ⟨_, _, consumes, .loop repeats derives,
      bind_of_some built rfl⟩
  rw [if_neg isLoop] at ran
  by_cases isSync : seen.kind = .syncKw
  · rw [if_pos isSync] at ran
    obtain ⟨keyword, started, guards, passes, ran⟩ := expect_then (by decide) ran
    have shorter := passes.consumes.length_lt
    exact sync_written writes guards (statePasses.trans passes) (by omega) ran
  rw [if_neg isSync] at ran
  by_cases isNamed : seen.kind = .identifier
  · rw [if_pos isNamed] at ran
    obtain ⟨node, nodeRan, rfl⟩ := map_eq_ok_iff.mp ran
    exact sameStart (namedStatement_written (by omega) nodeRan)
  rw [if_neg isNamed] at ran
  by_cases isEnd : seen.kind = .rightBrace
  · rw [if_pos isEnd] at ran
    rw [kindEq] at isEnd
    obtain ⟨closing, last, contentEq, passes, ran⟩ := next_then (by rw [isEnd]; decide) ran
    cases ran
    have closes : closing.kind = .rightBrace := (congrArg Content.kind contentEq).trans isEnd
    exact ⟨closing, closes, statePasses.trans passes⟩
  · rw [if_neg isEnd] at ran
    contradiction

end Written

theorem writesStatements (fuel : Nat) : WritesStatements fuel := by
  induction fuel with
  | zero => exact writesStatements_zero
  | succ fuel writes =>
    exact {
      statement := statement_written writes
      block := block_written writes
      sequence := sequence_written writes
      arms := arms_written writes }

end BodyParser

end SlotCompiler
