import SlotCompiler.Proofs.Parse.Tokens

/-!
Contract: every parsed expression is written by the grammar.

Precedence climbing goes round a loop inside a recursion.  The loop is followed
with a left operand that has been read already: it belongs to some tier, and the
operators still to come bind no tighter than that tier.
-/

namespace SlotCompiler

open SlotCompiler.Parser

def Ahead.Stops (ahead : Ahead) (level : Nat) : Prop :=
  ∀ operator, ahead.kind.operator? = some operator → operator.precedence < level

theorem Ahead.stops_primaryTier (ahead : Ahead) : ahead.Stops primaryTier :=
  fun operator _ => Nat.lt_succ_of_le operator.precedence_le

/-- The tokens from here on complete a left operand written before, at some
nesting of some function. -/
def BodyInput.WritesChain (body : BodyInput) (level nesting : Nat) (origin : Context)
    (before : List Token) (value : Operand) (after : BodyInput) : Prop :=
  ∃ written tokens, body.input.ahead.tokens = tokens ++ after.input.ahead.tokens ∧
    Derives (.tier level written) (before ++ tokens) ∧
    written.tree? nesting origin = some (value, after.context) ∧ after.input.ahead.Stops level

def BodyInput.WritesPrimary (body : BodyInput) (value : Operand) (after : BodyInput) : Prop :=
  ∃ written token tokens, body.input.Consumes (token :: tokens) after.input ∧
    Derives (.tier primaryTier written) (token :: tokens) ∧ written.spine = 0 ∧
    written.tree? body.input.nesting body.context = some (value, after.context)

def BodyInput.WritesCall (body : BodyInput) (name : String) (position : Position) (invoked : Call)
    (after : BodyInput) : Prop :=
  ∃ values tokens, body.input.Consumes tokens after.input ∧
    (∀ token : Token, token.content = .identifier name →
      Derives (.tier primaryTier (.call name values token.position)) (token :: tokens)) ∧
    (Expression.call name values position).tree? body.input.nesting body.context =
      some (.call invoked, after.context)

def BodyInput.WritesArguments (body : BodyInput) (given all : Array Operand) (after : BodyInput) :
    Prop :=
  ∃ values trees tokens closing, body.input.Consumes (tokens ++ [closing]) after.input ∧
    Derives (.arguments values) tokens ∧ closing.kind = .rightParen ∧
    argumentsTree? values body.input.nesting body.context = some (trees, after.context) ∧
    all.toList = given.toList ++ trees

namespace BodyParser

variable {level : Nat} {value : Operand}

variable {bound nesting : Nat} {lhs : Operand} {before : List Token} {operand : Expression}
  {origin : Context}

variable {body after : BodyInput}

theorem memberNames_derives {fuel given names}
    (ran : memberNames fuel given body = .ok names after) :
    ∃ members tokens, body.input.Consumes tokens after.input ∧
      Derives (.members members) tokens ∧ names.toList = given.toList ++ members ∧
      after.context = body.context ∧
      (0 < fuel → body.input.ahead.kind = .dot → members ≠ []) := by
  induction fuel generalizing given body with
  | zero =>
    cases ran
    exact ⟨[], [], .refl _, .noMembers, (List.append_nil _).symm, rfl,
      fun impossible => absurd impossible (Nat.lt_irrefl 0)⟩
  | succ fuel ih =>
    obtain ⟨isDot, state, acceptRan, ran⟩ := bind_eq_ok_iff.mp ran
    obtain ⟨acceptRan, sameContext⟩ := lift_eq_ok acceptRan
    cases isDot with
    | true =>
      obtain ⟨⟨name, position⟩, late, nameRan, ran⟩ := bind_eq_ok_iff.mp ran
      obtain ⟨nameRan, nextContext⟩ := lift_eq_ok nameRan
      obtain ⟨point, isPoint, pointConsumed⟩ := accept_true (by decide) acceptRan
      obtain ⟨token, isName, rfl, nameConsumed⟩ := identifier_ok nameRan
      obtain ⟨members, tokens, consumes, derives, namesEq, lastContext, _⟩ := ih ran
      refine ⟨(name, token.position) :: members, point :: token :: tokens,
        pointConsumed.trans (nameConsumed.trans consumes), .moreMembers isPoint isName derives,
        ?_, lastContext.trans (nextContext.trans sameContext), fun _ _ => List.cons_ne_nil _ _⟩
      rw [namesEq, toList_push_append]
    | false =>
      cases ran
      obtain ⟨isOther, aheadEq⟩ := accept_false acceptRan
      exact ⟨[], [], Input.consumes_nothing aheadEq, .noMembers, (List.append_nil _).symm,
        sameContext, fun _ isDot => absurd isDot isOther⟩

theorem projectSteps_tree {names steps} (ran : projectSteps names body = .ok steps after) :
    membersTree? names body.context = some (steps, after.context) ∧ after.input = body.input := by
  induction names generalizing steps body with
  | nil =>
    cases ran
    exact ⟨rfl, rfl⟩
  | cons name rest ih =>
    rcases name with ⟨member, position⟩
    obtain ⟨destination, state, addRan, ran⟩ := bind_eq_ok_iff.mp ran
    obtain ⟨others, last, restRan, ran⟩ := bind_eq_ok_iff.mp ran
    cases ran
    obtain ⟨frame, added, rfl⟩ := allocate_ok addRan
    obtain ⟨restBuilt, sameInput⟩ := ih restRan
    have hasRoom : body.context.temporary? = some (destination, _) :=
      Context.temporary?_eq_some_iff.mpr ⟨frame, added, rfl⟩
    exact ⟨bind_of_some hasRoom (bind_of_some restBuilt rfl), sameInput⟩

/-- With some fuel, whatever the expression parsers give was written by the
grammar, as long as the fuel is enough for the tokens. -/
structure WritesExpressions (fuel : Nat) : Prop where
  binary : ∀ {level : Nat} {value : Operand} {body after : BodyInput}, 1 ≤ level →
    level ≤ primaryTier → 4 * body.input.ahead.tokens.length + 2 ≤ fuel →
    binaryExpression fuel level body = .ok value after →
    ∃ written tokens, body.input.Consumes tokens after.input ∧
      Derives (.tier level written) tokens ∧
      written.tree? body.input.nesting body.context = some (value, after.context) ∧
      after.input.ahead.Stops level
  /-- The left operand is written before, at some nesting of some function. -/
  chain : ∀ {level bound nesting : Nat} {lhs value : Operand} {before : List Token}
    {operand : Expression} {origin : Context} {body after : BodyInput},
    operatorChain fuel level lhs body = .ok value after → 1 ≤ level → level ≤ bound →
    Derives (.tier bound operand) before →
    operand.tree? nesting origin = some (lhs, body.context) →
    body.input.nesting = nesting + operand.spine → body.input.ahead.Stops (bound + 1) →
    4 * body.input.ahead.tokens.length + 1 ≤ fuel →
    body.WritesChain level nesting origin before value after
  primary : ∀ {value : Operand} {body after : BodyInput},
    4 * body.input.ahead.tokens.length + 1 ≤ fuel →
    primaryExpression fuel body = .ok value after →
    body.WritesPrimary value after
  call : ∀ {name : String} {position : Position} {invoked : Call} {body after : BodyInput},
    4 * body.input.ahead.tokens.length ≤ fuel →
    callExpression fuel name position body = .ok invoked after →
    body.WritesCall name position invoked after
  arguments : ∀ {given all : Array Operand} {body after : BodyInput},
    4 * body.input.ahead.tokens.length + 3 ≤ fuel →
    argumentList fuel given body = .ok all after →
    body.WritesArguments given all after

theorem writesExpressions_zero : WritesExpressions 0 where
  binary _ _ _ ran := (exhausted_ok ran).elim
  chain ran := (exhausted_ok ran).elim
  primary _ ran := (exhausted_ok ran).elim
  call _ ran := (exhausted_ok ran).elim
  arguments _ ran := (exhausted_ok ran).elim

section Written

variable {level : Nat} {value : Operand}

variable {fuel : Nat} (writes : WritesExpressions fuel)

include writes

private theorem binaryExpression_written (positive : 1 ≤ level) (le : level ≤ primaryTier)
    (enough : 4 * body.input.ahead.tokens.length + 2 ≤ fuel + 1)
    (ran : binaryExpression (fuel + 1) level body = .ok value after) :
    ∃ written tokens, body.input.Consumes tokens after.input ∧
      Derives (.tier level written) tokens ∧
      written.tree? body.input.nesting body.context = some (value, after.context) ∧
      after.input.ahead.Stops level := by
  rw [binaryExpression] at ran
  obtain ⟨state, stepRan, contextEq, aheadEq⟩ := restoringNesting_view ran
  obtain ⟨lhs, middle, primaryRan, chainRan⟩ := bind_eq_ok_iff.mp stepRan
  obtain ⟨operand, token, others, consumes, derives, spineEq, built⟩ :=
    writes.primary (by omega) primaryRan
  have lengthEq := consumes.length_eq
  rw [List.length_cons] at lengthEq
  have stops : middle.input.ahead.Stops (primaryTier + 1) := fun operator isNext =>
    Nat.lt_succ_of_lt (middle.input.ahead.stops_primaryTier operator isNext)
  obtain ⟨written, tokens, tokensEq, derivesAll, builtAll, stopsAll⟩ :=
    writes.chain chainRan positive le derives built
      (by rw [spineEq, Nat.add_zero, consumes.nesting_eq]) stops (by omega)
  refine ⟨written, token :: others ++ tokens, ⟨?_, congrArg Ahead.nesting aheadEq⟩, derivesAll,
    ?_, ?_⟩
  · rw [consumes.tokens_eq, tokensEq, aheadEq, List.append_assoc]
  · rw [contextEq]
    exact builtAll
  · rw [aheadEq]
    exact stopsAll

/-- An operator that binds tightly enough, with its right operand and what
comes after them. -/
private theorem operator_written {operator : Operator}
    (ran : (do
        let token ← (liftM next : BodyParser Token)
        (liftM (descend token.position) : BodyParser Unit)
        let rhs ← binaryExpression fuel (operator.precedence + 1)
        let destination ← temporary token.position
        operatorChain fuel level (.node (.binary operator lhs rhs destination token.position)) :
          BodyParser Operand) body = .ok value after)
    (isOperator : body.input.ahead.kind.operator? = some operator) (positive : 1 ≤ level)
    (tightEnough : level ≤ operator.precedence) (le : operator.precedence ≤ bound)
    (derives : Derives (.tier bound operand) before)
    (built : operand.tree? nesting origin = some (lhs, body.context))
    (nestingEq : body.input.nesting = nesting + operand.spine)
    (enough : 4 * body.input.ahead.tokens.length ≤ fuel) :
    body.WritesChain level nesting origin before value after := by
  have proper : body.input.ahead.kind ≠ .endOfFile := by
    intro atEnd
    rw [atEnd] at isOperator
    contradiction
  obtain ⟨token, advanced, contentEq, passes, ran⟩ := next_then proper ran
  obtain ⟨nested, isShallow, nestedContext, nestedAhead, ran⟩ := descend_then ran
  obtain ⟨rhs, late, rightRan, ran⟩ := bind_eq_ok_iff.mp ran
  obtain ⟨destination, last, addRan, chainRan⟩ := bind_eq_ok_iff.mp ran
  have shorter := passes.consumes.length_lt
  have nestedLength : nested.input.ahead.tokens.length = advanced.input.ahead.tokens.length := by
    rw [nestedAhead]
  obtain ⟨right, rightTokens, rightConsumes, rightDerives, rightBuilt, rightStops⟩ :=
    writes.binary (by omega) (Nat.succ_le_succ operator.precedence_le) (by omega) rightRan
  have rightLength := rightConsumes.length_eq
  obtain ⟨frame, added, rfl⟩ := allocate_ok addRan
  have binds : token.kind.operator? = some operator := by
    rw [← isOperator]
    exact congrArg (fun content => content.kind.operator?) contentEq
  have joined := Derives.operation binds (derives.loosen operator.precedence_pos le) rightDerives
  have here : advanced.input.nesting = nesting + operand.spine :=
    passes.consumes.nesting_eq.trans nestingEq
  have below : nested.input.nesting = nesting + operand.spine + 1 := by
    rw [← here]
    exact congrArg Ahead.nesting nestedAhead
  have joinedBuilt : (Expression.binary operator operand right token.position).tree? nesting
      origin = some (.node (.binary operator lhs rhs destination token.position),
        late.context.withFrame frame) := by
    rw [below, nestedContext.trans passes.context_eq] at rightBuilt
    refine bind_of_some built (Option.ite_none_right_eq_some.mpr ⟨here ▸ isShallow, ?_⟩)
    exact bind_of_some rightBuilt
      (bind_of_some (Context.temporary?_eq_some_iff.mpr ⟨frame, added, rfl⟩) rfl)
  obtain ⟨written, tokens, tokensEq, derivesAll, builtAll, stopsAll⟩ :=
    writes.chain chainRan positive tightEnough joined joinedBuilt
      (rightConsumes.nesting_eq.trans below) rightStops (by dsimp only; omega)
  refine ⟨written, token :: rightTokens ++ tokens, ?_, ?_, builtAll, stopsAll⟩
  · have restEq : advanced.input.ahead.tokens =
        rightTokens ++ (tokens ++ after.input.ahead.tokens) := by
      rw [← tokensEq, ← rightConsumes.tokens_eq, nestedAhead]
    rw [passes.consumes.tokens_eq, restEq, List.append_assoc]
    rfl
  · rw [← List.append_assoc]
    exact derivesAll

private theorem operatorChain_written
    (ran : operatorChain (fuel + 1) level lhs body = .ok value after) (positive : 1 ≤ level)
    (le : level ≤ bound) (derives : Derives (.tier bound operand) before)
    (built : operand.tree? nesting origin = some (lhs, body.context))
    (nestingEq : body.input.nesting = nesting + operand.spine)
    (stops : body.input.ahead.Stops (bound + 1))
    (enough : 4 * body.input.ahead.tokens.length + 1 ≤ fuel + 1) :
    body.WritesChain level nesting origin before value after := by
  rw [operatorChain] at ran
  obtain ⟨state, passes, aheadEq, ran⟩ := peekKind_then ran
  unfold BodyInput.WritesChain
  rw [← aheadEq] at stops enough ⊢
  rw [← passes.context_eq] at built
  have stateNesting : state.input.nesting = nesting + operand.spine :=
    (congrArg Ahead.nesting aheadEq).trans nestingEq
  -- Without an operator that counts, the left operand is all there is.
  have ended (stopsHere : state.input.ahead.Stops level)
      (lastRan : (pure lhs : BodyParser Operand) state = .ok value after) :
      state.WritesChain level nesting origin before value after := by
    cases lastRan
    refine ⟨operand, [], rfl, ?_, built, stopsHere⟩
    rw [List.append_nil]
    exact derives.loosen positive le
  rw [← aheadEq] at ran
  cases isOperator : state.input.ahead.kind.operator? with
  | none =>
    simp only [isOperator] at ran
    refine ended (fun operator isNext => ?_) ran
    rw [isOperator] at isNext
    contradiction
  | some operator =>
    simp only [isOperator] at ran
    by_cases isLooser : operator.precedence < level
    · rw [if_pos isLooser] at ran
      refine ended (fun other isNext => ?_) ran
      rw [isOperator] at isNext
      cases isNext
      exact isLooser
    · rw [if_neg isLooser] at ran
      exact operator_written writes ran isOperator positive (Nat.not_lt.mp isLooser)
        (Nat.lt_succ_iff.mp (stops operator isOperator)) derives built stateNesting (by omega)

private theorem group_written {opening : Token}
    (ran : (do
        let _ ← (liftM next : BodyParser Token)
        let value ← restoringNesting do
          (liftM (descend opening.position) : BodyParser Unit)
          binaryExpression fuel 1
        let _ ← (liftM (expect .rightParen) : BodyParser Token)
        return value : BodyParser Operand) body = .ok value after)
    (opens : body.input.ahead.kind = .leftParen)
    (enough : 4 * body.input.ahead.tokens.length ≤ fuel) :
    body.WritesPrimary value after := by
  obtain ⟨token, advanced, contentEq, passes, ran⟩ := next_then (by rw [opens]; decide) ran
  obtain ⟨inner, closed, innerRan, ran⟩ := bind_eq_ok_iff.mp ran
  obtain ⟨deep, innerRan, deepContext, deepAhead⟩ := restoringNesting_view innerRan
  obtain ⟨nested, isShallow, nestedContext, nestedAhead, binaryRan⟩ := descend_then innerRan
  obtain ⟨closing, last, closes, closePasses, ran⟩ := expect_then (by decide) ran
  cases ran
  have shorter := passes.consumes.length_lt
  have nestedLength : nested.input.ahead.tokens.length = advanced.input.ahead.tokens.length := by
    rw [nestedAhead]
  obtain ⟨written, tokens, innerConsumes, derives, built, _⟩ :=
    writes.binary (le_refl 1) (by decide) (by omega) binaryRan
  have isOpening : token.kind = .leftParen := (congrArg Content.kind contentEq).trans opens
  refine ⟨.group written, token, tokens ++ [closing], ⟨?_, ?_⟩, .group isOpening derives closes,
    rfl, ?_⟩
  · have restEq : advanced.input.ahead.tokens = tokens ++ closed.input.ahead.tokens := by
      rw [deepAhead, ← innerConsumes.tokens_eq, nestedAhead]
    rw [passes.consumes.tokens_eq, restEq, closePasses.consumes.tokens_eq]
    simp
  · rw [closePasses.consumes.nesting_eq, ← passes.consumes.nesting_eq]
    exact congrArg Ahead.nesting deepAhead
  · have below : nested.input.nesting = body.input.nesting + 1 := by
      rw [← passes.consumes.nesting_eq]
      exact congrArg Ahead.nesting nestedAhead
    rw [below, nestedContext.trans passes.context_eq] at built
    rw [closePasses.context_eq, deepContext]
    exact Option.ite_none_right_eq_some.mpr ⟨passes.consumes.nesting_eq ▸ isShallow, built⟩

private theorem named_written
    (ran : (do
        let named ← (liftM identifier : BodyParser (String × Position))
        let kind ← (liftM peekKind : BodyParser TokenKind)
        if kind = .dot then
          let source ← lookup named.1 named.2
          let names ← memberNames fuel #[]
          return .node (.access (← project source names.toList named.2))
        else if kind = .leftParen then
          return .call (← callExpression fuel named.1 named.2)
        else
          return .variable (← lookup named.1 named.2) : BodyParser Operand) body =
      .ok value after) (enough : 4 * body.input.ahead.tokens.length ≤ fuel) :
    body.WritesPrimary value after := by
  obtain ⟨token, name, named, isName, namePasses, ran⟩ := identifier_then ran
  obtain ⟨state, statePasses, aheadEq, ran⟩ := peekKind_then ran
  have passes : body.Passes [token] state := namePasses.trans statePasses
  have shorter := passes.consumes.length_lt
  rw [← aheadEq] at ran
  by_cases isDot : state.input.ahead.kind = .dot
  · rw [if_pos isDot] at ran
    obtain ⟨source, looked, lookupRan, ran⟩ := bind_eq_ok_iff.mp ran
    obtain ⟨found, rfl⟩ := lookup_ok lookupRan
    obtain ⟨names, listed, namesRan, ran⟩ := bind_eq_ok_iff.mp ran
    obtain ⟨chain, last, projectRan, ran⟩ := bind_eq_ok_iff.mp ran
    cases ran
    obtain ⟨steps, projected, stepsRan, ran⟩ := bind_eq_ok_iff.mp projectRan
    cases ran
    obtain ⟨members, tokens, namesConsumed, derives, namesEq, listedContext, atLeastOne⟩ :=
      memberNames_derives namesRan
    obtain ⟨built, sameInput⟩ := projectSteps_tree stepsRan
    rw [show names.toList = members from namesEq, listedContext, passes.context_eq] at built
    rw [passes.context_eq] at found
    refine ⟨.access name members token.position, token, tokens, ?_,
      .access isName (atLeastOne (by omega) isDot) derives, rfl,
      bind_of_some found (bind_of_some built rfl)⟩
    rw [sameInput]
    exact passes.consumes.trans namesConsumed
  rw [if_neg isDot] at ran
  by_cases isCall : state.input.ahead.kind = .leftParen
  · rw [if_pos isCall] at ran
    obtain ⟨invoked, last, callRan, ran⟩ := bind_eq_ok_iff.mp ran
    cases ran
    obtain ⟨values, tokens, callConsumed, derives, built⟩ := writes.call (by omega) callRan
    exact ⟨_, token, tokens, passes.consumes.trans callConsumed, derives token isName, rfl,
      passes.before built⟩
  · rw [if_neg isCall] at ran
    obtain ⟨slot, last, lookupRan, ran⟩ := bind_eq_ok_iff.mp ran
    obtain ⟨found, rfl⟩ := lookup_ok lookupRan
    cases ran
    rw [passes.context_eq] at found
    exact ⟨.named name, token, [], passes.consumes, .named isName, rfl,
      bind_of_some found (passes.context_eq ▸ rfl)⟩

private theorem primaryExpression_written
    (enough : 4 * body.input.ahead.tokens.length + 1 ≤ fuel + 1)
    (ran : primaryExpression (fuel + 1) body = .ok value after) :
    body.WritesPrimary value after := by
  rw [primaryExpression] at ran
  obtain ⟨seen, state, seenEq, passes, aheadEq, ran⟩ := peek_then ran
  have sameStart (found : state.WritesPrimary value after) : body.WritesPrimary value after := by
    obtain ⟨written, token, tokens, consumes, derives, flat, built⟩ := found
    exact ⟨written, token, tokens, passes.consumes.trans consumes, derives, flat,
      passes.before built⟩
  rw [← aheadEq] at seenEq enough
  -- A literal consumes its token and nothing else.
  have literal {written : Expression} {given : Operand} (flat : written.spine = 0)
      (built : written.tree? state.input.nesting state.context = some (given, state.context))
      (derives : ∀ token : Token, token.content = seen.content →
        Derives (.tier primaryTier written) [token])
      (proper : seen.content.kind ≠ .endOfFile)
      (literalRan : (do
          let _ ← (liftM next : BodyParser Token)
          pure given : BodyParser Operand) state = .ok value after) :
      body.WritesPrimary value after := by
    obtain ⟨token, last, contentEq, lastPasses, ended⟩ :=
      next_then (by rwa [Ahead.kind_eq, ← seenEq]) literalRan
    cases ended
    refine sameStart ⟨written, token, [], lastPasses.consumes,
      derives token (contentEq.trans seenEq.symm), flat, ?_⟩
    rw [lastPasses.context_eq]
    exact built
  cases content : seen.content with
  | int value =>
    simp only [content] at ran literal
    exact literal rfl rfl (fun token isInt => .literal (by rw [isInt]; rfl))
      (show TokenKind.intLiteral ≠ .endOfFile by decide) ran
  | float value =>
    simp only [content] at ran literal
    exact literal rfl rfl (fun token isFloat => .literal (by rw [isFloat]; rfl))
      (show TokenKind.floatLiteral ≠ .endOfFile by decide) ran
  | string raw =>
    simp only [content] at ran literal
    exact literal rfl rfl (fun token isString => .string isString)
      (show TokenKind.stringLiteral ≠ .endOfFile by decide) ran
  | plain kind =>
    simp only [content] at ran literal
    by_cases isTrue : kind = .trueKw
    · rw [if_pos isTrue] at ran
      rw [isTrue] at literal
      exact literal rfl rfl (fun token isLiteral => .literal (by rw [isLiteral]; rfl))
        (by decide) ran
    rw [if_neg isTrue] at ran
    by_cases isFalse : kind = .falseKw
    · rw [if_pos isFalse] at ran
      rw [isFalse] at literal
      exact literal rfl rfl (fun token isLiteral => .literal (by rw [isLiteral]; rfl))
        (by decide) ran
    rw [if_neg isFalse] at ran
    by_cases isOpen : kind = .leftParen
    · rw [if_pos isOpen] at ran
      have opens : state.input.ahead.kind = .leftParen := by
        rw [Ahead.kind_eq, ← seenEq, content, isOpen]
        rfl
      exact sameStart (group_written writes ran opens (by omega))
    · rw [if_neg isOpen] at ran
      contradiction
  | identifier name =>
    simp only [content] at ran
    exact sameStart (named_written writes ran (by omega))
  | _ =>
    simp only [content] at ran
    contradiction

private theorem callExpression_written {name position invoked}
    (enough : 4 * body.input.ahead.tokens.length ≤ fuel + 1)
    (ran : callExpression (fuel + 1) name position body = .ok invoked after) :
    body.WritesCall name position invoked after := by
  rw [callExpression] at ran
  obtain ⟨opening, opened, opens, openPasses, ran⟩ := expect_then (by decide) ran
  rcases accept_then (by decide) ran with
    ⟨closing, state, closes, closePasses, ran⟩ | ⟨state, statePasses, ran⟩
  · have passes := openPasses.trans closePasses
    obtain ⟨arguments, _, noneRan, ran⟩ := bind_eq_ok_iff.mp ran
    cases noneRan
    obtain ⟨_, last, recordRan, ran⟩ := bind_eq_ok_iff.mp ran
    cases ran
    obtain ⟨recorded, sameInput⟩ := recordCall_record recordRan
    rw [passes.context_eq] at recorded
    refine ⟨[], [opening, closing], ?_, fun token isName => .callWithout isName opens closes,
      bind_of_some recorded rfl⟩
    rw [sameInput]
    exact passes.consumes
  · have passes : body.Passes [opening] state := openPasses.trans statePasses
    have shorter := passes.consumes.length_lt
    obtain ⟨arguments, listed, argumentsRan, ran⟩ := bind_eq_ok_iff.mp ran
    obtain ⟨values, trees, tokens, closing, argumentsConsumed, derives, closes, built, allEq⟩ :=
      writes.arguments (by omega) argumentsRan
    obtain ⟨_, last, recordRan, ran⟩ := bind_eq_ok_iff.mp ran
    cases ran
    obtain ⟨recorded, sameInput⟩ := recordCall_record recordRan
    refine ⟨values, opening :: (tokens ++ [closing]), ?_,
      fun token isName => .call isName opens derives closes,
      bind_of_some (passes.before built) (bind_of_some recorded ?_)⟩
    · rw [sameInput]
      exact passes.consumes.trans argumentsConsumed
    · rw [allEq]
      rfl

private theorem argumentList_written {given all}
    (enough : 4 * body.input.ahead.tokens.length + 3 ≤ fuel + 1)
    (ran : argumentList (fuel + 1) given body = .ok all after) :
    body.WritesArguments given all after := by
  rw [argumentList] at ran
  obtain ⟨argument, middle, argumentRan, ran⟩ := bind_eq_ok_iff.mp ran
  obtain ⟨written, tokens, consumes, derives, built, _⟩ :=
    writes.binary (le_refl 1) (by decide) (by omega) argumentRan
  have notLonger := consumes.length_le
  rcases accept_then (by decide) ran with
    ⟨comma, state, isComma, commaPasses, ran⟩ | ⟨state, statePasses, ran⟩
  · have shorter := commaPasses.consumes.length_lt
    obtain ⟨values, trees, others, closing, restConsumed, restDerives, closes, restBuilt,
      allEq⟩ := writes.arguments (by omega) ran
    rw [commaPasses.context_eq, commaPasses.consumes.nesting_eq, consumes.nesting_eq] at restBuilt
    refine ⟨written :: values, argument :: trees, tokens ++ comma :: others, closing, ?_,
      .moreArguments derives isComma restDerives, closes,
      bind_of_some built (bind_of_some restBuilt rfl), ?_⟩
    · have joined := consumes.trans (commaPasses.consumes.trans restConsumed)
      simpa using joined
    · rw [allEq, toList_push_append]
  · obtain ⟨closing, last, closes, closePasses, ran⟩ := expect_then (by decide) ran
    have passes := statePasses.trans closePasses
    cases ran
    refine ⟨[written], [argument], tokens, closing, ?_, .lastArgument derives, closes,
      bind_of_some built (bind_of_some rfl ?_), Array.toList_push⟩
    · exact consumes.trans passes.consumes
    · rw [passes.context_eq]

end Written

theorem writesExpressions (fuel : Nat) : WritesExpressions fuel := by
  induction fuel with
  | zero => exact writesExpressions_zero
  | succ fuel writes =>
    exact {
      binary := binaryExpression_written writes
      chain := operatorChain_written writes
      primary := primaryExpression_written writes
      call := callExpression_written writes
      arguments := argumentList_written writes }

end BodyParser

end SlotCompiler
