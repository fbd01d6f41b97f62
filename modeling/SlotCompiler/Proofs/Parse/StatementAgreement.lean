import SlotCompiler.Proofs.Parse.ExpressionAgreement

/-!
Contract: two runs of the statement parsers agree.
-/

namespace SlotCompiler

variable {here there : Position → Position}

def statementsMoved (place : Position → Position) (nodes : Array Node) : Block :=
  blockMoved place nodes.toList

theorem statementsMoved_push {first second} {a b : Node}
    (same : statementsMoved here first = statementsMoved there second)
    (sameLast : a.moved here = b.moved there) :
    statementsMoved here (first.push a) = statementsMoved there (second.push b) := by
  unfold statementsMoved at same ⊢
  rw [blockMoved_eq_map, blockMoved_eq_map] at same ⊢
  exact map_push_eq same sameLast

def armsMoved (place : Position → Position) (arms : Array Operand × Array Block) :
    List Operand × List Block :=
  (argumentsMoved place arms.1, blocksMoved place arms.2.toList)

theorem blocksMoved_push {first second : Array Block} {a b}
    (same : blocksMoved here first.toList = blocksMoved there second.toList)
    (sameLast : blockMoved here a = blockMoved there b) :
    blocksMoved here (first.push a).toList = blocksMoved there (second.push b).toList := by
  rw [blocksMoved_eq_map, blocksMoved_eq_map] at same ⊢
  exact map_push_eq same sameLast

namespace BodyParser

variable {window : Window} {level fuel other : Nat} {view : View} {s t : BodyInput}

/-! ## Simple statements -/

section

variable (state : window.At level view s t)

include state

theorem agree_declaration (inner : view.kind.isInner = true)
    (enough : 4 * view.ahead.length ≤ min fuel other) :
    window.Matches level view 1 Node.moved (declaration fuel s) (declaration other t) := by
  apply state.next_then inner
  intro keyword otherKeyword _ _ _ state past sameKeyword
  have sameKind : keyword.kind = otherKeyword.kind := congrArg (·.1.kind) sameKeyword
  apply state.identifier_then
  intro name position place _ _ _ state afterName samePlace
  apply state.stay_then (state.agree_requireFresh samePlace name)
  intro _ _ _ state
  apply state.typeAfter_then rfl
  intro declared? otherDeclared? _ _ _ state sameType afterType
  apply state.expect_then rfl
  intro _ _ _ _ _ state afterAssign _
  apply state.match_then (agree_expression state (by omega))
  intro value otherValue _ _ _ state sameValue afterValue
  apply state.expect_then rfl
  intro _ _ _ _ _ state afterSemicolon _
  rw [sameKind]
  apply state.stay_then (state.agree_declare samePlace name _)
  intro slot _ _ state
  refine state.agree_pure ⟨?_, by omega⟩
  rw [Node.moved, Node.moved, sameType, sameValue, sameKeyword.position]

theorem agree_assignedValue (enough : 4 * view.ahead.length ≤ min fuel other) :
    window.Matches level view 1 Operand.moved (assignedValue fuel s)
      (assignedValue other t) := by
  apply state.expect_then rfl
  intro _ _ _ _ _ state past _
  apply state.match_then (agree_expression state (by omega))
  intro value otherValue _ _ _ state sameValue afterValue
  apply state.expect_then rfl
  intro _ _ _ _ _ state afterSemicolon _
  exact state.agree_pure ⟨sameValue, by omega⟩

theorem agree_assignment {position place} (enough : 4 * view.ahead.length ≤ min fuel other)
    (samePlace : window.Same position place) (name : String) :
    window.Matches level view 1 Node.moved (assignment fuel name position s)
      (assignment other name place t) := by
  apply state.stay_then (state.agree_lookup samePlace name)
  intro slot _ _ state
  apply state.match_then (agree_assignedValue state enough)
  intro value otherValue _ _ _ state sameValue past
  refine state.agree_pure ⟨?_, past⟩
  rw [Node.moved, Node.moved, sameValue, samePlace]

theorem agree_memberAssignment {position place} (enough : 4 * view.ahead.length < min fuel other)
    (samePlace : window.Same position place) (name : String) :
    window.Matches level view 1 Node.moved (memberAssignment fuel name position s)
      (memberAssignment other name place t) := by
  apply state.stay_then (state.agree_lookup samePlace name)
  intro source _ _ state
  apply state.match_then (agree_memberNames state (by omega) rfl)
  intro names otherNames _ _ _ state sameNames past
  have sameBack := memberNames_back?_eq sameNames
  cases backEq : names.back? with
  | none =>
    rw [backEq, Option.map_none, eq_comm, Option.map_eq_none_iff] at sameBack
    rw [sameBack]
    apply state.peek_then
    intro token otherToken _ _ state tokenEq otherEq
    exact state.agree_refuse (tokenEq.trans otherEq.symm) _
  | some last =>
    rcases last with ⟨member, memberPosition⟩
    rw [backEq, Option.map_some, eq_comm, Option.map_eq_some_iff] at sameBack
    obtain ⟨⟨_, memberPlace⟩, otherEq, sameMember⟩ := sameBack
    obtain ⟨rfl, _⟩ := Prod.mk.inj sameMember
    rw [otherEq]
    apply state.match_then
      (agree_project state source (memberNames_pop_eq sameNames) samePlace)
    intro target otherTarget _ _ _ state sameTarget afterTarget
    apply state.match_then (agree_assignedValue state (by omega))
    intro value otherValue _ _ _ state sameValue afterValue
    refine state.agree_pure ⟨?_, by omega⟩
    rw [Node.moved, Node.moved, sameTarget, sameValue, samePlace]
    rfl

theorem agree_returnEnd {value? otherValue? : Option Operand} {position place}
    (same : value?.map (Operand.moved window.here) = otherValue?.map (Operand.moved window.there))
    (samePlace : window.Same position place) :
    window.Matches level view 0 Node.moved
      ((do
        let _ ← Parser.expect .semicolon
        return .ret value? (← get).context.scopes.lockDepth position : BodyParser Node) s)
      ((do
        let _ ← Parser.expect .semicolon
        return .ret otherValue? (← get).context.scopes.lockDepth place : BodyParser Node) t) := by
  apply state.expect_then rfl
  intro _ _ _ _ _ state past _
  apply Agree.ofGet
  rw [state.context_eq]
  refine state.agree_pure ⟨?_, by omega⟩
  rw [Node.moved_ret, Node.moved_ret, same, samePlace]

theorem agree_returnStatement (enough : 4 * view.ahead.length ≤ min fuel other) :
    window.Matches level view 1 Node.moved (returnStatement fuel s)
      (returnStatement other t) := by
  apply state.expect_then rfl
  intro keyword otherKeyword _ _ _ state past sameKeyword
  apply state.peekKind_then
  intro _ _ state
  split
  · exact (agree_returnEnd state rfl sameKeyword.position).weaken id
      fun ⟨same, later⟩ => ⟨same, by omega⟩
  · have given : window.Matches level _ 1 (fun place => Option.map (Operand.moved place))
        ((some <$> expression fuel) _) ((some <$> expression other) _) :=
      (agree_expression state (by omega)).map fun ⟨same, later⟩ =>
        ⟨congrArg some same, later⟩
    apply state.match_then given
    intro value? otherValue? _ _ _ state same afterValue
    exact (agree_returnEnd state same sameKeyword.position).weaken id
      fun ⟨same, later⟩ => ⟨same, by omega⟩

theorem agree_namedStatement (enough : 4 * view.ahead.length ≤ min fuel other) :
    window.Matches level view 1 Node.moved (namedStatement fuel s) (namedStatement other t) := by
  apply state.identifier_then
  intro name position place _ _ _ state past samePlace
  apply state.peekKind_then
  intro _ _ state
  split
  · exact (agree_assignment state (by omega) samePlace name).weaken id
      fun ⟨same, later⟩ => ⟨same, by omega⟩
  split
  · exact (agree_memberAssignment state (by omega) samePlace name).weaken id
      fun ⟨same, later⟩ => ⟨same, by omega⟩
  split
  · apply state.match_then ((expressionsAgree window fuel other).call state (by omega)
      samePlace name)
    intro call otherCall _ _ _ state sameCall afterCall
    apply state.expect_then rfl
    intro _ _ _ _ _ state afterSemicolon _
    refine state.agree_pure ⟨?_, by omega⟩
    rw [Node.moved, Node.moved, sameCall]
  · apply state.peek_then
    intro token otherToken _ _ state tokenEq otherEq
    exact state.agree_refuse (tokenEq.trans otherEq.symm) _

theorem agree_lockList (enough : view.ahead.length < min fuel other)
    (locks : Array Lock) :
    window.Matches level view 1 (fun _ => id) (lockList fuel locks s) (lockList other locks t) := by
  induction fuel generalizing other view s t locks with
  | zero => omega
  | succ fuel ih =>
    obtain _ | other := other
    · omega
    rw [lockList, lockList]
    apply state.acceptEither_then rfl
    intro exclusive _ _ _ state past
    apply state.identifier_then
    intro name position place _ _ _ state afterName samePlace
    apply state.stay_then (state.agree_lookup samePlace name)
    intro slot _ _ state
    split
    · exact state.agree_fail _ samePlace
    · apply state.accept_then rfl
      · intro _ _ _ state afterComma
        exact (ih state (by omega) _).weaken id fun ⟨same, last⟩ => ⟨same, by omega⟩
      · intro _ _ state
        exact state.agree_pure ⟨rfl, by omega⟩

theorem agree_parenthesised (enough : 4 * view.ahead.length ≤ min fuel other) :
    window.Matches level view 1 Operand.moved (parenthesised fuel s)
      (parenthesised other t) := by
  apply state.expect_then rfl
  intro _ _ _ _ _ state past _
  apply state.match_then (agree_expression state (by omega))
  intro condition otherCondition _ _ _ state same later
  apply state.expect_then rfl
  intro _ _ _ _ _ state last _
  exact state.agree_pure ⟨same, by omega⟩

end

/-! ## Blocks -/

abbrev StatementRead (window : Window) (view : View) (a b : Option Node) (after : View) : Prop :=
  a.map (Node.moved window.here) = b.map (Node.moved window.there) ∧
    if a.isSome then view.Past 1 after else view.Closed after

theorem StatementRead.of_some {a b : Node} {after}
    (same : a.moved window.here = b.moved window.there) (past : view.Past 1 after) :
    StatementRead window view (some a) (some b) after :=
  ⟨congrArg some same, past⟩

theorem agree_some {x y : BodyParser Node}
    (agree : window.Matches level view 1 Node.moved (x s) (y t)) :
    Agree window Window.BodyPairs (level = ·) (StatementRead window view) ((some <$> x) s)
      ((some <$> y) t) :=
  agree.map fun ⟨same, past⟩ => .of_some same past

/-- Two runs of each statement parser agree, with enough fuel for the tokens
shared. -/
structure StatementsAgree (window : Window) (fuel other : Nat) : Prop where
  statement : ∀ {level view s t},
    window.At level view s t → 4 * view.ahead.length + 1 ≤ min fuel other →
    Agree window Window.BodyPairs (level = ·) (StatementRead window view) (statement fuel s)
      (statement other t)
  block : ∀ {level view s t},
    window.At level view s t → 4 * view.ahead.length + 1 ≤ min fuel other → ∀ locks,
    window.Matches level view 1 blockMoved (block fuel locks s) (block other locks t)
  statements : ∀ {level view s t} {first second : Array Node},
    window.At level view s t → 4 * view.ahead.length + 2 ≤ min fuel other →
      window.SameBy statementsMoved first second →
    Agree window Window.BodyPairs (level = ·)
      (fun a b after => window.SameBy statementsMoved a b ∧ view.Closed after)
      (statements fuel first s) (statements other second t)
  arms : ∀ {level view s t} {conditions otherConditions : Array Operand}
      {blocks otherBlocks : Array Block},
    window.At level view s t → 4 * view.ahead.length + 1 ≤ min fuel other →
    armsMoved window.here (conditions, blocks) =
      armsMoved window.there (otherConditions, otherBlocks) →
    window.Matches level view 1 armsMoved (conditionalArms fuel conditions blocks s)
      (conditionalArms other otherConditions otherBlocks t)

section Step

variable (agrees : StatementsAgree window fuel other)
include agrees

section

variable (state : window.At level view s t)

include state

theorem agree_statement_step (enough : 4 * view.ahead.length + 1 ≤ min (fuel + 1) (other + 1)) :
    Agree window Window.BodyPairs (level = ·) (StatementRead window view) (statement (fuel + 1) s)
      (statement (other + 1) t) := by
  rw [statement, statement]
  apply state.peek_then
  intro token otherToken _ _ state tokenEq otherEq
  rw [Token.kind_eq_of_mark tokenEq, Token.kind_eq_of_mark otherEq]
  by_cases isReturn : view.kind = .returnKw
  · rw [if_pos isReturn, if_pos isReturn]
    exact agree_some (agree_returnStatement state (by omega))
  rw [if_neg isReturn, if_neg isReturn]
  by_cases declares : view.kind = .constKw ∨ view.kind = .mutKw
  · rw [if_pos declares, if_pos declares]
    have inner : view.kind.isInner = true := by
      rcases declares with isConst | isMut
      · rw [isConst]
        rfl
      · rw [isMut]
        rfl
    exact agree_some (agree_declaration state inner (by omega))
  rw [if_neg declares, if_neg declares]
  by_cases isIf : view.kind = .ifKw
  · rw [if_pos isIf, if_pos isIf]
    apply state.expect_then rfl
    intro keyword otherKeyword _ _ _ state past sameKeyword
    apply state.match_then (agrees.arms state (by omega) rfl)
    rintro ⟨conditions, blocks⟩ ⟨otherConditions, otherBlocks⟩ _ _ _ state same later
    obtain ⟨sameConditions, sameBlocks⟩ := Prod.mk.inj same
    unfold argumentsMoved at sameConditions
    refine state.agree_pure (StatementRead.of_some ?_ (by omega))
    rw [Node.moved, Node.moved, sameConditions, sameBlocks, sameKeyword.position]
  rw [if_neg isIf, if_neg isIf]
  by_cases isWhile : view.kind = .whileKw
  · rw [if_pos isWhile, if_pos isWhile]
    apply state.expect_then rfl
    intro keyword otherKeyword _ _ _ state past sameKeyword
    apply state.match_then (agree_parenthesised state (by omega))
    intro condition otherCondition _ _ _ state sameCondition afterCondition
    apply state.match_then (agrees.block state (by omega) _)
    intro body otherBody _ _ _ state sameBody afterBody
    refine state.agree_pure (StatementRead.of_some ?_ (by omega))
    rw [Node.moved, Node.moved, sameCondition, sameBody, sameKeyword.position]
  rw [if_neg isWhile, if_neg isWhile]
  by_cases isSync : view.kind = .syncKw
  · rw [if_pos isSync, if_pos isSync]
    apply state.expect_then rfl
    intro keyword otherKeyword _ _ _ state past sameKeyword
    apply state.match_then (agree_lockList state (by omega) #[])
    intro locks otherLocks _ _ _ state same afterLocks
    cases (show locks = otherLocks from same)
    split
    · apply Agree.ofGet
      rw [state.context_eq]
      exact state.agree_fail _ sameKeyword.position
    · apply state.match_then (agrees.block state (by omega) _)
      intro body otherBody _ _ _ state sameBody afterBody
      refine state.agree_pure (StatementRead.of_some ?_ (by omega))
      rw [Node.moved, Node.moved, sameBody, sameKeyword.position]
  rw [if_neg isSync, if_neg isSync]
  by_cases isName : view.kind = .identifier
  · rw [if_pos isName, if_pos isName]
    exact agree_some (agree_namedStatement state (by omega))
  rw [if_neg isName, if_neg isName]
  by_cases closes : view.kind = .rightBrace
  · rw [if_pos closes, if_pos closes]
    apply (agree_lift (Parser.next_agree state.input state.inside) state.context_eq).bind id
    rintro _ _ _ _ _ _ paired rfl ⟨_, rfl⟩
    exact .ok paired rfl ⟨rfl, View.closed_next closes⟩
  · rw [if_neg closes, if_neg closes]
    exact state.agree_refuse (tokenEq.trans otherEq.symm) _

theorem agree_block_step (enough : 4 * view.ahead.length + 1 ≤ min (fuel + 1) (other + 1))
    (locks : Nat) :
    window.Matches level view 1 blockMoved (block (fuel + 1) locks s)
      (block (other + 1) locks t) := by
  rw [block, block]
  apply state.openBrace_then
  intro brace otherBrace _ _ _ state opened sameBrace
  apply state.agree_restoringNesting
  apply state.anywhere.descend_then sameBrace.position
  intro _ _ _ state
  apply state.agree_inScope
  intro _ _ state
  apply (agrees.statements state.exactly (by omega) rfl).bind (fun _ => trivial)
  rintro _ _ _ _ _ _ paired _ ⟨same, closed⟩
  exact .ok paired trivial ⟨same, by omega⟩

theorem agree_statements_step {first second}
    (enough : 4 * view.ahead.length + 2 ≤ min (fuel + 1) (other + 1))
    (same : window.SameBy statementsMoved first second) :
    Agree window Window.BodyPairs (level = ·)
      (fun a b after => window.SameBy statementsMoved a b ∧ view.Closed after)
      (statements (fuel + 1) first s) (statements (other + 1) second t) := by
  rw [statements, statements]
  apply (agrees.statement state (by omega)).bind id
  rintro _ _ (_ | node) (_ | otherNode) _ _ paired rfl ⟨sameNode, moved⟩
  · exact .ok paired rfl ⟨same, moved⟩
  · contradiction
  · contradiction
  · have past : view.Past 1 _ := moved
    have sameAll := statementsMoved_push same (Option.some.inj sameNode)
    exact (agrees.statements ⟨paired, by have := state.inside; omega, rfl⟩ (by omega)
      sameAll).weaken id fun ⟨same, closed⟩ => ⟨same, by omega⟩

theorem agree_conditionalArms_step {conditions otherConditions blocks otherBlocks}
    (enough : 4 * view.ahead.length + 1 ≤ min (fuel + 1) (other + 1))
    (same : armsMoved window.here (conditions, blocks) =
      armsMoved window.there (otherConditions, otherBlocks)) :
    window.Matches level view 1 armsMoved
      (conditionalArms (fuel + 1) conditions blocks s)
      (conditionalArms (other + 1) otherConditions otherBlocks t) := by
  rw [conditionalArms, conditionalArms]
  obtain ⟨sameConditions, sameBlocks⟩ := Prod.mk.inj same
  apply state.match_then (agree_parenthesised state (by omega))
  intro condition otherCondition _ _ _ state sameCondition past
  apply state.match_then (agrees.block state (by omega) _)
  intro arm otherArm _ _ _ state sameArm afterArm
  have sameConditions := argumentsMoved_push sameConditions sameCondition
  have sameBlocks := blocksMoved_push sameBlocks sameArm
  apply state.accept_then rfl
  · intro _ _ _ state afterElse
    apply state.accept_then rfl
    · intro _ _ _ state afterIf
      exact (agrees.arms state (by omega)
        (Prod.ext sameConditions sameBlocks)).weaken id fun ⟨same, last⟩ => ⟨same, by omega⟩
    · intro _ _ state
      apply state.match_then (agrees.block state (by omega) _)
      intro alternative otherAlternative _ _ _ state sameAlternative last
      exact state.agree_pure
        ⟨Prod.ext sameConditions (blocksMoved_push sameBlocks sameAlternative), by omega⟩
  · intro _ _ state
    exact state.agree_pure ⟨Prod.ext sameConditions sameBlocks, by omega⟩

end

end Step

theorem statementsAgree (window : Window) (fuel other : Nat) :
    StatementsAgree window fuel other := by
  induction fuel generalizing other with
  | zero => constructor <;> (intros; omega)
  | succ fuel ih =>
    cases other with
    | zero => constructor <;> (intros; omega)
    | succ other =>
      have agrees := ih other
      exact
        { statement := agree_statement_step agrees
          block := agree_block_step agrees
          statements := fun state => agree_statements_step agrees state
          arms := fun state => agree_conditionalArms_step agrees state }

end BodyParser

end SlotCompiler
