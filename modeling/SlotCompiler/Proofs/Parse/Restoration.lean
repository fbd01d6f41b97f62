import SlotCompiler.Proofs.Parse.Runs

/-!
Contract: parsers put back what they share, whether they succeed or fail.
-/

namespace SlotCompiler

namespace BodyParser

theorem steady_restoring {α : Type} {step : BodyParser α}
    (inside : ∀ start, Follows .loose step start) : Steady (restoringNesting step) :=
  fun start => Runs.restoring (inside start)

theorem follows_descended {α : Type} {step : BodyParser α} (position : Position)
    (inside : Steady step) (start : BodyInput) :
    Follows .loose (do
      (liftM (Parser.descend position) : BodyParser Unit)
      step) start :=
  (follows_descend position start).bind fun _ middle _ => inside.follows .loose middle

/-! ## Expressions -/

theorem steady_memberNames (fuel : Nat) (names : Array (String × Position)) :
    Steady (memberNames fuel names) := by
  induction fuel generalizing names with
  | zero => exact Steady.pure names
  | succ fuel ih =>
    apply (steady_accept (by decide)).bind
    intro isDot
    split
    · exact steady_identifier.bind fun _ => ih _
    · exact Steady.pure names

theorem steady_projectSteps (names : List (String × Position)) : Steady (projectSteps names) := by
  induction names with
  | nil => exact Steady.pure _
  | cons named rest ih =>
    apply (steady_temporary named.2).bind
    intro destination
    exact ih.bind fun _ => Steady.pure _

theorem steady_project (source : Slot) (names : List (String × Position)) (position : Position) :
    Steady (project source names position) :=
  (steady_projectSteps names).bind fun _ => Steady.pure _

/-- With some fuel, the expression parsers keep everything; the chain of operators
leaves the nesting to be put back. -/
structure SteadyExpressions (fuel : Nat) : Prop where
  binary : ∀ minPrecedence, Steady (binaryExpression fuel minPrecedence)
  chain : ∀ minPrecedence lhs start, Follows .loose (operatorChain fuel minPrecedence lhs) start
  primary : Steady (primaryExpression fuel)
  call : ∀ name position, Steady (callExpression fuel name position)
  arguments : ∀ given, Steady (argumentList fuel given)

private theorem steadyExpressions_zero : SteadyExpressions 0 where
  binary _ := steady_exhausted
  chain _ _ start := steady_exhausted.follows .loose start
  primary := steady_exhausted
  call _ _ := steady_exhausted
  arguments _ := steady_exhausted

section Step

variable {fuel : Nat} (steady : SteadyExpressions fuel)

include steady

private theorem binaryExpression_steady (minPrecedence : Nat) :
    Steady (binaryExpression (fuel + 1) minPrecedence) := by
  rw [binaryExpression]
  apply steady_restoring
  intro start
  apply (steady.primary.follows .loose start).bind
  intro lhs middle _
  exact steady.chain minPrecedence lhs middle

private theorem operatorChain_follows (minPrecedence : Nat) (lhs : Operand) (start : BodyInput) :
    Follows .loose (operatorChain (fuel + 1) minPrecedence lhs) start := by
  rw [operatorChain]
  apply (steady_peekKind.follows .loose start).bind
  intro kind middle kindRan
  split
  · exact Follows.pure lhs
  rename_i operator isOperator
  split
  · exact Follows.pure lhs
  have isInline : middle.input.ahead.kind.IsInline := by
    rw [peekKind_quiet kindRan]
    exact TokenKind.isInline_of_operator? isOperator
  apply (follows_next isInline).bind
  intro token _ _
  apply (follows_descend token.position _).bind
  intro _ deeper _
  apply ((steady.binary _).follows .loose deeper).bind
  intro rhs _ _
  apply ((steady_temporary token.position).follows .loose _).bind
  intro destination last _
  exact steady.chain minPrecedence _ last

private theorem callExpression_steady (name : String) (position : Position) :
    Steady (callExpression (fuel + 1) name position) := by
  rw [callExpression]
  apply (steady_expect (by decide)).bind
  intro _
  apply (steady_accept (by decide)).bind
  intro isClosed
  have recorded (arguments : Array Operand) : Steady (do
      recordCall name position
      return ({ name, arguments := arguments.toList, position } : Call)) :=
    (steady_recordCall name position).bind fun _ => Steady.pure _
  split
  · exact (Steady.pure _).bind recorded
  · exact (steady.arguments _).bind recorded

private theorem argumentList_steady (given : Array Operand) :
    Steady (argumentList (fuel + 1) given) := by
  rw [argumentList]
  apply (steady.binary 1).bind
  intro argument
  apply (steady_accept (by decide)).bind
  intro isComma
  split
  · exact steady.arguments _
  · exact (steady_expect (by decide)).bind fun _ => Steady.pure _

private theorem primaryExpression_steady : Steady (primaryExpression (fuel + 1)) := by
  intro start
  rw [primaryExpression]
  apply (steady_peek start).bind
  intro token middle peekRan
  obtain ⟨contentEq, aheadEq, _⟩ := peek_quiet peekRan
  have kindEq : middle.input.ahead.kind = token.content.kind := by
    rw [aheadEq, contentEq]
    rfl
  -- A literal is one token.
  have leaf {value : Operand} (kind : TokenKind) (isKind : token.content.kind = kind)
      (isInline : kind.IsInline) :
      Follows .strict (do
        let _ ← (liftM Parser.next : BodyParser Token)
        return value) middle := by
    rw [← isKind, ← kindEq] at isInline
    exact (follows_next isInline).bind fun _ _ _ => Follows.pure value
  split
  · rename_i isInt
    exact leaf .intLiteral (congrArg Content.kind isInt) (by decide)
  · rename_i isFloat
    exact leaf .floatLiteral (congrArg Content.kind isFloat) (by decide)
  · rename_i isString
    exact leaf .stringLiteral (congrArg Content.kind isString) (by decide)
  · rename_i kind isPlain
    split
    · rename_i isTrue
      exact leaf .trueKw (by rw [isPlain, isTrue]; rfl) (by decide)
    split
    · rename_i isFalse
      exact leaf .falseKw (by rw [isPlain, isFalse]; rfl) (by decide)
    split
    · rename_i isParen
      have isInline : middle.input.ahead.kind.IsInline := by
        rw [kindEq, isPlain, isParen]
        decide
      apply (follows_next isInline).bind
      intro _ inside _
      apply (steady_restoring (follows_descended token.position (steady.binary 1)) inside).bind
      intro value _ _
      exact (steady_expect (by decide)).bind (fun _ => Steady.pure value) _
    · exact Follows.throw _
  · apply (steady_identifier middle).bind
    intro named _ _
    apply (steady_peekKind _).bind
    intro kind _ _
    split
    · apply (steady_lookup _ _ _).bind
      intro source _ _
      apply (steady_memberNames fuel #[] _).bind
      intro names _ _
      exact (steady_project source names.toList _).bind (fun _ => Steady.pure _) _
    split
    · exact (steady.call _ _).bind (fun _ => Steady.pure _) _
    · exact (steady_lookup _ _).bind (fun _ => Steady.pure _) _
  · exact Follows.throw _

end Step

theorem steadyExpressions (fuel : Nat) : SteadyExpressions fuel := by
  induction fuel with
  | zero => exact steadyExpressions_zero
  | succ fuel steady =>
    exact {
      binary := binaryExpression_steady steady
      chain := operatorChain_follows steady
      primary := primaryExpression_steady steady
      call := callExpression_steady steady
      arguments := argumentList_steady steady }

theorem steady_expression (fuel : Nat) : Steady (expression fuel) :=
  (steadyExpressions fuel).binary 1

/-! ## Statements -/

/-- What a statement leaves when it was read. -/
inductive StatementLeaves (start : BodyInput) : Option Node → BodyInput → Prop where
  | quiet {node later} (quiet : Quiet start later) : StatementLeaves start (some node) later
  /-- A declaration brings its name into the innermost block. -/
  | declared {name slot isMutable declared? value position} {later : BodyInput}
      (nesting_eq : later.nesting = start.nesting)
      (depth_eq : later.input.depth = start.input.depth)
      (tokens : later.input.ahead.tokens <:+ start.input.ahead.tokens)
      (declared : start.context.scopes.declare? name slot = some later.context.scopes) :
      StatementLeaves start (some (.declaration name slot isMutable declared? value position)) later
  /-- The brace that closes the block was read. -/
  | ended {later : BodyInput} (nesting_eq : later.nesting = start.nesting)
      (scopes_eq : later.context.scopes = start.context.scopes)
      (depth_eq : later.input.depth = start.input.depth - 1)
      (tokens : later.input.ahead.tokens <:+ start.input.ahead.tokens) :
      StatementLeaves start none later

theorem StatementLeaves.after {start middle later node?}
    (leaves : StatementLeaves middle node? later) (quiet : Quiet start middle) :
    StatementLeaves start node? later := by
  cases leaves with
  | quiet late => exact .quiet (quiet.trans late)
  | declared nestingEq depthEq tokens isDeclared =>
    rw [quiet.scopes_eq] at isDeclared
    exact .declared (nestingEq.trans quiet.nesting_eq) (depthEq.trans quiet.depth_eq)
      (tokens.trans quiet.tokens) isDeclared
  | ended nestingEq scopesEq depthEq tokens =>
    rw [quiet.depth_eq] at depthEq
    exact .ended (nestingEq.trans quiet.nesting_eq) (scopesEq.trans quiet.scopes_eq) depthEq
      (tokens.trans quiet.tokens)

/-- What statements leave when they were read up to the end of their block. -/
structure StatementsLeave (start later : BodyInput) : Prop where
  nesting_eq : later.nesting = start.nesting
  blocks : start.context.scopes.SameBlocks later.context.scopes
  depth_eq : later.input.depth = start.input.depth - 1
  tokens : later.input.ahead.tokens <:+ start.input.ahead.tokens

/-- What statements leave after a fault, which may come after declarations. -/
structure StatementsFaulted (start later : BodyInput) : Prop where
  nesting_eq : later.nesting = start.nesting
  blocks : start.context.scopes.SameBlocks later.context.scopes
  depth_le : start.input.depth ≤ later.input.depth
  tokens : later.input.ahead.tokens <:+ start.input.ahead.tokens

theorem Steady.andThen {α β : Type} {step} {next : α → BodyParser β} {start middle}
    {done : β → BodyInput → Prop} (steady : Steady step) (early : Quiet start middle)
    (rest : ∀ value later, Quiet start later → Runs (next value) later done (Faulted start)) :
    Runs (step >>= next) middle done (Faulted start) := by
  refine Runs.bind ((steady middle).mono (fun _ _ => id) fun _ => early.spoils) ?_
  intro value later _ quiet
  exact rest value later (early.trans quiet)

theorem modifyScopes_runs (change : ScopeChain → ScopeChain) (start : BodyInput)
    {failed : BodyInput → Prop} :
    Runs (modifyScopes change) start (fun _ later => later.input = start.input) failed where
  visits := ⟨_, .single (.rescope change) start⟩
  of_ok ran := by
    cases ran
    rfl
  of_error ran := nomatch ran

theorem declare_runs (name : String) (isMutable : Bool) (position : Position) (start : BodyInput) :
    Runs (declare name isMutable position) start
      (fun slot later => later.nesting = start.nesting ∧
        later.input.depth = start.input.depth ∧
        later.input.ahead.tokens <:+ start.input.ahead.tokens ∧
        start.context.scopes.declare? name slot = some later.context.scopes)
      (Faulted start) := by
  have inputKept : Runs (declare name isMutable position) start
      (fun _ later => later.nesting = start.nesting ∧
        later.input.depth = start.input.depth ∧
        later.input.ahead.tokens <:+ start.input.ahead.tokens)
      (Faulted start) := by
    apply (steady_requireFresh name position).andThen (Quiet.refl start)
    intro _ fresh freshQuiet
    apply (steady_allocate _ position).andThen freshQuiet
    intro slot allocated quiet
    apply Runs.bind (modifyScopes_runs _ allocated)
    intro _ later _ inputEq
    apply Runs.pure
    rw [BodyInput.nesting, inputEq]
    exact ⟨quiet.nesting_eq, quiet.depth_eq, quiet.tokens⟩
  refine ⟨inputKept.visits, fun ran => ?_, inputKept.of_error⟩
  obtain ⟨nestingEq, depthEq, tokens⟩ := inputKept.of_ok ran
  obtain ⟨_, frame, scopes, _, declared, contextEq⟩ := declare_ok ran
  refine ⟨nestingEq, depthEq, tokens, ?_⟩
  rw [declared, contextEq]
  rfl

theorem declaration_runs (fuel : Nat) {start : BodyInput}
    (isInline : start.input.ahead.kind.IsInline) :
    Runs (declaration fuel) start (fun node later => StatementLeaves start (some node) later)
      (Faulted start) := by
  apply Runs.bind (follows_next isInline : Follows .strict _ start)
  intro keyword named _ keywordQuiet
  apply steady_identifier.andThen keywordQuiet
  intro identified fresh identifiedQuiet
  apply (steady_requireFresh _ _).andThen identifiedQuiet
  intro _ typed freshQuiet
  apply (steady_typeAfter (by decide)).andThen freshQuiet
  intro declared? assigned typedQuiet
  apply (steady_expect (by decide)).andThen typedQuiet
  intro _ valued assignedQuiet
  apply (steady_expression fuel).andThen assignedQuiet
  intro value ended valuedQuiet
  apply (steady_expect (by decide)).andThen valuedQuiet
  intro _ declared quiet
  apply Runs.bind ((declare_runs _ _ _ declared).mono (fun _ _ => id) fun _ => quiet.spoils)
  intro slot later _ ⟨nestingEq, depthEq, tokens, isDeclared⟩
  apply Runs.pure
  refine .declared (nestingEq.trans quiet.nesting_eq) (depthEq.trans quiet.depth_eq)
    (tokens.trans quiet.tokens) ?_
  rw [← quiet.scopes_eq]
  exact isDeclared

theorem steady_assignedValue (fuel : Nat) : Steady (assignedValue fuel) := by
  apply (steady_expect (by decide)).bind
  intro _
  apply (steady_expression fuel).bind
  intro value
  exact (steady_expect (by decide)).bind fun _ => Steady.pure value

theorem steady_assignment (fuel : Nat) (name : String) (position : Position) :
    Steady (assignment fuel name position) := by
  apply (steady_lookup name position).bind
  intro slot
  exact (steady_assignedValue fuel).bind fun _ => Steady.pure _

theorem steady_memberAssignment (fuel : Nat) (name : String) (position : Position) :
    Steady (memberAssignment fuel name position) := by
  apply (steady_lookup name position).bind
  intro source
  apply (steady_memberNames fuel #[]).bind
  intro names
  split
  · exact steady_peek.bind fun _ => Steady.throw _
  · apply (steady_project _ _ _).bind
    intro target
    exact (steady_assignedValue fuel).bind fun _ => Steady.pure _

theorem steady_returnStatement (fuel : Nat) : Steady (returnStatement fuel) := by
  apply (steady_expect (by decide)).bind
  intro keyword
  apply steady_peekKind.bind
  intro kind
  have ended (value? : Option Operand) : Steady (do
      let _ ← (liftM (Parser.expect .semicolon) : BodyParser Token)
      return Node.ret value? (← get).context.scopes.lockDepth keyword.position) := by
    apply (steady_expect (by decide)).bind
    intro _
    exact steady_get.bind fun _ => Steady.pure _
  split
  · exact (Steady.pure none).bind ended
  · exact (steady_expression fuel).map.bind ended

theorem steady_namedStatement (fuel : Nat) : Steady (namedStatement fuel) := by
  apply steady_identifier.bind
  intro named
  apply steady_peekKind.bind
  intro kind
  split
  · exact steady_assignment fuel _ _
  split
  · exact steady_memberAssignment fuel _ _
  split
  · apply ((steadyExpressions fuel).call _ _).bind
    intro invoked
    exact (steady_expect (by decide)).bind fun _ => Steady.pure _
  · exact steady_peek.bind fun _ => Steady.throw _

theorem steady_lockList (fuel : Nat) (locks : Array Lock) : Steady (lockList fuel locks) := by
  induction fuel generalizing locks with
  | zero => exact steady_exhausted
  | succ fuel ih =>
    apply (steady_accept (by decide)).bind
    intro exclusive
    apply steady_identifier.bind
    intro named
    apply (steady_lookup _ _).bind
    intro slot
    split
    · exact Steady.throw _
    apply (steady_accept (by decide)).bind
    intro isComma
    split
    · exact ih _
    · exact Steady.pure _

theorem steady_parenthesised (fuel : Nat) : Steady (parenthesised fuel) := by
  apply (steady_expect (by decide)).bind
  intro _
  apply (steady_expression fuel).bind
  intro condition
  exact (steady_expect (by decide)).bind fun _ => Steady.pure condition

/-- With some fuel, the statement parsers leave what they should. -/
structure RestoringStatements (fuel : Nat) : Prop where
  statement : ∀ start, Runs (statement fuel) start (StatementLeaves start) (Faulted start)
  block : ∀ locks, Steady (block fuel locks)
  statements : ∀ given start, Runs (statements fuel given) start
    (fun _ later => StatementsLeave start later) (StatementsFaulted start)
  arms : ∀ conditions blocks, Steady (conditionalArms fuel conditions blocks)

private theorem exhausted_runs {α : Type} {done : α → BodyInput → Prop} (start : BodyInput) :
    Runs (exhausted : BodyParser α) start done (Faulted start) :=
  ⟨(steady_exhausted start).visits, fun ran => (exhausted_ok ran).elim,
    (steady_exhausted start).of_error⟩

theorem Faulted.statements {start later} (faulted : Faulted start later) :
    StatementsFaulted start later :=
  ⟨faulted.nesting_eq, faulted.scopes_eq ▸ .refl _, faulted.depth_le, faulted.tokens⟩

private theorem restoringStatements_zero : RestoringStatements 0 where
  statement start := exhausted_runs start
  block _ := steady_exhausted
  statements _ start := (exhausted_runs start).mono (fun _ _ => id) fun _ => Faulted.statements
  arms _ _ := steady_exhausted

section StatementStep

variable {fuel : Nat} (restores : RestoringStatements fuel)

include restores

private theorem block_steady (locks : Nat) : Steady (block (fuel + 1) locks) := by
  intro start
  rw [block]
  apply Runs.bind (expect_runs .leftBrace start)
  intro brace entered _ entry
  obtain ⟨nestingEq, scopesEq, depthEq, tokens⟩ := entry
  have deeper : start.input.depth + 1 = entered.input.depth := depthEq.symm
  have opened : Faulted start entered := ⟨nestingEq, scopesEq, by omega, tokens⟩
  apply Runs.restoring
  apply Runs.bind ((follows_descend brace.position entered).mono (fun _ _ => id)
    fun _ => opened.trans)
  intro _ nested _ nestedQuiet
  apply Runs.inScope
  apply Runs.bind ((restores.statements #[] (nested.opened locks)).mono (fun _ _ => id) ?_)
  · intro nodes later _ leaves
    apply Runs.pure
    have scopesLeft : later.context.scopes.leave = nested.context.scopes := leaves.blocks.leave_eq
    have depthLeft : later.input.depth = nested.input.depth - 1 := leaves.depth_eq
    have nestedDepth : nested.input.depth = entered.input.depth := nestedQuiet.depth_eq
    exact ⟨nestingEq, scopesLeft.trans (nestedQuiet.scopes_eq.trans scopesEq),
      show later.input.depth = start.input.depth by omega,
      leaves.tokens.trans (nestedQuiet.tokens.trans tokens)⟩
  · intro later faulted
    have scopesLeft : later.context.scopes.leave = nested.context.scopes := faulted.blocks.leave_eq
    have depthLeft : nested.input.depth ≤ later.input.depth := faulted.depth_le
    have nestedDepth : nested.input.depth = entered.input.depth := nestedQuiet.depth_eq
    exact ⟨nestingEq, scopesLeft.trans (nestedQuiet.scopes_eq.trans scopesEq),
      show start.input.depth ≤ later.input.depth by omega,
      faulted.tokens.trans (nestedQuiet.tokens.trans tokens)⟩

private theorem statements_runs (given : Array Node) (start : BodyInput) :
    Runs (statements (fuel + 1) given) start (fun _ later => StatementsLeave start later)
      (StatementsFaulted start) := by
  -- After a statement that leaves the same blocks open, the rest goes on.
  have goesOn {node : Node} {middle : BodyInput} (nestingEq : middle.nesting = start.nesting)
      (blocks : start.context.scopes.SameBlocks middle.context.scopes)
      (depthEq : middle.input.depth = start.input.depth)
      (tokens : middle.input.ahead.tokens <:+ start.input.ahead.tokens) :
      Runs (statements fuel (given.push node)) middle
        (fun _ later => StatementsLeave start later) (StatementsFaulted start) := by
    apply (restores.statements (given.push node) middle).mono
    · intro _ later leaves
      refine ⟨leaves.nesting_eq.trans nestingEq, blocks.trans leaves.blocks, ?_,
        leaves.tokens.trans tokens⟩
      rw [leaves.depth_eq, depthEq]
    · intro later faulted
      refine ⟨faulted.nesting_eq.trans nestingEq, blocks.trans faulted.blocks, ?_,
        faulted.tokens.trans tokens⟩
      rw [← depthEq]
      exact faulted.depth_le
  rw [statements]
  apply Runs.bind ((restores.statement start).mono (fun _ _ => id) fun _ => Faulted.statements)
  intro node? middle _ leaves
  cases leaves with
  | quiet quiet =>
    exact goesOn quiet.nesting_eq (quiet.scopes_eq ▸ .refl _) quiet.depth_eq quiet.tokens
  | declared nestingEq depthEq tokens isDeclared =>
    exact goesOn nestingEq (ScopeChain.sameBlocks_declare? isDeclared) depthEq tokens
  | ended nestingEq scopesEq depthEq tokens =>
    exact Runs.pure ⟨nestingEq, scopesEq ▸ .refl _, depthEq, tokens⟩

private theorem conditionalArms_steady (conditions : Array Operand) (blocks : Array Block) :
    Steady (conditionalArms (fuel + 1) conditions blocks) := by
  rw [conditionalArms]
  apply (steady_parenthesised fuel).bind
  intro condition
  apply (restores.block 0).bind
  intro arm
  apply (steady_accept (by decide)).bind
  intro hasElse
  split
  · apply (steady_accept (by decide)).bind
    intro isConditional
    split
    · exact restores.arms _ _
    · exact (restores.block 0).bind fun _ => Steady.pure _
  · exact Steady.pure _

private theorem statement_runs (start : BodyInput) :
    Runs (statement (fuel + 1)) start (StatementLeaves start) (Faulted start) := by
  rw [statement]
  apply Runs.bind (steady_peek start)
  intro token middle peekRan peekQuiet
  obtain ⟨contentEq, aheadEq, _⟩ := peek_quiet peekRan
  have kindEq : middle.input.ahead.kind = token.kind := by
    rw [aheadEq]
    exact congrArg Content.kind contentEq.symm
  refine Runs.mono (?_ : Runs _ middle (StatementLeaves middle) (Faulted middle))
    (fun _ _ leaves => leaves.after peekQuiet) fun _ => peekQuiet.spoils
  -- A parser of one kind of statement that declares nothing.
  have one {step : BodyParser Node} (steady : Steady step) :
      Runs (some <$> step) middle (StatementLeaves middle) (Faulted middle) :=
    Runs.map ((steady middle).mono (fun _ _ => .quiet) fun _ => id)
  dsimp only
  split
  · exact one (steady_returnStatement fuel)
  split
  · rename_i declares
    apply Runs.map
    apply declaration_runs
    rw [kindEq]
    rcases declares with isConst | isMut
    · rw [isConst]
      decide
    · rw [isMut]
      decide
  split
  · apply (steady_expect (by decide)).andThen (Quiet.refl middle)
    intro keyword chained keywordQuiet
    apply (restores.arms #[] #[]).andThen keywordQuiet
    intro arms later armsQuiet
    exact Runs.pure (.quiet armsQuiet)
  split
  · apply (steady_expect (by decide)).andThen (Quiet.refl middle)
    intro keyword tested keywordQuiet
    apply (steady_parenthesised fuel).andThen keywordQuiet
    intro condition repeated conditionQuiet
    apply (restores.block 0).andThen conditionQuiet
    intro body later bodyQuiet
    exact Runs.pure (.quiet bodyQuiet)
  split
  · apply (steady_expect (by decide)).andThen (Quiet.refl middle)
    intro keyword locked keywordQuiet
    apply (steady_lockList fuel #[]).andThen keywordQuiet
    intro locks guarded locksQuiet
    split
    · apply steady_get.andThen locksQuiet
      intro body later getQuiet
      exact Runs.throw getQuiet.faulted
    · apply (restores.block locks.size).andThen locksQuiet
      intro body later bodyQuiet
      exact Runs.pure (.quiet bodyQuiet)
  split
  · exact one (steady_namedStatement fuel)
  split
  · rename_i isBrace
    have closed : Runs (liftM Parser.next : BodyParser Token) middle
        (fun _ later => StatementLeaves middle none later) (Faulted middle) := by
      refine ⟨⟨_, .single .take middle⟩, fun ran => ?_, fun ran => by cases ran⟩
      obtain ⟨nestingEq, contextEq, depthEq, tokens⟩ := next_leaves ran
      rw [kindEq, isBrace] at depthEq
      exact .ended nestingEq (congrArg Context.scopes contextEq) depthEq tokens
    exact closed.bind fun _ _ _ leaves => Runs.pure leaves
  · exact Runs.throw (Quiet.refl middle).faulted

end StatementStep

theorem restoringStatements (fuel : Nat) : RestoringStatements fuel := by
  induction fuel with
  | zero => exact restoringStatements_zero
  | succ fuel restores =>
    exact {
      statement := statement_runs restores
      block := block_steady restores
      statements := statements_runs restores
      arms := conditionalArms_steady restores }

/-! ## All together -/

/-- A run consists of shared steps and is never nested deeper than the limit, or
than where it starts. -/
def StaysShallow {α : Type} (step : BodyParser α) (start : BodyInput) : Prop :=
  ∃ levels, Visits step start levels ∧
    ∀ level ∈ levels, level ≤ max start.nesting Input.nestingLimit

theorem Runs.staysShallow {α : Type} {step start} {done : α → BodyInput → Prop}
    {failed : BodyInput → Prop} (runs : Runs step start done failed) : StaysShallow step start := by
  obtain ⟨levels, visits⟩ := runs.visits
  exact ⟨levels, visits, visits.nesting_le.1⟩

theorem exists_ok {α : Type} (step : BodyParser α) (start : BodyInput) (test : α → Bool)
    (passes : (step.run' start).any test = true) :
    ∃ value later, step start = .ok value later ∧ test value = true := by
  unfold EStateM.run' EStateM.run at passes
  cases ran : step start with
  | ok value later =>
    rw [ran] at passes
    exact ⟨value, later, rfl, passes⟩
  | error fault later =>
    rw [ran] at passes
    exact absurd passes Bool.false_ne_true

theorem exists_error {α : Type} (step : BodyParser α) (start : BodyInput)
    (fails : (step.run' start).isNone = true) : ∃ fault later, step start = .error fault later := by
  unfold EStateM.run' EStateM.run at fails
  cases ran : step start with
  | ok value later =>
    rw [ran] at fails
    exact absurd fails Bool.false_ne_true
  | error fault later => exact ⟨fault, later, rfl⟩

/-- The start of a text, in a function without variables. -/
def bodyOf (text : String) : BodyInput := ⟨Input.ofSource ⟨"main", text⟩, .initial "f"⟩

def declarationBody : BodyInput := bodyOf "const a = 1 + 2;"

/-- Two variables of one name, one of them in an inner block. -/
def shadowBody : BodyInput :=
  bodyOf "\x7b const a = 1; while (a < 2) \x7b const a = a; \x7d \x7d"

/-- A block that breaks off at a statement. -/
def brokenBody : BodyInput := bodyOf "\x7b const a = 1; if (a < 2) \x7b const a = a; \x7b"

end BodyParser

end SlotCompiler
