import SlotCompiler.Proofs.Parse.ExpressionCompleteness

/-!
Contract: every statement of the grammar is parsed as it is built.

A conditional goes on as long as there is an `else`, so it is parsed only before
a token of another kind.  Every token that follows a statement is one: it starts
the next statement or ends the block.
-/

namespace SlotCompiler

open SlotCompiler.Parser

variable {written : Expression}

/-! ## Types and names -/

namespace Parser

theorem takes_typeName {token : Token} {name} (isType : typeName? token.content = some name)
    (rest : List Token) (nesting : Nat) :
    Takes Input.ahead typeName ⟨token :: rest, nesting⟩ ⟨name, token.position⟩ ⟨rest, nesting⟩ := by
  refine (takes_peek token rest nesting).bind ?_
  simp only [isType]
  exact (takes_next token rest nesting).bind (takes_pure _ _)

theorem takes_typeAfter {mark type? tokens rest} (derives : DerivesType mark type? tokens)
    (notMark : nextKind rest ≠ mark) (nesting : Nat) :
    Takes Input.ahead (typeAfter mark) ⟨tokens ++ rest, nesting⟩ type? ⟨rest, nesting⟩ := by
  cases derives with
  | absent => exact (takes_accept_other notMark nesting).bind (takes_pure _ _)
  | present isMark isType =>
    refine (takes_accept isMark _ nesting).bind ?_
    exact (takes_typeName isType rest nesting).bind (takes_pure _ _)

end Parser

theorem DerivesAssigned.nextKind_eq {tokens} (derives : DerivesAssigned written tokens)
    (rest : List Token) : nextKind (tokens ++ rest) = .assign := by
  cases derives with
  | mk assigns => exact assigns

namespace BodyParser

variable {nesting fuel : Nat} {tokens rest : List Token}

variable {α : Type} {build : Building α} {left : Ahead} {keyword semicolon : Token}

theorem gives_name_then {isMutable name} {next : Bool → String × Position → BodyParser α}
    (derives : DerivesName isMutable name tokens)
    (following : ∀ position, Gives (next isMutable (name, position)) ⟨rest, nesting⟩ build left) :
    Gives (do
        let isMutable ← (liftM (accept .mutKw) : BodyParser Bool)
        let named ← (liftM identifier : BodyParser (String × Position))
        next isMutable named) ⟨tokens ++ rest, nesting⟩ build left := by
  cases derives with
  | @plain token _ isName =>
    have notMut : nextKind (token :: rest) ≠ .mutKw := by
      rw [nextKind_cons, Token.kind, isName]
      show TokenKind.identifier ≠ .mutKw
      decide
    refine gives_after (takes_accept_other notMut nesting) ?_
    exact gives_after (takes_identifier isName rest nesting) (following _)
  | mutable isMut isName =>
    refine gives_after (takes_accept isMut _ nesting) ?_
    exact gives_after (takes_identifier isName rest nesting) (following _)

/-! ## Parts of statements -/

theorem gives_expression {last : Token} {kind} (derives : Derives (.tier 1 written) tokens)
    (isKind : last.kind = kind) (isStop : kind.IsStop)
    (enough : 4 * (tokens ++ last :: rest).length + 2 ≤ fuel) :
    Gives (expression fuel) ⟨tokens ++ last :: rest, nesting⟩ (written.build nesting)
      ⟨last :: rest, nesting⟩ :=
  gives_expression_of_isRead derives.isRead derives isKind isStop enough

theorem gives_assigned_then {next : Operand → BodyParser α} {build : Operand → Building α}
    (derives : DerivesAssigned written tokens) (enough : 4 * (tokens ++ rest).length ≤ fuel + 2)
    (following : ∀ value, Gives (next value) ⟨rest, nesting⟩ (build value) left) :
    Gives (do
        let _ ← (liftM (expect .assign) : BodyParser Token)
        let value ← expression fuel
        let _ ← (liftM (expect .semicolon) : BodyParser Token)
        next value) ⟨tokens ++ rest, nesting⟩ (written.build nesting >>= build) left := by
  have .mk assigns inner ends := derives
  simp only [List.cons_append, List.append_assoc, List.nil_append, List.length_cons] at enough ⊢
  refine gives_after (takes_expect assigns _ nesting) ?_
  refine (gives_expression inner ends (by decide) (by omega)).bind fun value => ?_
  exact gives_after (takes_expect ends rest nesting) (following value)

theorem gives_assignedValue (derives : DerivesAssigned written tokens)
    (enough : 4 * (tokens ++ rest).length ≤ fuel + 2) :
    Gives (assignedValue fuel) ⟨tokens ++ rest, nesting⟩ (written.build nesting)
      ⟨rest, nesting⟩ := by
  rw [assignedValue, ← bind_pure (written.build nesting)]
  exact gives_assigned_then derives enough fun value => gives_pure value _

/-! ## Single statements -/

section Single

variable {token : Token} {name : String} {value : Expression}

section

variable (isName : token.content = .identifier name)

include isName

theorem gives_declaration {declared? typeTokens} (typed : DerivesType .colon declared? typeTokens)
    (assigned : DerivesAssigned value tokens) (enough : 4 * (tokens ++ rest).length ≤ fuel + 2) :
    Gives (declaration fuel) ⟨keyword :: token :: (typeTokens ++ (tokens ++ rest)), nesting⟩
      ((Statement.declaration (keyword.kind == .mutKw) name declared? value
        keyword.position).build nesting) ⟨rest, nesting⟩ := by
  have notColon : nextKind (tokens ++ rest) ≠ .colon := by
    rw [assigned.nextKind_eq rest]
    decide
  refine gives_after (takes_next keyword _ nesting) ?_
  refine gives_after (takes_identifier isName _ nesting) ?_
  refine (gives_requireFresh name token.position _).bind fun _ => ?_
  refine gives_after (takes_typeAfter typed notColon nesting) ?_
  refine gives_assigned_then assigned enough fun value => ?_
  exact (gives_declare name _ token.position _).bind fun _ => gives_pure _ _

theorem gives_namedStatement {build}
    (following : Gives (if nextKind rest = .assign then assignment fuel name token.position
        else if nextKind rest = .dot then memberAssignment fuel name token.position
        else if nextKind rest = .leftParen then do
          let call ← callExpression fuel name token.position
          let _ ← expect .semicolon
          return .call call
        else do refuse (← peek) [.assign, .dot, .leftParen])
      ⟨rest, nesting⟩ build left) :
    Gives (namedStatement fuel) ⟨token :: rest, nesting⟩ build left :=
  gives_after (takes_identifier isName rest nesting)
    (gives_after (takes_peekKind rest nesting) following)

theorem gives_assignment (assigned : DerivesAssigned value tokens)
    (enough : 4 * (tokens ++ rest).length ≤ fuel + 2) :
    Gives (namedStatement fuel) ⟨token :: (tokens ++ rest), nesting⟩
      ((Statement.assignment name value token.position).build nesting) ⟨rest, nesting⟩ := by
  refine gives_namedStatement isName ?_
  rw [if_pos (assigned.nextKind_eq rest)]
  refine (gives_lookup name _ _).bind fun slot => ?_
  exact (gives_assignedValue assigned enough).bind fun _ => gives_pure _ _

theorem gives_memberAssignment {member place members chain}
    (chained : Derives (.members (members ++ [(member, place)])) chain)
    (assigned : DerivesAssigned value tokens)
    (enough : 4 * (chain ++ (tokens ++ rest)).length ≤ fuel + 2) :
    Gives (namedStatement fuel) ⟨token :: (chain ++ (tokens ++ rest)), nesting⟩
      ((Statement.memberAssignment name members member value token.position).build nesting)
      ⟨rest, nesting⟩ := by
  have isDot : nextKind (chain ++ (tokens ++ rest)) = .dot := chained.nextKind_eq (by simp) _
  have notDot : nextKind (tokens ++ rest) ≠ .dot := by
    rw [assigned.nextKind_eq rest]
    decide
  have few := chained.length_le
  simp only [List.length_append, List.length_singleton] at few enough
  have lastEq : (#[].toList ++ (members ++ [(member, place)])).toArray.back? =
      .some (member, place) := by simp
  have othersEq : (#[].toList ++ (members ++ [(member, place)])).toArray.pop.toList = members := by
    simp
  refine gives_namedStatement isName ?_
  rw [isDot, if_neg (by decide), if_pos rfl]
  refine (gives_lookup name _ _).bind fun source => ?_
  refine (gives_memberNames chained #[] (by simp; omega) notDot nesting).after ?_
  simp only [lastEq, othersEq]
  refine gives_project_then fun steps => ?_
  refine (gives_assignedValue assigned ?_).bind fun _ => gives_pure _ _
  rw [List.length_append]
  omega

end

theorem gives_return (value? : Option Operand) (position : Position) (ahead : Ahead) :
    Gives (do
        let body ← (get : BodyParser BodyInput)
        return Node.ret value? body.context.scopes.lockDepth position) ahead
      (do return Node.ret value? (← .lockDepth) position) ahead where
  takes := by
    rintro _ _ _ ⟨⟩ ⟨input, context⟩ ⟨⟩
    exact ⟨_, rfl, rfl⟩
  refuses := nofun

theorem gives_returnNothing (returns : keyword.kind = .returnKw)
    (ends : semicolon.kind = .semicolon) (rest : List Token) (nesting : Nat) :
    Gives (returnStatement fuel) ⟨keyword :: semicolon :: rest, nesting⟩
      ((Statement.ret none keyword.position).build nesting) ⟨rest, nesting⟩ := by
  refine gives_after (takes_expect returns _ nesting) ?_
  refine gives_after (takes_peekKind _ nesting) ?_
  rw [nextKind_cons, if_pos ends]
  refine (gives_pure none _).after ?_
  exact gives_after (takes_expect ends rest nesting) (gives_return _ _ _)

theorem gives_returnValue (returns : keyword.kind = .returnKw)
    (derives : Derives (.tier 1 value) tokens) (ends : semicolon.kind = .semicolon)
    (enough : 4 * (tokens ++ semicolon :: rest).length + 2 ≤ fuel) :
    Gives (returnStatement fuel) ⟨keyword :: (tokens ++ semicolon :: rest), nesting⟩
      ((Statement.ret (some value) keyword.position).build nesting) ⟨rest, nesting⟩ := by
  have notBare : nextKind (tokens ++ semicolon :: rest) ≠ .semicolon :=
    fun isBare => absurd (isBare ▸ derives.startsIn _) (by decide)
  refine gives_after (takes_expect returns _ nesting) ?_
  refine gives_after (takes_peekKind _ nesting) ?_
  rw [if_neg notBare, map_eq_pure_bind, bind_assoc]
  refine (gives_expression derives ends (by decide) enough).bind fun value => ?_
  rw [pure_bind]
  exact gives_after (takes_expect ends rest nesting) (gives_return _ _ _)

theorem gives_callStatement {arguments position}
    {semicolon : Token}
    (called : Derives (.tier primaryTier (.call name arguments position)) tokens)
    (ends : semicolon.kind = .semicolon)
    (enough : 4 * (tokens ++ semicolon :: rest).length ≤ fuel) :
    Gives (namedStatement fuel) ⟨tokens ++ semicolon :: rest, nesting⟩
      ((Statement.call name arguments position).build nesting) ⟨rest, nesting⟩ := by
  obtain ⟨token, opening, closing, others, isName, rfl, opens, closes, rfl, listed⟩ :=
    called.call_tokens
  simp only [List.cons_append, List.length_cons, List.append_assoc, List.nil_append] at enough ⊢
  have given : Gives (callExpression fuel name token.position)
      ⟨opening :: (others ++ closing :: semicolon :: rest), nesting⟩
      (callBuild name arguments token.position nesting) ⟨semicolon :: rest, nesting⟩ := by
    rcases listed with ⟨rfl, rfl⟩ | listed
    · obtain _ | fuel := fuel
      · omega
      exact gives_call_without opens closes name _ _ nesting
    · exact gives_call_of_isRead opens listed listed.isRead closes name _ _ (by omega)
  refine gives_namedStatement isName ?_
  rw [nextKind_cons, opens, if_neg (by decide), if_neg (by decide), if_pos rfl]
  refine given.bind fun call => ?_
  exact gives_after (takes_expect ends rest nesting) (gives_pure _ _)

end Single

/-! ## Locks -/

theorem gives_require_then {isBad} [Decidable isBad] {isGood} {cause : Context → Cause}
    {failing step position ahead} (badIff : isBad ↔ isGood = false)
    (fails : ∀ body : BodyInput, failing body = .error ⟨cause body.context, position⟩ body)
    (following : Gives step ahead build left) :
    Gives (if isBad then failing else step) ahead
      (do
        .require (fun _ => isGood) cause
        build) left := by
  cases isGood with
  | false =>
    rw [if_pos (badIff.mpr rfl)]
    refine ⟨nofun, ?_⟩
    rintro context _ ⟨⟩ body isBefore
    exact ⟨_, body, fails body, congrArg (cause ·.2) isBefore⟩
  | true =>
    rw [if_neg (by simp [badIff])]
    exact following

theorem any_slot_iff (given : Array Lock) (slot : Slot) :
    (given.any fun lock => lock.slot == slot) = true ↔
      decide (slot ∉ given.toList.map Lock.slot) = false := by
  rw [← Array.any_toList, List.any_eq_true, decide_eq_false_iff_not, not_not, List.mem_map]
  simp only [beq_iff_eq]

theorem gives_lockList {written} (derives : DerivesLocks written tokens) {given}
    (notComma : nextKind rest ≠ .comma) (enough : tokens.length ≤ fuel) (nesting : Nat) :
    Gives (lockList fuel given) ⟨tokens ++ rest, nesting⟩
      (return (← locksBuild given.toList written).toArray) ⟨rest, nesting⟩ := by
  induction derives generalizing fuel given with
  | last locked =>
    obtain ⟨fuel, rfl⟩ := Nat.exists_eq_add_of_le' (locked.length_pos.trans_le enough)
    rw [lockList, locksBuild]
    simp only [bind_assoc]
    refine gives_name_then locked fun position => ?_
    refine (gives_lookup _ position _).bind fun slot => ?_
    refine gives_require_then (any_slot_iff given slot) (fun _ => rfl) ?_
    rw [locksBuild, pure_bind, ← Array.toList_push, Array.toArray_toList]
    exact gives_after (takes_accept_other notComma nesting) (gives_pure _ _)
  | more locked isComma following ih =>
    have positive := locked.length_pos
    rw [List.length_append, List.length_cons] at enough
    obtain _ | fuel := fuel
    · omega
    rw [lockList, locksBuild, List.append_assoc, List.cons_append]
    simp only [bind_assoc]
    refine gives_name_then locked fun position => ?_
    refine (gives_lookup _ position _).bind fun slot => ?_
    refine gives_require_then (any_slot_iff given slot) (fun _ => rfl) ?_
    rw [← Array.toList_push]
    exact gives_after (takes_accept isComma _ nesting) (ih (by omega))

end BodyParser

/-! ## Statements and blocks -/

theorem DerivesStatement.nextKind_mem {written tokens}
    (derives : DerivesStatement (.single written) tokens) (rest : List Token) :
    nextKind (tokens ++ rest) ∈ BodyParser.statementOpeners := by
  have isOpener {token : Token} {others : List Token} {kind : TokenKind}
      (isKind : token.kind = kind) (opens : kind ∈ BodyParser.statementOpeners) :
      nextKind (token :: others) ∈ BodyParser.statementOpeners := by
    rw [nextKind_cons, isKind]
    exact opens
  cases derives with
  | declaration declares =>
    rcases declares with isConst | isMut
    · exact isOpener isConst (by decide)
    · exact isOpener isMut (by decide)
  | assignment isName | memberAssignment isName =>
    have isKind : Token.kind _ = TokenKind.identifier := congrArg Content.kind isName
    exact isOpener isKind (by decide)
  | returnNothing returns | returnValue returns => exact isOpener returns (by decide)
  | call called =>
    obtain ⟨token, _, _, _, isName, _, _, _, rfl, _⟩ := called.call_tokens
    have isKind : token.kind = .identifier := congrArg Content.kind isName
    exact isOpener isKind (by decide)
  | conditional tests => exact isOpener tests (by decide)
  | loop repeats => exact isOpener repeats (by decide)
  | sync guards => exact isOpener guards (by decide)

def StatementPart.IsRead (tokens : List Token) : StatementPart → Prop
  | .single written => ∀ {fuel nesting : Nat} {rest : List Token}, nextKind rest ≠ .elseKw →
      4 * (tokens ++ rest).length + 2 ≤ fuel →
      BodyParser.Gives (BodyParser.statement fuel) ⟨tokens ++ rest, nesting⟩
        (return some (← written.build nesting)) ⟨rest, nesting⟩
  | .sequence body => ∀ {fuel nesting : Nat} {closing : Token} {rest : List Token}
      {given : Array Node}, closing.kind = .rightBrace →
      4 * (tokens ++ closing :: rest).length + 3 ≤ fuel →
      BodyParser.Gives (BodyParser.statements fuel given) ⟨tokens ++ closing :: rest, nesting⟩
        (return (given.toList ++ (← statementsBuild body nesting)).toArray) ⟨rest, nesting⟩
  | .block body => ∀ {fuel nesting locks : Nat} {rest : List Token},
      4 * (tokens ++ rest).length + 2 ≤ fuel →
      BodyParser.Gives (BodyParser.block fuel locks) ⟨tokens ++ rest, nesting⟩
        (.enclosed nesting locks (statementsBuild body)) ⟨rest, nesting⟩
  | .guarded condition body => ∀ {fuel nesting : Nat} {rest : List Token},
      4 * (tokens ++ rest).length ≤ fuel →
      ∃ between, BodyParser.Gives (BodyParser.parenthesised fuel) ⟨tokens ++ rest, nesting⟩
          (condition.build nesting) ⟨between, nesting⟩ ∧
        BodyParser.Gives (BodyParser.block fuel 0) ⟨between, nesting⟩
          (.enclosed nesting 0 (statementsBuild body)) ⟨rest, nesting⟩
  | .arms written => ∀ {fuel nesting : Nat} {rest : List Token} {given : Array Operand}
      {before : Array Block}, nextKind rest ≠ .elseKw →
      4 * (tokens ++ rest).length + 2 ≤ fuel →
      BodyParser.Gives (BodyParser.conditionalArms fuel given before) ⟨tokens ++ rest, nesting⟩
        (do
          let trees ← written.build nesting
          return ((given.toList ++ trees.1).toArray, (before.toList ++ trees.2).toArray))
        ⟨rest, nesting⟩

namespace BodyParser

variable {nesting fuel : Nat} {tokens rest : List Token}

variable {body : List Statement} {between : List Token}

/-! ### Which statement it is -/

section Dispatch

variable {token : Token} {left : Ahead} {build : Building Node}

theorem gives_statement_return (returns : token.kind = .returnKw)
    (given : Gives (returnStatement fuel) ⟨token :: tokens, nesting⟩ build left) :
    Gives (statement (fuel + 1)) ⟨token :: tokens, nesting⟩ (return some (← build)) left := by
  rw [statement]
  refine gives_after (takes_peek token tokens nesting) ?_
  rw [returns, if_pos rfl, map_eq_pure_bind]
  exact given.bind fun _ => gives_pure _ _

theorem gives_statement_declaration (declares : token.kind = .constKw ∨ token.kind = .mutKw)
    (given : Gives (declaration fuel) ⟨token :: tokens, nesting⟩ build left) :
    Gives (statement (fuel + 1)) ⟨token :: tokens, nesting⟩ (return some (← build)) left := by
  have notReturn : token.kind ≠ .returnKw := by
    rcases declares with isConst | isMut
    · rw [isConst]
      decide
    · rw [isMut]
      decide
  rw [statement]
  refine gives_after (takes_peek token tokens nesting) ?_
  rw [if_neg notReturn, if_pos declares, map_eq_pure_bind]
  exact given.bind fun _ => gives_pure _ _

theorem gives_statement_named (isNamed : token.kind = .identifier)
    (given : Gives (namedStatement fuel) ⟨token :: tokens, nesting⟩ build left) :
    Gives (statement (fuel + 1)) ⟨token :: tokens, nesting⟩ (return some (← build)) left := by
  rw [statement]
  refine gives_after (takes_peek token tokens nesting) ?_
  rw [isNamed, if_neg (by decide), if_neg (by decide), if_neg (by decide), if_neg (by decide),
    if_neg (by decide), if_pos rfl, map_eq_pure_bind]
  exact given.bind fun _ => gives_pure _ _

theorem gives_statement_conditional {arms : Arms} (tests : token.kind = .ifKw)
    (given : Gives (conditionalArms fuel #[] #[]) ⟨tokens, nesting⟩
      (do
        let trees ← arms.build nesting
        return (trees.1.toArray, trees.2.toArray)) left) :
    Gives (statement (fuel + 1)) ⟨token :: tokens, nesting⟩
      (return some (← (Statement.conditional arms token.position).build nesting)) left := by
  rw [statement, Statement.build]
  refine gives_after (takes_peek token tokens nesting) ?_
  rw [tests, if_neg (by decide), if_neg (by decide), if_pos rfl]
  refine gives_after (takes_expect tests tokens nesting) ?_
  simp only [bind_assoc, pure_bind]
  exact given.bind_form fun trees => gives_pure _ _

theorem gives_statement_loop {condition : Expression} (repeats : token.kind = .whileKw)
    (tested : Gives (parenthesised fuel) ⟨tokens, nesting⟩ (condition.build nesting)
      ⟨between, nesting⟩) (repeated : Gives (block fuel 0) ⟨between, nesting⟩
      (.enclosed nesting 0 (statementsBuild body)) left) :
    Gives (statement (fuel + 1)) ⟨token :: tokens, nesting⟩
      (return some (← (Statement.loop condition body token.position).build nesting)) left := by
  rw [statement, Statement.build]
  refine gives_after (takes_peek token tokens nesting) ?_
  rw [repeats, if_neg (by decide), if_neg (by decide), if_neg (by decide), if_pos rfl]
  refine gives_after (takes_expect repeats tokens nesting) ?_
  simp only [bind_assoc, pure_bind]
  exact tested.bind fun _ => repeated.bind fun _ => gives_pure _ _

theorem gives_statement_sync {locks} (guards : token.kind = .syncKw)
    (listed : Gives (lockList fuel #[]) ⟨tokens, nesting⟩ (return (← locksBuild [] locks).toArray)
      ⟨between, nesting⟩) (guarded : ∀ count, Gives (block fuel count) ⟨between, nesting⟩
      (.enclosed nesting count (statementsBuild body)) left) :
    Gives (statement (fuel + 1)) ⟨token :: tokens, nesting⟩
      (return some (← (Statement.sync locks body token.position).build nesting)) left := by
  rw [statement, Statement.build]
  refine gives_after (takes_peek token tokens nesting) ?_
  rw [guards, if_neg (by decide), if_neg (by decide), if_neg (by decide), if_neg (by decide),
    if_pos rfl]
  refine gives_after (takes_expect guards tokens nesting) ?_
  simp only [bind_assoc, pure_bind]
  refine listed.bind_form fun found => ?_
  refine gives_require_then (by simp) (fun _ => rfl) ?_
  exact (guarded found.length).bind fun nodes => gives_pure _ _

theorem gives_statement_end (closes : token.kind = .rightBrace) (tokens : List Token)
    (nesting : Nat) :
    Gives (statement (fuel + 1)) ⟨token :: tokens, nesting⟩ (pure none) ⟨tokens, nesting⟩ := by
  rw [statement]
  refine gives_after (takes_peek token tokens nesting) ?_
  rw [closes, if_neg (by decide), if_neg (by decide), if_neg (by decide), if_neg (by decide),
    if_neg (by decide), if_neg (by decide), if_pos rfl]
  exact gives_after (takes_next token tokens nesting) (gives_pure _ _)

end Dispatch

end BodyParser

/-! ### Whatever is written -/

theorem DerivesStatement.nextKind_ne {body tokens}
    (derives : DerivesStatement (.sequence body) tokens) {closing : Token}
    (closes : closing.kind = .rightBrace) (rest : List Token) :
    nextKind (tokens ++ closing :: rest) ≠ .elseKw := by
  cases derives with
  | noStatements =>
    rw [List.nil_append, nextKind_cons, closes]
    decide
  | moreStatements first =>
    intro isElse
    rw [List.append_assoc] at isElse
    exact absurd (isElse ▸ first.nextKind_mem _) (by decide)

theorem DerivesStatement.nextKind_ne_of_block {body tokens}
    (derives : DerivesStatement (.block body) tokens) (rest : List Token) {kind}
    (isOther : TokenKind.leftBrace ≠ kind) : nextKind (tokens ++ rest) ≠ kind := by
  cases derives with
  | block opens =>
    rw [List.cons_append, List.cons_append, nextKind_cons, opens]
    exact isOther

namespace StatementPart.IsRead

open BodyParser

variable {tokens others : List Token} {body : List Statement}

theorem sync {keyword : Token} {locks} (blockRead : (StatementPart.block body).IsRead others)
    (braced : DerivesStatement (.block body) others) (guards : keyword.kind = .syncKw)
    (listed : DerivesLocks locks tokens) :
    (StatementPart.single (.sync locks body keyword.position)).IsRead
      (keyword :: (tokens ++ others)) := by
  intro fuel nesting rest _ enough
  simp only [List.cons_append, List.append_assoc, List.length_cons] at enough ⊢
  have lengthEq := List.length_append ▸ enough
  obtain _ | fuel := fuel
  · omega
  have notComma := braced.nextKind_ne_of_block rest (by decide : TokenKind.leftBrace ≠ .comma)
  exact gives_statement_sync guards
    (@gives_lockList fuel _ _ _ listed #[] notComma (by omega) nesting)
    fun count => blockRead (by omega)

theorem moreStatements {written} (firstRead : (StatementPart.single written).IsRead tokens)
    (followingRead : (StatementPart.sequence body).IsRead others) (positive : 0 < tokens.length)
    (following : DerivesStatement (.sequence body) others) :
    (StatementPart.sequence (written :: body)).IsRead (tokens ++ others) := by
  intro fuel nesting closing rest given closes enough
  rw [List.append_assoc] at enough ⊢
  have lengthEq := List.length_append ▸ enough
  obtain _ | fuel := fuel
  · omega
  have notElse := following.nextKind_ne closes rest
  rw [BodyParser.statements, statementsBuild]
  simp only [bind_assoc, pure_bind]
  refine (firstRead notElse (by omega)).bind_form fun node => ?_
  have followed := @followingRead fuel nesting closing rest (given.push node) closes (by omega)
  simp only [toList_push_append] at followed
  exact followed

theorem block {opening closing : Token} (insideRead : (StatementPart.sequence body).IsRead tokens)
    (opens : opening.kind = .leftBrace) (closes : closing.kind = .rightBrace) :
    (StatementPart.block body).IsRead (opening :: tokens ++ [closing]) := by
  intro fuel nesting locks rest enough
  simp only [List.cons_append, List.append_assoc, List.nil_append, List.length_cons] at enough ⊢
  obtain _ | fuel := fuel
  · omega
  have inside : Gives (do return (← BodyParser.statements fuel #[]).toList)
      ⟨tokens ++ closing :: rest, nesting + 1⟩ (statementsBuild body (nesting + 1))
      ⟨rest, nesting + 1⟩ := by
    rw [← bind_pure (statementsBuild body (nesting + 1))]
    exact (@insideRead fuel (nesting + 1) _ rest #[] closes (by omega)).bind_form
      fun nodes => gives_pure _ _
  rw [BodyParser.block]
  refine gives_after (takes_expect opens _ nesting) ?_
  exact gives_restoringNesting
    ((gives_descend _ nesting opening.position).bind fun _ => gives_inScope inside)

theorem guarded {opening closing : Token} {condition}
    (armRead : (StatementPart.block body).IsRead others) (opens : opening.kind = .leftParen)
    (test : Derives (.tier 1 condition) tokens) (closes : closing.kind = .rightParen) :
    (StatementPart.guarded condition body).IsRead (opening :: (tokens ++ closing :: others)) := by
  intro fuel nesting rest enough
  simp only [List.cons_append, List.append_assoc, List.length_cons] at enough ⊢
  have lengthEq := enough
  rw [List.length_append, List.length_cons] at lengthEq
  refine ⟨others ++ rest, ?_, armRead (by omega)⟩
  rw [parenthesised, ← bind_pure (condition.build nesting)]
  refine gives_after (takes_expect opens _ nesting) ?_
  refine (gives_expression test closes (by decide) (by omega)).bind fun value => ?_
  exact gives_after (takes_expect closes _ nesting) (gives_pure _ _)

section Arms

variable {condition : Expression} {keyword : Token}
  (armRead : (StatementPart.guarded condition body).IsRead tokens)

include armRead

theorem lastArm : (StatementPart.arms (.last condition body)).IsRead tokens := by
  intro fuel nesting rest given before notElse enough
  obtain _ | fuel := fuel
  · omega
  obtain ⟨between, tested, entered⟩ := @armRead fuel nesting rest (by omega)
  rw [conditionalArms, Arms.build]
  simp only [bind_assoc, pure_bind]
  refine tested.bind fun test => entered.bind fun nodes => ?_
  rw [← Array.toList_push, ← Array.toList_push, Array.toArray_toList, Array.toArray_toList]
  exact gives_after (takes_accept_other notElse nesting) (gives_pure _ _)

theorem otherwise {alternative} (otherRead : (StatementPart.block alternative).IsRead others)
    (other : DerivesStatement (.block alternative) others) (isElse : keyword.kind = .elseKw) :
    (StatementPart.arms (.otherwise condition body alternative)).IsRead
      (tokens ++ keyword :: others) := by
  intro fuel nesting rest given before notElse enough
  rw [List.append_assoc, List.cons_append] at enough ⊢
  have lengthEq := enough
  rw [List.length_append, List.length_cons] at lengthEq
  obtain _ | fuel := fuel
  · omega
  obtain ⟨between, tested, entered⟩ :=
    @armRead fuel nesting (keyword :: (others ++ rest)) (by omega)
  have notIf := other.nextKind_ne_of_block rest (by decide : TokenKind.leftBrace ≠ .ifKw)
  rw [conditionalArms, Arms.build]
  simp only [bind_assoc, pure_bind]
  refine tested.bind fun test => entered.bind fun nodes => ?_
  refine gives_after (takes_accept isElse _ nesting) ?_
  refine gives_after (takes_accept_other notIf nesting) ?_
  refine (otherRead (by omega)).bind fun more => ?_
  have pushed : (before.toList ++ [nodes, more]).toArray = (before.push nodes).push more :=
    Array.toList_inj.mp (by rw [Array.toList_push, Array.toList_push, List.append_assoc]; rfl)
  rw [pushed, ← Array.toList_push, Array.toArray_toList]
  exact gives_pure _ _

theorem moreArms {another : Token} {arms} (followingRead : (StatementPart.arms arms).IsRead others)
    (isElse : keyword.kind = .elseKw) (isIf : another.kind = .ifKw) :
    (StatementPart.arms (.more condition body arms)).IsRead
      (tokens ++ keyword :: another :: others) := by
  intro fuel nesting rest given before notElse enough
  rw [List.append_assoc, List.cons_append, List.cons_append] at enough ⊢
  have lengthEq := enough
  rw [List.length_append, List.length_cons, List.length_cons] at lengthEq
  obtain _ | fuel := fuel
  · omega
  obtain ⟨between, tested, entered⟩ :=
    @armRead fuel nesting (keyword :: another :: (others ++ rest)) (by omega)
  rw [conditionalArms, Arms.build]
  simp only [bind_assoc, pure_bind]
  refine tested.bind fun test => entered.bind fun nodes => ?_
  refine gives_after (takes_accept isElse _ nesting) ?_
  refine gives_after (takes_accept isIf _ nesting) ?_
  have following := @followingRead fuel nesting rest (given.push test) (before.push nodes) notElse
    (by omega)
  simp only [toList_push_append] at following
  exact following

end Arms

end StatementPart.IsRead

open BodyParser in
theorem DerivesStatement.isRead {part tokens}
    (derives : DerivesStatement part tokens) : part.IsRead tokens := by
  induction derives with
  | declaration declares isName typed assigned =>
    intro fuel nesting rest _ enough
    simp only [List.cons_append, List.append_assoc, List.length_cons] at enough ⊢
    rw [List.length_append] at enough
    obtain _ | fuel := fuel
    · omega
    exact gives_statement_declaration declares
      (gives_declaration isName typed assigned (by omega))
  | assignment isName assigned =>
    intro fuel nesting rest _ enough
    rw [List.cons_append, List.length_cons] at enough
    obtain _ | fuel := fuel
    · omega
    exact gives_statement_named (congrArg Content.kind isName)
      (gives_assignment isName assigned (by omega))
  | memberAssignment isName chained assigned =>
    intro fuel nesting rest _ enough
    simp only [List.cons_append, List.append_assoc, List.length_cons] at enough ⊢
    obtain _ | fuel := fuel
    · omega
    exact gives_statement_named (congrArg Content.kind isName)
      (gives_memberAssignment isName chained assigned (by omega))
  | returnNothing returns ends =>
    intro fuel nesting rest _ enough
    obtain _ | fuel := fuel
    · omega
    exact gives_statement_return returns
      (gives_returnNothing returns ends rest nesting)
  | returnValue returns derives ends =>
    intro fuel nesting rest _ enough
    simp only [List.cons_append, List.append_assoc, List.nil_append, List.length_cons] at enough ⊢
    obtain _ | fuel := fuel
    · omega
    exact gives_statement_return returns
      (gives_returnValue returns derives ends (by omega))
  | call called ends =>
    intro fuel nesting rest _ enough
    obtain _ | fuel := fuel
    · omega
    simp only [List.append_assoc, List.cons_append, List.nil_append] at enough ⊢
    have given := @gives_callStatement nesting fuel _ rest _ _ _ _ called ends (by omega)
    obtain ⟨token, _, _, _, isName, _, _, _, rfl, _⟩ := called.call_tokens
    exact gives_statement_named (congrArg Content.kind isName) given
  | conditional tests _ armsRead =>
    intro fuel nesting rest notElse enough
    rw [List.cons_append, List.length_cons] at enough
    obtain _ | fuel := fuel
    · omega
    exact gives_statement_conditional tests
      (@armsRead fuel nesting rest #[] #[] notElse (by omega))
  | loop repeats _ guardedRead =>
    intro fuel nesting rest _ enough
    rw [List.cons_append, List.length_cons] at enough
    obtain _ | fuel := fuel
    · omega
    obtain ⟨between, tested, repeated⟩ := @guardedRead fuel nesting rest (by omega)
    exact gives_statement_loop repeats tested repeated
  | sync guards listed braced blockRead => exact blockRead.sync braced guards listed
  | noStatements =>
    intro fuel nesting closing rest given closes enough
    obtain ⟨fuel, rfl⟩ := Nat.exists_eq_add_of_le' (by omega : 2 ≤ fuel)
    rw [statements, statementsBuild, pure_bind, List.append_nil, Array.toArray_toList]
    exact (gives_statement_end closes rest nesting).after (gives_pure _ _)
  | moreStatements first following firstRead followingRead =>
    exact firstRead.moreStatements followingRead first.length_pos following
  | block opens _ closes insideRead => exact insideRead.block opens closes
  | guarded opens test closes _ armRead => exact armRead.guarded opens test closes
  | lastArm _ armRead => exact armRead.lastArm
  | otherwise _ isElse other armRead otherRead => exact armRead.otherwise otherRead other isElse
  | moreArms _ isElse isIf _ armRead followingRead =>
    exact armRead.moreArms followingRead isElse isIf

end SlotCompiler
