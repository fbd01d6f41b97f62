import SlotCompiler.Proofs.Parse.Outcome

/-!
Contract: every expression of the grammar is parsed as it is built.

The induction is on derivations.  An expression that is the left operand of an
operator never comes to an end in the parser, so a derivation is followed only up
to the operators after the expression, where it has become the left operand.
-/

namespace SlotCompiler

open SlotCompiler.Parser

variable {kind : TokenKind} {token opening closing : Token} {names : List (String × Position)}
  {operator : Operator}

/-- The expression does not go on with a token of this kind. -/
structure Expression.Ends (written : Expression) (next : TokenKind) : Prop where
  name : written.endsInName = true → next ≠ .dot ∧ next ≠ .leftParen
  member : written.endsInMember = true → next ≠ .dot

/-- No expression goes on with a token of this kind. -/
structure TokenKind.IsStop (kind : TokenKind) : Prop where
  noOperator : kind.operator? = none
  notDot : kind ≠ .dot
  notOpening : kind ≠ .leftParen

instance (kind : TokenKind) : Decidable kind.IsStop :=
  decidable_of_iff (kind.operator? = none ∧ kind ≠ .dot ∧ kind ≠ .leftParen)
    ⟨fun ⟨noOperator, notDot, notOpening⟩ => ⟨noOperator, notDot, notOpening⟩,
      fun isStop => ⟨isStop.noOperator, isStop.notDot, isStop.notOpening⟩⟩

theorem TokenKind.IsStop.ends (isStop : kind.IsStop) (written : Expression) : written.Ends kind :=
  ⟨fun _ => ⟨isStop.notDot, isStop.notOpening⟩, fun _ => isStop.notDot⟩

theorem TokenKind.IsStop.stops (isStop : kind.IsStop) (level : Nat) :
    ∀ operator, kind.operator? = some operator → operator.precedence < level := by
  intro operator isOperator
  rw [isStop.noOperator] at isOperator
  contradiction

def ExpressionPart.leastTokens : ExpressionPart → Nat
  | .tier _ written => written.spine + 1
  | _ => 0

theorem Derives.leastTokens_le {part tokens}
    (derives : Derives part tokens) : part.leastTokens ≤ tokens.length := by
  induction derives with
  | operation _ _ _ left right =>
    simp only [ExpressionPart.leastTokens, Expression.spine, List.length_append,
      List.length_cons] at left right ⊢
    omega
  | tighter _ _ _ inner => exact inner
  | literal | string | named | callWithout => simp [ExpressionPart.leastTokens, Expression.spine]
  | access | call | group => simp [ExpressionPart.leastTokens, Expression.spine]
  | noMembers | moreMembers | lastArgument | moreArguments => exact Nat.zero_le _

def ExpressionPart.StartsIn (kinds : List TokenKind) (tokens : List Token) :
    ExpressionPart → Prop
  | .tier _ _ | .arguments _ => ∀ rest, nextKind (tokens ++ rest) ∈ kinds
  | .members _ => True

theorem Content.kind_mem_of_literal? {content : Content} {value}
    (isLiteral : content.literal? = some value) : content.kind ∈ BodyParser.operandOpeners := by
  cases content with
  | plain kind =>
    simp only [literal?] at isLiteral
    by_cases isTrue : kind = .trueKw
    · rw [isTrue]
      decide
    rw [if_neg isTrue] at isLiteral
    by_cases isFalse : kind = .falseKw
    · rw [isFalse]
      decide
    · rw [if_neg isFalse] at isLiteral
      contradiction
  | int | float => simp [kind, BodyParser.operandOpeners]
  | char | string | identifier | invalid => contradiction

private theorem isOpener (isKind : token.kind = kind) (opens : kind ∈ BodyParser.operandOpeners)
    (rest : List Token) : nextKind (token :: rest) ∈ BodyParser.operandOpeners := by
  rw [nextKind_cons, isKind]
  exact opens

theorem Derives.startsIn {part tokens}
    (derives : Derives part tokens) : part.StartsIn BodyParser.operandOpeners tokens := by
  induction derives with
  | operation _ _ _ left =>
    intro rest
    rw [List.append_assoc]
    exact left _
  | tighter _ _ _ inner => exact inner
  | literal isLiteral => exact fun _ => Content.kind_mem_of_literal? isLiteral
  | string isString =>
    have isKind : Token.kind _ = TokenKind.stringLiteral := congrArg Content.kind isString
    exact fun _ => isOpener isKind (by decide) _
  | named isName | access isName | callWithout isName | call isName =>
    have isKind : Token.kind _ = TokenKind.identifier := congrArg Content.kind isName
    exact fun _ => isOpener isKind (by decide) _
  | group opens => exact fun _ => isOpener opens (by decide) _
  | noMembers | moreMembers => trivial
  | lastArgument _ inner => exact inner
  | moreArguments _ _ _ inner =>
    intro rest
    rw [List.append_assoc]
    exact inner _

theorem Derives.nextKind_eq {tokens} (derives : Derives (.members names) tokens)
    (atLeastOne : names ≠ []) (rest : List Token) : nextKind (tokens ++ rest) = .dot := by
  cases derives with
  | noMembers => exact absurd rfl atLeastOne
  | moreMembers isPoint => exact isPoint

theorem Derives.length_le {tokens} (derives : Derives (.members names) tokens) :
    names.length ≤ tokens.length := by
  induction names generalizing tokens with
  | nil => exact Nat.zero_le _
  | cons name names ih =>
    have .moreMembers _ _ members := derives
    have others := ih members
    simp only [List.length_cons]
    omega

namespace BodyParser

variable {tokens : List Token} {left : Ahead} {name : String}

section Parts

variable {nesting fuel : Nat} {rest : List Token}

variable {left : Ahead} {name : String}

theorem gives_memberNames (derives : Derives (.members names) tokens)
    (given : Array (String × Position)) (enough : names.length < fuel) (ends : nextKind rest ≠ .dot)
    (nesting : Nat) :
    Gives (memberNames fuel given) ⟨tokens ++ rest, nesting⟩
      (pure (given.toList ++ names).toArray) ⟨rest, nesting⟩ := by
  induction names generalizing tokens given fuel with
  | nil =>
    cases derives
    cases fuel with
    | zero => contradiction
    | succ fuel =>
      rw [memberNames]
      refine gives_after (takes_accept_other ends nesting) ?_
      rw [List.append_nil, Array.toArray_toList]
      exact gives_pure _ _
  | cons name names ih =>
    cases derives with
    | @moreMembers _ token member _ _ isPoint isName members =>
      cases fuel with
      | zero => contradiction
      | succ fuel =>
        rw [memberNames]
        refine gives_after (takes_accept isPoint _ nesting) ?_
        refine gives_after (takes_identifier isName _ nesting) ?_
        have others := ih members (given.push (member, token.position))
          (Nat.lt_of_succ_lt_succ enough)
        rw [toList_push_append] at others
        exact others

theorem gives_projectSteps (names : List (String × Position)) (ahead : Ahead) :
    Gives (projectSteps names) ahead (membersBuild names) ahead := by
  induction names with
  | nil => exact gives_pure _ _
  | cons name names ih =>
    exact (gives_temporary name.2 ahead).bind fun _ =>
      ih.bind fun _ => gives_pure _ _

theorem gives_project_then {α : Type} {next : MemberChain → BodyParser α}
    {following : List MemberStep → Building α} {source position ahead}
    (rest : ∀ steps, Gives (next ⟨source, steps, position⟩) ahead (following steps) left) :
    Gives (project source names position >>= next) ahead (membersBuild names >>= following)
      left := by
  rw [project, bind_assoc]
  exact (gives_projectSteps names ahead).bind rest

/-! ### Primary expressions -/

theorem gives_literal {value} (isLiteral : token.content.literal? = some value) (rest : List Token)
    (nesting : Nat) :
    Gives (primaryExpression (fuel + 1)) ⟨token :: rest, nesting⟩ (pure (.literal value))
      ⟨rest, nesting⟩ := by
  rw [primaryExpression]
  refine gives_after (takes_peek token rest nesting) ?_
  have consumed (given : Operand) : Gives (do
      let _ ← (liftM next : BodyParser Token)
      pure given : BodyParser Operand) ⟨token :: rest, nesting⟩ (pure given) ⟨rest, nesting⟩ :=
    gives_after (takes_next token rest nesting) (gives_pure _ _)
  cases content : token.content with
  | int number =>
    rw [content] at isLiteral
    cases isLiteral
    exact consumed _
  | float number =>
    rw [content] at isLiteral
    cases isLiteral
    exact consumed _
  | plain kind =>
    simp only [content, Content.literal?] at isLiteral ⊢
    by_cases isTrue : kind = .trueKw
    · rw [if_pos isTrue] at isLiteral ⊢
      cases isLiteral
      exact consumed _
    rw [if_neg isTrue] at isLiteral ⊢
    by_cases isFalse : kind = .falseKw
    · rw [if_pos isFalse] at isLiteral ⊢
      cases isLiteral
      exact consumed _
    · rw [if_neg isFalse] at isLiteral
      contradiction
  | char | string | identifier | invalid =>
    rw [content] at isLiteral
    contradiction

theorem gives_string {raw} (isString : token.content = .string raw) (rest : List Token)
    (nesting : Nat) :
    Gives (primaryExpression (fuel + 1)) ⟨token :: rest, nesting⟩
      (pure (.string (String.ofList (decodeEscapes raw.toList)))) ⟨rest, nesting⟩ := by
  rw [primaryExpression]
  refine gives_after (takes_peek token rest nesting) ?_
  rw [isString]
  exact gives_after (takes_next token rest nesting) (gives_pure _ _)

theorem gives_afterName {build} (isName : token.content = .identifier name)
    (following : Gives (if nextKind rest = .dot then do
          let source ← lookup name token.position
          let names ← memberNames fuel #[]
          return .node (.access (← project source names.toList token.position))
        else if nextKind rest = .leftParen then
          return .call (← callExpression fuel name token.position)
        else
          return .variable (← lookup name token.position)) ⟨rest, nesting⟩ build left) :
    Gives (primaryExpression (fuel + 1)) ⟨token :: rest, nesting⟩ build left := by
  rw [primaryExpression]
  refine gives_after (takes_peek token rest nesting) ?_
  rw [isName]
  refine gives_after (takes_identifier isName rest nesting) ?_
  exact gives_after (takes_peekKind rest nesting) following

theorem gives_named (isName : token.content = .identifier name)
    (ends : nextKind rest ≠ .dot ∧ nextKind rest ≠ .leftParen) :
    Gives (primaryExpression (fuel + 1)) ⟨token :: rest, nesting⟩
      ((Expression.named name).build nesting) ⟨rest, nesting⟩ := by
  refine gives_afterName isName ?_
  rw [if_neg ends.1, if_neg ends.2]
  exact (gives_lookup name _ _).bind fun _ => gives_pure _ _

theorem gives_access (isName : token.content = .identifier name)
    (derives : Derives (.members names) tokens) (atLeastOne : names ≠ [])
    (ends : nextKind rest ≠ .dot) (enough : names.length < fuel) :
    Gives (primaryExpression (fuel + 1)) ⟨token :: (tokens ++ rest), nesting⟩
      ((Expression.access name names token.position).build nesting) ⟨rest, nesting⟩ := by
  refine gives_afterName isName ?_
  rw [if_pos (derives.nextKind_eq atLeastOne rest)]
  refine (gives_lookup name _ _).bind fun source => ?_
  refine (gives_memberNames derives #[] enough ends nesting).after ?_
  exact gives_project_then fun steps => gives_pure _ _

theorem content_of_leftParen (opens : opening.kind = .leftParen) :
    opening.content = .plain .leftParen := by
  cases content : opening.content with
  | plain kind =>
    rw [Token.kind, content] at opens
    exact congrArg Content.plain opens
  | _ =>
    rw [Token.kind, content] at opens
    contradiction

theorem gives_group {written : Expression} (opens : opening.kind = .leftParen)
    (closes : closing.kind = .rightParen)
    (inner : Gives (binaryExpression fuel 1) ⟨tokens, nesting + 1⟩ (written.build (nesting + 1))
      ⟨closing :: rest, nesting + 1⟩) :
    Gives (primaryExpression (fuel + 1)) ⟨opening :: tokens, nesting⟩
      ((Expression.group written).build nesting) ⟨rest, nesting⟩ := by
  have inside := gives_restoringNesting
    ((gives_descend tokens nesting opening.position).bind fun _ => inner)
  rw [primaryExpression]
  refine gives_after (takes_peek opening tokens nesting) ?_
  rw [content_of_leftParen opens]
  refine gives_after (takes_next opening tokens nesting) ?_
  rw [Expression.build, ← bind_pure (Building.descend nesting >>= _)]
  refine inside.bind fun value => ?_
  exact gives_after (takes_expect closes rest nesting) (gives_pure _ _)

theorem gives_calling {values} (isName : token.content = .identifier name)
    (opens : opening.kind = .leftParen)
    (called : Gives (callExpression fuel name token.position) ⟨opening :: tokens, nesting⟩
      (callBuild name values token.position nesting) ⟨rest, nesting⟩) :
    Gives (primaryExpression (fuel + 1)) ⟨token :: opening :: tokens, nesting⟩
      ((Expression.call name values token.position).build nesting) ⟨rest, nesting⟩ := by
  refine gives_afterName isName ?_
  rw [nextKind_cons, opens, if_neg (by decide), if_pos rfl, Expression.build_call]
  exact called.bind fun _ => gives_pure _ _

theorem gives_call_without (opens : opening.kind = .leftParen) (closes : closing.kind = .rightParen)
    (name : String) (position : Position) (rest : List Token) (nesting : Nat) :
    Gives (callExpression (fuel + 1) name position) ⟨opening :: closing :: rest, nesting⟩
      (callBuild name [] position nesting) ⟨rest, nesting⟩ := by
  rw [callExpression, callBuild, argumentsBuild, pure_bind]
  refine gives_after (takes_expect opens _ nesting) ?_
  refine gives_after (takes_accept closes rest nesting) ?_
  refine (gives_pure #[] _).after ?_
  exact (gives_recordCall name position _).bind fun _ => gives_pure _ _

/-! ### Operators -/

theorem gives_operatorChain_stop {level} (positive : 0 < fuel)
    (stops : ∀ operator, (nextKind rest).operator? = some operator → operator.precedence < level)
    (value : Operand) (nesting : Nat) :
    Gives (operatorChain fuel level value) ⟨rest, nesting⟩ (pure value) ⟨rest, nesting⟩ := by
  cases fuel with
  | zero => contradiction
  | succ fuel =>
    rw [operatorChain]
    refine gives_after (takes_peekKind rest nesting) ?_
    cases isOperator : (nextKind rest).operator? with
    | none => exact gives_pure _ _
    | some operator =>
      simp only
      rw [if_pos (stops operator isOperator)]
      exact gives_pure _ _

theorem gives_operator {minimum right lhs} {rhs : Expression}
    {following : Operand → Building Operand} (binds : token.kind.operator? = some operator)
    (tightEnough : minimum ≤ operator.precedence)
    (operandGiven : Gives (binaryExpression fuel (operator.precedence + 1))
      ⟨right ++ rest, nesting + 1⟩ (rhs.build (nesting + 1)) ⟨rest, nesting + 1⟩)
    (next : ∀ value, Gives (operatorChain fuel minimum value) ⟨rest, nesting + 1⟩
      (following value) left) :
    Gives (operatorChain (fuel + 1) minimum lhs) ⟨token :: (right ++ rest), nesting⟩ (do
      .descend nesting
      let right ← rhs.build (nesting + 1)
      let destination ← .temporary
      following (.node (.binary operator lhs right destination token.position))) left := by
  rw [operatorChain]
  refine gives_after (takes_peekKind _ nesting) ?_
  rw [nextKind_cons, binds]
  simp only
  rw [if_neg (Nat.not_lt.mpr tightEnough)]
  refine gives_after (takes_next token _ nesting) ?_
  refine (gives_descend _ nesting token.position).bind fun _ => ?_
  exact operandGiven.bind fun _ => (gives_temporary token.position _).bind fun _ => next _

end Parts

end BodyParser

def ExpressionPart.IsRead (tokens : List Token) : ExpressionPart → Prop
  | .tier level written => ∀ {minimum fuel nesting : Nat} {rest : List Token} {left : Ahead}
      {following : Operand → Building Operand}, minimum ≤ level →
      (∀ operator, (nextKind rest).operator? = some operator → operator.precedence ≤ level) →
      written.Ends (nextKind rest) → 4 * (tokens ++ rest).length + 1 ≤ fuel →
      (∀ value, BodyParser.Gives
        (BodyParser.operatorChain (fuel - written.spine) minimum value)
        ⟨rest, nesting + written.spine⟩ (following value) left) →
      BodyParser.Gives (BodyParser.primaryExpression fuel >>= BodyParser.operatorChain fuel minimum)
        ⟨tokens ++ rest, nesting⟩ (written.build nesting >>= following) left
  | .members _ => True
  | .arguments values => ∀ {fuel nesting : Nat} {closing : Token} {rest : List Token}
      {given : Array Operand}, closing.kind = .rightParen →
      4 * (tokens ++ closing :: rest).length + 3 ≤ fuel →
      BodyParser.Gives (BodyParser.argumentList fuel given) ⟨tokens ++ closing :: rest, nesting⟩
        (return (given.toList ++ (← argumentsBuild values nesting)).toArray) ⟨rest, nesting⟩

namespace BodyParser

section Read

variable {nesting fuel level : Nat} {tokens rest : List Token} {written : Expression}

theorem gives_binary_of_isRead (isRead : (ExpressionPart.tier level written).IsRead tokens)
    (derives : Derives (.tier level written) tokens)
    (stops : ∀ operator, (nextKind rest).operator? = some operator → operator.precedence < level)
    (ends : written.Ends (nextKind rest)) (enough : 4 * (tokens ++ rest).length + 2 ≤ fuel) :
    Gives (binaryExpression fuel level) ⟨tokens ++ rest, nesting⟩ (written.build nesting)
      ⟨rest, nesting⟩ := by
  cases fuel with
  | zero => omega
  | succ fuel =>
    have least := derives.leastTokens_le
    rw [ExpressionPart.leastTokens] at least
    rw [List.length_append] at enough
    rw [binaryExpression, ← bind_pure (written.build nesting)]
    apply gives_restoringNesting
    refine isRead (le_refl level) (fun operator isNext => (stops operator isNext).le) ends
      (by rw [List.length_append]; omega) fun value => ?_
    exact gives_operatorChain_stop (by omega) stops value _

theorem gives_expression_of_isRead (isRead : (ExpressionPart.tier 1 written).IsRead tokens)
    (derives : Derives (.tier 1 written) tokens) {last : Token} (isKind : last.kind = kind)
    (isStop : kind.IsStop) (enough : 4 * (tokens ++ last :: rest).length + 2 ≤ fuel) :
    Gives (binaryExpression fuel 1) ⟨tokens ++ last :: rest, nesting⟩ (written.build nesting)
      ⟨last :: rest, nesting⟩ := by
  rw [← isKind] at isStop
  exact gives_binary_of_isRead isRead derives (isStop.stops 1) (isStop.ends written) enough

theorem gives_call_of_isRead {values} (opens : opening.kind = .leftParen)
    (arguments : Derives (.arguments values) tokens)
    (isRead : (ExpressionPart.arguments values).IsRead tokens) (closes : closing.kind = .rightParen)
    (name : String) (position : Position) (rest : List Token)
    (enough : 4 * (tokens ++ closing :: rest).length + 4 ≤ fuel) :
    Gives (callExpression fuel name position) ⟨opening :: (tokens ++ closing :: rest), nesting⟩
      (callBuild name values position nesting) ⟨rest, nesting⟩ := by
  obtain _ | fuel := fuel
  · omega
  have notClosed : nextKind (tokens ++ closing :: rest) ≠ .rightParen :=
    fun isClosed => absurd (isClosed ▸ arguments.startsIn _) (by decide)
  have listed := (@isRead fuel nesting closing rest #[] closes (by omega)).bind fun arguments =>
    (gives_recordCall name position _).bind fun _ =>
      gives_pure (⟨name, arguments.toList, position⟩ : Call) _
  simp only [bind_assoc, pure_bind, List.nil_append] at listed
  rw [callExpression, callBuild]
  refine gives_after (takes_expect opens _ nesting) ?_
  exact gives_after (takes_accept_other notClosed nesting) listed

end Read

end BodyParser

theorem Expression.ends_of_operator (written : Expression)
    (isOperator : kind.operator? = some operator) : written.Ends kind := by
  have notDot : kind ≠ .dot := by
    rintro rfl
    contradiction
  have notOpening : kind ≠ .leftParen := by
    rintro rfl
    contradiction
  exact ⟨fun _ => ⟨notDot, notOpening⟩, fun _ => notDot⟩

private theorem Derives.operation_isRead {lhs rhs left right}
    (binds : token.kind.operator? = some operator)
    (lhsDerives : Derives (.tier operator.precedence lhs) left)
    (rhsDerives : Derives (.tier (operator.precedence + 1) rhs) right)
    (lhsRead : (ExpressionPart.tier operator.precedence lhs).IsRead left)
    (rhsRead : (ExpressionPart.tier (operator.precedence + 1) rhs).IsRead right) :
    (ExpressionPart.tier operator.precedence (.binary operator lhs rhs token.position)).IsRead
      (left ++ token :: right) := by
  intro minimum fuel nesting rest last following le stops ends enough next
  have least := lhsDerives.leastTokens_le
  rw [ExpressionPart.leastTokens] at least
  simp only [List.length_append, List.length_cons] at enough
  have stopsLeft : ∀ other, (nextKind (token :: (right ++ rest))).operator? = some other →
      other.precedence ≤ operator.precedence := by
    intro other isNext
    rw [nextKind_cons, binds] at isNext
    cases isNext
    exact le_refl _
  have enoughLeft : 4 * (left ++ token :: (right ++ rest)).length + 1 ≤ fuel := by
    simp only [List.length_append, List.length_cons]
    omega
  obtain ⟨remaining, fuelEq⟩ : ∃ remaining, fuel - lhs.spine = remaining + 1 :=
    ⟨fuel - lhs.spine - 1, by omega⟩
  have spentEq : fuel - (lhs.spine + 1) = remaining := by omega
  rw [Expression.spine, spentEq] at next
  have rhsGiven := @BodyParser.gives_binary_of_isRead (nesting + lhs.spine + 1) remaining _ _ rest _
    rhsRead rhsDerives (fun other isNext => Nat.lt_succ_of_le (stops other isNext))
    ⟨ends.name, ends.member⟩ (by rw [List.length_append]; omega)
  rw [List.append_assoc, List.cons_append, Expression.build, bind_assoc]
  simp only [bind_assoc, pure_bind]
  refine lhsRead le stopsLeft (lhs.ends_of_operator binds) enoughLeft fun lhsTree => ?_
  rw [fuelEq]
  exact BodyParser.gives_operator binds le rhsGiven next

open BodyParser in
theorem Derives.isRead {part tokens} (derives : Derives part tokens) : part.IsRead tokens := by
  induction derives with
  | operation binds lhsDerives rhsDerives lhsRead rhsRead =>
    exact Derives.operation_isRead binds lhsDerives rhsDerives lhsRead rhsRead
  | tighter _ _ _ inner =>
    intro minimum fuel nesting rest left following le stops
    exact inner (Nat.le_succ_of_le le)
      fun operator isNext => Nat.le_succ_of_le (stops operator isNext)
  | literal isLiteral =>
    intro minimum fuel nesting rest left following _ _ _ enough next
    obtain _ | fuel := fuel
    · omega
    exact (gives_literal isLiteral rest nesting).bind next
  | string isString =>
    intro minimum fuel nesting rest left following _ _ _ enough next
    obtain _ | fuel := fuel
    · omega
    exact (gives_string isString rest nesting).bind next
  | named isName =>
    intro minimum fuel nesting rest left following _ _ ends enough next
    obtain _ | fuel := fuel
    · omega
    exact (gives_named isName (ends.name rfl)).bind next
  | access isName atLeastOne members _ =>
    intro minimum fuel nesting rest left following _ _ ends enough next
    obtain _ | fuel := fuel
    · omega
    have few := members.length_le
    simp only [List.length_append, List.length_cons] at enough
    exact (gives_access isName members atLeastOne (ends.member rfl) (by omega)).bind next
  | callWithout isName opens closes =>
    intro minimum fuel nesting rest left following _ _ _ enough next
    simp only [List.cons_append, List.length_cons] at enough
    obtain ⟨fuel, rfl⟩ := Nat.exists_eq_add_of_le' (by omega : 2 ≤ fuel)
    exact (gives_calling isName opens (gives_call_without opens closes _ _ rest nesting)).bind next
  | call isName opens arguments closes argumentsRead =>
    intro minimum fuel nesting rest left following _ _ _ enough next
    simp only [List.cons_append, List.length_cons, List.append_assoc, List.nil_append] at enough ⊢
    obtain _ | fuel := fuel
    · omega
    exact (gives_calling isName opens
      (gives_call_of_isRead opens arguments argumentsRead closes _ _ rest (by omega))).bind next
  | group opens derives closes innerRead =>
    intro minimum fuel nesting rest left following _ _ _ enough next
    simp only [List.cons_append, List.length_cons, List.append_assoc, List.nil_append] at enough ⊢
    obtain _ | fuel := fuel
    · omega
    exact (gives_group opens closes
      (gives_expression_of_isRead innerRead derives closes (by decide) (by omega))).bind next
  | noMembers | moreMembers => trivial
  | lastArgument derives innerRead =>
    intro fuel nesting closing rest given closes enough
    obtain _ | fuel := fuel
    · omega
    have notComma : nextKind (closing :: rest) ≠ .comma := by
      rw [nextKind_cons, closes]
      decide
    rw [argumentList]
    simp only [argumentsBuild, bind_assoc, pure_bind]
    refine (gives_expression_of_isRead innerRead derives closes (by decide)
      (by omega)).bind fun value => ?_
    refine gives_after (takes_accept_other notComma nesting) ?_
    refine gives_after (takes_expect closes rest nesting) ?_
    rw [← Array.toList_push, Array.toArray_toList]
    exact gives_pure _ _
  | moreArguments derives isComma _ innerRead restRead =>
    intro fuel nesting closing rest given closes enough
    simp only [List.append_assoc, List.cons_append] at enough ⊢
    have lengthEq := enough
    simp only [List.length_append, List.length_cons] at lengthEq
    obtain _ | fuel := fuel
    · omega
    rw [argumentList, argumentsBuild]
    simp only [bind_assoc, pure_bind]
    refine (gives_expression_of_isRead innerRead derives isComma (by decide)
      (by omega)).bind fun value => ?_
    refine gives_after (takes_accept isComma _ nesting) ?_
    have others := @restRead fuel nesting closing rest (given.push value) closes
      (by simp only [List.length_append, List.length_cons]; omega)
    simp only [toList_push_append] at others
    exact others

end SlotCompiler
