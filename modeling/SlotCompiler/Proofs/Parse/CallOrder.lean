import SlotCompiler.Proofs.Grammar.CallFree
import SlotCompiler.Proofs.Grammar.Steps
import SlotCompiler.Proofs.Parse.Item
import SlotCompiler.Proofs.Token.Tiling

/-!
Contract: the callees of a function are the functions that its body calls.
-/

namespace SlotCompiler

open Building

/-! ## Calls in tokens -/

def Token.name? (token : Token) : Option String :=
  match token.content with
  | .identifier name => some name
  | _ => none

def closedCalls : Option String → List (Option String) → List Token → List (String × Position)
  | _, _, [] => []
  | before?, opened, token :: rest =>
    if token.kind = .leftParen then
      closedCalls none (before? :: opened) rest
    else if token.kind = .rightParen then
      (opened.head?.join.map (·, token.position)).toList ++ closedCalls none opened.tail rest
    else
      closedCalls token.name? opened rest

theorem closedCalls_sublist (before? : Option String) (opened : List (Option String))
    (tokens : List Token) :
    ((closedCalls before? opened tokens).map Prod.snd).Sublist (tokens.map Token.position) := by
  induction tokens generalizing before? opened with
  | nil => exact .slnil
  | cons token rest ih =>
    unfold closedCalls
    split
    · exact (ih _ _).cons _
    split
    · rcases opened.head?.join with _ | name
      · exact (ih _ _).cons _
      · exact (ih _ _).cons_cons _
    · exact (ih _ _).cons _

def TokenKind.IsPlain (kind : TokenKind) : Prop := kind ≠ .leftParen ∧ kind ≠ .rightParen

/-- Neither a parenthesis nor a name. -/
def TokenKind.IsMark (kind : TokenKind) : Prop := kind.IsPlain ∧ kind ≠ .identifier

instance : DecidablePred TokenKind.IsPlain := fun _ => inferInstanceAs (Decidable (_ ∧ _))

instance : DecidablePred TokenKind.IsMark := fun _ => inferInstanceAs (Decidable (_ ∧ _))

attribute [local grind] TokenKind.IsPlain TokenKind.IsMark

theorem Token.name?_eq_none {token : Token} (notName : token.kind ≠ .identifier) :
    token.name? = none := by
  unfold name?
  split
  · rename_i name isName
    exact absurd (Token.kind_of_name isName) notName
  · rfl

theorem Token.isPlain_of_name {token : Token} {name}
    (isName : token.content = .identifier name) : token.kind.IsPlain :=
  Token.kind_of_name isName ▸ by decide

theorem closedCalls_plain {token : Token} (isPlain : token.kind.IsPlain) (before? : Option String)
    (opened : List (Option String)) (rest : List Token) :
    closedCalls before? opened (token :: rest) = closedCalls token.name? opened rest := by
  rw [closedCalls, if_neg isPlain.1, if_neg isPlain.2]

def Closes (tokens : List Token) (called : List String) (last? : Option String) : Prop :=
  ∃ closed, closed.map Prod.fst = called ∧ ∀ opened rest,
    closedCalls none opened (tokens ++ rest) = closed ++ closedCalls last? opened rest

namespace Closes

variable {tokens others : List Token} {called more : List String} {last? end? : Option String}
  {token opening closing : Token} {kind : TokenKind}

theorem nil : Closes [] [] none := ⟨[], rfl, fun _ _ => rfl⟩

theorem append (first : Closes tokens called none) (second : Closes others more end?) :
    Closes (tokens ++ others) (called ++ more) end? := by
  obtain ⟨closed, rfl, firstCloses⟩ := first
  obtain ⟨later, rfl, secondCloses⟩ := second
  refine ⟨closed ++ later, List.map_append, ?_⟩
  intro opened rest
  rw [List.append_assoc, firstCloses, secondCloses, List.append_assoc]

theorem append_plain (first : Closes tokens called last?) (isPlain : token.kind.IsPlain)
    (second : Closes (token :: others) more end?) :
    Closes (tokens ++ token :: others) (called ++ more) end? := by
  obtain ⟨closed, rfl, firstCloses⟩ := first
  obtain ⟨later, rfl, secondCloses⟩ := second
  refine ⟨closed ++ later, List.map_append, ?_⟩
  intro opened rest
  have fromNone := secondCloses opened rest
  rw [List.cons_append, closedCalls_plain isPlain] at fromNone
  rw [List.append_assoc, firstCloses, List.cons_append, closedCalls_plain isPlain, fromNone,
    List.append_assoc]

theorem plain (isPlain : token.kind.IsPlain) : Closes [token] [] token.name? :=
  ⟨[], rfl, fun opened rest => closedCalls_plain isPlain none opened rest⟩

theorem single (isKind : token.kind = kind) (isMark : kind.IsMark := by decide) :
    Closes [token] [] none := by
  subst isKind
  exact Token.name?_eq_none isMark.2 ▸ plain isMark.1

theorem mark (first : Closes tokens called last?) (isKind : token.kind = kind)
    (isMark : kind.IsMark := by decide) : Closes (tokens ++ [token]) called none := by
  have closes := first.append_plain (isKind ▸ isMark.1) (single isKind isMark)
  rwa [List.append_nil] at closes

theorem join (first : Closes tokens called last?) (isKind : token.kind = kind)
    (second : Closes others more end?) (isMark : kind.IsMark := by decide) :
    Closes (tokens ++ token :: others) (called ++ more) end? := by
  rw [List.append_cons]
  exact (first.mark isKind isMark).append second

theorem of_plain (allPlain : ∀ token ∈ tokens, token.kind.IsPlain) :
    ∃ last?, Closes tokens [] last? := by
  induction tokens using List.reverseRecOn with
  | nil => exact ⟨none, nil⟩
  | append_singleton tokens token ih =>
    obtain ⟨tokensPlain, tokenPlain⟩ := List.forall_mem_append.mp allPlain
    obtain ⟨_, closes⟩ := ih tokensPlain
    have isPlain := tokenPlain token List.mem_cons_self
    exact ⟨_, closes.append_plain isPlain (plain isPlain)⟩

theorem group (opens : opening.kind = .leftParen) (inner : Closes tokens called last?)
    (closes : closing.kind = .rightParen) :
    Closes (opening :: tokens ++ [closing]) called none := by
  obtain ⟨closed, rfl, innerCloses⟩ := inner
  refine ⟨closed, rfl, ?_⟩
  intro opened rest
  rw [List.cons_append, List.cons_append, List.append_assoc, closedCalls, if_pos opens, innerCloses,
    List.singleton_append, closedCalls, if_neg (closes ▸ by decide), if_pos closes]
  rfl

theorem call {name} (isName : token.content = .identifier name) (opens : opening.kind = .leftParen)
    (inner : Closes tokens called last?) (closes : closing.kind = .rightParen) :
    Closes (token :: opening :: tokens ++ [closing]) (called ++ [name]) none := by
  obtain ⟨closed, rfl, innerCloses⟩ := inner
  have nameEq : token.name? = some name := by rw [Token.name?, isName]
  refine ⟨closed ++ [(name, closing.position)], List.map_append, ?_⟩
  intro opened rest
  have tokensEq : token :: opening :: tokens ++ [closing] ++ rest =
      token :: opening :: (tokens ++ closing :: rest) := by simp
  rw [tokensEq, closedCalls_plain (Token.isPlain_of_name isName), nameEq, closedCalls,
    if_pos opens, innerCloses, closedCalls, if_neg (closes ▸ by decide), if_pos closes,
    List.append_assoc]
  rfl

end Closes

/-! ## Calls in steps -/

def calledIn {ρ σ : Type} (events : List (BodyEvent ρ σ)) : List String :=
  events.filterMap fun
    | .calls name => some name
    | _ => none

def stepsCalled (steps : List WrittenStep) : List String :=
  calledIn (steps.filterMap WrittenStep.event?)

@[simp] theorem stepsCalled_nil : stepsCalled [] = [] := rfl

@[simp] theorem stepsCalled_append (first second : List WrittenStep) :
    stepsCalled (first ++ second) = stepsCalled first ++ stepsCalled second := by
  simp [stepsCalled, calledIn]

@[simp] theorem stepsCalled_rule (checked : Rule) (rest : List WrittenStep) :
    stepsCalled (.rule checked :: rest) = stepsCalled rest := rfl

@[simp] theorem stepsCalled_calls (name : String) (rest : List WrittenStep) :
    stepsCalled (.event (.calls name) :: rest) = name :: stepsCalled rest := rfl

theorem stepsCalled_event {written} (other : ∀ name, written ≠ .calls name)
    (rest : List WrittenStep) : stepsCalled (.event written :: rest) = stepsCalled rest := by
  cases written with
  | calls name => exact absurd rfl (other name)
  | opens | closes | declares | computes | uses => rfl

@[simp] theorem stepsCalled_membersSteps (members : List (String × Position)) :
    stepsCalled (membersSteps members) = [] := by
  induction members with
  | nil => rfl
  | cons _ rest ih => exact ih

@[simp] theorem stepsCalled_lockSteps (locked : List String) (locks : List WrittenLock) :
    stepsCalled (lockSteps locked locks) = [] := by
  induction locks generalizing locked with
  | nil => rfl
  | cons lock rest ih => exact ih _

@[simp] theorem stepsCalled_blockSteps (locks nesting : Nat) (inside : List WrittenStep) :
    stepsCalled (blockSteps locks nesting inside) = stepsCalled inside := by
  have closing : stepsCalled [.event .closes] = [] := rfl
  show stepsCalled (inside ++ [.event .closes]) = stepsCalled inside
  rw [stepsCalled_append, closing, List.append_nil]

/-! ## Tokens of expressions -/

theorem Derives.members_plain {names tokens}
    (derives : Derives (.members names) tokens) : ∀ token ∈ tokens, token.kind.IsPlain := by
  generalize partEq : ExpressionPart.members names = part at derives
  induction derives generalizing names with
  | noMembers => grind
  | moreMembers _ isName _ ih => grind [Token.kind_of_name isName, ih rfl]
  | _ => contradiction

theorem TokenKind.isMark_of_operator? {kind : TokenKind} {operator : Operator}
    (binds : kind.operator? = some operator) : kind.IsMark := by
  refine ⟨⟨?_, ?_⟩, ?_⟩
  all_goals
    rintro rfl
    contradiction

theorem Token.isPlain_of_reading {token : Token} {α : Type} {reading? : Content → Option α} {value}
    (noOpening : reading? (.plain .leftParen) = none)
    (noClosing : reading? (.plain .rightParen) = none)
    (found : reading? token.content = some value) : token.kind.IsPlain := by
  rw [Token.kind]
  cases contentEq : token.content with
  | plain kind => grind [Content.kind]
  | int | float | char | string | identifier | invalid => simp [Content.kind, TokenKind.IsPlain]

def ExpressionPart.steps (nesting : Nat) : ExpressionPart → List WrittenStep
  | .tier _ value => value.steps nesting
  | .members _ => []
  | .arguments values => argumentsSteps values nesting

/-- The tokens of an expression close its calls, arguments before the call. -/
theorem Derives.closes {part tokens} (derives : Derives part tokens)
    (nesting : Nat) : ∃ last?, Closes tokens (stepsCalled (part.steps nesting)) last? := by
  induction derives generalizing nesting with
  | @operation _ lhs _ _ _ _ binds _ _ left right =>
    obtain ⟨_, leftCloses⟩ := left nesting
    obtain ⟨last?, rightCloses⟩ := right (nesting + lhs.spine + 1)
    have joined := leftCloses.join rfl rightCloses (TokenKind.isMark_of_operator? binds)
    refine ⟨last?, ?_⟩
    simpa [ExpressionPart.steps, Expression.steps, stepsCalled_event] using joined
  | tighter _ _ _ ih => exact ih nesting
  | literal isLiteral => exact ⟨_, .plain (Token.isPlain_of_reading rfl rfl isLiteral)⟩
  | @string token _ isString =>
    have isKind : token.kind = .stringLiteral := congrArg Content.kind isString
    exact ⟨_, .single isKind⟩
  | named isName => exact ⟨_, .plain (Token.isPlain_of_name isName)⟩
  | access isName _ members _ =>
    have closes := Closes.of_plain (List.forall_mem_cons.mpr
      ⟨Token.isPlain_of_name isName, members.members_plain⟩)
    simpa [ExpressionPart.steps, Expression.steps, stepsCalled_event] using closes
  | callWithout isName opens closes => exact ⟨none, .call isName opens .nil closes⟩
  | call isName opens _ closes arguments =>
    obtain ⟨_, inner⟩ := arguments nesting
    refine ⟨none, ?_⟩
    simpa [ExpressionPart.steps, Expression.steps] using Closes.call isName opens inner closes
  | group opens _ closes inner =>
    obtain ⟨_, innerCloses⟩ := inner (nesting + 1)
    exact ⟨none, .group opens innerCloses closes⟩
  | noMembers => exact ⟨none, .nil⟩
  | moreMembers isPoint isName rest _ =>
    exact Closes.of_plain (Derives.moreMembers isPoint isName rest).members_plain
  | lastArgument _ ih =>
    obtain ⟨last?, closes⟩ := ih nesting
    refine ⟨last?, ?_⟩
    simpa [ExpressionPart.steps, argumentsSteps] using closes
  | moreArguments _ isComma _ first others =>
    obtain ⟨_, firstCloses⟩ := first nesting
    obtain ⟨last?, othersClose⟩ := others nesting
    refine ⟨last?, ?_⟩
    simpa [ExpressionPart.steps, argumentsSteps] using firstCloses.join isComma othersClose

/-! ## Tokens of statements -/

theorem DerivesType.allPlain {mark type? tokens} (derives : DerivesType mark type? tokens)
    (isPlain : mark.IsPlain) : ∀ token ∈ tokens, token.kind.IsPlain := by
  cases derives with
  | absent => grind
  | present _ isType => grind [Token.isPlain_of_reading rfl rfl isType]

theorem DerivesLocks.allPlain {locks tokens}
    (derives : DerivesLocks locks tokens) : ∀ token ∈ tokens, token.kind.IsPlain := by
  have name {isMutable : Bool} {name : String} {tokens : List Token}
      (derives : DerivesName isMutable name tokens) : ∀ token ∈ tokens, token.kind.IsPlain := by
    cases derives with
    | plain | mutable => grind [Token.kind_of_name]
  induction derives with
  | last locked => exact name locked
  | more locked => grind [name locked]

theorem DerivesAssigned.closes {value front tokens}
    (derives : DerivesAssigned value tokens) (frontPlain : ∀ token ∈ front, token.kind.IsPlain)
    (nesting : Nat) : Closes (front ++ tokens) (stepsCalled (value.steps nesting)) none := by
  obtain ⟨_, frontCloses⟩ := Closes.of_plain frontPlain
  have .mk assigns derives ends := derives
  obtain ⟨_, valueCloses⟩ := derives.closes nesting
  have ended := (frontCloses.join assigns valueCloses).mark ends
  rwa [List.append_assoc] at ended

def StatementPart.steps (nesting : Nat) : StatementPart → List WrittenStep
  | .single written => written.steps nesting
  | .sequence body => statementsSteps body nesting
  | .block body => blockSteps 0 nesting (statementsSteps body (nesting + 1))
  | .guarded condition body =>
    condition.steps nesting ++ blockSteps 0 nesting (statementsSteps body (nesting + 1))
  | .arms written => written.steps nesting

theorem DerivesStatement.closes {part tokens} (derives : DerivesStatement part tokens)
    (nesting : Nat) : Closes tokens (stepsCalled (part.steps nesting)) none := by
  induction derives generalizing nesting with
  | @declaration keyword _ _ _ _ _ _ declares isName typed assigned =>
    have keywordPlain : keyword.kind.IsPlain := by
      rcases declares with isKind | isKind <;> exact isKind ▸ by decide
    have closes := assigned.closes (List.forall_mem_cons.mpr ⟨keywordPlain,
      List.forall_mem_cons.mpr ⟨Token.isPlain_of_name isName, typed.allPlain (by decide)⟩⟩) nesting
    simpa [StatementPart.steps, Statement.steps, stepsCalled_event] using closes
  | assignment isName assigned =>
    have closes := assigned.closes
      (List.forall_mem_singleton.mpr (Token.isPlain_of_name isName)) nesting
    simpa [StatementPart.steps, Statement.steps, stepsCalled_event] using closes
  | memberAssignment isName chained assigned =>
    have closes := assigned.closes (List.forall_mem_cons.mpr
      ⟨Token.isPlain_of_name isName, chained.members_plain⟩) nesting
    simpa [StatementPart.steps, Statement.steps, stepsCalled_event] using closes
  | returnNothing returns ends => exact (Closes.single returns).mark ends
  | returnValue returns derives ends =>
    obtain ⟨_, closes⟩ := derives.closes nesting
    exact ((Closes.single returns).append closes).mark ends
  | call called ends =>
    obtain ⟨_, closes⟩ := called.closes nesting
    exact closes.mark ends
  | conditional tests _ chained => exact (Closes.single tests).append (chained nesting)
  | loop repeats _ repeated => exact (Closes.single repeats).append (repeated nesting)
  | @sync keyword locks body locked tokens guards listed guarded inside =>
    have keywordPlain : keyword.kind.IsPlain := guards ▸ by decide
    obtain ⟨_, lockedCloses⟩ :=
      Closes.of_plain (List.forall_mem_cons.mpr ⟨keywordPlain, listed.allPlain⟩)
    cases guarded with
    | block opens =>
      have closes := lockedCloses.append_plain (opens ▸ by decide) (inside nesting)
      simpa [StatementPart.steps, Statement.steps] using closes
  | noStatements => exact .nil
  | moreStatements _ _ first following =>
    simpa [StatementPart.steps, statementsSteps] using (first nesting).append (following nesting)
  | block opens _ closes inside =>
    have braced := ((Closes.single opens).append (inside (nesting + 1))).mark closes
    simpa [StatementPart.steps] using braced
  | guarded opens test closes _ arm =>
    obtain ⟨_, testCloses⟩ := test.closes nesting
    have grouped := (Closes.group opens testCloses closes).append (arm nesting)
    simpa [StatementPart.steps, ExpressionPart.steps] using grouped
  | lastArm _ arm => exact arm nesting
  | otherwise _ isElse _ arm other =>
    have joined := (arm nesting).join isElse (other nesting)
    simpa [StatementPart.steps, Arms.steps] using joined
  | moreArms _ isElse isIf _ arm following =>
    have joined := (arm nesting).join isElse ((Closes.single isIf).append (following nesting))
    simpa [StatementPart.steps, Arms.steps] using joined

/-! ## Recording -/

structure Callees.Lists (callees : Callees) (function : String) (called : List String) : Prop where
  function_eq : callees.function = function
  names_eq : callees.names = called.eraseDups
  nodup : callees.names.Nodup
  notItself : function ∉ called

theorem Callees.lists_none (function : String) : (Callees.none function).Lists function [] :=
  ⟨rfl, rfl, List.nodup_nil, List.not_mem_nil⟩

section Recording

variable {function : String} {called : List String} {context after : Context}

theorem Context.Records.lists {name} (records : context.Records name after)
    (lists : context.callees.Lists function called) :
    after.callees.Lists function (called ++ [name]) := by
  obtain ⟨callees, isNew, recorded, rfl⟩ := records
  have mem_iff : name ∈ context.callees.names ↔ name ∈ called := by
    rw [lists.names_eq, List.mem_eraseDups]
  show callees.Lists function (called ++ [name])
  unfold Callees.record at recorded
  split at recorded
  · contradiction
  rename_i notItself
  have notMember : function ∉ called ++ [name] := by
    rw [List.mem_append, List.mem_singleton]
    rintro (earlier | same)
    · exact lists.notItself earlier
    · exact notItself (same ▸ lists.function_eq.symm)
  split at recorded
  · rename_i isKnown
    cases recorded
    have known : name ∈ called := mem_iff.mp (List.contains_iff_mem.mp isKnown)
    refine ⟨lists.function_eq, ?_, lists.nodup, notMember⟩
    rw [lists.names_eq, List.eraseDups_append]
    simp [List.removeAll, known]
  · rename_i isUnknown
    cases recorded
    have unknown : name ∉ context.callees.names := fun member =>
      isUnknown (List.contains_iff_mem.mpr member)
    refine ⟨lists.function_eq, ?_, ?_, notMember⟩
    · rw [List.eraseDups_append, lists.names_eq]
      simp [List.removeAll, mt mem_iff.mpr unknown, List.eraseDups_cons]
    · exact List.concat_eq_append ▸ lists.nodup.concat unknown

theorem happen_lists {written : WrittenEvent} {event}
    (happened : written.happen context = .ok (event, after))
    (lists : context.callees.Lists function called) :
    calledIn [event] = calledIn [written] ∧
      after.callees.Lists function (called ++ calledIn [written]) := by
  have kept (same : after.callees = context.callees) :
      after.callees.Lists function (called ++ []) := by rwa [same, List.append_nil]
  cases written with
  | opens | closes =>
    cases happened
    exact ⟨rfl, kept rfl⟩
  | declares =>
    obtain ⟨_, _, declared, ⟨⟩⟩ := Building.bind_eq_ok_iff.mp happened
    exact ⟨rfl, kept (Context.declare?_eq_some_iff.mp (ofOption_eq_ok_iff.mp declared)).callees_eq⟩
  | computes =>
    obtain ⟨_, _, added, ⟨⟩⟩ := Building.bind_eq_ok_iff.mp happened
    exact ⟨rfl, kept (Context.temporary?_eq_some_iff.mp (ofOption_eq_ok_iff.mp added)).callees_eq⟩
  | uses =>
    obtain ⟨_, _, looked, ⟨⟩⟩ := Building.bind_eq_ok_iff.mp happened
    obtain ⟨_, _, ⟨⟩⟩ := Option.map_eq_some_iff.mp (ofOption_eq_ok_iff.mp looked)
    exact ⟨rfl, kept rfl⟩
  | calls name =>
    obtain ⟨_, _, ran, ⟨⟩⟩ := Building.bind_eq_ok_iff.mp happened
    obtain ⟨_, recorded, ⟨⟩⟩ := Option.map_eq_some_iff.mp (ofOption_eq_ok_iff.mp ran)
    exact ⟨rfl, (Context.record?_eq_some_iff.mp recorded).lists lists⟩

theorem follow_lists {steps events} (followed : follow steps context = .ok (events, after))
    (lists : context.callees.Lists function called) :
    calledIn events = stepsCalled steps ∧
      after.callees.Lists function (called ++ stepsCalled steps) := by
  induction steps generalizing context events called with
  | nil =>
    cases followed
    exact ⟨rfl, by rwa [stepsCalled_nil, List.append_nil]⟩
  | cons step rest ih =>
    cases step with
    | rule checked =>
      obtain ⟨_, middle, isChecked, restFollowed⟩ := Building.bind_eq_ok_iff.mp followed
      cases checked.check_keeps isChecked
      exact ih restFollowed lists
    | event written =>
      obtain ⟨event, middle, happened, restFollowed⟩ := Building.bind_eq_ok_iff.mp followed
      obtain ⟨others, _, othersFollowed, ⟨⟩⟩ := Building.bind_eq_ok_iff.mp restFollowed
      obtain ⟨sameCall, listed⟩ := happen_lists happened lists
      obtain ⟨sameCalls, later⟩ := ih othersFollowed listed
      have stepEq : stepsCalled (.event written :: rest) =
          calledIn [written] ++ stepsCalled rest :=
        stepsCalled_append [.event written] rest
      have eventsEq : calledIn (event :: others) = calledIn [event] ++ calledIn others :=
        @List.filterMap_append _ _ [event] others _
      rw [stepEq, eventsEq, sameCall, sameCalls, ← List.append_assoc]
      exact ⟨rfl, later⟩

end Recording

/-! ## Whole functions -/

theorem Tiles.positions_increase {before characters tokens finish}
    (tiles : Tiles before characters tokens finish) :
    tokens.Pairwise (·.position.index < ·.position.index) ∧
      ∀ token ∈ tokens, utf8Length before ≤ token.position.index := by
  induction tiles with
  | finish => exact ⟨.nil, fun _ member => absurd member List.not_mem_nil⟩
  | @token before gap rest token tokens finish _ nonempty placed _ ih =>
    have positive := utf8Length_pos nonempty
    have indexEq : token.position.index = utf8Length before + utf8Length gap := by
      rw [placed, Position.index_advance_start, utf8Length_append]
    obtain ⟨increase, isLater⟩ := ih
    simp only [utf8Length_append] at isLater
    refine ⟨.cons (fun other member => ?_) increase, List.forall_mem_cons.mpr ⟨?_, ?_⟩⟩
    · have := isLater other member
      omega
    · omega
    · intro other member
      have := isLater other member
      omega

theorem stepsCalled_parametersSteps (parameters : List WrittenParameter) :
    stepsCalled (parametersSteps parameters) = [] := by
  induction parameters with
  | nil => rfl
  | cons _ _ ih => exact ih

theorem WrittenFunction.lists_of_tree {written : WrittenFunction} {item}
    (built : written.tree? = some item) :
    calledIn (nodesTrace item.body) = stepsCalled (statementsSteps written.body 0) ∧
      item.callees.Lists item.name (calledIn (nodesTrace item.body)) := by
  obtain ⟨parameters, entered, body, left, parametersBuilt, bodyBuilt, rfl⟩ :=
    WrittenFunction.tree?_eq_some.mp built
  have followed : follow written.steps (.initial written.name) =
      .ok (parametersTrace parameters ++ nodesTrace body, left) := by
    rw [written.follow_steps, bind_of_ok (parametersBuild_of_built parametersBuilt),
      bind_of_ok (statementsTree?_builds written.body bodyBuilt).gives]
    rfl
  have noneCalled : calledIn (parametersTrace parameters) = [] := by
    simp [calledIn, parametersTrace]
  have eventsEq : calledIn (parametersTrace parameters ++ nodesTrace body) =
      calledIn (nodesTrace body) := by
    rw [calledIn, List.filterMap_append]
    exact congrArg (· ++ calledIn (nodesTrace body)) noneCalled
  obtain ⟨calledEq, lists⟩ := follow_lists followed (Callees.lists_none written.name)
  rw [eventsEq, WrittenFunction.steps, stepsCalled_append, stepsCalled_parametersSteps,
    List.nil_append] at calledEq
  rw [WrittenFunction.steps, stepsCalled_append, stepsCalled_parametersSteps, List.nil_append,
    List.nil_append, ← calledEq] at lists
  exact ⟨calledEq, lists⟩

theorem DerivesStatement.closedCalls_eq {body tokens}
    (braced : DerivesStatement (.block body) tokens) :
    (closedCalls none [] tokens).map Prod.fst = stepsCalled (statementsSteps body 0) := by
  have .block opens inside closes := braced
  obtain ⟨closed, calledEq, isClosed⟩ :=
    ((Closes.single opens).append (inside.closes 0)).mark closes
  have whole := isClosed [] []
  rw [List.append_nil, closedCalls, List.append_nil] at whole
  rw [List.cons_append, ← List.singleton_append, ← List.append_assoc, whole, calledEq]
  rfl

/-- The callees of a whole function are the functions that its body calls, in the order in
which the parentheses of these calls close, each at its first call.  None is there twice,
and none is the function itself. -/
theorem parseSource_lists_calls (source : Source) :
    ∀ item ∈ (parseSource source).1.file.functions, item.isBroken = false →
      item.callees.names = (calledIn (nodesTrace item.body)).eraseDups ∧
      item.callees.names.Nodup ∧ item.name ∉ item.callees.names ∧
      ∃ written header body, header ++ body <:+: (TokenStream.ofText source.text).tokens ∧
        DerivesItem (.function written) (header ++ body) ∧
        DerivesStatement (.block written.body) body ∧ written.tree? = some item ∧
        (closedCalls none [] body).map Prod.fst = calledIn (nodesTrace item.body) ∧
        ((closedCalls none [] body).map Prod.snd).Pairwise (·.index < ·.index) := by
  intro item member isWhole
  rcases parseSource_functions_written source item member with ⟨isBroken, _⟩ | found
  · exact absurd (isWhole.symm.trans isBroken) Bool.false_ne_true
  obtain ⟨written, tokens, isPart, derives, built⟩ := found
  obtain ⟨calledEq, lists⟩ := written.lists_of_tree built
  refine ⟨lists.names_eq, lists.nodup, ?_, ?_⟩
  · rw [lists.names_eq, List.mem_eraseDups]
    exact lists.notItself
  have tiles := TokenStream.ofText_tiles source.text
  cases derives with
  | @function _ _ _ _ _ header body headed braced =>
    refine ⟨_, header, body, isPart, .function headed braced, braced, built, ?_, ?_⟩
    · rw [calledEq]
      exact braced.closedCalls_eq
    · have inBody : body.Sublist (TokenStream.ofText source.text).tokens :=
        (List.sublist_append_right header body).trans isPart.sublist
      have increase : (body.map Token.position).Pairwise (·.index < ·.index) :=
        List.pairwise_map.mpr (tiles.positions_increase.1.sublist inBody)
      exact increase.sublist (closedCalls_sublist none [] body)

theorem parseSource_lists_calls_nested :
    ∃ item ∈ (parseSource ⟨"nested", "fn f() \x7b g(h(), k()); h(); \x7d"⟩).1.file.functions,
      item.isBroken = false ∧ item.callees.names = ["h", "k", "g"] ∧
        item.callees.names = (calledIn (nodesTrace item.body)).eraseDups := by
  have passes : (parseSource ⟨"nested", "fn f() \x7b g(h(), k()); h(); \x7d"⟩).1.file.functions.any
      (fun item => !item.isBroken && item.callees.names == ["h", "k", "g"]) = true := by
    decide +kernel
  obtain ⟨item, member, passes⟩ := exists_function passes
  obtain ⟨isWhole, namesEq⟩ := Bool.and_eq_true_iff.mp passes
  have isWhole : item.isBroken = false := by simpa using isWhole
  exact ⟨item, member, isWhole, eq_of_beq namesEq,
    (parseSource_lists_calls _ item member isWhole).1⟩

end SlotCompiler
