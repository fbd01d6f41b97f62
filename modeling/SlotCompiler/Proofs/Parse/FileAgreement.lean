import SlotCompiler.Proofs.Parse.FileSoundness
import SlotCompiler.Proofs.Parse.StatementAgreement

/-!
Contract: two runs of the parsers of items and files agree.
-/

namespace SlotCompiler

/-! ## Skipping -/

namespace Window.Pairs

variable {window : Window} {level depth fuel other : Nat} {view : View} {s t : Input}

theorem head_kinds (paired : window.Pairs level view s t) (inside : window.floor ≤ view.depth) :
    s.peek.1.kind = view.kind ∧ t.peek.1.kind = view.kind :=
  (paired.head_marks inside).imp Token.kind_eq_of_mark Token.kind_eq_of_mark

theorem lengths_lt (paired : window.Pairs level view s t) :
    view.ahead.length < min (s.cursor.pending.length + 1) (t.cursor.pending.length + 1) :=
  lt_min (Nat.lt_succ_of_le paired.first.length_le) (Nat.lt_succ_of_le paired.second.length_le)

theorem skipOutOfWithin (paired : window.Pairs level view s t) (deep : window.floor ≤ depth)
    (enough : view.ahead.length < min fuel other) :
    ∃ after, window.Pairs level after (Input.skipOutOfWithin depth fuel s)
      (Input.skipOutOfWithin depth other t) ∧ (after.depth < depth ∨ after.ahead = []) := by
  induction fuel generalizing other view s t with
  | zero => omega
  | succ fuel ih =>
    obtain _ | other := other
    · omega
    rw [Input.skipOutOfWithin, Input.skipOutOfWithin, paired.first.depth_eq, paired.second.depth_eq]
    by_cases isOut : view.depth < depth
    · rw [if_pos isOut, if_pos isOut]
      exact ⟨view, paired, .inl isOut⟩
    rw [if_neg isOut, if_neg isOut]
    have inside : window.floor ≤ view.depth := by omega
    obtain ⟨firstKind, secondKind⟩ := paired.head_kinds inside
    simp only [firstKind, secondKind]
    by_cases isEnd : view.kind = .endOfFile
    · rw [if_pos isEnd, if_pos isEnd]
      exact ⟨view, paired.peek, .inr (paired.ahead_eq_nil_of_kind isEnd)⟩
    · rw [if_neg isEnd, if_neg isEnd]
      have shorter := View.next_length_of_kind isEnd
      exact ih (paired.peek.next inside) (by omega)

theorem skipOutOf (paired : window.Pairs level view s t) (deep : window.floor ≤ depth) :
    ∃ after, window.Pairs level after (s.skipOutOf depth) (t.skipOutOf depth) ∧
      (after.depth < depth ∨ after.ahead = []) :=
  paired.skipOutOfWithin deep paired.lengths_lt

theorem skipToNextItemWithin (paired : window.Pairs level view s t) (bottom : window.floor = 0)
    (enough : view.ahead.length < min fuel other) :
    ∃ after, window.Pairs level after (Input.skipToNextItemWithin fuel s)
      (Input.skipToNextItemWithin other t) := by
  induction fuel generalizing other view s t with
  | zero => omega
  | succ fuel ih =>
    obtain _ | other := other
    · omega
    have inside : window.floor ≤ view.depth := bottom ▸ Nat.zero_le _
    obtain ⟨firstKind, secondKind⟩ := paired.head_kinds inside
    have firstDepth : s.peek.2.depth = view.depth := paired.first.depth_eq
    have secondDepth : t.peek.2.depth = view.depth := paired.second.depth_eq
    simp only [Input.skipToNextItemWithin, firstKind, secondKind, firstDepth, secondDepth]
    split
    · exact ⟨view, paired.peek⟩
    · rename_i goesOn
      have shorter := View.next_length_of_kind fun isEnd => goesOn (.inl isEnd)
      exact ih (paired.peek.next inside) (by omega)

theorem skipToNextItem (paired : window.Pairs level view s t) (bottom : window.floor = 0) :
    ∃ after, window.Pairs level after s.skipToNextItem t.skipToNextItem :=
  paired.skipToNextItemWithin bottom paired.lengths_lt

end Window.Pairs

/-! ## Structs -/

variable {place here there : Position → Position}

def fieldsMoved (place : Position → Position) (fields : Array FieldDeclaration) :
    List FieldDeclaration :=
  fields.toList.map (FieldDeclaration.moved place)

namespace Parser

variable {window : Window} {level fuel other : Nat} {view : View} {s t : Input}

theorem agree_structFields {first second} (paired : window.Pairs level view s t)
    (inside : window.floor ≤ view.depth) (enough : view.ahead.length < min fuel other)
    (same : window.SameBy fieldsMoved first second)
    (seen : Std.HashSet String) :
    Agree window Window.Pairs (level = ·)
      (fun a b after => window.SameBy fieldsMoved a b ∧ view.Closed after)
      (structFields fuel first seen s) (structFields other second seen t) := by
  induction fuel generalizing other view s t first second seen with
  | zero => omega
  | succ fuel ih =>
    obtain _ | other := other
    · omega
    rw [structFields, structFields]
    apply (accept_agree paired inside .rightBrace).bind id
    rintro _ _ _ _ _ _ paired rfl (⟨rfl, rfl, closes, rfl⟩ | ⟨rfl, rfl, rfl⟩)
    · exact .ok paired rfl ⟨same, View.closed_next closes⟩
    apply (identifier_agree paired inside).bind id
    rintro _ _ ⟨name, position⟩ ⟨_, place⟩ _ _ paired rfl ⟨sameName, afterName⟩
    obtain ⟨rfl, samePlace⟩ := Prod.mk.inj sameName
    dsimp only [id]
    split
    · exact .error paired rfl (congrArg (Diagnostic.mk _) samePlace)
    apply (expect_agree paired (by omega) .colon).bind id
    rintro _ _ _ _ _ _ paired rfl ⟨_, isColon, rfl⟩
    have afterColon := View.past_next isColon rfl
    apply (typeName_agree paired (by omega)).bind id
    rintro _ _ type otherType _ _ paired rfl ⟨sameType, afterType⟩
    have sameField : (FieldDeclaration.mk name type).moved window.here =
        (FieldDeclaration.mk name otherType).moved window.there :=
      congrArg (FieldDeclaration.mk name) sameType
    have sameFields := map_push_eq same sameField
    apply (accept_agree paired (by omega) .comma).bind id
    rintro _ _ _ _ _ _ paired rfl (⟨rfl, rfl, isComma, rfl⟩ | ⟨rfl, rfl, rfl⟩)
    · have afterComma := View.past_next isComma rfl
      exact (ih paired (by omega) (by omega) sameFields _).weaken id
        fun holds => ⟨holds.1, by omega⟩
    · apply (expect_agree paired (by omega) .rightBrace).bind id
      rintro _ _ _ _ _ _ paired rfl ⟨_, closes, rfl⟩
      have closed := View.closed_next closes
      exact .ok paired rfl ⟨sameFields, by omega⟩

theorem agree_structItem (paired : window.Pairs level view s t) (inside : window.floor ≤ view.depth)
    (enough : view.ahead.length < min fuel other) :
    Agree window Window.Pairs (level = ·)
      (fun a b after => a.moved window.here = b.moved window.there ∧ view.Past 1 after)
      (structItem fuel s) (structItem other t) := by
  apply (expect_agree paired inside .structKw).bind id
  rintro _ _ keyword otherKeyword _ _ paired rfl ⟨⟨keywordEq, otherEq⟩, isStruct, rfl⟩
  have afterKeyword := View.past_next isStruct rfl
  apply (identifier_agree paired (by omega)).bind id
  rintro _ _ ⟨name, position⟩ ⟨_, place⟩ _ _ paired rfl ⟨sameName, afterName⟩
  obtain ⟨rfl, _⟩ := Prod.mk.inj sameName
  apply (expect_agree paired (by omega) .leftBrace).bind id
  rintro _ _ _ _ _ _ paired rfl ⟨_, opens, rfl⟩
  have opened := View.opened_next opens
  apply (agree_structFields paired (by omega) (by omega) rfl ∅).bind id
  rintro _ _ fields otherFields _ _ paired rfl ⟨sameFields, closed⟩
  refine .ok paired rfl ⟨?_, by omega⟩
  have samePlace : window.Same _ _ := congrArg Prod.snd (keywordEq.trans otherEq.symm)
  rw [StructItem.moved, StructItem.moved, samePlace]
  exact congrArg (StructItem.mk _ · _) sameFields

end Parser

/-! ## Functions -/

def parametersMoved (place : Position → Position) (parameters : Array Parameter) : List Parameter :=
  parameters.toList.map (Parameter.moved place)

def Signature.moved (place : Position → Position) (signature : Signature) : Signature :=
  { name := signature.name
    position := place signature.position
    parameters := signature.parameters.map (Parameter.moved place)
    returnType? := signature.returnType?.map (TypeRef.moved place) }

namespace BodyParser

variable {window : Window} {level fuel other : Nat} {view : View} {s t : BodyInput}

variable {first second : Array Parameter}

theorem agree_parameterList (state : window.At level view s t)
    (enough : view.ahead.length < min fuel other)
    (same : window.SameBy parametersMoved first second) :
    window.Matches level view 1 parametersMoved (parameterList fuel first s)
      (parameterList other second t) := by
  induction fuel generalizing other view s t first second with
  | zero => omega
  | succ fuel ih =>
    obtain _ | other := other
    · omega
    rw [parameterList, parameterList]
    apply state.acceptEither_then rfl
    intro isMutable _ _ _ state past
    apply state.identifier_then
    intro name position place _ _ _ state afterName samePlace
    apply state.expect_then rfl
    intro _ _ _ _ _ state afterColon _
    apply state.typeName_then
    intro type otherType _ _ _ state sameType afterType
    apply state.stay_then (state.agree_declare samePlace name isMutable)
    intro slot _ _ state
    have sameLast : (Parameter.mk name slot isMutable type).moved window.here =
        (Parameter.mk name slot isMutable otherType).moved window.there :=
      congrArg (Parameter.mk name slot isMutable) sameType
    have sameAll := map_push_eq same sameLast
    apply state.accept_then rfl
    · intro _ _ _ state afterComma
      exact (ih state (by omega) sameAll).weaken id fun holds => ⟨holds.1, by omega⟩
    · intro _ _ state
      apply state.expect_then rfl
      intro _ _ _ _ _ state last _
      exact state.agree_pure ⟨sameAll, by omega⟩

theorem agree_signatureEnd {position place} (state : window.At level view s t)
    (same : window.SameBy parametersMoved first second)
    (samePlace : window.Same position place) (name : String) :
    Agree window Window.BodyPairs (level = ·)
      (fun a b after => a.moved window.here = b.moved window.there ∧ view.Opened after)
      ((do
        let returnType? ← Parser.typeAfter .arrow
        let _ ← Parser.expect .leftBrace
        return { name, position, parameters := first.toList, returnType? } :
          BodyParser Signature) s)
      ((do
        let returnType? ← Parser.typeAfter .arrow
        let _ ← Parser.expect .leftBrace
        return { name, position := place, parameters := second.toList, returnType? } :
          BodyParser Signature) t) := by
  unfold Window.SameBy parametersMoved at same
  apply state.typeAfter_then rfl
  intro returnType? otherType? _ _ _ state sameType afterType
  apply state.openBrace_then
  intro _ _ _ _ _ state opened _
  refine state.agree_pure ⟨?_, by omega⟩
  rw [Signature.moved, Signature.moved, same, sameType, samePlace]

theorem agree_signatureAfter {position place} (state : window.At level view s t)
    (enough : view.ahead.length < min fuel other) (samePlace : window.Same position place)
    (name : String) :
    Agree window Window.BodyPairs (level = ·)
      (fun a b after => a.moved window.here = b.moved window.there ∧ view.Opened after)
      (signatureAfter fuel name position s) (signatureAfter other name place t) := by
  apply state.expect_then rfl
  intro _ _ _ _ _ state past _
  apply state.accept_then rfl
  · intro _ _ _ state afterClosing
    exact (agree_signatureEnd state rfl samePlace name).weaken id
      fun ⟨same, opened⟩ => ⟨same, by omega⟩
  · intro _ _ state
    apply state.match_then (agree_parameterList state (by omega) rfl)
    intro parameters otherParameters _ _ _ state same afterParameters
    exact (agree_signatureEnd state same samePlace name).weaken id
      fun ⟨same, opened⟩ => ⟨same, by omega⟩

end BodyParser

def resultMoved (place : Position → Position) (result : FunctionItem × Option Diagnostic) :
    FunctionItem × Option Diagnostic :=
  (result.1.moved place, result.2.map (Diagnostic.moved place))

theorem functionItem_moved_eq {first second : Signature} {body otherBody}
    (same : first.moved here = second.moved there)
    (sameBody : blockMoved here body = blockMoved there otherBody) (context : Context)
    (isBroken : Bool) :
    (Parser.functionItem first body context isBroken).moved here =
      (Parser.functionItem second otherBody context isBroken).moved there := by
  obtain ⟨nameEq, placeEq, parametersEq, typeEq⟩ := Signature.mk.inj same
  simp only [Parser.functionItem, FunctionItem.moved, nameEq, placeEq, parametersEq, typeEq,
    sameBody]

namespace Parser

variable {window : Window} {level fuel other : Nat} {view : View} {s t : Input}

theorem agree_signature (paired : window.Pairs level view s t) (inside : window.floor ≤ view.depth)
    (enough : view.ahead.length < min fuel other) :
    Agree window Window.Pairs (level = ·)
      (fun a b after => (a.1.moved window.here = b.1.moved window.there ∧ a.2 = b.2) ∧
        view.Opened after)
      (signature fuel s) (signature other t) := by
  apply (expect_agree paired inside .fnKw).bind id
  rintro _ _ keyword otherKeyword _ _ paired rfl ⟨⟨keywordEq, otherEq⟩, isFunction, rfl⟩
  have afterKeyword := View.past_next isFunction rfl
  apply (identifier_agree paired (by omega)).bind id
  rintro _ _ ⟨name, position⟩ ⟨_, place⟩ s t paired rfl ⟨sameName, afterName⟩
  obtain ⟨rfl, _⟩ := Prod.mk.inj sameName
  have samePlace : window.Same _ _ := congrArg Prod.snd (keywordEq.trans otherEq.symm)
  have agree := BodyParser.agree_signatureAfter
    (Window.Within.mk (paired.inBody (.initial name)) (by omega) rfl)
    (by omega : _ < min fuel other) samePlace name
  dsimp only [id]
  generalize BodyParser.signatureAfter fuel _ _ _ = left,
    BodyParser.signatureAfter other _ _ _ = right at agree
  cases agree with
  | ok paired isKept holds => exact .ok paired.input isKept ⟨⟨holds.1, paired.context_eq⟩, by omega⟩
  | error paired isKept same => exact .error paired.input isKept same

theorem agree_functionBody {first second : Signature} (context : Context)
    (paired : window.Pairs level view s t) (inside : window.floor ≤ view.depth)
    (enough : 4 * view.ahead.length + 2 ≤ min fuel other)
    (same : first.moved window.here = second.moved window.there) :
    resultMoved window.here (functionBody fuel first context s).1 =
        resultMoved window.there (functionBody other second context t).1 ∧
      ∃ after, window.Pairs level after (functionBody fuel first context s).2
          (functionBody other second context t).2 ∧
        (after.depth < view.depth ∨ after.ahead = [] ∨ view.depth = 0) := by
  have nothingYet : window.SameBy statementsMoved #[] #[] := rfl
  have agree := (BodyParser.statementsAgree window fuel other).statements
    (Window.Within.mk (paired.inBody context) inside rfl) enough nothingYet
  rw [functionBody, functionBody, paired.first.depth_eq, paired.second.depth_eq]
  generalize BodyParser.statements fuel _ _ = left, BodyParser.statements other _ _ = right at agree
  cases agree with
  | @ok _ after nodes otherNodes s t paired isKept holds =>
    rcases s with ⟨s, context⟩
    rcases t with ⟨t, _⟩
    cases paired.context_eq
    cases isKept
    refine ⟨?_, after, paired.input, by omega⟩
    exact congrArg (·, none) (functionItem_moved_eq same holds.1 context false)
  | @error _ _ _ _ s t paired isKept sameFault =>
    rcases s with ⟨s, context⟩
    rcases t with ⟨t, _⟩
    cases paired.context_eq
    cases isKept
    obtain ⟨after, skipped, isOut⟩ := paired.input.skipOutOf inside
    refine ⟨?_, after, skipped, isOut.imp_right Or.inl⟩
    exact Prod.ext (functionItem_moved_eq same rfl context true)
      (congrArg some sameFault)

theorem agree_function (paired : window.Pairs level view s t) (inside : window.floor ≤ view.depth)
    (enough : 4 * view.ahead.length + 2 ≤ min fuel other) :
    Agree window Window.Pairs (level = ·)
      (fun a b _ => window.SameBy resultMoved a b)
      (function fuel s) (function other t) := by
  apply (agree_signature paired inside (by omega)).bind id
  rintro _ _ ⟨signature, context⟩ ⟨otherSignature, _⟩ _ _ paired rfl ⟨⟨same, rfl⟩, opened⟩
  obtain ⟨sameResult, after, paired, _⟩ :=
    agree_functionBody context paired (by omega) (by omega : _ ≤ min fuel other) same
  exact .ok paired rfl sameResult

end Parser

/-! ## Files -/

def ParsedFile.moved (place : Position → Position) (parsed : ParsedFile) : ParsedFile :=
  { file := parsed.file.moved place, faults := parsed.faults.map (Diagnostic.moved place) }

namespace ParsedFile

variable {first second : ParsedFile}

theorem moved_empty_eq (here there : Position → Position) :
    empty.moved here = empty.moved there := by
  simp only [moved, File.moved, empty, File.empty, Array.map_empty]

theorem addStruct_moved (parsed : ParsedFile) (item : StructItem) :
    (parsed.addStruct item).moved place = (parsed.moved place).addStruct (item.moved place) := by
  simp only [addStruct, moved, File.moved, Array.map_push]

theorem addFault_moved (parsed : ParsedFile) (fault : Diagnostic) :
    (parsed.addFault fault).moved place = (parsed.moved place).addFault (fault.moved place) := by
  simp only [addFault, moved, Array.map_push]

theorem addFunctionResult_moved (parsed : ParsedFile)
    (result : FunctionItem × Option Diagnostic) :
    (parsed.addFunctionResult result).moved place =
      (parsed.moved place).addFunctionResult (resultMoved place result) := by
  rcases result with ⟨item, _ | fault⟩
  · simp only [addFunctionResult, resultMoved, addFunction, moved, File.moved,
      Array.map_push, Option.map_none]
  · simp only [addFunctionResult, resultMoved, addFunction, addFault, moved,
      File.moved, Array.map_push, Option.map_some]

end ParsedFile

namespace Input

variable {window : Window} {level budget other : Nat} {view : View} {s t : Input}
  {first second : ParsedFile}

theorem agree_itemOrRecover {α γ : Type} {x y} (move : (Position → Position) → α → γ)
    {add : ParsedFile → α → ParsedFile}
    (agree : Agree window Window.Pairs (level = ·)
      (fun a b _ => window.SameBy move a b) (x s) (y t))
    (adds : ∀ {first second : ParsedFile} {a b}, first.moved window.here = second.moved window.there →
      window.SameBy move a b →
      (add first a).moved window.here = (add second b).moved window.there)
    (bottom : window.floor = 0) (same : first.moved window.here = second.moved window.there) :
    (itemOrRecover x add first s).1.moved window.here =
        (itemOrRecover y add second t).1.moved window.there ∧
      ∃ after, window.Pairs level after (itemOrRecover x add first s).2
        (itemOrRecover y add second t).2 := by
  unfold itemOrRecover
  generalize x s = left, y t = right at agree
  cases agree with
  | @ok _ after _ _ _ _ paired isKept sameItem =>
    cases isKept
    exact ⟨adds same sameItem, after, paired⟩
  | error paired isKept sameFault =>
    cases isKept
    refine ⟨?_, paired.skipToNextItem bottom⟩
    rw [ParsedFile.addFault_moved, ParsedFile.addFault_moved, same, sameFault]

theorem agree_strayToken (paired : window.Pairs level view s t)
    (inside : window.floor ≤ view.depth) :
    Agree window Window.Pairs (level = ·) (fun _ _ _ => True) (strayToken s) (strayToken t) := by
  apply (Parser.next_agree paired inside).bind id
  rintro _ _ _ _ _ _ paired rfl ⟨⟨firstEq, secondEq⟩, _⟩
  exact Parser.refuse_agree paired (firstEq.trans secondEq.symm) _

theorem agree_oneItem (paired : window.Pairs level view s t) (bottom : window.floor = 0)
    (enough : 4 * window.size + 2 ≤ min budget other)
    (same : first.moved window.here = second.moved window.there) (kind : TokenKind) :
    (oneItem budget kind first s).1.moved window.here =
        (oneItem other kind second t).1.moved window.there ∧
      ∃ after, window.Pairs level after (oneItem budget kind first s).2
        (oneItem other kind second t).2 := by
  have inside : window.floor ≤ view.depth := bottom ▸ Nat.zero_le _
  have short := paired.length_le
  unfold oneItem
  split
  · apply agree_itemOrRecover StructItem.moved
      ((Parser.agree_structItem paired inside (by omega)).weaken id And.left) _
      bottom same
    intro _ _ _ _ same sameItem
    rw [ParsedFile.addStruct_moved, ParsedFile.addStruct_moved, same, sameItem]
  split
  · apply agree_itemOrRecover resultMoved
      (Parser.agree_function paired inside (by omega)) _ bottom same
    intro _ _ _ _ same sameItem
    rw [ParsedFile.addFunctionResult_moved, ParsedFile.addFunctionResult_moved, same,
      sameItem]
  · exact agree_itemOrRecover (fun _ => id)
      ((agree_strayToken paired inside).weaken id fun _ => rfl) (fun same _ => same) bottom same

theorem agree_itemsWithin (paired : window.Pairs level view s t) (bottom : window.floor = 0)
    (enough : 4 * window.size + 2 ≤ min budget other)
    (same : first.moved window.here = second.moved window.there) (rounds : Nat) :
    (itemsWithin budget rounds first s).1.moved window.here =
      (itemsWithin other rounds second t).1.moved window.there := by
  induction rounds generalizing first second view s t with
  | zero => exact same
  | succ rounds ih =>
    have inside : window.floor ≤ view.depth := bottom ▸ Nat.zero_le _
    obtain ⟨firstKind, secondKind⟩ := paired.head_kinds inside
    rw [itemsWithin_succ, itemsWithin_succ, firstKind, secondKind]
    split
    · exact same
    · obtain ⟨sameNext, after, paired⟩ :=
        agree_oneItem paired.peek bottom enough same view.kind
      exact ih paired sameNext

def ofStream (name : String) (stream : TokenStream) : Input :=
  { cursor :=
      { sourceName := name, stream := stream, pending := stream.tokens, consumed := 0,
        inspected := 0, finished := false }
    depth := 0
    nesting := 0 }

end Input

def TokenStream.parse (name : String) (stream : TokenStream) : ParsedFile :=
  (Input.ofStream name stream).items.1

theorem parseSource_eq (source : Source) :
    (parseSource source).1 = (TokenStream.ofText source.text).parse source.name := rfl

def Window.whole (size : Nat) (here there : Position → Position) : Window :=
  { floor := 0, size, first := [], second := [], here, there }

theorem Window.covers_whole {size marks}
    (proper : ∀ mark ∈ marks, mark.1.kind ≠ .endOfFile) (depth : Nat) :
    (whole size here there).Covers depth marks := by
  induction marks generalizing depth with
  | nil => exact .inr ⟨rfl, rfl⟩
  | cons mark rest ih =>
    rw [List.forall_mem_cons] at proper
    exact ⟨Nat.zero_le _, proper.1, ih proper.2 _⟩

theorem Window.pairs_whole (s t : Input)
    (sameMarks : s.cursor.pending.map (Token.mark here) = t.cursor.pending.map (Token.mark there))
    (sameFinish : here s.cursor.stream.finishPosition = there t.cursor.stream.finishPosition)
    (sameDepth : s.depth = t.depth) (sameNesting : s.nesting = t.nesting)
    (proper : ∀ token ∈ s.cursor.pending, token.kind ≠ .endOfFile) :
    (whole s.cursor.pending.length here there).Pairs s.nesting
      ⟨s.depth, s.cursor.pending.map (Token.mark here), here s.cursor.stream.finishPosition⟩ s t where
  first := ⟨rfl, rfl, ⟨_, (List.append_nil _).symm, rfl⟩, rfl⟩
  second := ⟨sameDepth.symm, sameNesting.symm, ⟨_, (List.append_nil _).symm, sameMarks.symm⟩,
    sameFinish.symm⟩
  covers := by
    apply covers_whole
    intro mark member
    obtain ⟨token, inTokens, rfl⟩ := List.mem_map.mp member
    exact proper token inTokens
  length_le := Nat.le_of_eq (List.length_map _)

/-- Two streams whose places are taken to the same ones are parsed to files whose
places are. -/
theorem TokenStream.parse_moved_eq {first second : TokenStream}
    (sameMarks : first.tokens.map (Token.mark here) = second.tokens.map (Token.mark there))
    (sameFinish : here first.finishPosition = there second.finishPosition)
    (proper : ∀ token ∈ first.tokens, token.kind ≠ .endOfFile) (name otherName : String) :
    (first.parse name).moved here = (second.parse otherName).moved there := by
  have sameLength : first.tokens.length = second.tokens.length := by
    simpa only [List.length_map] using congrArg List.length sameMarks
  have paired := Window.pairs_whole (Input.ofStream name first)
    (Input.ofStream otherName second) sameMarks sameFinish rfl rfl proper
  have sameRounds : (Input.ofStream name first).cursor.pending.length + 1 =
      (Input.ofStream otherName second).cursor.pending.length + 1 := congrArg (· + 1) sameLength
  unfold TokenStream.parse Input.items
  rw [← sameRounds]
  apply Input.agree_itemsWithin paired rfl _ (ParsedFile.moved_empty_eq here there)
  show 4 * first.tokens.length + 2 ≤
    min (8 * (first.tokens.length + 1)) (8 * (second.tokens.length + 1))
  omega

theorem map_mark_nowhere {first second : List Token}
    (sameContents : first.map Token.content = second.map Token.content) :
    first.map (Token.mark nowhere) = second.map (Token.mark nowhere) := by
  have marks := congrArg (List.map (·, Position.start)) sameContents
  rwa [List.map_map, List.map_map] at marks

theorem TokenStream.parse_nowhere_eq {first second : TokenStream}
    (sameContents : first.tokens.map Token.content = second.tokens.map Token.content)
    (proper : ∀ token ∈ first.tokens, token.kind ≠ .endOfFile) (name otherName : String) :
    (first.parse name).moved nowhere = (second.parse otherName).moved nowhere :=
  parse_moved_eq (map_mark_nowhere sameContents) rfl proper name otherName

end SlotCompiler
