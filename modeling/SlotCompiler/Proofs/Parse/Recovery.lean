import SlotCompiler.Proofs.Parse.FileAgreement
import SlotCompiler.Proofs.Parse.FileGrammar

/-!
Contract: a fault in the body of a function stays inside that function.

A parser that fails stands anywhere inside the body, so nothing is said about
where it stopped.  The body is read in two runs, alone and with the other items
behind it, and neither run looks beyond the closing brace of the body.
-/

namespace SlotCompiler

variable {name : String} {written : List WrittenParameter} {head : List Token}
  {stream : TokenStream}

/-! ## Balanced braces -/

/-- Inside as many open braces as given, the braces of the tokens balance: all
are closed, and no more than were opened. -/
def bracesBalance : Nat → List Token → Bool
  | depth, [] => depth == 0
  | depth, token :: rest =>
    if token.kind = .leftBrace then bracesBalance (depth + 1) rest
    else if token.kind = .rightBrace then
      decide (0 < depth) && bracesBalance (depth - 1) rest
    else bracesBalance depth rest

theorem Window.covers_of_bracesBalance {window : Window} (isInner : window.floor = 1)
    {body} {closing : Token} (closes : closing.kind = .rightBrace) {depth}
    (balanced : bracesBalance depth body = true)
    (proper : ∀ token ∈ body, token.kind ≠ .endOfFile) :
    window.Covers (depth + 1) ((body ++ [closing]).map (Token.mark nowhere)) := by
  induction body generalizing depth with
  | nil =>
    cases eq_of_beq (show (depth == 0) = true from balanced)
    refine ⟨isInner.le, ?_, .inl ?_⟩
    · show closing.kind ≠ .endOfFile
      rw [closes]
      decide
    · show Input.depthAfter 1 closing.kind < window.floor
      rw [closes, isInner]
      decide
  | cons token rest ih =>
    rw [List.forall_mem_cons] at proper
    have inside : window.floor ≤ depth + 1 := by omega
    refine ⟨inside, proper.1, ?_⟩
    show window.Covers (Input.depthAfter (depth + 1) token.kind) _
    rw [bracesBalance] at balanced
    by_cases opens : token.kind = .leftBrace
    · rw [if_pos opens] at balanced
      rw [opens]
      exact ih balanced proper.2
    rw [if_neg opens] at balanced
    by_cases ends : token.kind = .rightBrace
    · rw [if_pos ends, Bool.and_eq_true, decide_eq_true_eq] at balanced
      have shallower := ih balanced.2 proper.2
      rw [Nat.sub_add_cancel balanced.1] at shallower
      rw [ends]
      exact shallower
    · rw [if_neg ends] at balanced
      rw [TokenKind.depthAfter_of_inner (decide_eq_true ⟨opens, ends, proper.1⟩)]
      exact ih balanced proper.2

/-! ## Items -/

theorem DerivesHeader.nextKind_eq {returnType? position}
    (headed : DerivesHeader name written returnType? position head) (rest : List Token) :
    nextKind (head ++ rest) = .fnKw := by
  cases headed with
  | mk isFunction => exact isFunction

theorem exists_parametersTree (distinct : (written.map WrittenParameter.name).Nodup)
    (room : written.length ≤ Variables.capacity) (name : String) :
    ∃ parameters entered, parametersTree? written (.initial name) = some (parameters, entered) := by
  apply (exists_parametersTree_iff (Context.initial_names name)).mpr
  refine ⟨⟨distinct, fun _ _ => List.not_mem_nil⟩, List.not_mem_nil, .inl rfl, .inr ?_⟩
  show 0 + written.length ≤ Variables.capacity
  omega

/-- The tokens of an item whose head is well formed: a struct with different field
names, or a function with different parameter names that fit into a frame.  The
body of a function is any tokens whose braces balance. -/
inductive IsItem : List Token → Prop where
  | struct {item tokens} (derives : DerivesItem (.struct item) tokens)
      (distinct : (item.fields.map FieldDeclaration.name).Nodup) : IsItem tokens
  | function {name parameters returnType? position head body} {opening closing : Token}
      (headed : DerivesHeader name parameters returnType? position head)
      (distinct : (parameters.map WrittenParameter.name).Nodup)
      (room : parameters.length ≤ Variables.capacity) (opens : opening.kind = .leftBrace)
      (balanced : bracesBalance 0 body = true) (closes : closing.kind = .rightBrace) :
      IsItem (head ++ opening :: (body ++ [closing]))

namespace IsItem

variable {tokens : List Token}

theorem length_pos (isItem : IsItem tokens) : 0 < tokens.length := by
  cases isItem with
  | struct derives => exact derives.length_pos
  | function =>
    rw [List.length_append, List.length_cons]
    omega

theorem nextKind_append (isItem : IsItem tokens) (rest : List Token) :
    nextKind (tokens ++ rest) = nextKind tokens := by
  obtain ⟨token, others, rfl⟩ := List.exists_cons_of_length_pos isItem.length_pos
  rfl

theorem nextKind_ne (isItem : IsItem tokens) : nextKind tokens ≠ .endOfFile := by
  cases isItem with
  | struct derives =>
    rw [← List.append_nil tokens, derives.nextKind_eq, WrittenItem.keyword]
    decide
  | function headed =>
    rw [headed.nextKind_eq]
    decide

end IsItem

/-- The parsed file holds the one item that the tokens are written for, and a
fault exactly if its body is broken. -/
inductive ParsedFile.HoldsItem : List Token → ParsedFile → Prop where
  | struct {item tokens} (derives : DerivesItem (.struct item) tokens) :
      HoldsItem tokens ⟨⟨#[item], #[]⟩, #[]⟩
  | function {item : FunctionItem} {written head others entered} {faults : Array Diagnostic}
      (headed : DerivesHeader item.name written item.returnType? item.position head)
      (declared : parametersTree? written (.initial item.name) = some (item.parameters, entered))
      (faulty : faults.size = if item.isBroken then 1 else 0) :
      HoldsItem (head ++ others) ⟨⟨#[], #[item]⟩, faults⟩

/-- The parsed file has the items and faults of its parts in order, up to their
places, and no others. -/
structure ParsedFile.Gathers (parsed : ParsedFile) (parts : List ParsedFile) : Prop where
  structs_eq : parsed.file.structs.toList.map StructItem.unplaced =
    parts.flatMap fun part => part.file.structs.toList.map StructItem.unplaced
  functions_eq : parsed.file.functions.toList.map FunctionItem.unplaced =
    parts.flatMap fun part => part.file.functions.toList.map FunctionItem.unplaced
  faults_eq : parsed.faults.toList.map Diagnostic.unplaced =
    parts.flatMap fun part => part.faults.toList.map Diagnostic.unplaced

namespace ParsedFile

theorem file_addFunctionResult (parsed : ParsedFile) (result : FunctionItem × Option Diagnostic) :
    (parsed.addFunctionResult result).file = (parsed.addFunction result.1).file := by
  rcases result with ⟨item, _ | fault⟩ <;> rfl

theorem toList_faults_addFunctionResult (parsed : ParsedFile)
    (result : FunctionItem × Option Diagnostic) :
    (parsed.addFunctionResult result).faults.toList = parsed.faults.toList ++ result.2.toList := by
  rcases result with ⟨item, _ | fault⟩
  · exact (List.append_nil _).symm
  · exact Array.toList_push

end ParsedFile

namespace ParsedFile.Gathers

variable {parsed : ParsedFile} {parts : List ParsedFile}

theorem none : ParsedFile.empty.Gathers [] := ⟨rfl, rfl, rfl⟩

theorem addStruct (gathers : parsed.Gathers parts) (item : StructItem) :
    (parsed.addStruct item).Gathers (parts ++ [ParsedFile.empty.addStruct item]) where
  structs_eq := by
    rw [List.flatMap_append, ← gathers.structs_eq, List.flatMap_singleton]
    simp only [ParsedFile.addStruct, ParsedFile.empty, File.empty, Array.toList_push,
      List.map_append, List.nil_append]
  functions_eq := by
    rw [List.flatMap_append, ← gathers.functions_eq]
    exact (List.append_nil _).symm
  faults_eq := by
    rw [List.flatMap_append, ← gathers.faults_eq]
    exact (List.append_nil _).symm

theorem addFunctionResult (gathers : parsed.Gathers parts) {result other}
    (same : resultMoved nowhere result = resultMoved nowhere other) :
    (parsed.addFunctionResult result).Gathers
      (parts ++ [ParsedFile.empty.addFunctionResult other]) where
  structs_eq := by
    rw [List.flatMap_append, ← gathers.structs_eq, file_addFunctionResult,
      List.flatMap_singleton, file_addFunctionResult]
    exact (List.append_nil _).symm
  functions_eq := by
    have sameItem : result.1.unplaced = other.1.unplaced := by
      rw [← FunctionItem.moved_nowhere]
      exact congrArg Prod.fst same
    rw [List.flatMap_append, ← gathers.functions_eq, file_addFunctionResult,
      List.flatMap_singleton, file_addFunctionResult]
    simp only [addFunction, empty, File.empty, Array.toList_push, List.map_append,
      List.map_singleton, List.nil_append, sameItem]
  faults_eq := by
    have sameFault : result.2.map Diagnostic.unplaced = other.2.map Diagnostic.unplaced :=
      congrArg Prod.snd same
    rw [List.flatMap_append, ← gathers.faults_eq, toList_faults_addFunctionResult,
      List.flatMap_singleton, toList_faults_addFunctionResult, List.map_append, List.map_append,
      ← Option.toList_map, sameFault, Option.toList_map]
    rfl

end ParsedFile.Gathers

/-! ## One item -/

/-- The input stands outside all items with the tokens ahead, or at the end. -/
structure Input.AtItem (input : Input) (tokens : List Token) : Prop where
  ahead_eq : input.ahead = ⟨tokens, 0⟩
  depth_eq : tokens ≠ [] → input.depth = 0

theorem Window.Pairs.atItem {window : Window} {after s t} (paired : window.Pairs 0 after s t)
    (isInner : window.floor = 1) (isDone : after.ahead = []) :
    s.AtItem window.first ∧ t.AtItem window.second := by
  have shallow : after.depth < window.floor ∨ window.first = [] ∧ window.second = [] := by
    have covers := paired.covers
    rwa [isDone] at covers
  have aheadEq {input : Input} {place : Position → Position} {beyond : List Token}
      (shows : input.Shows place 0 after beyond) : input.ahead = ⟨beyond, 0⟩ := by
    obtain ⟨shown, pendingEq, shownEq⟩ := shows.pending_eq
    rw [isDone, List.map_eq_nil_iff] at shownEq
    rw [Input.ahead, pendingEq, shownEq, shows.nesting_eq, List.nil_append]
  refine ⟨⟨aheadEq paired.first, ?_⟩, ⟨aheadEq paired.second, ?_⟩⟩
  · intro goesOn
    have outside := shallow.resolve_right fun isEnd => goesOn isEnd.1
    rw [paired.first.depth_eq]
    omega
  · intro goesOn
    have outside := shallow.resolve_right fun isEnd => goesOn isEnd.2
    rw [paired.second.depth_eq]
    omega

namespace Parser

variable {fuel other : Nat} {input later : Input}

variable {entered : Context}

section Depth

variable (proper : ∀ token ∈ input.ahead.tokens, token.kind ≠ .endOfFile)
  (enough : input.ahead.tokens.length < fuel)

include enough in
theorem marks_length_lt : (input.cursor.pending.map (Token.mark id)).length < min fuel fuel := by
  rwa [List.length_map, min_self]

include proper enough

theorem structItem_depth {item} (ran : structItem fuel input = .ok item later) :
    later.depth = input.depth := by
  have paired := @Window.pairs_whole id id input input rfl rfl rfl rfl proper
  have agree := agree_structItem paired (Nat.zero_le _) (marks_length_lt enough)
  rw [ran] at agree
  have .ok paired _ holds := agree
  exact paired.first.depth_eq.trans holds.2.1

theorem signature_depth {result} (ran : signature fuel input = .ok result later) :
    later.depth = input.depth + 1 := by
  have paired := @Window.pairs_whole id id input input rfl rfl rfl rfl proper
  have agree := agree_signature paired (Nat.zero_le _) (marks_length_lt enough)
  rw [ran] at agree
  have .ok paired _ holds := agree
  exact paired.first.depth_eq.trans holds.2.1

end Depth

theorem function_eq_functionBody {position parameters returnType? inner} {opening : Token}
    (headed : DerivesHeader name written returnType? position head)
    (opens : opening.kind = .leftBrace)
    (declared : parametersTree? written (.initial name) = some (parameters, entered))
    (isBefore : input.AtItem (head ++ opening :: inner))
    (proper : ∀ token ∈ head ++ opening :: inner, token.kind ≠ .endOfFile)
    (enough : (head ++ opening :: inner).length < fuel) :
    ∃ middle : Input, middle.ahead = ⟨inner, 0⟩ ∧ middle.depth = 1 ∧
      function fuel input =
        .ok (functionBody fuel ⟨name, position, parameters, returnType?⟩ entered middle).1
          (functionBody fuel ⟨name, position, parameters, returnType?⟩ entered middle).2 := by
  have headShort : head.length ≤ fuel := by
    rw [List.length_append] at enough
    omega
  obtain ⟨middle, ran, isAfter⟩ :=
    takes_signature headed opens (parametersBuild_of_built declared) headShort input
      isBefore.ahead_eq
  have tokensEq : input.ahead.tokens = head ++ opening :: inner :=
    congrArg Ahead.tokens isBefore.ahead_eq
  have depthEq := signature_depth (tokensEq ▸ proper) (tokensEq ▸ enough) ran
  rw [isBefore.depth_eq (List.append_ne_nil_of_right_ne_nil _ (List.cons_ne_nil _ _))] at depthEq
  exact ⟨middle, isAfter, depthEq, bind_eq_ok_iff.mpr ⟨_, middle, ran, rfl⟩⟩

theorem functionBody_holdsItem {signature : Signature}
    (headed : DerivesHeader signature.name written signature.returnType? signature.position head)
    (declared : parametersTree? written (.initial signature.name) =
      some (signature.parameters, entered)) (others : List Token) :
    (ParsedFile.empty.addFunctionResult
      (functionBody fuel signature entered input).1).HoldsItem (head ++ others) := by
  unfold functionBody
  cases BodyParser.statements fuel #[] ⟨input, entered⟩ with
  | ok => exact .function headed declared rfl
  | error => exact .function headed declared rfl

theorem functionBody_local {s t : Input} {body rest} {closing : Token}
    (closes : closing.kind = .rightBrace) (balanced : bracesBalance 0 body = true)
    (proper : ∀ token ∈ body, token.kind ≠ .endOfFile)
    (together : s.ahead = ⟨body ++ closing :: rest, 0⟩) (depthEq : s.depth = 1)
    (alone : t.ahead = ⟨body ++ [closing], 0⟩) (otherDepthEq : t.depth = 1)
    (enough : 4 * (body ++ [closing]).length + 2 ≤ min fuel other) (signature : Signature)
    (entered : Context) :
    resultMoved nowhere (functionBody fuel signature entered s).1 =
        resultMoved nowhere (functionBody other signature entered t).1 ∧
      (functionBody fuel signature entered s).2.AtItem rest ∧
      (functionBody other signature entered t).2.AtItem [] := by
  let window : Window := ⟨1, (body ++ [closing]).length, rest, [], nowhere, nowhere⟩
  have paired : window.Pairs 0 ⟨1, (body ++ [closing]).map (Token.mark nowhere), .start⟩ s t :=
    { first := ⟨depthEq, congrArg Ahead.nesting together, ⟨body ++ [closing],
        (congrArg Ahead.tokens together).trans (List.append_cons _ _ _), rfl⟩, rfl⟩
      second := ⟨otherDepthEq, congrArg Ahead.nesting alone, ⟨body ++ [closing],
        (congrArg Ahead.tokens alone).trans (List.append_nil _).symm, rfl⟩, rfl⟩
      covers := Window.covers_of_bracesBalance rfl closes balanced proper
      length_le := Nat.le_of_eq (List.length_map _) }
  have lengthEq : ((body ++ [closing]).map (Token.mark nowhere)).length =
      (body ++ [closing]).length := List.length_map _
  have sameSignature : signature.moved nowhere = signature.moved nowhere := rfl
  obtain ⟨sameResult, after, paired, isOut⟩ := agree_functionBody entered paired (Nat.le_refl 1)
    (lengthEq ▸ enough) sameSignature
  have isDone : after.ahead = [] := by
    rcases isOut with below | isDone | isBottom
    · exact paired.ahead_eq_nil below
    · exact isDone
    · exact absurd isBottom Nat.one_ne_zero
  exact ⟨sameResult, paired.atItem rfl isDone⟩

end Parser

namespace Input

variable {budget other : Nat} {parsed : ParsedFile} {parts : List ParsedFile}
  {tokens rest : List Token} {s t : Input}

theorem AtItem.peek (isBefore : s.AtItem tokens) : s.peek.2.AtItem tokens :=
  ⟨isBefore.ahead_eq, isBefore.depth_eq⟩

theorem AtItem.peek_kind_eq (isBefore : s.AtItem tokens) : s.peek.1.kind = nextKind tokens := by
  rw [peek_kind, isBefore.ahead_eq]
  rfl

theorem oneItem_struct {item} (derives : DerivesItem (.struct item) tokens)
    (distinct : (item.fields.map FieldDeclaration.name).Nodup)
    (isBefore : s.AtItem (tokens ++ rest))
    (proper : ∀ token ∈ tokens ++ rest, token.kind ≠ .endOfFile)
    (enough : (tokens ++ rest).length < budget) (parsed : ParsedFile) :
    (oneItem budget .structKw parsed s).1 = parsed.addStruct item ∧
      (oneItem budget .structKw parsed s).2.AtItem rest := by
  obtain ⟨later, ran, isAfter⟩ :=
    Parser.takes_structItem derives distinct enough.le s isBefore.ahead_eq
  have tokensEq : s.ahead.tokens = tokens ++ rest := congrArg Ahead.tokens isBefore.ahead_eq
  have depthEq := Parser.structItem_depth (tokensEq ▸ proper) (tokensEq ▸ enough) ran
  rw [isBefore.depth_eq (List.append_ne_nil_of_left_ne_nil
    (List.ne_nil_of_length_pos derives.length_pos) _)] at depthEq
  rw [oneItem, if_pos rfl]
  simp only [itemOrRecover, ran]
  exact ⟨trivial, isAfter, fun _ => depthEq⟩

theorem oneItem_function {result later} (ran : Parser.function budget s = .ok result later) :
    oneItem budget .fnKw parsed s = (parsed.addFunctionResult result, later) := by
  rw [oneItem, if_neg (by decide), if_pos rfl]
  simp only [itemOrRecover, ran]

/-- One round on an item, alone and with other items behind it: alone, the file
holds that item; together, what was gathered so far grows by the same. -/
theorem oneItem_local (isItem : IsItem tokens) (together : s.AtItem (tokens ++ rest))
    (alone : t.AtItem tokens) (proper : ∀ token ∈ tokens ++ rest, token.kind ≠ .endOfFile)
    (enough : 4 * (tokens ++ rest).length + 3 ≤ budget)
    (otherEnough : 4 * tokens.length + 3 ≤ other) (gathers : parsed.Gathers parts) :
    ((oneItem other (nextKind tokens) .empty t).1.HoldsItem tokens ∧
      (oneItem other (nextKind tokens) .empty t).2.AtItem []) ∧
    (oneItem budget (nextKind tokens) parsed s).1.Gathers
        (parts ++ [(oneItem other (nextKind tokens) .empty t).1]) ∧
      (oneItem budget (nextKind tokens) parsed s).2.AtItem rest := by
  cases isItem with
  | @struct item _ derives distinct =>
    have nothingBehind : tokens = tokens ++ [] := (List.append_nil tokens).symm
    have kindEq : nextKind tokens = .structKw := nothingBehind ▸ derives.nextKind_eq []
    have properAlone := (List.forall_mem_append.mp proper).1
    have enoughAlone : tokens.length < other := by omega
    obtain ⟨aloneEq, aloneAfter⟩ := oneItem_struct derives distinct (nothingBehind ▸ alone)
      (nothingBehind ▸ properAlone) (nothingBehind ▸ enoughAlone) .empty
    obtain ⟨togetherEq, togetherAfter⟩ := oneItem_struct derives distinct together proper
      (by omega : _ < budget) parsed
    rw [kindEq, aloneEq, togetherEq]
    exact ⟨⟨.struct derives, aloneAfter⟩, gathers.addStruct item, togetherAfter⟩
  | @function name written returnType? position head body opening closing headed distinct room
      opens balanced closes =>
      rw [headed.nextKind_eq]
      obtain ⟨parameters, entered, declared⟩ := exists_parametersTree distinct room name
      have properBody : ∀ token ∈ body, token.kind ≠ .endOfFile := by
        intro token member
        exact proper token (by simp [member])
      have properAlone := (List.forall_mem_append.mp proper).1
      simp only [List.append_assoc, List.cons_append, List.nil_append] at together proper enough
      obtain ⟨middle, isInside, depthEq, ran⟩ := Parser.function_eq_functionBody headed opens
        declared together proper (by omega : _ < budget)
      obtain ⟨lone, isInsideAlone, loneDepthEq, loneRan⟩ := Parser.function_eq_functionBody headed
        opens declared alone properAlone (by omega : _ < other)
      simp only [List.length_append, List.length_cons, List.length_nil] at enough otherEnough
      have bodyLength : (body ++ [closing]).length = body.length + 1 := List.length_append
      obtain ⟨sameResult, togetherAfter, aloneAfter⟩ := Parser.functionBody_local closes balanced
        properBody isInside depthEq isInsideAlone loneDepthEq (by omega : _ ≤ min budget other)
        ⟨name, position, parameters, returnType?⟩ entered
      rw [oneItem_function ran, oneItem_function loneRan]
      exact ⟨⟨Parser.functionBody_holdsItem headed declared _, aloneAfter⟩,
        gathers.addFunctionResult sameResult, togetherAfter⟩

theorem itemsWithin_of_atEnd (isEnd : s.AtItem []) (fuel : Nat) :
    (itemsWithin budget (fuel + 1) parsed s).1 = parsed := by
  have kindEq : s.peek.1.kind = .endOfFile := isEnd.peek_kind_eq
  rw [itemsWithin_succ, if_pos kindEq]

theorem itemsWithin_of_atItem (isBefore : s.AtItem tokens) (notEnd : nextKind tokens ≠ .endOfFile)
    (fuel : Nat) :
    itemsWithin budget (fuel + 1) parsed s =
      itemsWithin budget fuel (oneItem budget (nextKind tokens) parsed s.peek.2).1
        (oneItem budget (nextKind tokens) parsed s.peek.2).2 := by
  rw [itemsWithin_succ, isBefore.peek_kind_eq, if_neg notEnd]

theorem atItem_ofStream (name : String) (stream : TokenStream) :
    (ofStream name stream).AtItem stream.tokens := ⟨rfl, fun _ => rfl⟩

theorem parse_eq_oneItem (isItem : IsItem stream.tokens)
    (isLast : (oneItem (ofStream name stream).budget (nextKind stream.tokens) .empty
      (ofStream name stream).peek.2).2.AtItem []) :
    stream.parse name =
      (oneItem (ofStream name stream).budget (nextKind stream.tokens) .empty
        (ofStream name stream).peek.2).1 := by
  obtain ⟨count, lengthEq⟩ := Nat.exists_eq_add_of_le' isItem.length_pos
  show (itemsWithin _ (stream.tokens.length + 1) .empty (ofStream name stream)).1 = _
  rw [itemsWithin_of_atItem (atItem_ofStream name stream) isItem.nextKind_ne, lengthEq,
    itemsWithin_of_atEnd isLast]

theorem oneItem_gathers (isItem : IsItem stream.tokens)
    (isBefore : s.AtItem (stream.tokens ++ rest))
    (proper : ∀ token ∈ stream.tokens ++ rest, token.kind ≠ .endOfFile)
    (enough : 4 * (stream.tokens ++ rest).length + 3 ≤ budget) (gathers : parsed.Gathers parts)
    (name : String) :
    (oneItem budget (nextKind stream.tokens) parsed s).1.Gathers (parts ++ [stream.parse name]) ∧
      (oneItem budget (nextKind stream.tokens) parsed s).2.AtItem rest := by
  obtain ⟨⟨_, isLast⟩, grown⟩ := oneItem_local isItem isBefore (atItem_ofStream name stream).peek
    proper enough (le_budget (ofStream name stream)) gathers
  rw [parse_eq_oneItem isItem isLast]
  exact grown

theorem itemsWithin_gathers {alone : List TokenStream} {fuel : Nat}
    (areItems : ∀ stream ∈ alone, IsItem stream.tokens)
    (isBefore : s.AtItem (alone.flatMap TokenStream.tokens))
    (proper : ∀ token ∈ alone.flatMap TokenStream.tokens, token.kind ≠ .endOfFile)
    (enough : 4 * (alone.flatMap TokenStream.tokens).length + 3 ≤ budget)
    (rounds : (alone.flatMap TokenStream.tokens).length < fuel) (gathers : parsed.Gathers parts)
    (name : String) :
    (itemsWithin budget fuel parsed s).1.Gathers (parts ++ alone.map (TokenStream.parse name)) := by
  induction alone generalizing s parsed parts fuel with
  | nil =>
    obtain _ | fuel := fuel
    · omega
    rw [itemsWithin_of_atEnd isBefore, List.map_nil, List.append_nil]
    exact gathers
  | cons stream others ih =>
    obtain _ | fuel := fuel
    · omega
    rw [List.forall_mem_cons] at areItems
    rw [List.flatMap_cons] at isBefore proper enough rounds
    have kindEq := areItems.1.nextKind_append (others.flatMap TokenStream.tokens)
    have positive := areItems.1.length_pos
    obtain ⟨grown, isAfter⟩ := oneItem_gathers areItems.1 isBefore.peek proper enough gathers name
    rw [List.length_append] at enough rounds
    rw [itemsWithin_of_atItem isBefore (kindEq ▸ areItems.1.nextKind_ne), kindEq, List.map_cons,
      List.append_cons]
    exact ih areItems.2 isAfter (List.forall_mem_append.mp proper).2 (by omega) (by omega) grown

end Input

theorem TokenStream.parse_holdsItem (isItem : IsItem stream.tokens)
    (proper : ∀ token ∈ stream.tokens, token.kind ≠ .endOfFile) (name : String) :
    (stream.parse name).HoldsItem stream.tokens := by
  have isBefore := (Input.atItem_ofStream name stream).peek
  have enough : 4 * stream.tokens.length + 3 ≤ _ := Input.le_budget (Input.ofStream name stream)
  -- With nothing behind the item, both runs are the one alone.
  have nothingBehind := List.append_nil stream.tokens
  obtain ⟨⟨holds, isLast⟩, _⟩ := Input.oneItem_local isItem (nothingBehind.symm ▸ isBefore)
    isBefore (nothingBehind.symm ▸ proper) (nothingBehind.symm ▸ enough) enough .none
  rw [Input.parse_eq_oneItem isItem isLast]
  exact holds

theorem ParsedFile.Gathers.faults_size_eq {parsed : ParsedFile} {parts}
    (gathers : parsed.Gathers parts) (single : ∀ part ∈ parts, ∃ tokens, part.HoldsItem tokens) :
    parsed.faults.size = parsed.file.functions.toList.countP FunctionItem.isBroken := by
  have faultsEq := congrArg List.length gathers.faults_eq
  have brokenEq := congrArg (List.countP FunctionItem.isBroken) gathers.functions_eq
  rw [List.length_map, List.length_flatMap] at faultsEq
  rw [List.countP_map, List.countP_flatMap] at brokenEq
  refine faultsEq.trans (.trans (congrArg List.sum ?_) brokenEq.symm)
  apply List.map_congr_left
  intro part member
  obtain ⟨tokens, holds⟩ := single part member
  cases holds with
  | struct => rfl
  | @function item _ _ _ _ _ _ _ faulty =>
    show (_ : List _).length = [item.unplaced].countP FunctionItem.isBroken
    rw [List.length_map, Array.length_toList, faulty, List.countP_singleton]
    rfl

theorem ParsedFile.Gathers.of_moved_eq {first second : ParsedFile} {parts}
    (gathers : second.Gathers parts) (same : first.moved nowhere = second.moved nowhere) :
    first.Gathers parts where
  structs_eq := by
    have structsEq := congrArg (·.file.structs.toList) same
    simp only [moved, File.moved, Array.toList_map, StructItem.moved_nowhere] at structsEq
    exact structsEq.trans gathers.structs_eq
  functions_eq := by
    have functionsEq := congrArg (·.file.functions.toList) same
    simp only [moved, File.moved, Array.toList_map, FunctionItem.moved_nowhere] at functionsEq
    exact functionsEq.trans gathers.functions_eq
  faults_eq := by
    have faultsEq := congrArg (·.faults.toList) same
    simp only [moved, Array.toList_map, Diagnostic.moved_nowhere] at faultsEq
    exact faultsEq.trans gathers.faults_eq

theorem TokenStream.kind_ne_of_sameContents {text} {tokens : List Token}
    (sameTokens : (ofText text).tokens.map Token.content = tokens.map Token.content) :
    ∀ token ∈ tokens, token.kind ≠ .endOfFile :=
  kind_ne_of_contents_eq sameTokens (ofText_kind_ne text)

/-- Recovery is exact and local.  In a source made of items with well-formed heads
and balanced bodies, whatever the bodies hold, every item is parsed as it is
alone: a struct gives one struct, a function gives one function, and the faults
are those of the broken functions, one for each, in order. -/
theorem parseSource_of_items {source : Source} {alone : List TokenStream}
    (areItems : ∀ stream ∈ alone, IsItem stream.tokens)
    (sameTokens : (TokenStream.ofText source.text).tokens.map Token.content =
      (alone.flatMap TokenStream.tokens).map Token.content) (name : String) :
    (parseSource source).1.Gathers (alone.map (TokenStream.parse name)) ∧
      (∀ stream ∈ alone, (stream.parse name).HoldsItem stream.tokens) ∧
      (parseSource source).1.faults.size =
        (parseSource source).1.file.functions.toList.countP FunctionItem.isBroken := by
  rw [parseSource_eq]
  let joined : TokenStream := ⟨alone.flatMap TokenStream.tokens, .start⟩
  have proper : ∀ token ∈ joined.tokens, token.kind ≠ .endOfFile :=
    TokenStream.kind_ne_of_sameContents sameTokens
  have joinedGathers : (joined.parse name).Gathers (alone.map (TokenStream.parse name)) :=
    Input.itemsWithin_gathers areItems (Input.atItem_ofStream name joined) proper
      (Input.le_budget (Input.ofStream name joined)) (Nat.lt_succ_self _) .none name
  have gathers := joinedGathers.of_moved_eq (TokenStream.parse_nowhere_eq sameTokens
    (TokenStream.ofText_kind_ne source.text) source.name name)
  have holds : ∀ stream ∈ alone, (stream.parse name).HoldsItem stream.tokens := by
    intro stream member
    apply TokenStream.parse_holdsItem (areItems stream member)
    intro token inStream
    exact proper token (List.mem_flatMap_of_mem member inStream)
  refine ⟨gathers, holds, gathers.faults_size_eq ?_⟩
  intro part member
  obtain ⟨stream, inAlone, rfl⟩ := List.mem_map.mp member
  exact ⟨stream.tokens, holds stream inAlone⟩

/-- Tokens that stand for the contents given, without places. -/
def tokensOf (contents : List Content) : List Token := contents.map (⟨·, .start, ""⟩)

def functionTokens (name : String) (body : List Content) : List Token :=
  tokensOf [.plain .fnKw, .identifier name, .plain .leftParen, .plain .rightParen] ++
    ⟨.plain .leftBrace, .start, ""⟩ :: (tokensOf body ++ [⟨.plain .rightBrace, .start, ""⟩])

theorem isItem_functionTokens (name : String) {body}
    (balanced : bracesBalance 0 (tokensOf body) = true) : IsItem (functionTokens name body) :=
  .function (.mk rfl rfl rfl .none rfl .absent) List.nodup_nil (Nat.zero_le _) rfl balanced rfl

/-- A struct, a function whose body starts other items and holds a character that
starts no token, and a function without a fault. -/
def brokenSource : Source :=
  ⟨"broken", "struct Unit \x7b\x7d
fn broken() \x7b while fn \x7b struct # \x7d \x7d
fn sound() \x7b return; \x7d"⟩

def brokenSourceItems : List TokenStream :=
  [⟨tokensOf [.plain .structKw, .identifier "Unit", .plain .leftBrace, .plain .rightBrace], .start⟩,
    ⟨functionTokens "broken" [.plain .whileKw, .plain .fnKw, .plain .leftBrace, .plain .structKw,
      .invalid .unexpectedCharacter, .plain .rightBrace], .start⟩,
    ⟨functionTokens "sound" [.plain .returnKw, .plain .semicolon], .start⟩]

theorem parseSource_of_items_broken :
    (∀ stream ∈ brokenSourceItems, IsItem stream.tokens) ∧
    (TokenStream.ofText brokenSource.text).tokens.map Token.content =
      (brokenSourceItems.flatMap TokenStream.tokens).map Token.content ∧
    (parseSource brokenSource).1.Gathers (brokenSourceItems.map (TokenStream.parse "alone")) ∧
    (∀ stream ∈ brokenSourceItems, (stream.parse "alone").HoldsItem stream.tokens) ∧
    (parseSource brokenSource).1.faults.size =
      (parseSource brokenSource).1.file.functions.toList.countP FunctionItem.isBroken := by
  have areItems : ∀ stream ∈ brokenSourceItems, IsItem stream.tokens := by
    simp only [brokenSourceItems, List.forall_mem_cons]
    refine ⟨?_, ?_, ?_, fun _ member => absurd member List.not_mem_nil⟩
    · exact .struct (.struct rfl rfl rfl .none rfl) List.nodup_nil
    · exact isItem_functionTokens "broken" (by decide)
    · exact isItem_functionTokens "sound" (by decide)
  have sameTokens : (TokenStream.ofText brokenSource.text).tokens.map Token.content =
      (brokenSourceItems.flatMap TokenStream.tokens).map Token.content := by
    decide +kernel
  exact ⟨areItems, sameTokens, parseSource_of_items areItems sameTokens "alone"⟩

end SlotCompiler
