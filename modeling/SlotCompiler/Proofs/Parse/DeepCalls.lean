import SlotCompiler.Proofs.Parse.FileGrammar
import SlotCompiler.Proofs.Tree.Depth

/-!
Contract: sources with as many calls nested in each other as wanted.
-/

namespace SlotCompiler

variable {contents : List Content}

/-! ## Tokens of a text -/

def Lexes (contents : List Content) (characters : List Char) : Prop :=
  ∀ fuel previous? position given, characters.length < fuel →
    ∃ found, (TokenStream.collect fuel previous? position characters given).tokens =
      given.toList ++ found ∧ found.map Token.content = contents

theorem lexes_nil : Lexes [] [] := by
  intro fuel previous? position given enough
  cases fuel with
  | zero => exact absurd enough (Nat.not_lt_zero _)
  | succ fuel => exact ⟨[], (List.append_nil _).symm, rfl⟩

theorem lexes_cons {characters rest} (scan : Scan)
    (skips : ∀ position, (skipGap .blank position characters).2 = rest)
    (scanned : ∀ previous?, nextScan? previous? rest = some scan)
    (shorter : scan.rest.length < characters.length) (lexed : Lexes contents scan.rest) :
    Lexes (scan.content :: contents) characters := by
  intro fuel previous? position given enough
  cases fuel with
  | zero => exact absurd enough (Nat.not_lt_zero _)
  | succ fuel =>
    rcases skipped : skipGap .blank position characters with ⟨place, left⟩
    have isRest : left = rest := by rw [← skips position, skipped]
    simp only [TokenStream.collect, skipped, isRest, scanned]
    obtain ⟨found, tokensEq, contentsEq⟩ := lexed fuel _ (place.advance scan.text)
      (given.push ⟨scan.content, place, String.ofList scan.text⟩) (by omega)
    refine ⟨⟨scan.content, place, String.ofList scan.text⟩ :: found, ?_, ?_⟩
    · rw [tokensEq, toList_push_append]
    · rw [List.map_cons, contentsEq]

theorem Lexes.ofText {characters} (lexed : Lexes contents characters) :
    (TokenStream.ofText (String.ofList characters)).tokens.map Token.content = contents := by
  obtain ⟨found, tokensEq, contentsEq⟩ := lexed (characters.length + 1) none .start #[]
    (Nat.lt_succ_self _)
  rw [TokenStream.ofText, String.toList_ofList, tokensEq]
  exact contentsEq

/-! ## Nested calls -/

/-- A call in a call and so on, before some other text. -/
def nestedText : Nat → List Char → List Char
  | 0, rest => 'g' :: '(' :: ')' :: rest
  | count + 1, rest => 'g' :: '(' :: nestedText count (')' :: rest)

def nestedName : String := String.ofList ['g']

def nestedContents : Nat → List Content → List Content
  | 0, rest => .identifier nestedName :: .plain .leftParen :: .plain .rightParen :: rest
  | count + 1, rest =>
    .identifier nestedName :: .plain .leftParen ::
      nestedContents count (.plain .rightParen :: rest)

theorem lexes_nested (count : Nat) {rest} (lexed : Lexes contents rest) :
    Lexes (nestedContents count contents) (nestedText count rest) := by
  have opened {inner : List Content} {text : List Char} (insideLexed : Lexes inner text) :
      Lexes (.identifier nestedName :: .plain .leftParen :: inner) ('g' :: '(' :: text) := by
    apply lexes_cons ⟨.identifier nestedName, ['g'], '(' :: text⟩ (fun _ => rfl) (fun _ => rfl)
      (Nat.lt_succ_self _)
    exact lexes_cons ⟨.plain .leftParen, ['('], text⟩ (fun _ => rfl) (fun _ => rfl)
      (Nat.lt_succ_self _) insideLexed
  have closed {inner : List Content} {text : List Char} (afterLexed : Lexes inner text) :
      Lexes (.plain .rightParen :: inner) (')' :: text) :=
    lexes_cons ⟨.plain .rightParen, [')'], text⟩ (fun _ => rfl) (fun _ => rfl)
      (Nat.lt_succ_self _) afterLexed
  induction count generalizing contents rest with
  | zero => exact opened (closed lexed)
  | succ count ih => exact opened (ih (closed lexed))

/-- Arguments that are a call in a call and so on. -/
inductive NestedCalls : Nat → List Expression → Prop where
  | none : NestedCalls 0 []
  | more {count arguments position} (inner : NestedCalls count arguments) :
      NestedCalls (count + 1) [.call nestedName arguments position]

namespace NestedCalls

variable {count : Nat} {arguments : List Expression}

theorem needs (nested : NestedCalls count arguments) :
    argumentsNames arguments = [] ∧ argumentsHeight arguments = 0 ∧
      argumentsSlots arguments = 0 ∧ ∀ name ∈ argumentsCalls arguments, name = nestedName := by
  induction nested with
  | none => exact ⟨rfl, rfl, rfl, fun _ member => absurd member List.not_mem_nil⟩
  | more inner ih =>
    obtain ⟨names, height, slots, calls⟩ := ih
    simp only [argumentsNames, argumentsHeight, argumentsSlots, argumentsCalls, Expression.names,
      Expression.height, Expression.slots, Expression.calls, names, height, slots]
    simpa using calls

theorem depth (nested : NestedCalls count arguments) (weigh : TreeLevel → Nat)
    {nesting context after trees}
    (builds : Builds (.arguments arguments) nesting (.operands trees) context after) :
    operandsDepth weigh trees = count * weigh .call := by
  induction nested generalizing context after trees with
  | none =>
    cases builds
    exact (Nat.zero_mul _).symm
  | more inner ih =>
    cases builds with | moreArguments head tail => ?_
    cases tail
    cases head with | call gives recorded => ?_
    show max (weigh .call + operandsDepth weigh _) 0 = _
    rw [ih gives, Nat.max_zero, Nat.succ_mul, Nat.add_comm]

theorem derives {tokens : List Token} {rest}
    (isNested : tokens.map Token.content = nestedContents count rest) :
    ∃ arguments position front back, NestedCalls count arguments ∧ tokens = front ++ back ∧
      Derives (.tier primaryTier (.call nestedName arguments position)) front ∧
      back.map Token.content = rest := by
  induction count generalizing tokens rest with
  | zero =>
    obtain ⟨token, tokens, rfl, isName, isNested⟩ := List.map_eq_cons_iff.mp isNested
    obtain ⟨opening, tokens, rfl, opens, isNested⟩ := List.map_eq_cons_iff.mp isNested
    obtain ⟨closing, tokens, rfl, closes, isRest⟩ := List.map_eq_cons_iff.mp isNested
    exact ⟨[], token.position, [token, opening, closing], tokens, .none, rfl,
      .callWithout isName (congrArg Content.kind opens) (congrArg Content.kind closes), isRest⟩
  | succ count ih =>
    obtain ⟨token, tokens, rfl, isName, isNested⟩ := List.map_eq_cons_iff.mp isNested
    obtain ⟨opening, tokens, rfl, opens, isNested⟩ := List.map_eq_cons_iff.mp isNested
    obtain ⟨inner, position, front, back, nested, rfl, derives, isRest⟩ := ih isNested
    obtain ⟨closing, back, rfl, closes, isRest⟩ := List.map_eq_cons_iff.mp isRest
    have argument : Derives (.arguments [.call nestedName inner position]) front :=
      .lastArgument (derives.loosen (Nat.le_refl 1) (by decide))
    refine ⟨_, token.position, token :: opening :: front ++ [closing], back, nested.more, ?_,
      .call isName (congrArg Content.kind opens) argument (congrArg Content.kind closes), isRest⟩
    simp

end NestedCalls

/-! ## A function with nested calls -/

def nestedCallsText (count : Nat) : String :=
  String.ofList ("fn f()\x7b".toList ++ nestedText count [';', '\x7d'])

theorem nestedCallsText_tokens (count : Nat) :
    (TokenStream.ofText (nestedCallsText count)).tokens.map Token.content =
      .plain .fnKw :: .identifier (String.ofList ['f']) :: .plain .leftParen ::
        .plain .rightParen :: .plain .leftBrace ::
        nestedContents count [.plain .semicolon, .plain .rightBrace] := by
  apply Lexes.ofText
  have body : Lexes (nestedContents count [.plain .semicolon, .plain .rightBrace])
      (nestedText count [';', '\x7d']) := by
    apply lexes_nested
    apply lexes_cons ⟨.plain .semicolon, [';'], ['\x7d']⟩ (fun _ => rfl) (fun _ => rfl)
      (Nat.lt_succ_self _)
    exact lexes_cons ⟨.plain .rightBrace, ['\x7d'], []⟩ (fun _ => rfl) (fun _ => rfl)
      (Nat.lt_succ_self _) lexes_nil
  generalize nestedText count [';', '\x7d'] = text at body
  apply lexes_cons ⟨.plain .fnKw, ['f', 'n'], " f()\x7b".toList ++ text⟩ (fun _ => rfl)
    (fun _ => rfl) (by simp)
  apply lexes_cons ⟨.identifier (String.ofList ['f']), ['f'], "()\x7b".toList ++ text⟩
    (fun _ => rfl) (fun _ => rfl) (by simp)
  apply lexes_cons ⟨.plain .leftParen, ['('], ")\x7b".toList ++ text⟩ (fun _ => rfl)
    (fun _ => rfl) (by simp)
  apply lexes_cons ⟨.plain .rightParen, [')'], "\x7b".toList ++ text⟩ (fun _ => rfl)
    (fun _ => rfl) (by simp)
  exact lexes_cons ⟨.plain .leftBrace, ['\x7b'], text⟩ (fun _ => rfl) (fun _ => rfl) (by simp) body

def nestedFunction (arguments : List Expression) (position called : Position) : WrittenFunction :=
  ⟨String.ofList ['f'], [], none, [.call nestedName arguments called], position⟩

theorem nestedFunction_valid {count arguments} (nested : NestedCalls count arguments)
    (position called : Position) : (nestedFunction arguments position called).Valid := by
  obtain ⟨names, height, slots, calls⟩ := nested.needs
  refine ⟨List.nodup_nil, ⟨?_, trivial⟩, ?_, ?_, ?_⟩
  · rw [Statement.Scoped, names]
    exact List.nil_subset _
  · intro callsItself
    have member : String.ofList ['f'] ∈ nestedName :: argumentsCalls arguments ++ [] := callsItself
    rw [List.append_nil, List.mem_cons] at member
    have isCallee := member.elim id (calls _)
    exact absurd isCallee (by decide)
  · show max (argumentsHeight arguments) 0 ≤ _
    rw [height]
    decide
  · show 0 + (argumentsSlots arguments + 0) ≤ _
    rw [slots]
    decide

theorem nestedCallsText_derives (count : Nat) :
    ∃ arguments position called, NestedCalls count arguments ∧
      DerivesItems [.function (nestedFunction arguments position called)]
        (TokenStream.ofText (nestedCallsText count)).tokens := by
  have tokensEq := nestedCallsText_tokens count
  generalize (TokenStream.ofText (nestedCallsText count)).tokens = tokens at tokensEq
  obtain ⟨keyword, tokens, rfl, isFunction, tokensEq⟩ := List.map_eq_cons_iff.mp tokensEq
  obtain ⟨token, tokens, rfl, isName, tokensEq⟩ := List.map_eq_cons_iff.mp tokensEq
  obtain ⟨opening, tokens, rfl, opens, tokensEq⟩ := List.map_eq_cons_iff.mp tokensEq
  obtain ⟨closing, tokens, rfl, closes, tokensEq⟩ := List.map_eq_cons_iff.mp tokensEq
  obtain ⟨leftBrace, tokens, rfl, begins, tokensEq⟩ := List.map_eq_cons_iff.mp tokensEq
  obtain ⟨arguments, called, front, back, nested, rfl, derives, tokensEq⟩ :=
    NestedCalls.derives tokensEq
  obtain ⟨semicolon, back, rfl, ends, tokensEq⟩ := List.map_eq_cons_iff.mp tokensEq
  obtain ⟨rightBrace, back, rfl, finishes, tokensEq⟩ := List.map_eq_cons_iff.mp tokensEq
  obtain rfl := List.map_eq_nil_iff.mp tokensEq
  refine ⟨arguments, keyword.position, called, nested, ?_⟩
  have statement := DerivesStatement.call derives (congrArg Content.kind ends)
  have body := DerivesStatement.block (congrArg Content.kind begins)
    (.moreStatements statement .noStatements) (congrArg Content.kind finishes)
  have header := DerivesHeader.mk (congrArg Content.kind isFunction) isName
    (congrArg Content.kind opens) .none (congrArg Content.kind closes) .absent
  have items := DerivesItems.more (DerivesItem.function header body) .none
  simpa [nestedFunction] using items

theorem NestedCalls.depth_body {count arguments} (nested : NestedCalls count arguments)
    {position called tree} (built : (nestedFunction arguments position called).tree? = some tree)
    (weigh : TreeLevel → Nat) : blockDepth weigh tree.body = (count + 1) * weigh .call := by
  obtain ⟨parameters, entered, body, left, _, bodyBuilt, rfl⟩ :=
    WrittenFunction.tree?_eq_some.mp built
  cases statementsTree?_builds _ bodyBuilt with | moreStatements head tail => ?_
  cases tail
  cases head with | callStatement calls => ?_
  cases calls with | call gives recorded => ?_
  show max (weigh .call + operandsDepth weigh _) 0 = _
  rw [nested.depth weigh gives, Nat.max_zero, Nat.succ_mul, Nat.add_comm]

theorem exists_nestedCalls (name : String) (count : Nat) :
    (parseSource ⟨name, nestedCallsText count⟩).1.faults = #[] ∧
      ∃ function ∈ (parseSource ⟨name, nestedCallsText count⟩).1.file.functions,
        ∀ weigh, blockDepth weigh function.body = (count + 1) * weigh .call := by
  obtain ⟨arguments, position, called, nested, derives⟩ := nestedCallsText_derives count
  obtain ⟨tree, built⟩ := (WrittenFunction.exists_tree_iff _).mpr
    (nestedFunction_valid nested position called)
  have fileBuilt : fileTree? [.function (nestedFunction arguments position called)] =
      some ⟨#[], #[tree]⟩ := by
    simp [fileTree?, File.add?, built, File.empty]
  have parsed : (parseSource ⟨name, nestedCallsText count⟩).1 = ⟨⟨#[], #[tree]⟩, #[]⟩ :=
    parseSource_of_derives derives fileBuilt
  rw [parsed]
  exact ⟨rfl, tree, Array.mem_singleton.mpr rfl, nested.depth_body built⟩

end SlotCompiler
