import SlotCompiler.Proofs.Parse.Items
import SlotCompiler.Proofs.Program.Placement
import SlotCompiler.Proofs.Program.Signatures

/-!
Contract: functions compile independently of each other.
-/

namespace SlotCompiler

/-! ## Trees -/

theorem TokenStream.parse_of_derives {stream : TokenStream} {items file}
    (derives : DerivesItems items stream.tokens) (built : fileTree? items = some file)
    (name : String) : stream.parse name = ⟨file, #[]⟩ := by
  have isBefore : (Input.ofStream name stream).ahead = ⟨stream.tokens, 0⟩ := rfl
  exact Input.itemsWithin_of_derives derives isBefore built (Input.ofStream name stream).le_budget
    (Nat.lt_succ_self _)

theorem fileTree?_moved_eq {items others tokens otherTokens file other}
    (derives : DerivesItems items tokens)
    (otherDerives : DerivesItems others otherTokens) (built : fileTree? items = some file)
    (otherBuilt : fileTree? others = some other)
    (sameContents : tokens.map Token.content = otherTokens.map Token.content)
    (proper : ∀ token ∈ tokens, token.kind ≠ .endOfFile) :
    file.moved nowhere = other.moved nowhere := by
  have same : (TokenStream.parse "" ⟨tokens, .start⟩).moved nowhere =
      (TokenStream.parse "" ⟨otherTokens, .start⟩).moved nowhere :=
    TokenStream.parse_nowhere_eq sameContents proper "" ""
  rw [TokenStream.parse_of_derives derives built,
    TokenStream.parse_of_derives otherDerives otherBuilt] at same
  exact (ParsedFile.mk.inj same).1

theorem WrittenFunction.tree?_moved_eq {written other tokens otherTokens tree otherTree}
    (derives : DerivesItem (.function written) tokens)
    (otherDerives : DerivesItem (.function other) otherTokens) (built : written.tree? = some tree)
    (otherBuilt : other.tree? = some otherTree)
    (sameContents : tokens.map Token.content = otherTokens.map Token.content)
    (proper : ∀ token ∈ tokens, token.kind ≠ .endOfFile) :
    tree.moved nowhere = otherTree.moved nowhere := by
  have alone {item : WrittenFunction} {tree : FunctionItem} (itemBuilt : item.tree? = some tree) :
      fileTree? [.function item] = some ⟨#[], #[tree]⟩ := by
    simp only [fileTree?, List.foldlM_cons, List.foldlM_nil, File.add?, itemBuilt]
    rfl
  have same := fileTree?_moved_eq (.more derives .none) (.more otherDerives .none)
    (alone built) (alone otherBuilt) (by rw [List.append_nil, List.append_nil, sameContents])
    (by rw [List.append_nil]; exact proper)
  simpa [File.moved] using same

/-! ## Types and code -/

theorem Pass.structTypes_moved (structs : List StructItem) :
    (structTypes (structs.map (StructItem.moved nowhere)) ⟨#[], #[]⟩).1 =
      (structTypes structs ⟨#[], #[]⟩).1 := by
  have alike := @alike_structTypes nowhere structs ⟨#[], #[]⟩
  have noPlaces : (Notes.mk #[] #[]).moved nowhere = ⟨#[], #[]⟩ :=
    congrArg (Notes.mk · #[]) Array.map_empty
  rw [noPlaces] at alike
  rw [alike, id_eq]

theorem compileFunction_eq_of_moved {types} {item other : FunctionItem}
    {layer function otherFunction} (same : item.moved nowhere = other.moved nowhere)
    (ok : compileFunction types item layer = .ok function)
    (otherOk : compileFunction types other layer = .ok otherFunction) :
    function = otherFunction := by
  have movedOk := @compileFunction_moved nowhere types item layer
  rw [same, compileFunction_moved, ok, otherOk] at movedOk
  exact (Except.ok.inj movedOk).symm

theorem File.CompilesTo.function?_eq_some {file : File} {program}
    (complete : file.CompilesTo program) {function} (member : function ∈ program.functions.toList) :
    program.function? function.name = some function := by
  have distinct := complete.distinct
  rw [complete.names_eq] at distinct
  rw [Program.function?, ← Array.find?_toList]
  exact find?_of_distinct distinct member

/-! ## Sources taken apart -/

/-- A source that compiles, as the items it is written with and the tokens of each. -/
structure Source.Consists (source : Source) (program : Program) (items : List WrittenItem)
    (pieces : List (List Token)) (file : File) : Prop where
  derived : List.Forall₂ DerivesItem items pieces
  cut : source.items = pieces.map (List.map Token.content)
  proper : ∀ piece ∈ pieces, ∀ token ∈ piece, token.kind ≠ .endOfFile
  built : fileTree? items = some file
  complete : file.CompilesTo program

theorem Source.exists_consists {config : Config} (proceeds : config.faultLimit? ≠ some 0)
    {source program} (compiled : (compile config source).outcome = .ok program) :
    ∃ items pieces file, source.Consists program items pieces file := by
  obtain ⟨clean, complete⟩ := compile_complete (config.stopsAfter_zero proceeds) compiled
  obtain ⟨items, derives, built⟩ := parseSource_written clean
  obtain ⟨pieces, derived, flattened, cut⟩ := derives.exists_cut
  refine ⟨items, pieces, _, derived, cut, ?_, built, complete⟩
  intro piece member token inPiece
  apply TokenStream.ofText_kind_ne source.text
  rw [← flattened]
  exact List.mem_flatten_of_mem member inPiece

theorem derivesItems_flatten {items pieces}
    (derived : List.Forall₂ DerivesItem items pieces) : DerivesItems items pieces.flatten := by
  induction derived with
  | nil => exact .none
  | cons first _ ih => exact .more first ih

namespace Source.Consists

variable {source other : Source} {program otherProgram : Program}
  {items otherItems : List WrittenItem} {pieces otherPieces : List (List Token)}
  {file otherFile : File}

theorem exists_structs (consists : source.Consists program items pieces file) :
    ∃ structItems structTokens structFile, DerivesItems structItems structTokens ∧
      fileTree? structItems = some structFile ∧
      structFile.structs.toList = file.structs.toList ∧
      structTokens.map Token.content = (source.items.filter (startsItem .structKw)).flatten ∧
      ∀ token ∈ structTokens, token.kind ≠ .endOfFile := by
  have kept : List.Forall₂ DerivesItem (items.filter fun item => item.struct?.isSome)
      (pieces.filter fun piece => startsItem .structKw (piece.map Token.content)) := by
    refine List.rel_filter ?_ consists.derived
    intro item piece derives
    show item.struct?.isSome = true ↔ startsItem .structKw (piece.map Token.content) = true
    rw [derives.startsItem_eq.1]
  have valid := (exists_fileTree_iff items).mp ⟨file, consists.built⟩
  obtain ⟨structFile, built⟩ := (exists_fileTree_iff _).mpr fun item member =>
    valid item (List.mem_of_mem_filter member)
  refine ⟨_, _, structFile, derivesItems_flatten kept, built, ?_, ?_, ?_⟩
  · rw [(fileTree?_items built).1, (fileTree?_items consists.built).1, List.filterMap_filter]
    refine List.filterMap_congr fun item _ => ?_
    cases item <;> rfl
  · rw [consists.cut, List.filter_map, List.map_flatten]
    rfl
  · intro token member
    obtain ⟨piece, inPieces, inPiece⟩ := List.mem_flatten.mp member
    exact consists.proper piece (List.mem_of_mem_filter inPieces) token inPiece

theorem types_eq (consists : source.Consists program items pieces file)
    (otherConsists : other.Consists otherProgram otherItems otherPieces otherFile)
    (sameStructs : source.items.filter (startsItem .structKw) =
      other.items.filter (startsItem .structKw)) : program.types = otherProgram.types := by
  obtain ⟨_, _, structFile, derives, built, structsEq, contentsEq, proper⟩ :=
    consists.exists_structs
  obtain ⟨_, _, otherStructFile, otherDerives, otherBuilt, otherStructsEq, otherContentsEq, _⟩ :=
    otherConsists.exists_structs
  have sameContents := contentsEq.trans
    ((congrArg List.flatten sameStructs).trans otherContentsEq.symm)
  have same := congrArg (fun file : File => file.structs.toList)
    (fileTree?_moved_eq derives otherDerives built otherBuilt sameContents proper)
  simp only [File.moved, Array.toList_map, structsEq, otherStructsEq] at same
  rw [consists.complete.types_eq, otherConsists.complete.types_eq, ← Pass.structTypes_moved,
    same, Pass.structTypes_moved]

theorem exists_function (consists : source.Consists program items pieces file) {item}
    (member : item ∈ source.items) (isFunction : startsItem .fnKw item = true) :
    ∃ written tokens tree function, DerivesItem (.function written) tokens ∧
      tokens.map Token.content = item ∧ (∀ token ∈ tokens, token.kind ≠ .endOfFile) ∧
      written.tree? = some tree ∧ compileFunction program.types tree 0 = .ok function ∧
      program.function? written.name = some function := by
  rw [consists.cut] at member
  obtain ⟨tokens, isPiece, rfl⟩ := List.mem_map.mp member
  obtain ⟨writtenItem, isItem, derives⟩ := exists_of_forall₂ consists.derived.flip isPiece
  have derives : DerivesItem writtenItem tokens := derives
  rw [derives.startsItem_eq.2] at isFunction
  cases writtenItem with
  | struct => exact absurd isFunction Bool.false_ne_true
  | function written =>
    have isListed : written ∈ items.filterMap WrittenItem.function? :=
      List.mem_filterMap.mpr ⟨_, isItem, rfl⟩
    obtain ⟨tree, isTree, built⟩ := exists_of_forall₂ (fileTree?_items consists.built).2 isListed
    obtain ⟨function, isCompiled, ok⟩ := exists_of_forall₂ consists.complete.compiled isTree
    have nameEq : function.name = written.name := by
      obtain ⟨_, _, _, _, _, _, rfl⟩ := WrittenFunction.tree?_eq_some.mp built
      exact (compileFunction_signature ok).1
    refine ⟨written, tokens, tree, function, derives, rfl, consists.proper tokens isPiece, built,
      ok, ?_⟩
    rw [← nameEq]
    exact consists.complete.function?_eq_some isCompiled

end Source.Consists

/-- The code of a function depends on its own tokens and on the structs of its source
only.  When two sources compile and have the same structs in order, a function that
stands in both compiles to the same parameters, result, words, constants, frame and
layer. -/
theorem compile_function_independent {config : Config} (proceeds : config.faultLimit? ≠ some 0)
    {first second : Source} {program otherProgram : Program}
    (compiled : (compile config first).outcome = .ok program)
    (otherCompiled : (compile config second).outcome = .ok otherProgram)
    (sameStructs : first.items.filter (startsItem .structKw) =
      second.items.filter (startsItem .structKw))
    {item : List Content} (isFunction : startsItem .fnKw item = true)
    (inFirst : item ∈ first.items) (inSecond : item ∈ second.items) :
    ∃ name function, item[1]? = some (.identifier name) ∧
      program.function? name = some function ∧ otherProgram.function? name = some function := by
  obtain ⟨_, _, _, consists⟩ := Source.exists_consists proceeds compiled
  obtain ⟨_, _, _, otherConsists⟩ := Source.exists_consists proceeds otherCompiled
  have sameTypes := consists.types_eq otherConsists sameStructs
  obtain ⟨written, tokens, tree, function, derives, contentsEq, proper, built, ok, found⟩ :=
    consists.exists_function inFirst isFunction
  obtain ⟨other, otherTokens, otherTree, otherFunction, otherDerives, otherContentsEq, _,
    otherBuilt, otherOk, otherFound⟩ := otherConsists.exists_function inSecond isFunction
  have sameTree := WrittenFunction.tree?_moved_eq derives otherDerives built otherBuilt
    (contentsEq.trans otherContentsEq.symm) proper
  rw [← sameTypes] at otherOk
  obtain rfl := compileFunction_eq_of_moved sameTree ok otherOk
  have named : item[1]? = some (.identifier written.name) := contentsEq ▸ derives.name_eq
  have otherNamed : item[1]? = some (.identifier other.name) :=
    otherContentsEq ▸ otherDerives.name_eq
  have sameName : written.name = other.name :=
    Content.identifier.inj (Option.some.inj (named.symm.trans otherNamed))
  exact ⟨written.name, function, named, found, sameName ▸ otherFound⟩

/-- A struct and a function that uses it. -/
def earlySource : Source :=
  ⟨"early", "struct M \x7b \x7d fn keep(m: M) -> M \x7b return m; \x7d"⟩

/-- The same function after another one and before the same struct. -/
def lateSource : Source :=
  ⟨"late", "fn idle() \x7b \x7d fn keep ( m:M )->M \x7breturn m;\x7d struct M \x7b\x7d"⟩

/-- What the function stands for. -/
def keepItem : List Content :=
  (TokenStream.ofText "fn keep(m: M) -> M \x7b return m; \x7d").tokens.map Token.content

theorem compile_function_independent_keep :
    earlySource.items.filter (startsItem .structKw) =
      lateSource.items.filter (startsItem .structKw) ∧
    startsItem .fnKw keepItem = true ∧ keepItem ∈ earlySource.items ∧ keepItem ∈ lateSource.items ∧
    ∃ early late function, (compile .standard earlySource).outcome = .ok early ∧
      (compile .standard lateSource).outcome = .ok late ∧
      early.function? "keep" = some function ∧ late.function? "keep" = some function := by
  have shared : earlySource.items.filter (startsItem .structKw) =
        lateSource.items.filter (startsItem .structKw) ∧
      startsItem .fnKw keepItem = true ∧ keepItem ∈ earlySource.items ∧
      keepItem ∈ lateSource.items ∧ keepItem[1]? = some (.identifier "keep") := by
    decide +kernel
  obtain ⟨sameStructs, isFunction, inEarly, inLate, isKeep⟩ := shared
  have earlyOk : (compile .standard earlySource).outcome.toOption.any (fun _ => true) = true := by
    decide +kernel
  have lateOk : (compile .standard lateSource).outcome.toOption.any (fun _ => true) = true := by
    decide +kernel
  obtain ⟨early, earlyCompiled, _⟩ := exists_of_any_toOption earlyOk
  obtain ⟨late, lateCompiled, _⟩ := exists_of_any_toOption lateOk
  obtain ⟨name, function, named, inEarlyProgram, inLateProgram⟩ :=
    compile_function_independent (by decide) earlyCompiled lateCompiled sameStructs isFunction
      inEarly inLate
  obtain rfl := Content.identifier.inj (Option.some.inj (named.symm.trans isKeep))
  exact ⟨sameStructs, isFunction, inEarly, inLate, early, late, function, earlyCompiled,
    lateCompiled, inEarlyProgram, inLateProgram⟩

end SlotCompiler
