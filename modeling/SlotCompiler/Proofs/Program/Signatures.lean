import SlotCompiler.Proofs.Program.Completeness

/-!
Contract: the functions of a program are those of its source.
-/

namespace SlotCompiler

theorem typeParameters_lookup {env parameters frame later found all}
    (ok : typeParameters env parameters frame found = .ok (all, later)) :
    all.toList.map some =
      found.toList.map some ++
        parameters.map fun parameter => env.types.lookup? parameter.type.name := by
  induction parameters generalizing frame found with
  | nil =>
    cases ok
    rw [List.map_nil, List.append_nil]
  | cons parameter rest ih =>
    unfold typeParameters TypeEnv.findType at ok
    cases named : env.types.lookup? parameter.type.name with
    | none =>
      simp only [named] at ok
      contradiction
    | some type =>
      simp only [named] at ok
      rw [ih ok, Array.toList_push, List.map_append, List.append_assoc]
      simp only [List.map_cons, named]
      rfl

theorem typeOfReturn_lookup {env returnType? type?}
    (ok : typeOfReturn env returnType? = .ok type?) :
    type?.map some = returnType?.map fun type => env.types.lookup? type.name := by
  cases returnType? with
  | none =>
    cases ok
    rfl
  | some type =>
    unfold typeOfReturn TypeEnv.findType at ok
    cases named : env.types.lookup? type.name with
    | none =>
      simp only [named] at ok
      contradiction
    | some found =>
      simp only [named] at ok
      cases ok
      simp only [Option.map_some, named]

theorem compileFunction_signature {types item layer function}
    (ok : compileFunction types item layer = .ok function) :
    function.name = item.name ∧ function.layer = layer ∧
      function.parameters.map some =
        item.parameters.map (fun parameter => types.lookup? parameter.type.name) ∧
      function.returnType?.map some =
        item.returnType?.map fun type => types.lookup? type.name := by
  obtain ⟨typed, typedOk, ok⟩ := except_bind_eq_ok_iff.mp ok
  obtain ⟨⟨parameters, frame⟩, parametersOk, typedOk⟩ := except_bind_eq_ok_iff.mp typedOk
  obtain ⟨returnType?, returnOk, typedOk⟩ := except_bind_eq_ok_iff.mp typedOk
  obtain ⟨_, _, typedOk⟩ := except_bind_eq_ok_iff.mp typedOk
  obtain ⟨_, _, typedOk⟩ := except_bind_eq_ok_iff.mp typedOk
  cases typedOk
  have parametersEq := typeParameters_lookup parametersOk
  have returnEq := typeOfReturn_lookup returnOk
  dsimp only at ok
  split at ok
  · contradiction
  · cases ok
    exact ⟨rfl, rfl, parametersEq, returnEq⟩

theorem File.CompilesTo.names_eq {file : File} {program} (complete : file.CompilesTo program) :
    file.functions.toList.map FunctionItem.name =
      program.functions.toList.map FunctionCode.name := by
  rw [← List.forall₂_eq_eq_eq, List.forall₂_map_left_iff, List.forall₂_map_right_iff]
  exact complete.compiled.imp fun item function ok => (compileFunction_signature ok).1.symm

theorem parametersTree?_types {parameters trees context after}
    (built : parametersTree? parameters context = some (trees, after)) :
    trees.map Parameter.type = parameters.map WrittenParameter.type := by
  induction parameters generalizing context trees with
  | nil =>
    cases built
    rfl
  | cons parameter rest ih =>
    rcases parameter with ⟨name, isMutable, type⟩
    obtain ⟨slot, middle, others, _, restBuilt, rfl⟩ := parametersTree?_cons_eq_some.mp built
    rw [List.map_cons, List.map_cons, ih restBuilt]

theorem Config.stopsAfter_zero (config : Config) (proceeds : config.faultLimit? ≠ some 0) :
    config.stopsAfter 0 = false := by
  unfold Config.stopsAfter
  split
  · rename_i limit isLimit
    have isPositive : limit ≠ 0 := fun isZero => proceeds (isZero ▸ isLimit)
    exact decide_eq_false (by omega)
  · rfl

/-- The items are written with all tokens of the source, and keep their
conditions. -/
def Source.Holds (source : Source) (items : List WrittenItem) : Prop :=
  DerivesItems items (TokenStream.ofText source.text).tokens ∧ ∀ item ∈ items, item.Valid

/-- The compiled function of a written one: it has the name of that function and
the types that the signature names, and nothing is called. -/
structure WrittenFunction.CompilesTo (written : WrittenFunction) (types : TypeTable)
    (function : FunctionCode) : Prop where
  name_eq : function.name = written.name
  layer_eq : function.layer = 0
  parameters_eq : function.parameters.map some =
    written.parameters.map fun parameter => types.lookup? parameter.type.name
  returnType_eq : function.returnType?.map some =
    written.returnType?.map fun type => types.lookup? type.name
  noCalls : (statementsNeeds written.body).calls = []

theorem WrittenFunction.compilesTo {written : WrittenFunction} {item types function}
    (built : written.tree? = some item) (isFree : blockCallFree item.body = true)
    (ok : compileFunction types item 0 = .ok function) : written.CompilesTo types function := by
  obtain ⟨nameEq, layerEq, parametersEq, returnEq⟩ := compileFunction_signature ok
  obtain ⟨parameters, _, _, _, parametersBuilt, bodyBuilt, rfl⟩ :=
    WrittenFunction.tree?_eq_some.mp built
  refine ⟨nameEq, layerEq, ?_, returnEq, (statementsTree?_builds _ bodyBuilt).isCallFree_iff.mp isFree⟩
  have typesEq := congrArg (List.map fun type : TypeRef => types.lookup? type.name)
    (parametersTree?_types parametersBuilt)
  rw [List.map_map, List.map_map] at typesEq
  exact parametersEq.trans typesEq

/-- A program has exactly the functions of its source.  A source that compiles, with
any limit on faults above zero, is a file of items; the functions among them are
those of the program, in order, and their names are different. -/
theorem compile_functions_written {config : Config} (proceeds : config.faultLimit? ≠ some 0)
    {source : Source} {program : Program}
    (compiled : (compile config source).outcome = .ok program) :
    (∃ items, source.Holds items) ∧
    (∀ items, source.Holds items →
      List.Forall₂ (fun written function => written.CompilesTo program.types function)
        (items.filterMap WrittenItem.function?) program.functions.toList) ∧
    (program.functions.toList.map FunctionCode.name).Nodup := by
  obtain ⟨clean, complete⟩ := compile_complete (config.stopsAfter_zero proceeds) compiled
  refine ⟨?_, ?_, ?_⟩
  · obtain ⟨items, derives, built⟩ := parseSource_written clean
    exact ⟨items, derives, (exists_fileTree_iff items).mp ⟨_, built⟩⟩
  · rintro items ⟨derives, valid⟩
    obtain ⟨file, built⟩ := (exists_fileTree_iff items).mpr valid
    rw [parseSource_of_derives derives built] at complete
    have trees := (fileTree?_items built).2
    refine List.forall₂_iff_get.mpr ⟨trees.length_eq.trans complete.compiled.length_eq, ?_⟩
    intro index isWritten isCompiled
    have isItem : index < file.functions.toList.length := trees.length_eq ▸ isWritten
    exact WrittenFunction.compilesTo (trees.get isWritten isItem)
      (complete.callFree _ (List.get_mem _ _)) (complete.compiled.get isItem isCompiled)
  · rw [← complete.names_eq]
    exact complete.distinct

theorem exists_of_any_toOption {ε α : Type} {outcome : Except ε α} {test : α → Bool}
    (passes : outcome.toOption.any test = true) :
    ∃ value, outcome = .ok value ∧ test value = true := by
  cases outcome with
  | error _ => exact absurd passes Bool.false_ne_true
  | ok value => exact ⟨value, rfl, passes⟩

/-- A struct between two functions, the first of which uses it. -/
def markedSource : Source :=
  ⟨"marked", "fn pick(mark: Mark, n: int) -> Mark \x7b return mark; \x7d
    struct Mark \x7b \x7d fn idle() \x7b \x7d"⟩

theorem compile_functions_written_marked :
    Config.standard.faultLimit? ≠ some 0 ∧
    ∃ program, (compile .standard markedSource).outcome = .ok program ∧
      program.functions.toList.map (fun function => (function.name, function.parameters)) =
        [("pick", [⟨4⟩, .int]), ("idle", [])] ∧
      ∃ items, markedSource.Holds items ∧
        List.Forall₂ (fun written function => written.CompilesTo program.types function)
          (items.filterMap WrittenItem.function?) program.functions.toList := by
  have proceeds : Config.standard.faultLimit? ≠ some 0 := by decide
  have passes : (compile .standard markedSource).outcome.toOption.any (fun program =>
      program.functions.toList.map (fun function => (function.name, function.parameters)) =
        [("pick", [⟨4⟩, .int]), ("idle", [])]) = true := by
    decide +kernel
  obtain ⟨program, compiled, hasFunctions⟩ := exists_of_any_toOption passes
  obtain ⟨⟨items, holds⟩, written, _⟩ := compile_functions_written proceeds compiled
  exact ⟨proceeds, program, compiled, of_decide_eq_true hasFunctions, items, holds,
    written items holds⟩

end SlotCompiler
