import SlotCompiler.Proofs.Grammar.Scoping

/-!
Contract: the grammar of source files.
-/

namespace SlotCompiler

/-- A parameter as it is written. -/
structure WrittenParameter where
  name : String
  isMutable : Bool
  type : TypeRef

/-- A function as it is written. -/
structure WrittenFunction where
  name : String
  parameters : List WrittenParameter
  returnType? : Option TypeRef
  body : List Statement
  position : Position

/-- An item of a file as it is written.  A struct has no names to resolve. -/
inductive WrittenItem where
  | struct (item : StructItem)
  | function (item : WrittenFunction)

/-! ## Tokens -/

/-- The tokens are written for the fields of a struct, with commas between them
and perhaps after the last. -/
inductive DerivesFields : List FieldDeclaration → List Token → Prop where
  | none : DerivesFields [] []
  | last {token : Token} {name type tokens} (isName : token.content = .identifier name)
      (typed : DerivesType .colon (some type) tokens) :
      DerivesFields [⟨name, type⟩] (token :: tokens)
  | more {token comma : Token} {name type fields tokens others}
      (isName : token.content = .identifier name) (typed : DerivesType .colon (some type) tokens)
      (isComma : comma.kind = .comma) (rest : DerivesFields fields others) :
      DerivesFields (⟨name, type⟩ :: fields) (token :: (tokens ++ comma :: others))

/-- The tokens are written for the parameters of a function, with commas between
them. -/
inductive DerivesParameters : List WrittenParameter → List Token → Prop where
  | none : DerivesParameters [] []
  | last {name isMutable type tokens typeTokens} (named : DerivesName isMutable name tokens)
      (typed : DerivesType .colon (some type) typeTokens) :
      DerivesParameters [⟨name, isMutable, type⟩] (tokens ++ typeTokens)
  | more {name isMutable type} {comma : Token} {next parameters tokens typeTokens others}
      (named : DerivesName isMutable name tokens)
      (typed : DerivesType .colon (some type) typeTokens) (isComma : comma.kind = .comma)
      (rest : DerivesParameters (next :: parameters) others) :
      DerivesParameters (⟨name, isMutable, type⟩ :: next :: parameters)
        (tokens ++ (typeTokens ++ comma :: others))

/-- The tokens are written for a function up to its body. -/
inductive DerivesHeader :
    String → List WrittenParameter → Option TypeRef → Position → List Token → Prop where
  | mk {keyword token opening closing : Token} {name parameters returnType? tokens typeTokens}
      (isFunction : keyword.kind = .fnKw) (isName : token.content = .identifier name)
      (opens : opening.kind = .leftParen) (listed : DerivesParameters parameters tokens)
      (closes : closing.kind = .rightParen) (returned : DerivesType .arrow returnType? typeTokens) :
      DerivesHeader name parameters returnType? keyword.position
        (keyword :: token :: opening :: (tokens ++ closing :: typeTokens))

/-- The tokens are written for the item. -/
inductive DerivesItem : WrittenItem → List Token → Prop where
  | struct {keyword token opening closing : Token} {name fields tokens}
      (isStruct : keyword.kind = .structKw) (isName : token.content = .identifier name)
      (opens : opening.kind = .leftBrace) (listed : DerivesFields fields tokens)
      (closes : closing.kind = .rightBrace) :
      DerivesItem (.struct ⟨name, fields, keyword.position⟩)
        (keyword :: token :: opening :: (tokens ++ [closing]))
  | function {name parameters returnType? body position tokens others}
      (headed : DerivesHeader name parameters returnType? position tokens)
      (braced : DerivesStatement (.block body) others) :
      DerivesItem (.function ⟨name, parameters, returnType?, body, position⟩) (tokens ++ others)

theorem DerivesItem.length_pos {item tokens}
    (derives : DerivesItem item tokens) : 0 < tokens.length := by
  cases derives with
  | struct => exact Nat.succ_pos _
  | function headed =>
    cases headed with
    | mk => exact Nat.succ_pos _

/-- The tokens are written for the items of a file, one after the other. -/
inductive DerivesItems : List WrittenItem → List Token → Prop where
  | none : DerivesItems [] []
  | more {item items tokens others} (first : DerivesItem item tokens)
      (rest : DerivesItems items others) : DerivesItems (item :: items) (tokens ++ others)

/-! ## Conditions -/

/-- The conditions on a function: its parameters have different names, the names
in its body are in order, it does not call itself, its blocks and expressions
are not nested too deeply, and its parameters, variables and temporaries fit
into a frame. -/
structure WrittenFunction.Valid (item : WrittenFunction) : Prop where
  parameters : (item.parameters.map WrittenParameter.name).Nodup
  names : StatementsScoped (item.parameters.map WrittenParameter.name) [] item.body
  calls : item.name ∉ (statementsNeeds item.body).calls
  nesting : (statementsNeeds item.body).height ≤ Input.nestingLimit
  slots : item.parameters.length + (statementsNeeds item.body).slots ≤ Variables.capacity

/-- The conditions on an item; the fields of a struct have different names. -/
def WrittenItem.Valid : WrittenItem → Prop
  | .struct item => (item.fields.map FieldDeclaration.name).Nodup
  | .function item => item.Valid

/-! ## Trees -/

/-- The slots of some parameters, and the function after they are declared. -/
def parametersTree? : List WrittenParameter → Context → Option (List Parameter × Context)
  | [], context => some ([], context)
  | ⟨name, isMutable, type⟩ :: rest, context => do
      let (slot, context) ← context.declare? name isMutable
      let (others, context) ← parametersTree? rest context
      some ({ name, slot, isMutable, type } :: others, context)

def WrittenFunction.tree? (item : WrittenFunction) : Option FunctionItem := do
  let (parameters, context) ← parametersTree? item.parameters (Context.initial item.name)
  let (body, context) ← statementsTree? item.body 0 context
  some
    { name := item.name, position := item.position, parameters, returnType? := item.returnType?,
      body, frame := context.frame, callees := context.callees, isBroken := false }

def File.add? (file : File) : WrittenItem → Option File
  | .struct item =>
    if (item.fields.map FieldDeclaration.name).Nodup then
      some { file with structs := file.structs.push item }
    else
      none
  | .function item => do
      let tree ← item.tree?
      some { file with functions := file.functions.push tree }

def fileTree? (items : List WrittenItem) : Option File := items.foldlM File.add? .empty

section TreeCases

variable {context after : Context}

theorem parametersTree?_cons_eq_some {name isMutable type rest parameters} :
    parametersTree? (⟨name, isMutable, type⟩ :: rest) context = some (parameters, after) ↔
      ∃ slot middle others, context.declare? name isMutable = some (slot, middle) ∧
        parametersTree? rest middle = some (others, after) ∧
        parameters = { name, slot, isMutable, type } :: others := by
  rw [parametersTree?]
  simp only [Option.bind_eq_bind, Option.bind_eq_some_iff, Prod.exists]
  grind

theorem WrittenFunction.tree?_eq_some {item : WrittenFunction} {tree} :
    item.tree? = some tree ↔
      ∃ parameters entered body left,
        parametersTree? item.parameters (Context.initial item.name) = some (parameters, entered) ∧
        statementsTree? item.body 0 entered = some (body, left) ∧
        tree =
          { name := item.name, position := item.position, parameters,
            returnType? := item.returnType?, body, frame := left.frame, callees := left.callees,
            isBroken := false } := by
  rw [WrittenFunction.tree?]
  simp only [Option.bind_eq_bind, Option.bind_eq_some_iff, Prod.exists]
  grind

end TreeCases

/-! ## Items of a kind -/

def WrittenItem.struct? : WrittenItem → Option StructItem
  | .struct item => some item
  | .function _ => none

def WrittenItem.function? : WrittenItem → Option WrittenFunction
  | .struct _ => none
  | .function item => some item

theorem File.foldlM_add? {items : List WrittenItem} {start file}
    (built : items.foldlM File.add? start = some file) :
    file.structs.toList = start.structs.toList ++ items.filterMap WrittenItem.struct? ∧
      ∃ trees, file.functions.toList = start.functions.toList ++ trees ∧
        List.Forall₂ (fun written tree => WrittenFunction.tree? written = some tree)
          (items.filterMap WrittenItem.function?) trees := by
  induction items generalizing start with
  | nil =>
    cases built
    exact ⟨(List.append_nil _).symm, [], (List.append_nil _).symm, .nil⟩
  | cons item rest ih =>
    rw [List.foldlM_cons] at built
    obtain ⟨later, added, restBuilt⟩ := Option.bind_eq_some_iff.mp built
    obtain ⟨structsEq, trees, functionsEq, related⟩ := ih restBuilt
    cases item with
    | struct item =>
      obtain ⟨_, ⟨⟩⟩ := Option.ite_none_right_eq_some.mp added
      refine ⟨?_, trees, functionsEq, related⟩
      rw [structsEq, Array.toList_push, List.append_assoc]
      rfl
    | function item =>
      obtain ⟨tree, treeBuilt, ⟨⟩⟩ := Option.bind_eq_some_iff.mp added
      refine ⟨structsEq, tree :: trees, ?_, .cons treeBuilt related⟩
      rw [functionsEq, Array.toList_push, List.append_assoc]
      rfl

theorem fileTree?_items {items file} (built : fileTree? items = some file) :
    file.structs.toList = items.filterMap WrittenItem.struct? ∧
      List.Forall₂ (fun written tree => WrittenFunction.tree? written = some tree)
        (items.filterMap WrittenItem.function?) file.functions.toList := by
  obtain ⟨structsEq, trees, functionsEq, related⟩ := File.foldlM_add? built
  refine ⟨structsEq, ?_⟩
  rw [functionsEq]
  exact related

/-! ## Reading -/

theorem parametersTree?_reads {parameters trees context after}
    (built : parametersTree? parameters context = some (trees, after)) :
    ReadsParameters trees context after := by
  induction parameters generalizing context trees with
  | nil =>
    cases built
    exact .nil
  | cons parameter rest ih =>
    obtain ⟨slot, middle, others, declared, restBuilt, rfl⟩ := parametersTree?_cons_eq_some.mp built
    exact .cons (Context.declare?_eq_some_iff.mp declared) (ih restBuilt)

theorem WrittenFunction.tree?_isRead {written : WrittenFunction} {item}
    (built : written.tree? = some item) : item.IsRead := by
  obtain ⟨parameters, entered, body, left, parametersBuilt, bodyBuilt, rfl⟩ :=
    WrittenFunction.tree?_eq_some.mp built
  exact ⟨entered, left, parametersTree?_reads parametersBuilt,
    (statementsTree?_builds written.body bodyBuilt).reads, rfl, rfl⟩

/-! ## When there is a tree -/

theorem Context.initial_names (name : String) : (Context.initial name).Names [] [] where
  taken _ := iff_of_false Bool.false_ne_true List.not_mem_nil
  visible _ := iff_of_false Bool.false_ne_true List.not_mem_nil
  bounded := by
    rintro slot ⟨scope, member, entry, inNames, _⟩
    rw [List.mem_singleton.mp member] at inNames
    exact absurd inNames List.not_mem_nil
  distinct found := nomatch found

section Parameters

variable {parameters : List WrittenParameter} {context after : Context}

theorem parametersTree?_gains {trees}
    (built : parametersTree? parameters context = some (trees, after)) :
    context.Gains (parameters.map WrittenParameter.name).reverse parameters.length after := by
  induction parameters generalizing context trees with
  | nil =>
    cases built
    exact .refl _
  | cons parameter rest ih =>
    rcases parameter with ⟨name, isMutable, type⟩
    obtain ⟨slot, middle, others, declared, restBuilt, _⟩ := parametersTree?_cons_eq_some.mp built
    have first := (Context.declare?_eq_some_iff.mp declared).gains
    rw [List.map_cons, List.reverse_cons, List.length_cons, Nat.add_comm]
    exact first.trans (ih restBuilt)

theorem exists_parametersTree_iff {inner outer} (names : context.Names inner outer) :
    (∃ trees after, parametersTree? parameters context = some (trees, after)) ↔
      ((parameters.map WrittenParameter.name).Nodup ∧
        ∀ name ∈ parameters.map WrittenParameter.name, name ∉ inner) ∧
      context.Fits 0 (.room parameters.length) := by
  induction parameters generalizing context inner with
  | nil => exact iff_of_true ⟨_, _, rfl⟩ ⟨⟨List.nodup_nil, by simp⟩, context.fits_nothing 0⟩
  | cons parameter rest ih =>
    rcases parameter with ⟨name, isMutable, type⟩
    have gains {slot : Slot} {middle : Context}
        (declared : context.declare? name isMutable = some (slot, middle)) :=
      (Context.declare?_eq_some_iff.mp declared).gains
    have needsEq : Needs.room (rest.length + 1) =
        (Needs.room 1).and (.room rest.length) := by
      rw [Nat.add_comm]
      rfl
    rw [List.length_cons, needsEq]
    have namesIff : ((name :: rest.map WrittenParameter.name).Nodup ∧
          ∀ other ∈ name :: rest.map WrittenParameter.name, other ∉ inner) ↔
        name ∉ inner ∧ (rest.map WrittenParameter.name).Nodup ∧
          ∀ other ∈ rest.map WrittenParameter.name, other ∉ [name] ++ inner := by
      grind
    rw [List.map_cons, namesIff]
    exact Context.exists_both_iff gains (Context.exists_declare_iff names name isMutable 0)
      fun declared => Context.exists_given_iff (ih ((gains declared).names names))
        fun _ _ => ⟨_, rfl⟩

end Parameters

theorem WrittenFunction.exists_tree_iff (item : WrittenFunction) :
    (∃ tree, item.tree? = some tree) ↔ item.Valid := by
  have initialNames := Context.initial_names item.name
  have bodyIff {parameters : List Parameter} {entered : Context}
      (built : parametersTree? item.parameters (Context.initial item.name) =
        some (parameters, entered)) :
      (∃ body left, statementsTree? item.body 0 entered = some (body, left)) ↔
        StatementsScoped (item.parameters.map WrittenParameter.name) [] item.body ∧
          entered.Fits 0 (statementsNeeds item.body) := by
    apply exists_statementsTree_iff
    refine ((parametersTree?_gains built).names initialNames).congr fun name => ?_
    rw [List.append_nil, List.mem_reverse]
  have both := @Context.exists_both_iff _ _ _ _ _
    (fun entered => statementsTree? item.body 0 entered.2) _ _ _ _ _ parametersTree?_gains
    (exists_parametersTree_iff initialNames) bodyIff
  have treeIff : (∃ tree, item.tree? = some tree) ↔ ∃ body left,
      ((parametersTree? item.parameters (Context.initial item.name)).bind
        fun entered => statementsTree? item.body 0 entered.2) = some (body, left) := by
    simp only [WrittenFunction.tree?_eq_some, Option.bind_eq_some_iff, Prod.exists]
    constructor
    · rintro ⟨_, parameters, entered, body, left, parametersBuilt, bodyBuilt, _⟩
      exact ⟨body, left, parameters, entered, parametersBuilt, bodyBuilt⟩
    · rintro ⟨body, left, parameters, entered, parametersBuilt, bodyBuilt⟩
      exact ⟨_, parameters, entered, body, left, parametersBuilt, bodyBuilt, rfl⟩
  rw [treeIff, both]
  constructor
  · rintro ⟨⟨⟨nodup, _⟩, names⟩, noCall, shallow, room⟩
    simp only [Needs.and, Needs.room] at noCall shallow room
    refine ⟨nodup, names, noCall, by omega, ?_⟩
    change _ ∨ 0 + _ ≤ _ at room
    omega
  · rintro ⟨nodup, names, noCall, shallow, room⟩
    refine ⟨⟨⟨nodup, fun _ _ => List.not_mem_nil⟩, names⟩, noCall, .inr ?_, .inr ?_⟩
    · simp only [Needs.and, Needs.room]
      omega
    · show 0 + _ ≤ _
      simp only [Needs.and, Needs.room]
      omega

theorem File.exists_add_iff (file : File) (item : WrittenItem) :
    (∃ later, file.add? item = some later) ↔ item.Valid := by
  cases item with
  | struct item =>
    simp only [File.add?, WrittenItem.Valid, Option.ite_none_right_eq_some]
    exact ⟨fun ⟨_, nodup, _⟩ => nodup, fun nodup => ⟨_, nodup, rfl⟩⟩
  | function item =>
    simp only [File.add?, WrittenItem.Valid, Option.bind_eq_bind, Option.bind_eq_some_iff]
    rw [← item.exists_tree_iff]
    exact ⟨fun ⟨_, tree, built, _⟩ => ⟨tree, built⟩, fun ⟨tree, built⟩ => ⟨_, tree, built, rfl⟩⟩

theorem exists_fileTree_iff (items : List WrittenItem) :
    (∃ file, fileTree? items = some file) ↔ ∀ item ∈ items, item.Valid := by
  unfold fileTree?
  generalize File.empty = start
  induction items generalizing start with
  | nil => exact iff_of_true ⟨start, rfl⟩ fun _ member => absurd member List.not_mem_nil
  | cons item rest ih =>
    rw [List.forall_mem_cons, ← start.exists_add_iff item]
    simp only [List.foldlM_cons, Option.bind_eq_bind, Option.bind_eq_some_iff]
    constructor
    · rintro ⟨file, later, added, restBuilt⟩
      exact ⟨⟨later, added⟩, (ih later).mp ⟨file, restBuilt⟩⟩
    · rintro ⟨⟨later, added⟩, restValid⟩
      obtain ⟨file, restBuilt⟩ := (ih later).mpr restValid
      exact ⟨file, later, added, restBuilt⟩

end SlotCompiler
