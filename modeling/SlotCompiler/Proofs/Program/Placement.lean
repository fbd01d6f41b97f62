import SlotCompiler.Proofs.Emission.Relocation
import SlotCompiler.Proofs.Parse.FileAgreement
import SlotCompiler.Proofs.Program.Limit
import SlotCompiler.Proofs.Tree.TypingPlacement

/-!
Contract: the layout of a source does not influence its compilation.
-/

namespace SlotCompiler

open Diagnostic

variable {place here there : Position → Position}

/-! ## One function -/

theorem typeParameters_moved (env : TypeEnv) (parameters : List Parameter) (frame : Variables)
    (found : Array TypeId) :
    typeParameters env (parameters.map (Parameter.moved place)) frame found =
      (typeParameters env parameters frame found).mapError (moved place) := by
  induction parameters generalizing frame found with
  | nil => rfl
  | cons parameter rest ih =>
    simp only [List.map_cons, typeParameters, Parameter.moved,
      env.findType_moved parameter.type]
    cases env.findType parameter.type with
    | error fault => rfl
    | ok type => exact ih _ _

theorem typeOfReturn_moved (env : TypeEnv) (returnType? : Option TypeRef) :
    typeOfReturn env (returnType?.map (TypeRef.moved place)) =
      (typeOfReturn env returnType?).mapError (moved place) := by
  cases returnType? with
  | none => rfl
  | some type =>
    simp only [typeOfReturn, Option.map_some, env.findType_moved type]
    cases env.findType type <;> rfl

theorem requireReturn_moved (item : FunctionItem) (returnType? : Option TypeId) :
    requireReturn (item.moved place) returnType? =
      (requireReturn item returnType?).mapError (moved place) := by
  simp only [requireReturn, FunctionItem.moved, blockAlwaysReturns_moved]
  split <;> rfl

def TypedFunction.moved (place : Position → Position) (typed : TypedFunction) : TypedFunction :=
  { typed with body := blockMoved place typed.body }

theorem except_bind_moved {α β : Type} {change : β → β} {first alike : Except Diagnostic α}
    {next nextAlike : α → Except Diagnostic β} (same : alike = first.mapError (moved place))
    (rest : ∀ value, nextAlike value = ((next value).map change).mapError (moved place)) :
    (alike >>= nextAlike) = ((first >>= next).map change).mapError (moved place) := by
  cases same
  cases first with
  | error fault => rfl
  | ok value => exact rest value

theorem typeFunction_moved (types : TypeTable) (item : FunctionItem) :
    typeFunction types (item.moved place) =
      ((typeFunction types item).map (TypedFunction.moved place)).mapError (moved place) := by
  apply except_bind_moved (typeParameters_moved ⟨types, none⟩ item.parameters item.frame #[])
  rintro ⟨parameters, frame⟩
  apply except_bind_moved (typeOfReturn_moved ⟨types, none⟩ item.returnType?)
  intro returnType?
  have bodyEq : resolveBlock ⟨types, returnType?⟩ (item.moved place).body frame = _ :=
    resolveNodes_moved item.body frame
  simp only [bodyEq]
  apply except_bind_moved rfl
  intro _
  exact except_bind_moved (requireReturn_moved item returnType?) fun _ => rfl

theorem emitFunction_moved (name : String) (body : Block) (returnType? : Option TypeId) :
    emitFunction name (blockMoved place body) returnType? =
      (emitFunction name body returnType?).adaptExcept (moved place) := by
  apply @Emit.Alike.eq_adaptExcept name
  apply (emitNodes_alike (.ofPlaces name place) body).bind
  intro _
  split
  · exact .instruction _
  · exact .pure ()

theorem compileFunction_moved (types : TypeTable) (item : FunctionItem) (layer : Nat) :
    compileFunction types (item.moved place) layer =
      (compileFunction types item layer).mapError (moved place) := by
  simp only [compileFunction, typeFunction_moved]
  cases typeFunction types item with
  | error fault => rfl
  | ok typed =>
    simp only [Except.map, Except.mapError, bind, Except.bind, TypedFunction.moved,
      FunctionItem.moved, emitFunction_moved, EStateM.adaptExcept]
    cases emitFunction item.name typed.body typed.returnType? ⟨.empty, typed.frame⟩ <;> rfl

/-! ## Passes -/

def Notes.moved (place : Position → Position) (notes : Notes) : Notes :=
  { notes with faults := notes.faults.map (Diagnostic.moved place) }

namespace Pass

variable {α β : Type} {move : α → α} {moveAll : β → β}

def Alike (place : Position → Position) (move : α → α) (pass alike : Pass α) : Prop :=
  ∀ notes, alike (notes.moved place) = (move (pass notes).1, (pass notes).2.moved place)

theorem alike_pure (move : α → α) (value : α) : Alike place move (pure value) (pure (move value)) :=
  fun _ => rfl

theorem alike_note (event : Event) : Alike place id (note event) (note event) := fun _ => rfl

theorem alike_fault (cause : Cause) (position : Position) :
    Alike place id (fault cause position) (fault cause (place position)) := by
  intro notes
  have pushed : (notes.faults.map (moved place)).push ⟨cause, (place position)⟩ =
      (notes.faults.push ⟨cause, position⟩).map (moved place) := by
    rw [Array.map_push]
    rfl
  exact congrArg (fun faults => ((), Notes.mk faults notes.events)) pushed

theorem Alike.bind {pass alike} {next nextAlike : α → Pass β} (first : Alike place move pass alike)
    (rest : ∀ value, Alike place moveAll (next value) (nextAlike (move value))) :
    Alike place moveAll (pass >>= next) (alike >>= nextAlike) := by
  intro notes
  show nextAlike (alike (notes.moved place)).1 (alike (notes.moved place)).2 = _
  rw [first notes]
  exact rest _ _

/-! ### Structs -/

def declaredMoved (place : Position → Position) (declared : Array (StructItem × TypeId)) :
    Array (StructItem × TypeId) :=
  declared.map fun entry => (entry.1.moved place, entry.2)

theorem alike_declareStructs (items : List StructItem) (types : TypeTable)
    (declared : Array (StructItem × TypeId)) :
    Alike place (fun found => (found.1, declaredMoved place found.2))
      (declareStructs items types declared)
      (declareStructs (items.map (StructItem.moved place)) types
        (declaredMoved place declared)) := by
  induction items generalizing types declared with
  | nil => exact alike_pure _ _
  | cons item rest ih =>
    have nameEq : (item.moved place).name = item.name := rfl
    simp only [List.map_cons, declareStructs, nameEq]
    rcases types.declare item.name with ⟨_ | type, types⟩
    · apply (alike_fault _ item.position).bind
      intro _
      exact ih types declared
    · have pushed : (declaredMoved place declared).push ((item.moved place), type) =
          declaredMoved place (declared.push (item, type)) := by
        rw [declaredMoved, declaredMoved, Array.map_push]
      simp only [pushed]
      exact ih types (declared.push (item, type))

theorem alike_knownFields (types : TypeTable) (declarations : List FieldDeclaration)
    (fields : Array Field) :
    Alike place id (knownFields types declarations fields)
      (knownFields types (declarations.map (FieldDeclaration.moved place)) fields) := by
  induction declarations generalizing fields with
  | nil => exact alike_pure _ _
  | cons field rest ih =>
    simp only [List.map_cons, knownFields, FieldDeclaration.moved, TypeRef.moved]
    cases types.lookup? field.type.name with
    | some type => exact ih _
    | none =>
      apply (alike_fault _ field.type.position).bind
      intro _
      exact ih fields

theorem alike_defineStruct (types : TypeTable) (item : StructItem) (type : TypeId) :
    Alike place id (defineStruct types item type) (defineStruct types (item.moved place) type) := by
  simp only [defineStruct, StructItem.moved, List.length_map]
  split
  · apply (alike_fault _ item.position).bind
    intro _
    exact alike_pure _ _
  · apply (alike_knownFields types item.fields #[]).bind
    intro fields
    apply (alike_note _).bind
    intro _
    exact alike_pure _ _

theorem alike_defineStructs (declared : List (StructItem × TypeId)) (types : TypeTable) :
    Alike place id (defineStructs declared types)
      (defineStructs (declared.map fun entry => (entry.1.moved place, entry.2)) types) := by
  induction declared generalizing types with
  | nil => exact alike_pure _ _
  | cons entry rest ih =>
    rcases entry with ⟨item, type⟩
    apply (alike_defineStruct types item type).bind
    intro types
    exact ih types

theorem alike_structTypes (items : List StructItem) :
    Alike place id (structTypes items) (structTypes (items.map (StructItem.moved place))) := by
  have declares := @alike_declareStructs place items .primitive #[]
  rw [show declaredMoved place #[] = #[] from Array.map_empty] at declares
  apply declares.bind
  rintro ⟨types, declared⟩
  have listed : (declaredMoved place declared).toList =
      declared.toList.map fun entry => (entry.1.moved place, entry.2) := Array.toList_map
  simp only [listed]
  exact alike_defineStructs declared.toList types

end Pass

/-! ### Functions -/

def FunctionTable.moved (place : Position → Position) (table : FunctionTable) : FunctionTable :=
  { table with declared := table.declared.map (FunctionItem.moved place) }

theorem FunctionTable.find?_moved (table : FunctionTable) (name : String) :
    (table.moved place).find? name = (table.find? name).map (FunctionItem.moved place) := by
  unfold FunctionTable.find? FunctionTable.moved
  rw [List.find?_map]
  rfl

theorem FunctionTable.missingCallee?_moved (table : FunctionTable) (item : FunctionItem) :
    (table.moved place).missingCallee? (item.moved place) = table.missingCallee? item := by
  simp only [missingCallee?, table.find?_moved, Option.isNone_map, FunctionItem.moved]

namespace Pass

theorem alike_forM_note (events : List Event) :
    Alike place id (events.forM note) (events.forM note) := by
  induction events with
  | nil => exact alike_pure _ _
  | cons event rest ih => exact (alike_note event).bind fun _ => ih

theorem alike_placeFunction (item : FunctionItem) (graph : LayeredGraph) :
    Alike place id (placeFunction item graph) (placeFunction (item.moved place) graph) := by
  simp only [placeFunction, FunctionItem.moved]
  cases graph.place item.callees with
  | ok placement =>
    apply (alike_forM_note _).bind
    intro _
    exact alike_pure _ _
  | error refusal =>
    apply (alike_fault _ item.position).bind
    intro _
    exact alike_pure _ _

theorem alike_placeFunctions (items : List FunctionItem) (table : FunctionTable) :
    Alike place (FunctionTable.moved place) (placeFunctions items table)
      (placeFunctions (items.map (FunctionItem.moved place)) (table.moved place)) := by
  induction items generalizing table with
  | nil => exact alike_pure _ _
  | cons item rest ih =>
    have nameEq : (item.moved place).name = item.name := rfl
    simp only [List.map_cons, placeFunctions, table.find?_moved, Option.isSome_map, nameEq]
    split
    · apply (alike_fault _ item.position).bind
      intro _
      exact ih table
    · apply (alike_placeFunction item table.graph).bind
      intro graph
      have added : (⟨table.declared ++ [item], graph⟩ : FunctionTable).moved place =
          ⟨(table.moved place).declared ++ [(item.moved place)], graph⟩ :=
        congrArg (FunctionTable.mk · graph) List.map_append
      exact added ▸ ih ⟨table.declared ++ [item], graph⟩

theorem alike_layerFunctions (items : List FunctionItem) :
    Alike place (FunctionTable.moved place) (layerFunctions items)
      (layerFunctions (items.map (FunctionItem.moved place))) := by
  apply (alike_placeFunctions items .empty).bind
  intro table
  apply (alike_note _).bind
  intro _
  exact alike_pure _ _

/-! ### Compilation -/

theorem alike_compilePlaced (config : Config) (types : TypeTable) (table : FunctionTable)
    (name : String) (layer : Nat) :
    Alike place id (compilePlaced config types table name layer)
      (compilePlaced config types (table.moved place) name layer) := by
  simp only [compilePlaced, table.find?_moved]
  cases table.find? name with
  | none => exact alike_pure _ _
  | some item =>
    have brokenEq : (item.moved place).isBroken = item.isBroken := rfl
    simp only [Option.map_some, table.missingCallee?_moved, compileFunction_moved, brokenEq]
    split
    · exact alike_pure _ _
    cases table.missingCallee? item with
    | some callee =>
      apply (alike_fault _ item.position).bind
      intro _
      exact alike_pure _ _
    | none =>
      cases compileFunction types item layer with
      | error diagnostic =>
        apply (alike_fault _ diagnostic.position).bind
        intro _
        exact alike_pure _ _
      | ok compiled =>
        apply (alike_note _).bind
        intro _
        split
        · apply (alike_note _).bind
          intro _
          exact alike_pure _ _
        · exact alike_pure _ _

theorem alike_compileAll (config : Config) (types : TypeTable) (table : FunctionTable)
    (order : List (String × Nat)) (compiled : Array FunctionCode) :
    Alike place id (compileAll config types table order compiled)
      (compileAll config types (table.moved place) order compiled) := by
  induction order generalizing compiled with
  | nil => exact alike_pure _ _
  | cons placed rest ih =>
    rcases placed with ⟨name, layer⟩
    intro notes
    have sizeEq : (notes.moved place).faults.size = notes.faults.size := Array.size_map
    rw [compileAll_cons, compileAll_cons, sizeEq,
      alike_compilePlaced config types table name layer notes]
    split
    · rfl
    · exact ih _ _

theorem alike_compileFile (config : Config) (file : File) :
    Alike place id (compileFile config file) (compileFile config (file.moved place)) := by
  have structsEq :
      (file.moved place).structs.toList = file.structs.toList.map (StructItem.moved place) :=
    Array.toList_map
  have functionsEq :
      (file.moved place).functions.toList = file.functions.toList.map (FunctionItem.moved place) :=
    Array.toList_map
  unfold compileFile
  rw [structsEq, functionsEq]
  apply (alike_structTypes _).bind
  intro types
  apply (alike_layerFunctions _).bind
  intro table
  apply (alike_compileAll config types table table.order #[]).bind
  intro functions
  exact alike_pure _ _

end Pass

/-! ## Sources -/

theorem map_cause_eq_of_moved {first second : Array Diagnostic}
    (same : first.map (moved here) = second.map (moved there)) :
    first.toList.map cause = second.toList.map cause := by
  have causes (faults : Array Diagnostic) (place : Position → Position) :
      (faults.map (moved place)).toList.map cause =
        faults.toList.map cause := by
    rw [Array.toList_map, List.map_map]
    rfl
  rw [← causes first here, same, causes]

theorem compileFile_eq_of_moved {first second : ParsedFile}
    (same : first.moved here = second.moved there) (config : Config) :
    (Pass.compileFile config first.file ⟨first.faults, #[]⟩).1 =
        (Pass.compileFile config second.file ⟨second.faults, #[]⟩).1 ∧
      (Pass.compileFile config first.file ⟨first.faults, #[]⟩).2.moved here =
        (Pass.compileFile config second.file ⟨second.faults, #[]⟩).2.moved there := by
  obtain ⟨fileEq, faultsEq⟩ := ParsedFile.mk.inj same
  have firstAlike := @Pass.alike_compileFile here config first.file ⟨first.faults, #[]⟩
  have secondAlike := @Pass.alike_compileFile there config second.file ⟨second.faults, #[]⟩
  have notesEq : (Notes.mk first.faults #[]).moved here =
      (Notes.mk second.faults #[]).moved there :=
    congrArg (Notes.mk · #[]) faultsEq
  rw [fileEq, notesEq, secondAlike] at firstAlike
  exact Prod.mk.inj firstAlike.symm

theorem Config.map_cause_shown_eq (config : Config) {first second : List Diagnostic}
    (same : first.map cause = second.map cause) :
    (config.shown first).map cause = (config.shown second).map cause := by
  unfold Config.shown
  cases config.faultLimit? with
  | none => exact same
  | some limit =>
    show (first.take limit).map _ = (second.take limit).map _
    rw [List.map_take, same, List.map_take]

theorem Config.outcome_alike (config : Config) (types : TypeTable)
    {first second : Array FunctionCode × Notes} (sameCode : first.1 = second.1)
    (sameNotes : first.2.moved here = second.2.moved there) :
    (∃ program, config.outcome types first = .ok program ∧
      config.outcome types second = .ok program) ∨
    ∃ faults others, config.outcome types first = .error faults ∧
      config.outcome types second = .error others ∧
      faults.map cause = others.map cause := by
  have faultsEq : first.2.faults.map (moved here) =
      second.2.faults.map (moved there) := congrArg Notes.faults sameNotes
  have sizeEq : first.2.faults.size = second.2.faults.size := by
    simpa only [Array.size_map] using congrArg Array.size faultsEq
  have emptyEq : first.2.faults.isEmpty = second.2.faults.isEmpty := by
    rw [Array.isEmpty, Array.isEmpty, sizeEq]
  unfold Config.outcome
  rw [emptyEq, sameCode]
  cases second.2.faults.isEmpty with
  | true => exact .inl ⟨⟨types, second.1⟩, rfl, rfl⟩
  | false => exact .inr ⟨_, _, rfl, rfl, config.map_cause_shown_eq (map_cause_eq_of_moved faultsEq)⟩

/-- The layout of a source does not matter: two sources whose tokens have the same
kinds and data in the same order compile to one program, or both fail for the same
causes and with the same messages in the same order. -/
theorem compile_of_sameTokens {first second : Source}
    (sameTokens : (TokenStream.ofText first.text).tokens.map Token.content =
      (TokenStream.ofText second.text).tokens.map Token.content) (config : Config) :
    (∃ program, (compile config first).outcome = .ok program ∧
      (compile config second).outcome = .ok program) ∨
    ∃ faults others, (compile config first).outcome = .error faults ∧
      (compile config second).outcome = .error others ∧
      faults.map Diagnostic.cause = others.map Diagnostic.cause ∧
      faults.map Diagnostic.message = others.map Diagnostic.message := by
  have sameFile : (parseSource first).1.moved nowhere =
      (parseSource second).1.moved nowhere := by
    rw [parseSource_eq, parseSource_eq]
    exact TokenStream.parse_nowhere_eq sameTokens (TokenStream.ofText_kind_ne first.text)
      first.name second.name
  obtain ⟨sameProgram, sameNotes⟩ := compileFile_eq_of_moved sameFile config
  rw [compile_outcome_compileFile, compile_outcome_compileFile]
  generalize Pass.compileFile config (parseSource first).1.file _ = ran,
    Pass.compileFile config (parseSource second).1.file _ = otherRan at sameProgram sameNotes ⊢
  have sameCode : (ran.1.functions, ran.2).1 = (otherRan.1.functions, otherRan.2).1 :=
    congrArg Program.functions sameProgram
  rw [congrArg Program.types sameProgram]
  apply (config.outcome_alike _ sameCode sameNotes).imp_right
  rintro ⟨faults, others, firstFails, secondFails, sameCauses⟩
  refine ⟨faults, others, firstFails, secondFails, sameCauses, ?_⟩
  have messages := congrArg (List.map Cause.message) sameCauses
  rwa [List.map_map, List.map_map] at messages

/-- Two functions, one of them refused, over several lines. -/
def spacedSource : Source :=
  ⟨"spaced", "fn sum(a: int, b: int) -> int \x7b
  return a + b; // both
\x7d

fn odd() -> int \x7b return true; \x7d"⟩

/-- The same functions with as little space as there can be. -/
def denseSource : Source :=
  ⟨"dense", "fn sum(a:int,b:int)->int\x7breturn a+b;\x7dfn odd()->int\x7breturn true;\x7d"⟩

theorem compile_of_sameTokens_dense :
    (TokenStream.ofText spacedSource.text).tokens.map Token.content =
      (TokenStream.ofText denseSource.text).tokens.map Token.content ∧
    ((∃ program, (compile .standard spacedSource).outcome = .ok program ∧
      (compile .standard denseSource).outcome = .ok program) ∨
    ∃ faults others, (compile .standard spacedSource).outcome = .error faults ∧
      (compile .standard denseSource).outcome = .error others ∧
      faults.map Diagnostic.cause = others.map Diagnostic.cause ∧
      faults.map Diagnostic.message = others.map Diagnostic.message) := by
  have sameTokens : (TokenStream.ofText spacedSource.text).tokens.map Token.content =
      (TokenStream.ofText denseSource.text).tokens.map Token.content := by
    decide +kernel
  exact ⟨sameTokens, compile_of_sameTokens sameTokens .standard⟩

end SlotCompiler
