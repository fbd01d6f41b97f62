import SlotCompiler.Proofs.Grammar.CallFree
import SlotCompiler.Proofs.Layering.Cycles
import SlotCompiler.Proofs.Layering.Order
import SlotCompiler.Proofs.Program.Limit

/-!
Contract: a compilation without faults leaves no function out.
-/

namespace SlotCompiler

variable {item : FunctionItem} {notes : Notes} {config : Config} {types : TypeTable} {layer : Nat}

theorem exists_of_forall₂ {α β : Type} {relation : α → β → Prop} {values others}
    (related : List.Forall₂ relation values others) {value}
    (member : value ∈ values) : ∃ other ∈ others, relation value other := by
  obtain ⟨index, inside, rfl⟩ := List.mem_iff_getElem.mp member
  have alsoInside := related.length_eq ▸ inside
  exact ⟨others[index], List.getElem_mem alsoInside, related.get inside alsoInside⟩

theorem find?_of_distinct {α : Type} {name : α → String} {values : List α}
    (distinct : (values.map name).Nodup) {value} (member : value ∈ values) :
    values.find? (fun other => name other == name value) = some value := by
  have isFound : (values.find? fun other => name other == name value).isSome = true :=
    List.find?_isSome.mpr ⟨value, member, beq_self_eq_true _⟩
  obtain ⟨other, found⟩ := Option.isSome_iff_exists.mp isFound
  have matched := List.find?_some found
  have same := List.inj_on_of_nodup_map distinct (List.mem_of_find?_eq_some found) member
    (beq_iff_eq.mp matched)
  rw [found, same]

theorem Notes.Keeps.eq_empty {before after : Notes} (keeps : before.Keeps after)
    (clean : after.faults = #[]) : before.faults = #[] := by
  by_contra hasFaults
  exact keeps.ne_empty hasFaults clean

namespace Pass

/-! ## Faults are kept -/

theorem keepsFaults_forM (events : List Event) : KeepsFaults (events.forM note) := by
  induction events with
  | nil => exact keepsFaults_pure ()
  | cons event rest ih => exact (keepsFaults_note event).bind fun _ => ih

theorem declareStructs_keepsFaults (items : List StructItem) (types : TypeTable)
    (declared : Array (StructItem × TypeId)) :
    KeepsFaults (declareStructs items types declared) := by
  induction items generalizing types declared with
  | nil => exact keepsFaults_pure _
  | cons item rest ih =>
    unfold declareStructs
    split
    · exact ih _ _
    · exact (keepsFaults_fault _ _).bind fun _ => ih _ _

theorem knownFields_keepsFaults (types : TypeTable) (declarations : List FieldDeclaration)
    (fields : Array Field) : KeepsFaults (knownFields types declarations fields) := by
  induction declarations generalizing fields with
  | nil => exact keepsFaults_pure _
  | cons declaration rest ih =>
    unfold knownFields
    split
    · exact ih _
    · exact (keepsFaults_fault _ _).bind fun _ => ih _

theorem defineStruct_keepsFaults (types : TypeTable) (item : StructItem) (type : TypeId) :
    KeepsFaults (defineStruct types item type) := by
  unfold defineStruct
  split
  · exact (keepsFaults_fault _ _).bind fun _ => keepsFaults_pure _
  · exact (knownFields_keepsFaults _ _ _).bind fun _ =>
      (keepsFaults_note _).bind fun _ => keepsFaults_pure _

theorem defineStructs_keepsFaults (declared : List (StructItem × TypeId)) (types : TypeTable) :
    KeepsFaults (defineStructs declared types) := by
  induction declared generalizing types with
  | nil => exact keepsFaults_pure _
  | cons declaration rest ih => exact (defineStruct_keepsFaults _ _ _).bind fun _ => ih _

theorem structTypes_keepsFaults (items : List StructItem) : KeepsFaults (structTypes items) :=
  (declareStructs_keepsFaults items _ _).bind fun _ => defineStructs_keepsFaults _ _

theorem placeFunction_keepsFaults (item : FunctionItem) (graph : LayeredGraph) :
    KeepsFaults (placeFunction item graph) := by
  unfold placeFunction
  split
  · exact (keepsFaults_forM _).bind fun _ => keepsFaults_pure _
  · exact (keepsFaults_fault _ _).bind fun _ => keepsFaults_pure _

theorem placeFunctions_keepsFaults (items : List FunctionItem) (table : FunctionTable) :
    KeepsFaults (placeFunctions items table) := by
  induction items generalizing table with
  | nil => exact keepsFaults_pure _
  | cons item rest ih =>
    unfold placeFunctions
    split
    · exact (keepsFaults_fault _ _).bind fun _ => ih _
    · exact (placeFunction_keepsFaults item _).bind fun _ => ih _

theorem layerFunctions_keepsFaults (items : List FunctionItem) :
    KeepsFaults (layerFunctions items) :=
  (placeFunctions_keepsFaults items _).bind fun _ =>
    (keepsFaults_note _).bind fun _ => keepsFaults_pure _

theorem fault_not_clean (cause : Cause) (position : Position) (notes : Notes) :
    (fault cause position notes).2.faults ≠ #[] := by
  show notes.faults.push _ ≠ #[]
  exact Array.push_ne_empty

end Pass

/-! ## Placing functions -/

/-- A table in which all of some functions are declared and placed, in order. -/
structure FunctionTable.Complete (table : FunctionTable) (items : List FunctionItem) : Prop where
  declared_eq : table.declared = items
  distinct : (items.map FunctionItem.name).Nodup
  layered : table.graph.Layered
  functions_eq : table.graph.functions = items.map FunctionItem.callees

namespace FunctionTable

variable {table : FunctionTable} {items : List FunctionItem}

theorem complete_empty : FunctionTable.empty.Complete [] :=
  ⟨rfl, List.nodup_nil, LayeredGraph.layered_empty, rfl⟩

theorem find?_isSome_iff {name} :
    (table.find? name).isSome = true ↔ name ∈ table.declared.map FunctionItem.name := by
  rw [find?, List.find?_isSome, List.mem_map]
  exact exists_congr fun item => and_congr_right fun _ => beq_iff_eq

namespace Complete

theorem find?_eq_some (complete : table.Complete items) (member : item ∈ items) :
    table.find? item.name = some item := by
  rw [FunctionTable.find?, complete.declared_eq]
  exact find?_of_distinct complete.distinct member

theorem extend (complete : table.Complete items) (isNew : (table.find? item.name).isSome = false)
    {placement} (placed : table.graph.place item.callees = .ok placement) :
    Complete ⟨table.declared ++ [item], placement.graph⟩ (items ++ [item]) := by
  obtain ⟨layered, functionsEq⟩ := complete.layered.place placed
  have notDeclared : item.name ∉ items.map FunctionItem.name := by
    rw [← complete.declared_eq, ← find?_isSome_iff, isNew]
    exact Bool.false_ne_true
  refine ⟨congrArg (· ++ [item]) complete.declared_eq, ?_, layered, ?_⟩
  · rw [List.map_append, List.map_singleton, ← List.concat_eq_append, List.nodup_concat]
    exact ⟨notDeclared, complete.distinct⟩
  · rw [functionsEq, complete.functions_eq, List.map_append, List.map_singleton]

section Order

variable (complete : table.Complete items)
  (named : ∀ item ∈ items, item.callees.function = item.name)

include complete named

theorem exists_of_mem_order {placement} (member : placement ∈ table.order) :
    ∃ item ∈ items, placement.1 = item.name := by
  obtain ⟨callees, inOrder, rfl⟩ := List.mem_map.mp member
  rw [LayeredGraph.mem_order_iff, complete.functions_eq] at inOrder
  obtain ⟨item, isItem, rfl⟩ := List.mem_map.mp inOrder
  exact ⟨item, isItem, named item isItem⟩

theorem exists_mem_order (member : item ∈ items) : ∃ layer, (item.name, layer) ∈ table.order := by
  have inOrder : item.callees ∈ table.graph.order := by
    rw [LayeredGraph.mem_order_iff, complete.functions_eq]
    exact List.mem_map_of_mem member
  rw [← named item member]
  exact ⟨_, List.mem_map_of_mem inOrder⟩

theorem order_eq (noCalls : ∀ item ∈ items, item.callees.names = []) :
    table.order = items.map fun item => (item.name, 0) := by
  have noneCalled : ∀ callees ∈ table.graph.functions, callees.names = [] := by
    rw [complete.functions_eq, List.forall_mem_map]
    exact noCalls
  have flat : ∀ placed ∈ table.graph.entries, placed.layer = 0 := fun placed member =>
    complete.layered.layer_eq_zero noneCalled member
  rw [FunctionTable.order, LayeredGraph.order_eq_functions flat, complete.functions_eq,
    List.map_map]
  refine List.map_congr_left fun item member => ?_
  have isPlaced : item.callees ∈ table.graph.functions :=
    complete.functions_eq ▸ List.mem_map_of_mem member
  obtain ⟨placed, inEntries, calleesEq⟩ := List.mem_map.mp isPlaced
  have layerEq := complete.layered.layer_of_mem inEntries
  rw [flat placed inEntries, Placed.name, calleesEq, named item member] at layerEq
  simp only [Function.comp_apply, named item member, layerEq, Option.getD_some]

end Order

end Complete

end FunctionTable

namespace Pass

variable {items : List FunctionItem} {table : FunctionTable}

theorem placeFunction_clean {graph} (clean : (placeFunction item graph notes).2.faults = #[]) :
    ∃ placement, graph.place item.callees = .ok placement ∧
      (placeFunction item graph notes).1 = placement.graph := by
  unfold placeFunction at clean ⊢
  cases placed : graph.place item.callees with
  | ok placement => exact ⟨placement, rfl, rfl⟩
  | error refusal =>
    simp only [placed] at clean
    exact absurd clean (fault_not_clean _ _ notes)

theorem placeFunctions_complete {earlier} (complete : table.Complete earlier)
    (clean : (placeFunctions items table notes).2.faults = #[]) :
    (placeFunctions items table notes).1.Complete (earlier ++ items) := by
  induction items generalizing table earlier notes with
  | nil =>
    rw [List.append_nil]
    exact complete
  | cons item rest ih =>
    unfold placeFunctions at clean ⊢
    cases isTaken : (table.find? item.name).isSome with
    | true =>
      simp only [isTaken, if_true] at clean
      have keeps := placeFunctions_keepsFaults rest table
        (fault (.duplicateSymbol item.name) item.position notes).2
      exact absurd (keeps.eq_empty clean) (fault_not_clean _ _ notes)
    | false =>
      simp only [isTaken, Bool.false_eq_true, if_false] at clean ⊢
      rw [run_bind] at clean ⊢
      have keeps := placeFunctions_keepsFaults rest
        ⟨table.declared ++ [item], (placeFunction item table.graph notes).1⟩
        (placeFunction item table.graph notes).2
      obtain ⟨placement, placed, graphEq⟩ := placeFunction_clean (keeps.eq_empty clean)
      rw [graphEq] at clean ⊢
      have restComplete := ih (complete.extend isTaken placed) clean
      rw [List.append_assoc] at restComplete
      exact restComplete

theorem layerFunctions_complete (clean : (layerFunctions items notes).2.faults = #[]) :
    (layerFunctions items notes).1.Complete items :=
  placeFunctions_complete FunctionTable.complete_empty clean

/-! ## Compiling functions -/

theorem compilePlaced_clean {name} (found : table.find? name = some item)
    (isWhole : item.isBroken = false)
    (clean : (compilePlaced config types table name layer notes).2.faults = #[]) :
    ∃ function, (compilePlaced config types table name layer notes).1 = some function ∧
      compileFunction types item layer = .ok function := by
  unfold compilePlaced at clean ⊢
  simp only [found, isWhole, Bool.false_eq_true, if_false] at clean ⊢
  cases missing : table.missingCallee? item with
  | some callee =>
    simp only [missing] at clean
    exact absurd clean (fault_not_clean _ _ notes)
  | none =>
    simp only [missing] at clean ⊢
    cases compiled : compileFunction types item layer with
    | error diagnostic =>
      simp only [compiled] at clean
      exact absurd clean (fault_not_clean _ _ notes)
    | ok function =>
      refine ⟨function, ?_, rfl⟩
      cases config.listsCode <;> rfl

def CompilesAt (types : TypeTable) (table : FunctionTable) (placement : String × Nat)
    (function : FunctionCode) : Prop :=
  ∃ item, table.find? placement.1 = some item ∧
    compileFunction types item placement.2 = .ok function

theorem CompilesAt.of_complete {function}
    (compilesAt : CompilesAt types table (item.name, layer) function)
    (complete : table.Complete items) (member : item ∈ items) :
    compileFunction types item layer = .ok function := by
  obtain ⟨same, found, ok⟩ := compilesAt
  rw [complete.find?_eq_some member] at found
  cases found
  exact ok

theorem compileAll_complete (proceeds : config.stopsAfter 0 = false) {placed given}
    (whole : ∀ placement ∈ placed,
      ∃ item, table.find? placement.1 = some item ∧ item.isBroken = false)
    (clean : (compileAll config types table placed given notes).2.faults = #[]) :
    ∃ compiled, (compileAll config types table placed given notes).1.toList =
        given.toList ++ compiled ∧
      List.Forall₂ (CompilesAt types table) placed compiled := by
  induction placed generalizing given notes with
  | nil => exact ⟨[], (List.append_nil _).symm, .nil⟩
  | cons placement rest ih =>
    obtain ⟨name, layer⟩ := placement
    obtain ⟨⟨item, found, isWhole⟩, restWhole⟩ := List.forall_mem_cons.mp whole
    have noFaults := (compileAll_keepsFaults config types table _ given notes).eq_empty clean
    rw [compileAll_cons, noFaults, Array.size_empty, proceeds] at clean ⊢
    simp only [Bool.false_eq_true, if_false] at clean ⊢
    have keeps := compileAll_keepsFaults config types table rest
      ((compilePlaced config types table name layer notes).1.elim given given.push)
      (compilePlaced config types table name layer notes).2
    obtain ⟨function, gives, compiled⟩ := compilePlaced_clean found isWhole (keeps.eq_empty clean)
    obtain ⟨others, othersEq, othersCompile⟩ := ih restWhole clean
    refine ⟨function :: others, ?_, .cons ⟨item, found, compiled⟩ othersCompile⟩
    rw [othersEq, gives, Option.elim_some, Array.toList_push, List.append_assoc]
    rfl

end Pass

theorem FunctionItem.WasRead.callFree_of_compiled {entered left} (read : item.WasRead entered left)
    {function} (compiled : compileFunction types item layer = .ok function) :
    blockCallFree item.body = true := by
  obtain ⟨typed, typedOk, _⟩ := except_bind_eq_ok_iff.mp compiled
  obtain ⟨_, returnType?, frame, parametersOk, bodyOk, _⟩ := typeFunction_ok typedOk
  obtain ⟨given, rfl⟩ := typeParameters_eq_giveTypes parametersOk
  have decided := read.decided ⟨types, returnType?⟩ given
  generalize resolveBlock _ _ _ = resolved at decided bodyOk
  cases decided with
  | refused => contradiction
  | found finds =>
    rename_i later value
    have permits := finds.refines.permits later.permits_typing
    exact ((finds.exact later.typing permits value).mpr ⟨later.permits_typing, rfl⟩).1

/-! ## Whole sources -/

theorem Config.outcome_eq_ok {run program} (succeeds : config.outcome types run = .ok program) :
    run.2.faults = #[] ∧ ⟨types, run.1⟩ = program := by
  unfold Config.outcome at succeeds
  split at succeeds
  · rename_i isClean
    exact ⟨Array.isEmpty_iff.mp isClean, Except.ok.inj succeeds⟩
  · contradiction

/-- The program has the types and all functions of a file. -/
structure File.CompilesTo (file : File) (program : Program) : Prop where
  types_eq : program.types = (Pass.structTypes file.structs.toList ⟨#[], #[]⟩).1
  distinct : (file.functions.toList.map FunctionItem.name).Nodup
  callFree : ∀ item ∈ file.functions.toList, blockCallFree item.body = true
  compiled : List.Forall₂ (fun item function => compileFunction program.types item 0 = .ok function)
    file.functions.toList program.functions.toList

/-- What is known of a function that was read to its end. -/
structure FunctionItem.IsWhole (item : FunctionItem) : Prop where
  unbroken : item.isBroken = false
  read : item.IsRead
  named : item.callees.function = item.name

namespace Pass

theorem compileAll_order (proceeds : config.stopsAfter 0 = false) {table : FunctionTable} {items}
    (complete : table.Complete items) (whole : ∀ item ∈ items, item.IsWhole)
    (clean : (compileAll config types table table.order #[] notes).2.faults = #[]) :
    (∀ item ∈ items, blockCallFree item.body = true) ∧
      List.Forall₂ (fun item function => compileFunction types item 0 = .ok function) items
        (compileAll config types table table.order #[] notes).1.toList := by
  have named := fun item member => (whole item member).named
  have found : ∀ placement ∈ table.order,
      ∃ item, table.find? placement.1 = some item ∧ item.isBroken = false := by
    intro placement member
    obtain ⟨item, isItem, nameEq⟩ := complete.exists_of_mem_order named member
    exact ⟨item, nameEq ▸ complete.find?_eq_some isItem, (whole item isItem).unbroken⟩
  obtain ⟨compiled, compiledEq, compiles⟩ := compileAll_complete proceeds found clean
  rw [List.nil_append] at compiledEq
  -- All functions are compiled in some order, so none has a call.
  have callFree : ∀ item ∈ items, blockCallFree item.body = true := by
    intro item member
    obtain ⟨layer, hasTurn⟩ := complete.exists_mem_order named member
    obtain ⟨function, _, compilesAt⟩ := exists_of_forall₂ compiles hasTurn
    obtain ⟨entered, left, read⟩ := (whole item member).read
    exact read.callFree_of_compiled (compilesAt.of_complete complete member)
  -- Without calls, that order is the one of the items.
  have noCallees : ∀ item ∈ items, item.callees.names = [] := by
    intro item member
    obtain ⟨entered, left, read⟩ := (whole item member).read
    rw [read.callees_eq (callFree item member)]
    rfl
  refine ⟨callFree, ?_⟩
  rw [complete.order_eq named noCallees, List.forall₂_map_left_iff] at compiles
  rw [compiledEq]
  have members := (List.forall₂_and_left items compiled).mpr ⟨fun _ member => member, compiles⟩
  exact members.imp fun _ _ compilesAt => compilesAt.2.of_complete complete compilesAt.1

theorem compileFile_complete (proceeds : config.stopsAfter 0 = false) {file : File}
    (whole : ∀ item ∈ file.functions.toList, item.IsWhole)
    (clean : (compileFile config file ⟨#[], #[]⟩).2.faults = #[]) :
    file.CompilesTo (compileFile config file ⟨#[], #[]⟩).1 := by
  have typesEq : (beforeFunctions file ⟨#[], #[]⟩).1.1 =
      (structTypes file.structs.toList ⟨#[], #[]⟩).1 := rfl
  have completes : (beforeFunctions file ⟨#[], #[]⟩).2.faults = #[] →
      (beforeFunctions file ⟨#[], #[]⟩).1.2.Complete file.functions.toList :=
    layerFunctions_complete
  rw [compileFile_eq] at clean ⊢
  generalize beforeFunctions file ⟨#[], #[]⟩ = early at typesEq completes clean ⊢
  have complete := completes ((compileAll_keepsFaults config _ _ _ _ early.2).eq_empty clean)
  obtain ⟨callFree, compiled⟩ := compileAll_order proceeds complete whole clean
  exact ⟨typesEq, complete.distinct, callFree, compiled⟩

theorem compileFile_keepsFaults (config : Config) (file : File) :
    KeepsFaults (compileFile config file) :=
  (structTypes_keepsFaults _).bind fun _ => (layerFunctions_keepsFaults _).bind fun _ =>
    (compileAll_keepsFaults config _ _ _ _).bind fun _ => keepsFaults_pure _

end Pass

theorem WrittenFunction.tree?_whole {written : WrittenFunction} {tree}
    (built : written.tree? = some tree) :
    tree.isBroken = false ∧ tree.callees.function = tree.name := by
  obtain ⟨_, _, _, _, parametersBuilt, bodyBuilt, rfl⟩ := WrittenFunction.tree?_eq_some.mp built
  have parametersGains := parametersTree?_gains parametersBuilt
  have bodyGains := (statementsTree?_builds _ bodyBuilt).gains
  exact ⟨rfl, bodyGains.grown.function_eq.trans parametersGains.grown.function_eq⟩

theorem parseSource_isWhole {source} (clean : (parseSource source).1.faults = #[]) :
    ∀ item ∈ (parseSource source).1.file.functions.toList, item.IsWhole := by
  obtain ⟨items, _, built⟩ := parseSource_written clean
  have read := parseSource_functionsRead source
  generalize (parseSource source).1 = parsed at built read ⊢
  intro item member
  obtain ⟨written, _, treeBuilt⟩ := exists_of_forall₂ (fileTree?_items built).2.flip member
  obtain ⟨unbroken, named⟩ := WrittenFunction.tree?_whole treeBuilt
  exact ⟨unbroken, read item (Array.mem_toList_iff.mp member) unbroken, named⟩

theorem compile_complete (proceeds : config.stopsAfter 0 = false) {source program}
    (compiled : (compile config source).outcome = .ok program) :
    (parseSource source).1.faults = #[] ∧ (parseSource source).1.file.CompilesTo program := by
  have whole := @parseSource_isWhole source
  rw [compile_outcome_compileFile] at compiled
  generalize (parseSource source).1 = parsed at compiled whole ⊢
  obtain ⟨clean, rfl⟩ := Config.outcome_eq_ok compiled
  have keeps := Pass.compileFile_keepsFaults config parsed.file ⟨parsed.faults, #[]⟩
  have noFaults : parsed.faults = #[] := keeps.eq_empty clean
  simp only [noFaults] at clean ⊢
  exact ⟨trivial, Pass.compileFile_complete proceeds (whole noFaults) clean⟩

end SlotCompiler
