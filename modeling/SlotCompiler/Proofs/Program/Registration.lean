import SlotCompiler.Proofs.Program.Completeness
import SlotCompiler.Proofs.Token.StringLiteral

/-!
Contract: the structs of a file become types exactly.
-/

namespace SlotCompiler

open TypeTable

/-! ## Names -/

theorem nextScan?_identifier {previous? characters scan name}
    (found : nextScan? previous? characters = some scan)
    (isName : scan.content = .identifier name) :
    ∀ entry ∈ TokenKind.keywords, String.ofList entry.1 ≠ name := by
  rcases nextScan?_text found (by rw [isName]; rfl) with rfl | ⟨rest, rfl, rfl⟩
  · unfold wordScan wordContent at isName
    dsimp only at isName
    split at isName
    · contradiction
    · rename_i noKeyword
      cases isName
      intro entry member same
      exact List.find?_eq_none.mp noKeyword entry member
        (beq_iff_eq.mpr (String.ofList_injective same))
  · unfold stringScan at isName
    split at isName <;> contradiction

theorem not_primitive_of_identifier {text token name}
    (member : token ∈ (TokenStream.ofText text).tokens)
    (isName : token.content = .identifier name) : name ∉ ["bool", "int", "float", "string"] := by
  obtain ⟨earlier, later, split⟩ := List.append_of_mem member
  obtain ⟨front, left, scan, _, found, rfl⟩ := TokenStream.ofText_scanned split
  have noKeyword := nextScan?_identifier found isName
  have areKeywords : ∀ primitive ∈ ["bool", "int", "float", "string"],
      ∃ entry ∈ TokenKind.keywords, String.ofList entry.1 = primitive := by decide
  intro isPrimitive
  obtain ⟨entry, isKeyword, same⟩ := areKeywords name isPrimitive
  exact noKeyword entry isKeyword same

namespace TypeTable

variable {table other : TypeTable} {name : String} {index : Nat}

def names (table : TypeTable) : List String := table.entries.toList.map TypeEntry.name

theorem length_names : table.names.length = table.size := by simp [names, size]

theorem lookup?_eq : table.lookup? name = (table.names.findIdx? (· == name)).map TypeId.mk := by
  rw [lookup?, names, List.findIdx?_map, ← List.findIdx?_toArray]
  rfl

theorem lookup?_isSome_iff : (table.lookup? name).isSome = true ↔ name ∈ table.names := by
  simp [lookup?_eq]

theorem lookup?_of_distinct (distinct : table.names.Nodup)
    (found : table.names[index]? = some name) : table.lookup? name = some ⟨index⟩ := by
  obtain ⟨inside, rfl⟩ := List.getElem?_eq_some_iff.mp found
  have isFirst : table.names.findIdx? (· == table.names[index]) = some index := by
    refine List.findIdx?_eq_some_iff_getElem.mpr ⟨inside, beq_self_eq_true _, ?_⟩
    intro earlier isEarlier isSame
    exact isEarlier.ne ((List.Nodup.getElem_inj_iff distinct).mp (beq_iff_eq.mp isSame))
  rw [lookup?_eq, isFirst, Option.map_some]

theorem name_eq (found : table.names[index]? = some name) : table.name ⟨index⟩ = name := by
  rw [names, List.getElem?_map, Option.map_eq_some_iff] at found
  obtain ⟨entry, isEntry, rfl⟩ := found
  rw [Array.getElem?_toList] at isEntry
  simp only [name, get?, isEntry]

theorem names_define (type : TypeId) (fields : Array Field) :
    (table.define type fields).names = table.names := by
  apply List.ext_getElem?
  intro place
  simp only [names, define, List.getElem?_map, Array.getElem?_toList, Array.getElem?_modify]
  split
  · rw [Option.map_map]
    congr 1
    funext entry
    dsimp only [Function.comp_apply]
    split <;> rfl
  · rfl

def typed (table : TypeTable) (field : FieldDeclaration) : Field :=
  ⟨field.name, (table.lookup? field.type.name).getD default⟩

theorem typed_eq_of_names (same : other.names = table.names) : other.typed = table.typed := by
  funext field
  rw [typed, typed, lookup?_eq, lookup?_eq, same]

variable {type : TypeId} {fields : Array Field}

theorem field?_of_distinct (isStruct : table.fields? type = some fields)
    (distinct : (fields.toList.map Field.name).Nodup) {field} (found : fields[index]? = some field)
    (small : index < 0x10000) :
    table.field? type field.name = some (UInt16.ofNat index, field.type) := by
  obtain ⟨inside, fieldEq⟩ := Array.getElem?_eq_some_iff.mp found
  have isFirst : fields.findIdx? (fun other => other.name == field.name) = some index := by
    refine Array.findIdx?_eq_some_iff_getElem.mpr ⟨inside, by simp [fieldEq], ?_⟩
    intro earlier isEarlier isSame
    have sameName : (fields.toList.map Field.name)[earlier]? =
        (fields.toList.map Field.name)[index]? := by
      simpa [fieldEq, inside, isEarlier.trans inside] using isSame
    exact isEarlier.ne ((List.getElem?_inj (by simpa using isEarlier.trans inside) distinct).mp
      sameName)
  simp only [field?, isStruct, isFirst, found, Option.bind_eq_bind, Option.bind_some, small, if_true]

theorem field?_eq_none (isStruct : table.fields? type = some fields)
    (unknown : name ∉ fields.toList.map Field.name) : table.field? type name = none := by
  have notFound : fields.findIdx? (fun field => field.name == name) = none := by
    rw [Array.findIdx?_eq_none_iff]
    intro field member
    refine beq_eq_false_iff_ne.mpr ?_
    rintro rfl
    exact unknown (List.mem_map_of_mem (Array.mem_toList_iff.mpr member))
  simp only [field?, isStruct, notFound, Option.bind_eq_bind, Option.bind_some, Option.bind_none]

end TypeTable

/-- The struct can be defined among types of the given names. -/
structure StructItem.Fits (names : List String) (item : StructItem) : Prop where
  few : item.fields.length ≤ Pass.fieldCapacity
  known : ∀ field ∈ item.fields, field.type.name ∈ names

namespace Pass

/-! ## Passes without a fault -/

section Quiet

variable {α β : Type}

def Quiet (pass : Pass α) (notes : Notes) : Prop := (pass notes).2.faults = notes.faults

theorem quiet_bind_iff {first} {next : α → Pass β} {notes} (keeps : KeepsFaults first)
    (keepsNext : ∀ value, KeepsFaults (next value)) :
    Quiet (first >>= next) notes ↔
      Quiet first notes ∧ Quiet (next (first notes).1) (first notes).2 := by
  constructor
  · intro quiet
    have late := keepsNext (first notes).1 (first notes).2
    have whole : (next (first notes).1 (first notes).2).2.faults = notes.faults := quiet
    have same : notes.faults = (first notes).2.faults := by
      rw [Notes.Keeps, whole] at late
      exact Array.toList_inj.mp ((keeps notes).eq_of_length_le late.length_le)
    exact ⟨same.symm, whole.trans same⟩
  · rintro ⟨early, late⟩
    exact late.trans early

theorem not_quiet_fault_then {cause position} {next : Unit → Pass β} {notes}
    (keepsNext : ∀ value, KeepsFaults (next value)) :
    ¬ Quiet (fault cause position >>= next) notes := by
  intro quiet
  exact Array.push_ne_self ((quiet_bind_iff (keepsFaults_fault _ _) keepsNext).mp quiet).1

end Quiet

variable {types : TypeTable} {notes : Notes}

/-! ## Fields -/

theorem knownFields_spec (declarations : List FieldDeclaration) (fields : Array Field) :
    (Quiet (knownFields types declarations fields) notes ↔
      ∀ field ∈ declarations, field.type.name ∈ types.names) ∧
    ((∀ field ∈ declarations, field.type.name ∈ types.names) →
      (knownFields types declarations fields notes).1 =
        fields ++ (declarations.map types.typed).toArray) := by
  induction declarations generalizing fields notes with
  | nil =>
    exact ⟨iff_of_true rfl fun _ member => absurd member List.not_mem_nil,
      fun _ => by simp [knownFields, pure, StateT.pure]⟩
  | cons field rest ih =>
    rw [List.forall_mem_cons, ← lookup?_isSome_iff]
    unfold knownFields
    cases found : types.lookup? field.type.name with
    | some type =>
      have typedEq : types.typed field = ⟨field.name, type⟩ := by simp [typed, found]
      refine ⟨(ih _).1.trans (by simp), fun known => ((ih _).2 known.2).trans ?_⟩
      simp [typedEq]
    | none =>
      refine ⟨iff_of_false ?_ (by simp), fun known => absurd known.1 Bool.false_ne_true⟩
      exact not_quiet_fault_then fun _ => knownFields_keepsFaults types rest fields

/-! ## Definitions -/

theorem quiet_defineStruct_iff (item : StructItem) (type : TypeId) :
    Quiet (defineStruct types item type) notes ↔ item.Fits types.names := by
  unfold defineStruct
  split
  · rename_i many
    exact iff_of_false (not_quiet_fault_then fun _ => keepsFaults_pure _)
      fun fits => absurd fits.few many.not_ge
  · rename_i few
    rw [quiet_bind_iff (knownFields_keepsFaults _ _ _) fun _ =>
      (keepsFaults_note _).bind fun _ => keepsFaults_pure _, (knownFields_spec _ _).1]
    exact ⟨fun quiet => ⟨not_lt.mp few, quiet.1⟩, fun fits => ⟨fits.known, rfl⟩⟩

theorem defineStruct_eq {item : StructItem} (fits : item.Fits types.names) (type : TypeId) :
    (defineStruct types item type notes).1 =
      types.define type (item.fields.map types.typed).toArray := by
  unfold defineStruct
  rw [if_neg fits.few.not_gt, run_bind, (knownFields_spec _ _).2 fits.known, Array.empty_append]
  rfl

theorem names_defineStruct (item : StructItem) (type : TypeId) :
    (defineStruct types item type notes).1.names = types.names := by
  unfold defineStruct
  split
  · rfl
  · exact names_define _ _

theorem quiet_defineStructs_iff (declared : List (StructItem × TypeId)) :
    Quiet (defineStructs declared types) notes ↔ ∀ pair ∈ declared, pair.1.Fits types.names := by
  induction declared generalizing types notes with
  | nil => exact iff_of_true rfl fun _ member => absurd member List.not_mem_nil
  | cons pair rest ih =>
    rw [List.forall_mem_cons]
    refine (quiet_bind_iff (defineStruct_keepsFaults _ _ _) fun _ =>
      defineStructs_keepsFaults _ _).trans ?_
    rw [quiet_defineStruct_iff, ih, names_defineStruct]

def handled (start : Nat) (items : List StructItem) : List (StructItem × TypeId) :=
  (items.zipIdx start).map fun pair => (pair.1, ⟨pair.2⟩)

def entry (fields : StructItem → Array Field) (item : StructItem) : TypeEntry :=
  ⟨item.name, .record (fields item)⟩

theorem defineStructs_eq {items front} (fits : ∀ item ∈ items, item.Fits types.names)
    (entriesEq : types.entries.toList = front ++ items.map (entry fun _ => #[])) :
    (defineStructs (handled front.length items) types notes).1.entries.toList =
      front ++ items.map (entry fun item => (item.fields.map types.typed).toArray) := by
  induction items generalizing types front notes with
  | nil => exact entriesEq
  | cons item rest ih =>
    obtain ⟨itemFits, restFit⟩ := List.forall_mem_cons.mp fits
    have namesEq := @names_defineStruct types notes item ⟨front.length⟩
    have later : (defineStruct types item ⟨front.length⟩ notes).1.entries.toList =
        (front ++ [entry (fun item => (item.fields.map types.typed).toArray) item]) ++
          rest.map (entry fun _ => #[]) := by
      rw [defineStruct_eq itemFits, define, Array.toList_modify, entriesEq,
        List.modify_eq_take_cons_drop (by simp)]
      simp [entry]
    have restDefined := @ih _ (defineStruct types item ⟨front.length⟩ notes).2 _
      (namesEq ▸ restFit) later
    rw [typed_eq_of_names namesEq, List.length_append, List.length_singleton] at restDefined
    refine restDefined.trans ?_
    rw [List.append_assoc]
    rfl

/-! ## Declarations -/

theorem declareStructs_spec (items : List StructItem) (declared : Array (StructItem × TypeId))
    (distinct : types.names.Nodup) :
    (Quiet (declareStructs items types declared) notes ↔
      (types.names ++ items.map StructItem.name).Nodup) ∧
    ((types.names ++ items.map StructItem.name).Nodup →
      (declareStructs items types declared notes).1 =
        (⟨types.entries ++ (items.map (entry fun _ => #[])).toArray⟩,
          declared ++ (handled types.size items).toArray)) := by
  induction items generalizing types declared notes with
  | nil =>
    exact ⟨iff_of_true rfl (by simpa), fun _ => by simp [declareStructs, handled, pure, StateT.pure]⟩
  | cons item rest ih =>
    unfold declareStructs declare
    by_cases taken : item.name ∈ types.names
    · have notDistinct : ¬ (types.names ++ (item :: rest).map StructItem.name).Nodup := fun all =>
        (List.nodup_append.mp all).2.2 _ taken _ List.mem_cons_self rfl
      rw [if_pos (lookup?_isSome_iff.mpr taken)]
      exact ⟨iff_of_false (not_quiet_fault_then fun _ => declareStructs_keepsFaults rest types declared)
        notDistinct, fun all => absurd all notDistinct⟩
    · rw [if_neg (lookup?_isSome_iff.not.mpr taken)]
      have namesEq : names ⟨types.entries.push ⟨item.name, .record #[]⟩⟩ =
          types.names ++ [item.name] := by simp [names]
      have extended : (types.names ++ [item.name]).Nodup := by
        rw [← List.concat_eq_append, List.nodup_concat]
        exact ⟨taken, distinct⟩
      obtain ⟨restQuiet, restEq⟩ :=
        @ih _ notes (declared.push (item, ⟨types.size⟩)) (namesEq ▸ extended)
      rw [namesEq, List.append_assoc] at restQuiet restEq
      refine ⟨restQuiet, fun all => (restEq all).trans ?_⟩
      simp [entry, handled, size]

/-! ## Types of a file -/

/-- The types of a file before their fields are known. -/
def undefined (items : List StructItem) : TypeTable :=
  ⟨TypeTable.primitive.entries ++ (items.map (entry fun _ => #[])).toArray⟩

theorem names_undefined (items : List StructItem) :
    (undefined items).names = primitive.names ++ items.map StructItem.name := by
  simp [undefined, names, entry, Function.comp_def]

theorem quiet_structTypes_iff (items : List StructItem) (notes : Notes) :
    Quiet (structTypes items) notes ↔
      (primitive.names ++ items.map StructItem.name).Nodup ∧
        ∀ item ∈ items, item.Fits (primitive.names ++ items.map StructItem.name) := by
  refine (quiet_bind_iff (declareStructs_keepsFaults items _ _) fun _ =>
    defineStructs_keepsFaults _ _).trans ?_
  rw [(declareStructs_spec items #[] (by decide)).1]
  refine and_congr_right fun distinct => ?_
  rw [(declareStructs_spec items #[] (by decide)).2 distinct, quiet_defineStructs_iff,
    ← names_undefined,
    Array.empty_append, handled, List.forall_mem_map]
  constructor
  · intro fits item member
    obtain ⟨place, inside, rfl⟩ := List.mem_iff_getElem.mp member
    exact fits (items[place], 4 + place) (List.mk_add_mem_zipIdx_iff_getElem?.mpr (by simp))
  · intro fits pair member
    exact fits pair.1 (List.fst_mem_of_mem_zipIdx member)

theorem structTypes_eq {items : List StructItem} {notes}
    (distinct : (primitive.names ++ items.map StructItem.name).Nodup)
    (fits : ∀ item ∈ items, item.Fits (primitive.names ++ items.map StructItem.name)) :
    (structTypes items notes).1.entries.toList = primitive.entries.toList ++
      items.map (entry fun item => (item.fields.map (structTypes items notes).1.typed).toArray) := by
  have defined : (structTypes items notes).1.entries.toList = primitive.entries.toList ++
      items.map (entry fun item => (item.fields.map (undefined items).typed).toArray) := by
    unfold structTypes
    rw [run_bind, (declareStructs_spec items #[] (by decide)).2 distinct, Array.empty_append]
    exact @defineStructs_eq (undefined items) _ items primitive.entries.toList
      (names_undefined items ▸ fits) (by simp [undefined])
  have namesEq : (structTypes items notes).1.names = (undefined items).names := by
    rw [names, defined]
    simp [names, undefined, entry, Function.comp_def]
  rw [typed_eq_of_names namesEq]
  exact defined

end Pass

namespace TypeTable

variable {table : TypeTable} {items : List StructItem} {fields : StructItem → Array Field}

def Lists (table : TypeTable) (items : List StructItem) (fields : StructItem → Array Field) : Prop :=
  table.entries.toList = primitive.entries.toList ++ items.map (Pass.entry fields)

theorem Lists.names_eq (lists : table.Lists items fields) :
    table.names = primitive.names ++ items.map StructItem.name := by
  rw [names, lists]
  simp [names, Pass.entry, Function.comp_def]

theorem Lists.fields?_eq (lists : table.Lists items fields) {index item}
    (found : items[index]? = some item) : table.fields? ⟨4 + index⟩ = some (fields item) := by
  have isEntry : table.entries[4 + index]? = some (Pass.entry fields item) := by
    rw [← Array.getElem?_toList, lists, List.getElem?_append_right (by simp [primitive])]
    simp [primitive, found]
  simp only [fields?, get?, isEntry, Pass.entry]

theorem Lists.name_eq (lists : table.Lists items fields) {index item}
    (found : items[index]? = some item) : table.name ⟨4 + index⟩ = item.name := by
  apply TypeTable.name_eq
  rw [lists.names_eq, List.getElem?_append_right (by simp [names, primitive])]
  simp [names, primitive, found]

section Declared

variable {index : Nat} {item : StructItem}
  (lists : table.Lists items fun item => (item.fields.map table.typed).toArray)
  (found : items[index]? = some item)

include lists found

theorem Lists.field?_declared (fits : item.Fits table.names)
    (distinct : (item.fields.map FieldDeclaration.name).Nodup) {number field}
    (isField : item.fields[number]? = some field) :
    number < 65536 ∧ ∃ type, table.lookup? field.type.name = some type ∧
      table.field? ⟨4 + index⟩ field.name = some (UInt16.ofNat number, type) := by
  have inside := (List.getElem?_eq_some_iff.mp isField).1
  have small : number < 65536 := inside.trans_le fits.few
  have isKnown := lookup?_isSome_iff.mpr (fits.known field (List.mem_of_getElem? isField))
  obtain ⟨type, isType⟩ := Option.isSome_iff_exists.mp isKnown
  have typedEq : table.typed field = ⟨field.name, type⟩ := by simp [typed, isType]
  have typedDistinct : ((item.fields.map table.typed).map Field.name).Nodup := by
    simpa [typed, Function.comp_def] using distinct
  have isTyped : (item.fields.map table.typed).toArray[number]? = some ⟨field.name, type⟩ := by
    simp [isField, typedEq]
  exact ⟨small, type, isType,
    field?_of_distinct (lists.fields?_eq found) typedDistinct isTyped small⟩

theorem Lists.field?_undeclared {name} (unknown : name ∉ item.fields.map FieldDeclaration.name) :
    table.field? ⟨4 + index⟩ name = none :=
  field?_eq_none (lists.fields?_eq found) (by simpa [typed, Function.comp_def] using unknown)

end Declared

end TypeTable

/-! ## Structs of a source -/

theorem DerivesItem.struct_name {item tokens} (derives : DerivesItem (.struct item) tokens) :
    ∃ token ∈ tokens, token.content = .identifier item.name := by
  cases derives with
  | struct isStruct isName => exact ⟨_, List.mem_cons_of_mem _ List.mem_cons_self, isName⟩

theorem DerivesItems.exists_struct_name {items tokens} (derives : DerivesItems items tokens) {item}
    (member : .struct item ∈ items) : ∃ token ∈ tokens, token.content = .identifier item.name := by
  induction derives with
  | none => exact absurd member List.not_mem_nil
  | more first rest ih =>
    rcases List.mem_cons.mp member with rfl | later
    · obtain ⟨token, inFirst, isName⟩ := first.struct_name
      exact ⟨token, List.mem_append_left _ inFirst, isName⟩
    · obtain ⟨token, inRest, isName⟩ := ih later
      exact ⟨token, List.mem_append_right _ inRest, isName⟩

theorem parseSource_structs {source} (clean : (parseSource source).1.faults = #[]) {item}
    (member : item ∈ (parseSource source).1.file.structs.toList) :
    item.name ∉ primitive.names ∧ (item.fields.map FieldDeclaration.name).Nodup := by
  obtain ⟨items, derives, built⟩ := parseSource_written clean
  rw [(fileTree?_items built).1, List.mem_filterMap] at member
  obtain ⟨written, isWritten, structEq⟩ := member
  cases written with
  | function => contradiction
  | struct item =>
    cases structEq
    obtain ⟨token, inTokens, isName⟩ := derives.exists_struct_name isWritten
    exact ⟨not_primitive_of_identifier inTokens isName,
      (exists_fileTree_iff items).mp ⟨_, built⟩ _ isWritten⟩

/-- The structs of a source that is parsed without faults are registered without one
exactly when their names differ, each has a number for all its fields, and the
types of the fields are primitive or structs of the source, whichever comes first.
Then handles follow the order of the source, every type is found by its name, and the
fields of a struct are numbered in order and have the types declared for them. -/
theorem structs_register_exactly {source : Source} {items : List StructItem} {types : TypeTable}
    {notes after : Notes} (clean : (parseSource source).1.faults = #[])
    (areItems : (parseSource source).1.file.structs.toList = items)
    (registers : Pass.structTypes items notes = (types, after)) :
    (after.faults = notes.faults ↔
      (items.map StructItem.name).Nodup ∧
        ∀ item ∈ items, item.fields.length ≤ 65536 ∧
          ∀ field ∈ item.fields, field.type.name ∈ ["bool", "int", "float", "string"] ∨
            field.type.name ∈ items.map StructItem.name) ∧
      (after.faults = notes.faults →
        types.size = 4 + items.length ∧ types.names.Nodup ∧
          (∀ type, type.index < types.size → types.lookup? (types.name type) = some type) ∧
          ∀ index item, items[index]? = some item →
            types.name ⟨4 + index⟩ = item.name ∧
              (∀ number field, item.fields[number]? = some field →
                number < 65536 ∧ ∃ type, types.lookup? field.type.name = some type ∧
                  types.field? ⟨4 + index⟩ field.name = some (UInt16.ofNat number, type)) ∧
              ∀ name ∉ item.fields.map FieldDeclaration.name,
                types.field? ⟨4 + index⟩ name = none) := by
  subst areItems
  have parsed := fun item member => @parseSource_structs source clean item member
  generalize (parseSource source).1.file.structs.toList = items at registers parsed ⊢
  have apart : (TypeTable.primitive.names ++ items.map StructItem.name).Nodup ↔
      (items.map StructItem.name).Nodup := by
    refine List.nodup_append.trans ⟨fun distinct => distinct.2.1, fun distinct => ?_⟩
    refine ⟨by decide, distinct, fun primitive isPrimitive name isName same => ?_⟩
    obtain ⟨item, member, rfl⟩ := List.mem_map.mp isName
    exact (parsed item member).1 (same ▸ isPrimitive)
  have quiet := Pass.quiet_structTypes_iff items notes
  rw [Pass.Quiet, registers, apart] at quiet
  refine ⟨quiet.trans ?_, fun isQuiet => ?_⟩
  · refine and_congr_right fun _ => forall₂_congr fun item _ => ?_
    exact ⟨fun fits => ⟨fits.few, fun field member => List.mem_append.mp (fits.known field member)⟩,
      fun holds => ⟨holds.1, fun field member => List.mem_append.mpr (holds.2 field member)⟩⟩
  obtain ⟨distinct, fits⟩ := quiet.mp isQuiet
  have lists : types.Lists items fun item => (item.fields.map types.typed).toArray := by
    have typesEq := @Pass.structTypes_eq items notes (apart.mpr distinct) fits
    rw [registers] at typesEq
    exact typesEq
  rw [← lists.names_eq] at apart fits
  refine ⟨?_, apart.mpr distinct, ?_, ?_⟩
  · rw [← TypeTable.length_names, lists.names_eq, List.length_append, List.length_map]
    rfl
  · intro type inside
    rw [← TypeTable.length_names] at inside
    have found := List.getElem?_eq_getElem inside
    rw [TypeTable.name_eq found]
    exact TypeTable.lookup?_of_distinct (apart.mpr distinct) found
  · intro index item found
    have member := List.mem_of_getElem? found
    exact ⟨lists.name_eq found, fun number field => lists.field?_declared found (fits item member)
      (parsed item member).2, fun name => lists.field?_undeclared found⟩

/-- A struct with a field of its own type. -/
private def linkedStruct : StructItem :=
  ⟨"Node", [⟨"next", ⟨"Node", ⟨20, 1, 21⟩⟩⟩], ⟨0, 1, 1⟩⟩

private def linkedTokens : List Token :=
  ⟨.plain .structKw, ⟨0, 1, 1⟩, "struct"⟩ :: ⟨.identifier "Node", ⟨7, 1, 8⟩, "Node"⟩ ::
    ⟨.plain .leftBrace, ⟨12, 1, 13⟩, "\x7b"⟩ :: ([⟨.identifier "next", ⟨14, 1, 15⟩, "next"⟩,
      ⟨.plain .colon, ⟨18, 1, 19⟩, ":"⟩, ⟨.identifier "Node", ⟨20, 1, 21⟩, "Node"⟩] ++
    [⟨.plain .rightBrace, ⟨25, 1, 26⟩, "\x7d"⟩])

private theorem derives_linkedStruct : DerivesItems [.struct linkedStruct]
    (TokenStream.ofText "struct Node \x7b next: Node \x7d").tokens := by
  have tokensEq : (TokenStream.ofText "struct Node \x7b next: Node \x7d").tokens =
      linkedTokens ++ [] := by decide +kernel
  have first : DerivesItem _ linkedTokens :=
    .struct rfl rfl rfl (.last rfl (.present rfl rfl)) rfl
  rw [tokensEq]
  exact .more first .none

theorem structs_register_exactly_linked :
    (parseSource ⟨"linked", "struct Node \x7b next: Node \x7d"⟩).1.faults = #[] ∧
      ∃ type, (Pass.structTypes [linkedStruct] default).1.lookup? "Node" = some type ∧
        (Pass.structTypes [linkedStruct] default).1.field? ⟨4⟩ "next" = some (0, type) := by
  have parsed := @parseSource_of_derives ⟨"linked", _⟩ _ _ derives_linkedStruct rfl
  have clean := congrArg ParsedFile.faults parsed
  have areItems := congrArg (·.file.structs.toList) parsed
  obtain ⟨quietIff, facts⟩ := @structs_register_exactly _ _ _ default _ clean areItems rfl
  obtain ⟨_, _, _, registered⟩ := facts (quietIff.mpr (by decide))
  obtain ⟨_, numbered⟩ := (registered 0 linkedStruct rfl).2.1 0 _ rfl
  exact ⟨clean, numbered⟩

end SlotCompiler
