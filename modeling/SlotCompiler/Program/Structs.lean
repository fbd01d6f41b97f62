import SlotCompiler.Program.Notes
import SlotCompiler.Tree.Basic

/-!
Contract: the types that the struct items of a file declare.

Owns:
- declaring all structs before any field, so that fields can refer to all;
- the faults of taken names, unknown field types and too many fields.
-/

namespace SlotCompiler

namespace Pass

/-- Declare structs in order.  A taken name is a fault; the item is left out. -/
def declareStructs : List StructItem → TypeTable → Array (StructItem × TypeId) →
    Pass (TypeTable × Array (StructItem × TypeId))
  | [], types, declared => return (types, declared)
  | item :: rest, types, declared => do
      match types.declare item.name with
      | (some type, types) => declareStructs rest types (declared.push (item, type))
      | (none, types) =>
        fault (.duplicateSymbol item.name) item.position
        declareStructs rest types declared

/-- The fields whose types are known, after those already found.  Any other is a
fault. -/
def knownFields (types : TypeTable) : List FieldDeclaration → Array Field → Pass (Array Field)
  | [], fields => return fields
  | field :: rest, fields => do
      match types.lookup? field.type.name with
      | some type => knownFields types rest (fields.push ⟨field.name, type⟩)
      | none =>
        fault (.unknownType field.type.name) field.type.position
        knownFields types rest fields

/-- The most fields of a struct: one for every 16-bit operand. -/
def fieldCapacity : Nat := 0x10000

/-- Give a declared struct its fields. -/
def defineStruct (types : TypeTable) (item : StructItem) (type : TypeId) :
    Pass TypeTable := do
  if fieldCapacity < item.fields.length then
    fault (.tooManyFields item.name) item.position
    return types
  else
    let fields ← knownFields types item.fields #[]
    note (.structRegistered item.name fields.size)
    return types.define type fields

def defineStructs : List (StructItem × TypeId) → TypeTable → Pass TypeTable
  | [], types => return types
  | (item, type) :: rest, types => do
      let types ← defineStruct types item type
      defineStructs rest types

def structTypes (items : List StructItem) : Pass TypeTable := do
  let (types, declared) ← declareStructs items .primitive #[]
  defineStructs declared.toList types

end Pass

end SlotCompiler
