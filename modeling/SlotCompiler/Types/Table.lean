/-!
Contract: the types of a program and the handles that name them.

Owns:
- the four primitive types, which occupy the first handles of every table;
- declared struct types, their fields, and lookup by name.

Does not own: which operations a type allows.
-/

namespace SlotCompiler

/-- Handle of a type: its place in the table. -/
structure TypeId where
  index : Nat
deriving DecidableEq, Repr, Inhabited

namespace TypeId

def bool : TypeId := ⟨0⟩

def int : TypeId := ⟨1⟩

def float : TypeId := ⟨2⟩

def string : TypeId := ⟨3⟩

/-- The integers and the floating-point numbers. -/
def isNumeric (type : TypeId) : Bool :=
  type == int || type == float

end TypeId

/-- A struct field: its name and the handle of its type. -/
structure Field where
  name : String
  type : TypeId
deriving DecidableEq, Repr

/-- What a type is made of. -/
inductive TypeShape where
  | bool
  | int
  | float
  | string
  | record (fields : Array Field)
deriving DecidableEq, Repr

/-- A named type. -/
structure TypeEntry where
  name : String
  shape : TypeShape
deriving DecidableEq, Repr

/-- The types of a program in order of declaration. -/
structure TypeTable where
  entries : Array TypeEntry
deriving DecidableEq, Repr

namespace TypeTable

def primitive : TypeTable where
  entries := #[⟨"bool", .bool⟩, ⟨"int", .int⟩, ⟨"float", .float⟩, ⟨"string", .string⟩]

instance : Inhabited TypeTable := ⟨primitive⟩

def size (table : TypeTable) : Nat := table.entries.size

def get? (table : TypeTable) (type : TypeId) : Option TypeEntry :=
  table.entries[type.index]?

def name (table : TypeTable) (type : TypeId) : String :=
  match table.get? type with
  | some entry => entry.name
  | none => "<unknown>"

def lookup? (table : TypeTable) (name : String) : Option TypeId :=
  (table.entries.findIdx? fun entry => entry.name == name).map TypeId.mk

/-- Declare a struct without fields and give its handle; when the name is taken
the table stays as it is. -/
def declare (table : TypeTable) (name : String) : Option TypeId × TypeTable :=
  if (table.lookup? name).isSome then
    (none, table)
  else
    (some ⟨table.size⟩, ⟨table.entries.push ⟨name, .record #[]⟩⟩)

/-- Give a declared struct its fields.  Other handles are left alone. -/
def define (table : TypeTable) (type : TypeId) (fields : Array Field) : TypeTable :=
  ⟨table.entries.modify type.index fun entry =>
    match entry.shape with
    | .record _ => { entry with shape := .record fields }
    | _ => entry⟩

def fields? (table : TypeTable) (type : TypeId) : Option (Array Field) :=
  match table.get? type with
  | some ⟨_, .record fields⟩ => some fields
  | _ => none

def isStruct (table : TypeTable) (type : TypeId) : Bool :=
  (table.fields? type).isSome

/-- Number and type of a struct's field.  A number is a 16-bit operand, so a
field past the last such number is not found. -/
def field? (table : TypeTable) (type : TypeId) (name : String) : Option (UInt16 × TypeId) := do
  let fields ← table.fields? type
  let index ← fields.findIdx? fun field => field.name == name
  let field ← fields[index]?
  if index < 0x10000 then some (UInt16.ofNat index, field.type) else none

end TypeTable

end SlotCompiler
