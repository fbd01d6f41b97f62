import SlotCompiler.Layering.Callees
import SlotCompiler.Frame.Variables
import SlotCompiler.Source.Position

/-!
Contract: the tree of a program, with variables already in their slots.

Owns:
- operands, calls and statements of a function body;
- structs, functions and files;
- where the value of a statement lies and whether it always returns.

Does not own: how the tree is read from source text.

One family of nodes serves statements and operators, so that a tree can hold a
statement where a value is wanted; giving it types refuses that.
-/

namespace SlotCompiler

/-- A type as the source names it. -/
structure TypeRef where
  name : String
  position : Position
deriving DecidableEq, Repr

/-- One step of a member chain: the member of the object so far goes to the
destination. -/
structure MemberStep where
  member : String
  destination : Slot
  /-- The field number, known once types are resolved. -/
  field? : Option UInt16
  position : Position
deriving DecidableEq, Repr

/-- A variable followed by members. -/
structure MemberChain where
  source : Slot
  steps : List MemberStep
  position : Position
deriving DecidableEq, Repr

def MemberChain.valueSlot (chain : MemberChain) : Slot :=
  match chain.steps.getLast? with
  | some step => step.destination
  | none => chain.source

/-- A variable locked by a statement. -/
structure Lock where
  name : String
  slot : Slot
  /-- A writer locks exclusively, readers share. -/
  exclusive : Bool
deriving DecidableEq, Repr

mutual

/-- A value that a statement or operator takes. -/
inductive Operand where
  | variable (slot : Slot)
  | literal (value : Immediate)
  /-- A string literal with its escapes decoded. -/
  | string (value : String)
  | node (inner : Node)
  | call (invoked : Call)

/-- A function call. -/
structure Call where
  name : String
  arguments : List Operand
  position : Position

/-- A statement, or an operator or member chain that leaves its value in a
slot. -/
inductive Node where
  | declaration (name : String) (slot : Slot) (isMutable : Bool) (declared? : Option TypeRef)
      (value : Operand) (position : Position)
  | assignment (slot : Slot) (value : Operand) (position : Position)
  | access (chain : MemberChain)
  | memberAssignment (target : MemberChain) (member : String) (field? : Option UInt16)
      (value : Operand) (position : Position)
  /-- A return with the number of locks to release before it. -/
  | ret (value? : Option Operand) (locks : Nat) (position : Position)
  | binary (operator : Operator) (lhs rhs : Operand) (destination : Slot) (position : Position)
  | call (invoked : Call)
  /-- One block per condition, and one more for a final alternative. -/
  | conditional (conditions : List Operand) (blocks : List (List Node)) (position : Position)
  | loop (condition : Operand) (body : List Node) (position : Position)
  | sync (locks : List Lock) (body : List Node) (position : Position)

end

instance : Inhabited Node := ⟨.ret none 0 default⟩

abbrev Block := List Node

namespace Node

def position : Node → Position
  | .declaration _ _ _ _ _ position => position
  | .assignment _ _ position => position
  | .access chain => chain.position
  | .memberAssignment _ _ _ _ position => position
  | .ret _ _ position => position
  | .binary _ _ _ _ position => position
  | .call invoked => invoked.position
  | .conditional _ _ position => position
  | .loop _ _ position => position
  | .sync _ _ position => position

/-- The slot that holds the value of an operator or member chain. -/
def valueSlot? : Node → Option Slot
  | .binary _ _ _ destination _ => some destination
  | .access chain => some chain.valueSlot
  | _ => none

end Node

mutual

/-- Every path through the statement ends in a return. -/
def Node.alwaysReturns : Node → Bool
  | .ret _ _ _ => true
  | .conditional conditions blocks _ =>
    decide (conditions.length < blocks.length) && blocksAlwaysReturn blocks
  | .sync _ body _ => blockAlwaysReturns body
  | _ => false

/-- Some statement of the block always returns; what follows it is never
reached. -/
def blockAlwaysReturns : List Node → Bool
  | [] => false
  | node :: rest => node.alwaysReturns || blockAlwaysReturns rest

def blocksAlwaysReturn : List (List Node) → Bool
  | [] => true
  | block :: rest => blockAlwaysReturns block && blocksAlwaysReturn rest

end

/-! ## Items -/

/-- A field as a struct item declares it. -/
structure FieldDeclaration where
  name : String
  type : TypeRef
deriving DecidableEq, Repr

/-- A struct item. -/
structure StructItem where
  name : String
  fields : List FieldDeclaration
  position : Position
deriving DecidableEq, Repr

/-- A function parameter with its slot. -/
structure Parameter where
  name : String
  slot : Slot
  isMutable : Bool
  type : TypeRef
deriving DecidableEq, Repr

/-- A function item.  When its body could not be read, the body is empty and
only the callees are of use. -/
structure FunctionItem where
  name : String
  position : Position
  parameters : List Parameter
  returnType? : Option TypeRef
  body : Block
  frame : Variables
  callees : Callees
  isBroken : Bool

/-- The items of a source file, each kind in order. -/
structure File where
  structs : Array StructItem
  functions : Array FunctionItem

namespace File

def empty : File := { structs := #[], functions := #[] }

instance : Inhabited File := ⟨empty⟩

end File

end SlotCompiler
