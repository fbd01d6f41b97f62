import SlotCompiler.Machine.Word
import SlotCompiler.Types.Table

/-!
Contract: the variable table of a function frame.

Owns:
- the append-only table that gives every variable its slot;
- the capacity of a frame and the names of temporaries.

Does not own: which names are visible where.
-/

namespace SlotCompiler

/-- A variable of a function frame. -/
structure Variable where
  name : String
  /-- Made by the compiler to hold an intermediate result. -/
  isTemporary : Bool
  isMutable : Bool
  /-- Unknown until types are resolved. -/
  type? : Option TypeId
deriving DecidableEq, Repr

/-- The variables of a frame; a variable's index is its slot. -/
structure Variables where
  entries : Array Variable
deriving DecidableEq, Repr

namespace Variables

/-- The most variables a frame holds: one for every 16-bit operand. -/
def capacity : Nat := 0x10000

def empty : Variables := ⟨#[]⟩

instance : Inhabited Variables := ⟨empty⟩

def size (frame : Variables) : Nat := frame.entries.size

def append (frame : Variables) (entry : Variable) : Option Slot × Variables :=
  if frame.size < capacity then
    (some (UInt16.ofNat frame.size), ⟨frame.entries.push entry⟩)
  else
    (none, frame)

def add (frame : Variables) (name : String) (isMutable : Bool) (type? : Option TypeId) :
    Option Slot × Variables :=
  frame.append { name, isTemporary := false, isMutable, type? }

/-- Add an immutable variable for an intermediate result.  A dollar sign starts
no identifier, so the name is never one of the source's. -/
def addTemporary (frame : Variables) : Option Slot × Variables :=
  let number := frame.size
  frame.append
    { name := s!"$t{number}", isTemporary := true, isMutable := false, type? := none }

def get? (frame : Variables) (slot : Slot) : Option Variable :=
  frame.entries[slot.toNat]?

def typeOf? (frame : Variables) (slot : Slot) : Option TypeId :=
  (frame.get? slot).bind Variable.type?

def setType (frame : Variables) (slot : Slot) (type : TypeId) : Variables :=
  ⟨frame.entries.modify slot.toNat fun entry => { entry with type? := some type }⟩

end Variables

end SlotCompiler
