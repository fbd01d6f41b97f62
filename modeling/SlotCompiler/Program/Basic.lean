import SlotCompiler.Machine.Listing
import SlotCompiler.Types.Table

/-!
Contract: the result of a compilation.

Owns: compiled functions and programs, and finding a function by name.
-/

namespace SlotCompiler

/-- A compiled function. -/
structure FunctionCode where
  name : String
  parameters : List TypeId
  returnType? : Option TypeId
  code : Array Word
  /-- The strings that the code loads by number. -/
  constants : Array String
  /-- The number of frame slots, parameters first. -/
  frameSize : Nat
  /-- The layer that the function was compiled in. -/
  layer : Nat
deriving DecidableEq, Repr

/-- The instructions of a function as text. -/
def FunctionCode.listing (function : FunctionCode) : String :=
  Listing.ofWords function.constants function.code.toList

/-- A compiled program. -/
structure Program where
  types : TypeTable
  /-- The functions, callees before their callers. -/
  functions : Array FunctionCode
deriving DecidableEq, Repr

def Program.function? (program : Program) (name : String) : Option FunctionCode :=
  program.functions.find? fun function => function.name == name

end SlotCompiler
