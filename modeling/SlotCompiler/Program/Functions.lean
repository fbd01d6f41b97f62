import SlotCompiler.Program.Notes
import SlotCompiler.Tree.Basic

/-!
Contract: the functions of a file and their layers.

Owns:
- the declared functions: of several with one name, the first;
- the faults of repeated names and of cycles.
-/

namespace SlotCompiler

def LayeringFault.cause (function : String) : LayeringFault → Cause
  | .selfDependency _ => .selfDependency function
  | .cyclic _ => .cyclicDependency function
  | .alreadyPlaced _ => .duplicateSymbol function

/-- The functions of a file. -/
structure FunctionTable where
  /-- The functions that names refer to, also those without a layer. -/
  declared : List FunctionItem
  graph : LayeredGraph

namespace FunctionTable

def empty : FunctionTable := { declared := [], graph := .empty }

instance : Inhabited FunctionTable := ⟨empty⟩

def find? (table : FunctionTable) (name : String) : Option FunctionItem :=
  table.declared.find? fun function => function.name == name

def missingCallee? (table : FunctionTable) (function : FunctionItem) : Option String :=
  function.callees.names.find? fun callee => (table.find? callee).isNone

/-- The placed functions with their layers, callees before their callers. -/
def order (table : FunctionTable) : List (String × Nat) :=
  table.graph.order.map fun callees =>
    (callees.function, (table.graph.layerOf? callees.function).getD 0)

end FunctionTable

namespace Pass

def placeFunction (function : FunctionItem) (graph : LayeredGraph) : Pass LayeredGraph := do
  match graph.place function.callees with
  | .ok placement =>
    (Event.ofPlacement function.name placement).forM note
    return placement.graph
  | .error refusal =>
    fault (refusal.cause function.name) function.position
    return graph

/-- Declare and place functions in order, after those already declared. -/
def placeFunctions : List FunctionItem → FunctionTable → Pass FunctionTable
  | [], table => return table
  | function :: rest, table => do
      if (table.find? function.name).isSome then
        fault (.duplicateSymbol function.name) function.position
        placeFunctions rest table
      else
        let graph ← placeFunction function table.graph
        placeFunctions rest { declared := table.declared ++ [function], graph }

def layerFunctions (items : List FunctionItem) : Pass FunctionTable := do
  let table ← placeFunctions items .empty
  note (.functionsLayered table.graph.size table.graph.layerCount)
  return table

end Pass

end SlotCompiler
