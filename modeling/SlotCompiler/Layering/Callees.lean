/-!
Contract: the functions that one function calls.

Owns:
- the callee list of a function, without repetition and without the function
  itself;
- the errors of the dependency relation and their wording.

Does not own: the order in which functions are compiled.
-/

namespace SlotCompiler

/-- Why a dependency or a function is refused. -/
inductive LayeringFault where
  | selfDependency (function : String)
  | cyclic (function : String)
  | alreadyPlaced (function : String)
deriving DecidableEq, Repr

def LayeringFault.message : LayeringFault → String
  | .selfDependency function => s!"function '{function}' depends on itself"
  | .cyclic function => s!"function '{function}' closes a dependency cycle"
  | .alreadyPlaced function => s!"function '{function}' is already in the graph"

/-- A function and the functions it calls, in order of first call. -/
structure Callees where
  function : String
  names : List String
deriving DecidableEq, Repr, Inhabited

namespace Callees

def none (function : String) : Callees := { function := function, names := [] }

def calls (callees : Callees) (name : String) : Bool := callees.names.contains name

def record (callees : Callees) (name : String) : Except LayeringFault (Callees × Bool) :=
  if name = callees.function then
    .error (.selfDependency callees.function)
  else if callees.calls name then
    .ok (callees, false)
  else
    .ok ({ callees with names := callees.names ++ [name] }, true)

end Callees

end SlotCompiler
