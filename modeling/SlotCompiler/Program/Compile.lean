import SlotCompiler.Parse.Item
import SlotCompiler.Program.Basic
import SlotCompiler.Program.Functions
import SlotCompiler.Program.Structs
import SlotCompiler.Tree.Emission

/-!
Contract: compiling a source.

Owns:
- compiling one function: types, returns, instructions;
- the passes over a file in order, and when they stop;
- the outcome: a program, or every fault found up to the limit.

Does not own: what any single pass decides.
-/

namespace SlotCompiler

/-- What can be chosen about a compilation. -/
structure Config where
  /-- Stop once this many faults were found. -/
  faultLimit? : Option Nat
  /-- Note the listing of every compiled function. -/
  listsCode : Bool

namespace Config

def standard : Config := { faultLimit? := none, listsCode := false }

instance : Inhabited Config := ⟨standard⟩

/-- So many faults reach the limit. -/
def stopsAfter (config : Config) (faultCount : Nat) : Bool :=
  match config.faultLimit? with
  | some limit => limit ≤ faultCount
  | none => false

def shown (config : Config) (faults : List Diagnostic) : List Diagnostic :=
  match config.faultLimit? with
  | some limit => faults.take limit
  | none => faults

end Config

/-! ## One function -/

/-- Give parameters their types, and list these after those already found. -/
def typeParameters (env : TypeEnv) :
    List Parameter → Variables → Array TypeId → Except Diagnostic (Array TypeId × Variables)
  | [], frame, found => .ok (found, frame)
  | parameter :: rest, frame, found =>
    match env.findType parameter.type with
    | .error fault => .error fault
    | .ok type =>
      typeParameters env rest (frame.setType parameter.slot type) (found.push type)

def typeOfReturn (env : TypeEnv) (returnType? : Option TypeRef) :
    Except Diagnostic (Option TypeId) :=
  match returnType? with
  | none => .ok none
  | some type => some <$> env.findType type

/-- Refuse a function that has a result but may end without a return. -/
def requireReturn (function : FunctionItem) (returnType? : Option TypeId) :
    Except Diagnostic Unit :=
  if returnType?.isSome && !blockAlwaysReturns function.body then
    .error ⟨.missingReturn function.name, function.position⟩
  else
    .ok ()

def emitFunction (name : String) (body : Block) (returnType? : Option TypeId) : Emit Unit := do
  emitBlock name body
  if returnType?.isNone then
    Emit.instruction .ret

/-- A function whose slots have their types.  The field numbers of its members
are in the body. -/
structure TypedFunction where
  parameters : Array TypeId
  returnType? : Option TypeId
  body : Block
  frame : Variables

/-- Give the slots of a function their types, and check its returns. -/
def typeFunction (types : TypeTable) (function : FunctionItem) :
    Except Diagnostic TypedFunction := do
  let (parameters, frame) ← typeParameters ⟨types, none⟩ function.parameters function.frame #[]
  let returnType? ← typeOfReturn ⟨types, none⟩ function.returnType?
  match resolveBlock ⟨types, returnType?⟩ function.body frame with
  | ⟨body, frame, outcome⟩ =>
    outcome
    requireReturn function returnType?
    return { parameters, returnType?, body, frame }

def compileFunction (types : TypeTable) (function : FunctionItem) (layer : Nat) :
    Except Diagnostic FunctionCode := do
  let ⟨parameters, returnType?, body, frame⟩ ← typeFunction types function
  match emitFunction function.name body returnType? ⟨.empty, frame⟩ with
  | .error fault _ => .error fault
  | .ok _ ⟨buffer, frame⟩ =>
    .ok { name := function.name, parameters := parameters.toList, returnType?,
          code := buffer.code, constants := buffer.constants,
          frameSize := frame.size, layer }

/-! ## Whole files -/

namespace Pass

/-- Compile a placed function.  One whose body could not be read, or that calls
an undeclared function, gives nothing. -/
def compilePlaced (config : Config) (types : TypeTable) (table : FunctionTable) (name : String)
    (layer : Nat) : Pass (Option FunctionCode) := do
  match table.find? name with
  | none => return none
  | some function =>
    if function.isBroken then
      return none
    else
      match table.missingCallee? function with
      | some callee =>
        fault (.cannotFindSymbol callee) function.position
        return none
      | none =>
        match compileFunction types function layer with
        | .error diagnostic =>
          fault diagnostic.cause diagnostic.position
          return none
        | .ok compiled =>
          note (.functionCompiled name compiled.code.size)
          if config.listsCode then
            note (.functionListed name compiled.code compiled.constants)
          return some compiled

/-- Compile placed functions in order until the limit of faults is reached. -/
def compileAll (config : Config) (types : TypeTable) (table : FunctionTable) :
    List (String × Nat) → Array FunctionCode → Pass (Array FunctionCode)
  | [], compiled => return compiled
  | (name, layer) :: rest, compiled => do
      if config.stopsAfter (← get).faults.size then
        return compiled
      else
        match ← compilePlaced config types table name layer with
        | some function => compileAll config types table rest (compiled.push function)
        | none => compileAll config types table rest compiled

def compileFile (config : Config) (file : File) : Pass Program := do
  let types ← structTypes file.structs.toList
  let table ← layerFunctions file.functions.toList
  let functions ← compileAll config types table table.order #[]
  return { types, functions }

end Pass

/-- How a compilation ended, and what was noted meanwhile. -/
structure Compilation where
  outcome : Except (List Diagnostic) Program
  events : List Event

/-- The events of the tokens that a parser looked at. -/
def Input.events (input : Input) : List Event :=
  input.cursor.seen.flatMap (Event.ofReportedToken input.cursor.sourceName)

/-- Compile a source.  Any fault makes the compilation fail, also when the limit
leaves none to show. -/
def compile (config : Config) (source : Source) : Compilation :=
  let (parsed, input) := parseSource source
  let (program, notes) := Pass.compileFile config parsed.file ⟨parsed.faults, #[]⟩
  { outcome :=
      if notes.faults.isEmpty then .ok program else .error (config.shown notes.faults.toList)
    events := input.events ++ notes.events.toList }

end SlotCompiler
