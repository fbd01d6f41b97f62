import SlotCompiler.Frame.Scope
import SlotCompiler.Frame.Variables
import SlotCompiler.Layering.Callees
import SlotCompiler.Parse.Input

/-!
Contract: what a function collects while its body is parsed.

Owns:
- the variables, scopes and callees of the function being parsed;
- declaring and finding names, adding temporaries, recording calls.
-/

namespace SlotCompiler

/-- The function being parsed. -/
structure Context where
  function : String
  frame : Variables
  scopes : ScopeChain
  callees : Callees

/-- A function of which nothing has been parsed. -/
def Context.initial (function : String) : Context :=
  { function := function, frame := .empty, scopes := .initial, callees := .none function }

/-- The input together with the function being parsed. -/
structure BodyInput where
  input : Input
  context : Context

/-- A step of parsing inside a function. -/
abbrev BodyParser := EStateM Diagnostic BodyInput

namespace BodyParser

/-- A step that leaves the function alone. -/
def ofParser {α : Type} (parser : Parser α) : BodyParser α := fun body =>
  match body with
  | ⟨input, context⟩ =>
    match parser input with
    | .ok value input => .ok value ⟨input, context⟩
    | .error fault input => .error fault ⟨input, context⟩

instance : MonadLift Parser BodyParser := ⟨ofParser⟩

def fail {α : Type} (cause : Cause) (position : Position) : BodyParser α :=
  throw ⟨cause, position⟩

def refuse {α : Type} (token : Token) (expected : List TokenKind) : BodyParser α :=
  throw (token.refusal expected)

/-- The slot that a change of the variables has given, or the fault of a full
frame. -/
def allocate (change : Variables → Option Slot × Variables) (position : Position) :
    BodyParser Slot := fun body =>
  match body with
  | ⟨input, function, frame, scopes, callees⟩ =>
    match change frame with
    | (some slot, frame) => .ok slot ⟨input, function, frame, scopes, callees⟩
    | (none, frame) =>
      .error ⟨.tooManyVariables function, position⟩
        ⟨input, function, frame, scopes, callees⟩

/-- Add a slot for an intermediate result. -/
def temporary (position : Position) : BodyParser Slot :=
  allocate Variables.addTemporary position

def modifyScopes (change : ScopeChain → ScopeChain) : BodyParser Unit :=
  modify fun body =>
    { body with context := { body.context with scopes := change body.context.scopes } }

/-- Refuse a name that the innermost block has already. -/
def requireFresh (name : String) (position : Position) : BodyParser Unit := do
  if (← get).context.scopes.isTaken name then
    fail (.duplicateSymbol name) position

def declare (name : String) (isMutable : Bool) (position : Position) : BodyParser Slot := do
  requireFresh name position
  let slot ← allocate (fun frame => frame.add name isMutable none) position
  modifyScopes fun scopes => (scopes.declare? name slot).getD scopes
  return slot

/-- The slot of a visible variable. -/
def lookup (name : String) (position : Position) : BodyParser Slot := do
  match (← get).context.scopes.lookup? name with
  | some slot => return slot
  | none => fail (.cannotFindSymbol name) position

def recordCall (name : String) (position : Position) : BodyParser Unit := fun body =>
  match body.context.callees.record name with
  | .ok (callees, _) => .ok () { body with context := { body.context with callees := callees } }
  | .error _ => .error ⟨.selfDependency name, position⟩ body

/-- Run a step and put the nesting back, whether it failed or not. -/
def restoringNesting {α : Type} (step : BodyParser α) : BodyParser α := fun body =>
  let nesting := body.input.nesting
  match step body with
  | .ok value body => .ok value { body with input := { body.input with nesting := nesting } }
  | .error fault body => .error fault { body with input := { body.input with nesting := nesting } }

/-- Run a step in a new block that holds some locks, and close the block whether
the step failed or not. -/
def inScope {α : Type} (locks : Nat) (step : BodyParser α) : BodyParser α := fun body =>
  let close (body : BodyInput) : BodyInput :=
    { body with context := { body.context with scopes := body.context.scopes.leave } }
  match modifyScopes (ScopeChain.enter · locks) body with
  | .error fault body => .error fault body
  | .ok _ body =>
    match step body with
    | .ok value body => .ok value (close body)
    | .error fault body => .error fault (close body)

end BodyParser

end SlotCompiler
