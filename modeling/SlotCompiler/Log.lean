import SlotCompiler.Layering.Graph
import SlotCompiler.Machine.Listing
import SlotCompiler.Token.Stream

/-!
Contract: what the compiler notes down while it works.

Owns:
- the events worth noting, the level of each and its wording;
- the events of tokens, of placements and of compiled functions.
-/

namespace SlotCompiler

/-- How important an event is. -/
inductive Level where
  | warn
  | debug
  | trace
deriving DecidableEq, Repr

namespace Level

/-- Severity, the most severe first. -/
def rank : Level → Nat
  | .warn => 0
  | .debug => 1
  | .trace => 2

/-- An event of level `other` is noted when notes of this level are asked
for. -/
def admits (level other : Level) : Bool := other.rank ≤ level.rank

def name : Level → String
  | .warn => "WARN"
  | .debug => "DEBUG"
  | .trace => "TRACE"

end Level

/-- An event worth noting. -/
inductive Event where
  | tokenScanned (token : Token)
  | faultReported (sourceName : String) (report : Report)
  | structRegistered (name : String) (fieldCount : Nat)
  | functionPlaced (name : String) (layer : Nat)
  | functionRaised (raise : Raise)
  | functionsLayered (functionCount layerCount : Nat)
  | functionCompiled (name : String) (wordCount : Nat)
  | functionListed (name : String) (code : Array Word) (constants : Array String)
deriving DecidableEq, Repr

namespace Event

def level : Event → Level
  | .tokenScanned _ => .trace
  | .faultReported _ _ => .warn
  | _ => .debug

def message : Event → String
  | .tokenScanned token =>
    Text.alignRight 4 (toString token.position.line) ++ ":" ++
      Text.alignLeft 3 (toString token.position.column) ++ " " ++
      token.kind.name ++ " " ++ Text.quoted token.text
  | .faultReported sourceName report =>
    report.position.textIn sourceName ++ ": syntax error: " ++ report.fault.message
  | .structRegistered name fieldCount => s!"struct '{name}' has {fieldCount} fields"
  | .functionPlaced name layer => s!"function '{name}' placed in layer {layer}"
  | .functionRaised ⟨name, source, target⟩ =>
    s!"function '{name}' moved from layer {source} to {target}"
  | .functionsLayered functionCount layerCount =>
    s!"{functionCount} functions placed in {layerCount} layers"
  | .functionCompiled name wordCount => s!"function '{name}' compiled to {wordCount} instructions"
  | .functionListed name code constants =>
    name ++ ":\n" ++ Listing.ofWords constants code.toList

def ofToken (token : Token) : List Event := [.tokenScanned token]

/-- The events of a token that was looked at, with its fault noted first. -/
def ofReportedToken (sourceName : String) (token : Token) : List Event :=
  match token.report? with
  | some report => [.faultReported sourceName report, .tokenScanned token]
  | none => [.tokenScanned token]

def ofPlacement (name : String) (placement : LayeredGraph.Placement) : List Event :=
  .functionPlaced name placement.initialLayer :: placement.raises.map .functionRaised

end Event

end SlotCompiler
