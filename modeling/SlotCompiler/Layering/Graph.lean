import SlotCompiler.Layering.Callees

/-!
Contract: functions placed in layers, each strictly above the placed functions
it calls.

Owns:
- placement of a function and refusal of cycles;
- raising of earlier functions when one of their callees is placed after them;
- the processing order: layer by layer, in order of placement within a layer.

Does not own: what is done with a function when its turn comes.
-/

namespace SlotCompiler

/-- A placed function. -/
structure Placed where
  callees : Callees
  layer : Nat
deriving DecidableEq, Repr

namespace Placed

def name (placed : Placed) : String := placed.callees.function

end Placed

/-- A function raised from one layer to another. -/
structure Raise where
  name : String
  source : Nat
  target : Nat
deriving DecidableEq, Repr

/-- Functions in order of placement, with their layers. -/
structure LayeredGraph where
  entries : List Placed
deriving DecidableEq, Repr

namespace LayeredGraph

def empty : LayeredGraph := ⟨[]⟩

instance : Inhabited LayeredGraph := ⟨empty⟩

def size (graph : LayeredGraph) : Nat := graph.entries.length

def find? (graph : LayeredGraph) (name : String) : Option Placed :=
  graph.entries.find? fun placed => placed.name == name

def contains (graph : LayeredGraph) (name : String) : Bool := (graph.find? name).isSome

def layerOf? (graph : LayeredGraph) (name : String) : Option Nat :=
  (graph.find? name).map Placed.layer

/-! ## Reachability -/

/-- Depth-first search for `target` along calls of placed functions.  Every
placed function is expanded once, so the calls recorded in the graph and the
starting names bound the number of rounds. -/
def searchFor (graph : LayeredGraph) (target : String) : Nat → List String → List String → Bool
  | 0, _, _ => false
  | _, _, [] => false
  | fuel + 1, visited, name :: pending =>
    if name = target then
      true
    else if visited.contains name then
      graph.searchFor target fuel visited pending
    else
      match graph.find? name with
      | none => graph.searchFor target fuel visited pending
      | some placed =>
        graph.searchFor target fuel (name :: visited) (placed.callees.names ++ pending)

def callCount (graph : LayeredGraph) : Nat :=
  graph.entries.foldr (fun placed total => placed.callees.names.length + total) 0

/-- One of the starting names is `target` or reaches it through placed
functions. -/
def reaches (graph : LayeredGraph) (start : List String) (target : String) : Bool :=
  graph.searchFor target (start.length + graph.callCount + 1) [] start

/-! ## Raising dependents -/

/-- Lift every direct caller of `name` that lies below `floor` up to it.  The
raises are listed in order of placement. -/
def raiseCallers (entries : List Placed) (name : String) (floor : Nat) :
    List Placed × List Raise :=
  let lies (placed : Placed) : Bool := placed.callees.calls name && placed.layer < floor
  (entries.map fun placed => if lies placed then { placed with layer := floor } else placed,
    (entries.filter lies).map fun placed => ⟨placed.name, placed.layer, floor⟩)

/-- Work through the functions whose callers may have to move, latest first. -/
def raiseAll : Nat → LayeredGraph → List String → List Raise → LayeredGraph × List Raise
  | 0, graph, _, raises => (graph, raises)
  | _, graph, [], raises => (graph, raises)
  | fuel + 1, graph, name :: pending, raises =>
    let floor := (graph.layerOf? name).getD 0 + 1
    let (entries, moved) := raiseCallers graph.entries name floor
    raiseAll fuel ⟨entries⟩ ((moved.map Raise.name).reverse ++ pending) (raises ++ moved)

/-- Rounds that always suffice: every function but the new one enters the work
list only when its layer grows, and layers stay below the number of
functions. -/
def raiseFuel (graph : LayeredGraph) : Nat := graph.size * graph.size + 1

/-! ## Placement -/

def layerFor (graph : LayeredGraph) (callees : Callees) : Nat :=
  ((callees.names.filterMap graph.layerOf?).map (· + 1)).foldl max 0

/-- A successful placement. -/
structure Placement where
  graph : LayeredGraph
  /-- The layer the function was put in at first. -/
  initialLayer : Nat
  /-- The functions raised because of it, in order. -/
  raises : List Raise
  /-- The layer of the function once all raises are done. -/
  layer : Nat
deriving DecidableEq, Repr

/-- Place a function, unless its name is taken or it would close a cycle. -/
def place (graph : LayeredGraph) (callees : Callees) : Except LayeringFault Placement :=
  let name := callees.function
  if graph.contains name then
    .error (.alreadyPlaced name)
  else if callees.calls name then
    .error (.selfDependency name)
  else if graph.reaches callees.names name then
    .error (.cyclic name)
  else
    let layer := graph.layerFor callees
    let extended : LayeredGraph := ⟨graph.entries ++ [⟨callees, layer⟩]⟩
    let (raised, raises) := raiseAll extended.raiseFuel extended [name] []
    .ok { graph := raised, initialLayer := layer, raises := raises,
          layer := (raised.layerOf? name).getD layer }

/-! ## Processing order -/

/-- One more than the highest layer in use. -/
def layerCount (graph : LayeredGraph) : Nat :=
  (graph.entries.map fun placed => placed.layer + 1).foldl max 0

/-- The functions of each layer, lowest first, in order of placement. -/
def layers (graph : LayeredGraph) : List (List Callees) :=
  (List.range graph.layerCount).map fun layer =>
    (graph.entries.filter fun placed => placed.layer == layer).map Placed.callees

def order (graph : LayeredGraph) : List Callees := graph.layers.flatten

end LayeredGraph

end SlotCompiler
