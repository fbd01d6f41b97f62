import Mathlib
import SlotCompiler.Parse.Item

/-!
Contract: how reading a part of a function body changes what the function has
collected.

Field numbers are unknown while a body is read, so nothing is said about them.
-/

namespace SlotCompiler

/-- A part of a function body. -/
inductive TreePart where
  | operand (value : Operand)
  | operands (values : List Operand)
  | steps (members : List MemberStep)
  | node (statement : Node)
  | nodes (statements : List Node)
  /-- Statements in a scope of their own that holds some locks. -/
  | block (locks : Nat) (statements : List Node)
  /-- The rest of a conditional. -/
  | arms (conditions : List Operand) (blocks : List (List Node))

namespace Context

def withFrame (context : Context) (frame : Variables) : Context := { context with frame := frame }

def withScopes (context : Context) (scopes : ScopeChain) : Context :=
  { context with scopes := scopes }

def withCallees (context : Context) (callees : Callees) : Context :=
  { context with callees := callees }

/-- A temporary is added to the frame. -/
def Adds (before : Context) (slot : Slot) (after : Context) : Prop :=
  ∃ frame, before.frame.addTemporary = (some slot, frame) ∧ after = before.withFrame frame

/-- A name that the innermost block does not have yet is declared. -/
def Declares (before : Context) (name : String) (isMutable : Bool) (slot : Slot)
    (after : Context) : Prop :=
  before.scopes.isTaken name = false ∧
    ∃ frame scopes, before.frame.add name isMutable none = (some slot, frame) ∧
      before.scopes.declare? name slot = some scopes ∧
      after = (before.withFrame frame).withScopes scopes

/-- A call of another function is recorded. -/
def Records (before : Context) (name : String) (after : Context) : Prop :=
  ∃ callees isNew, before.callees.record name = .ok (callees, isNew) ∧
    after = before.withCallees callees

end Context

/-- Reading a part takes the function from one context to another. -/
inductive Reads : TreePart → Context → Context → Prop where
  | visible {name slot} {context : Context} (found : context.scopes.lookup? name = some slot) :
      Reads (.operand (.variable slot)) context context
  | literal {value context} : Reads (.operand (.literal value)) context context
  | string {text context} : Reads (.operand (.string text)) context context
  | access {name} {chain : MemberChain} {before after : Context}
      (found : before.scopes.lookup? name = some chain.source)
      (projected : Reads (.steps chain.steps) before after) :
      Reads (.operand (.node (.access chain))) before after
  | binary {operator lhs rhs destination position before middle late after}
      (left : Reads (.operand lhs) before middle) (right : Reads (.operand rhs) middle late)
      (added : late.Adds destination after) :
      Reads (.operand (.node (.binary operator lhs rhs destination position))) before after
  | call {invoked : Call} {before middle after}
      (arguments : Reads (.operands invoked.arguments) before middle)
      (recorded : middle.Records invoked.name after) : Reads (.operand (.call invoked)) before after
  | noOperands {context} : Reads (.operands []) context context
  | moreOperands {value rest before middle after} (head : Reads (.operand value) before middle)
      (tail : Reads (.operands rest) middle after) : Reads (.operands (value :: rest)) before after
  | noSteps {context} : Reads (.steps []) context context
  | moreSteps {step : MemberStep} {rest} {before middle after : Context}
      (added : before.Adds step.destination middle) (tail : Reads (.steps rest) middle after) :
      Reads (.steps (step :: rest)) before after
  | declaration {name slot isMutable declared? value position before middle after}
      (initial : Reads (.operand value) before middle)
      (declared : middle.Declares name isMutable slot after) :
      Reads (.node (.declaration name slot isMutable declared? value position)) before after
  | assignment {name slot value position} {before after : Context}
      (found : before.scopes.lookup? name = some slot)
      (assigned : Reads (.operand value) before after) :
      Reads (.node (.assignment slot value position)) before after
  | memberAssignment {name member} {target : MemberChain} {field? value position}
      {before middle after : Context} (found : before.scopes.lookup? name = some target.source)
      (projected : Reads (.steps target.steps) before middle)
      (assigned : Reads (.operand value) middle after) :
      Reads (.node (.memberAssignment target member field? value position)) before after
  | ret {position} {context : Context} :
      Reads (.node (.ret none context.scopes.lockDepth position)) context context
  | retValue {value position before after} (returned : Reads (.operand value) before after) :
      Reads (.node (.ret (some value) after.scopes.lockDepth position)) before after
  | callStatement {invoked before after} (called : Reads (.operand (.call invoked)) before after) :
      Reads (.node (.call invoked)) before after
  | conditional {conditions blocks position before after}
      (chained : Reads (.arms conditions blocks) before after) :
      Reads (.node (.conditional conditions blocks position)) before after
  | loop {condition body position before middle after}
      (tested : Reads (.operand condition) before middle)
      (repeated : Reads (.block 0 body) middle after) :
      Reads (.node (.loop condition body position)) before after
  | sync {locks body position} {before after : Context}
      (found : ∀ lock ∈ locks, before.scopes.lookup? lock.name = some lock.slot)
      (distinct : (locks.map Lock.slot).Nodup) (few : locks.length < 0x10000)
      (guarded : Reads (.block locks.length body) before after) :
      Reads (.node (.sync locks body position)) before after
  | noNodes {context} : Reads (.nodes []) context context
  | moreNodes {node rest before middle after} (head : Reads (.node node) before middle)
      (tail : Reads (.nodes rest) middle after) : Reads (.nodes (node :: rest)) before after
  | block {locks nodes} {before after : Context}
      (inside : Reads (.nodes nodes) (before.withScopes (before.scopes.enter locks)) after) :
      Reads (.block locks nodes) before (after.withScopes after.scopes.leave)
  | arm {condition conditions taken blocks before middle late after}
      (tested : Reads (.operand condition) before middle)
      (entered : Reads (.block 0 taken) middle late)
      (rest : Reads (.arms conditions blocks) late after) :
      Reads (.arms (condition :: conditions) (taken :: blocks)) before after
  | alternative {otherwise before after} (entered : Reads (.block 0 otherwise) before after) :
      Reads (.arms [] [otherwise]) before after
  | noAlternative {context} : Reads (.arms [] []) context context

/-- Reading parameters declares them in order. -/
inductive ReadsParameters : List Parameter → Context → Context → Prop where
  | nil {context} : ReadsParameters [] context context
  | cons {parameter : Parameter} {rest} {before middle after : Context}
      (declared : before.Declares parameter.name parameter.isMutable parameter.slot middle)
      (tail : ReadsParameters rest middle after) : ReadsParameters (parameter :: rest) before after

/-- A function item whose body was read from the context that its parameters
left. -/
structure FunctionItem.WasRead (item : FunctionItem) (entered left : Context) : Prop where
  parameters : ReadsParameters item.parameters (.initial item.name) entered
  body : Reads (.nodes item.body) entered left
  frame : item.frame = left.frame
  callees : item.callees = left.callees

def FunctionItem.IsRead (item : FunctionItem) : Prop :=
  ∃ entered left, item.WasRead entered left

end SlotCompiler
