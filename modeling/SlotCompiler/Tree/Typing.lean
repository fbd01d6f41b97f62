import SlotCompiler.Diagnostic
import SlotCompiler.Tree.Basic
import SlotCompiler.Types.Operation

/-!
Contract: giving every slot of a function body its type.

Owns:
- the types of operands and the checks of every statement;
- the field numbers of member chains, stored in the tree.

Does not own: parameter types, which are set before, or the return on every
path, which is checked after.

Resolution stops at the first fault.  The tree and the variable table that come
back then hold what was found before it.
-/

namespace SlotCompiler

/-- What a function body is checked against. -/
structure TypeEnv where
  types : TypeTable
  /-- None for a function without a result. -/
  returnType? : Option TypeId

/-- How far resolution came: the tree with the field numbers found, the variable
table with the types found, and the outcome. -/
structure Resolution (α β : Type) where
  tree : α
  frame : Variables
  outcome : Except Diagnostic β

namespace TypeEnv

/-- The name of a type in messages. -/
def typeText (env : TypeEnv) (type? : Option TypeId) : String :=
  match type? with
  | some type => env.types.name type
  | none => "void"

/-- The handle of a type that the source names. -/
def findType (env : TypeEnv) (type : TypeRef) : Except Diagnostic TypeId :=
  match env.types.lookup? type.name with
  | some found => .ok found
  | none => .error ⟨.unknownType type.name, type.position⟩

def requireType (env : TypeEnv) (expected found : TypeId) (position : Position) :
    Except Diagnostic Unit :=
  if expected = found then
    .ok ()
  else
    .error ⟨.typeMismatch (env.typeText (some expected)) (env.typeText (some found)), position⟩

def findField (env : TypeEnv) (type : TypeId) (member : String) (position : Position) :
    Except Diagnostic (UInt16 × TypeId) :=
  if env.types.isStruct type then
    match env.types.field? type member with
    | some found => .ok found
    | none => .error ⟨.unknownMember (env.typeText (some type)) member, position⟩
  else
    .error ⟨.notAStruct (env.typeText (some type)) member, position⟩

end TypeEnv

namespace Variables

def resolvedType (frame : Variables) (slot : Slot) (position : Position) :
    Except Diagnostic TypeId :=
  match frame.typeOf? slot with
  | some type => .ok type
  | none =>
    let name := ((frame.get? slot).map Variable.name).getD ""
    .error ⟨.unresolvedType name, position⟩

/-- Refuse a slot that may not be written to. -/
def requireMutable (frame : Variables) (slot : Slot) (position : Position) :
    Except Diagnostic Unit :=
  match frame.get? slot with
  | some entry =>
    if entry.isMutable then .ok () else .error ⟨.immutableAssignment entry.name, position⟩
  | none => .ok ()

end Variables

/-- Resolve the members after an object of a known type. -/
def resolveSteps (env : TypeEnv) :
    TypeId → List MemberStep → Variables → Resolution (List MemberStep) Unit
  | _, [], frame => ⟨[], frame, .ok ()⟩
  | type, step :: rest, frame =>
    match env.findField type step.member step.position with
    | .error fault => ⟨step :: rest, frame, .error fault⟩
    | .ok (number, fieldType) =>
      let resolved :=
        resolveSteps env fieldType rest (frame.setType step.destination fieldType)
      ⟨{ step with field? := some number } :: resolved.tree, resolved.frame,
        resolved.outcome⟩

def MemberChain.resolve (env : TypeEnv) (chain : MemberChain) (frame : Variables) :
    Resolution MemberChain Unit :=
  match frame.resolvedType chain.source chain.position with
  | .error fault => ⟨chain, frame, .error fault⟩
  | .ok type =>
    let resolved := resolveSteps env type chain.steps frame
    ⟨{ chain with steps := resolved.tree }, resolved.frame, resolved.outcome⟩

def Immediate.type : Immediate → TypeId
  | .int _ => .int
  | .float _ => .float
  | .bool _ => .bool

def callConstruct : String := "Function call"

/-- The name of the construct in the message that refuses a statement without a
value. -/
def statementConstruct : String := "Statement used as a value"

def checkDeclared (env : TypeEnv) (declared? : Option TypeRef) (type : TypeId)
    (position : Position) : Except Diagnostic Unit :=
  match declared? with
  | none => .ok ()
  | some declared =>
    match env.findType declared with
    | .error fault => .error fault
    | .ok expected => env.requireType expected type position

/-- The outcome of a return whose value, if any, has a type. -/
def checkReturn (env : TypeEnv) (found? : Option TypeId) (position : Position) :
    Except Diagnostic Unit :=
  if found? = env.returnType? then
    .ok ()
  else
    .error ⟨.typeMismatch (env.typeText env.returnType?) (env.typeText found?), position⟩

mutual

/-- Resolve an operand and give its type.  Slots and literals are refused at the
position of the statement that takes them. -/
def Operand.resolve (env : TypeEnv) (position : Position) :
    Operand → Variables → Resolution Operand TypeId
  | .variable slot, frame =>
    ⟨.variable slot, frame, frame.resolvedType slot position⟩
  | .literal value, frame => ⟨.literal value, frame, .ok value.type⟩
  | .string value, frame => ⟨.string value, frame, .ok .string⟩
  | .node node, frame =>
    let resolved := node.resolve env frame
    let outcome :=
      match resolved.outcome with
      | .error fault => .error fault
      | .ok _ =>
        match resolved.tree.valueSlot? with
        | some slot => resolved.frame.resolvedType slot resolved.tree.position
        | none => .error ⟨.unsupportedConstruct statementConstruct, resolved.tree.position⟩
    ⟨.node resolved.tree, resolved.frame, outcome⟩
  | .call invoked, frame =>
    ⟨.call invoked, frame, .error ⟨.unsupportedConstruct callConstruct, invoked.position⟩⟩

def Node.resolve (env : TypeEnv) : Node → Variables → Resolution Node Unit
  | .declaration name slot isMutable declared? value position, frame =>
    let resolved := value.resolve env position frame
    let tree := Node.declaration name slot isMutable declared? resolved.tree position
    match resolved.outcome with
    | .error fault => ⟨tree, resolved.frame, .error fault⟩
    | .ok type =>
      match checkDeclared env declared? type position with
      | .error fault => ⟨tree, resolved.frame, .error fault⟩
      | .ok _ => ⟨tree, resolved.frame.setType slot type, .ok ()⟩
  | .assignment slot value position, frame =>
    match frame.requireMutable slot position with
    | .error fault => ⟨.assignment slot value position, frame, .error fault⟩
    | .ok _ =>
      match frame.resolvedType slot position with
      | .error fault => ⟨.assignment slot value position, frame, .error fault⟩
      | .ok expected =>
        let resolved := value.resolve env position frame
        ⟨.assignment slot resolved.tree position, resolved.frame,
          resolved.outcome.bind fun found => env.requireType expected found position⟩
  | .access chain, frame =>
    let resolved := chain.resolve env frame
    ⟨.access resolved.tree, resolved.frame, resolved.outcome⟩
  | .memberAssignment target member field? value position, frame =>
    match frame.requireMutable target.source position with
    | .error fault =>
      ⟨.memberAssignment target member field? value position, frame, .error fault⟩
    | .ok _ =>
      let object := target.resolve env frame
      let found :=
        object.outcome.bind fun _ =>
          (object.frame.resolvedType object.tree.valueSlot position).bind fun type =>
            env.findField type member position
      match found with
      | .error fault =>
        ⟨.memberAssignment object.tree member field? value position, object.frame,
          .error fault⟩
      | .ok (number, fieldType) =>
        let resolved := value.resolve env position object.frame
        ⟨.memberAssignment object.tree member (some number) resolved.tree position,
          resolved.frame,
          resolved.outcome.bind fun found => env.requireType fieldType found position⟩
  | .ret none locks position, frame =>
    ⟨.ret none locks position, frame, checkReturn env none position⟩
  | .ret (some value) locks position, frame =>
    let resolved := value.resolve env position frame
    ⟨.ret (some resolved.tree) locks position, resolved.frame,
      resolved.outcome.bind fun found => checkReturn env (some found) position⟩
  | .binary operator lhs rhs destination position, frame =>
    let left := lhs.resolve env position frame
    match left.outcome with
    | .error fault =>
      ⟨.binary operator left.tree rhs destination position, left.frame, .error fault⟩
    | .ok leftType =>
      let right := rhs.resolve env position left.frame
      let tree := Node.binary operator left.tree right.tree destination position
      match right.outcome with
      | .error fault => ⟨tree, right.frame, .error fault⟩
      | .ok rightType =>
        match operator.resultType? leftType rightType with
        | some type => ⟨tree, right.frame.setType destination type, .ok ()⟩
        | none =>
          ⟨tree, right.frame, .error
            ⟨.invalidOperands operator.symbol (env.typeText (some leftType))
              (env.typeText (some rightType)), position⟩⟩
  | .call invoked, frame =>
    ⟨.call invoked, frame, .error ⟨.unsupportedConstruct callConstruct, invoked.position⟩⟩
  | .conditional conditions blocks position, frame =>
    let checked := resolveConditions env position [] conditions frame
    match checked.outcome with
    | .error fault =>
      ⟨.conditional checked.tree blocks position, checked.frame, .error fault⟩
    | .ok _ =>
      let resolved := resolveBlocks env [] blocks checked.frame
      ⟨.conditional checked.tree resolved.tree position, resolved.frame,
        resolved.outcome⟩
  | .loop condition body position, frame =>
    let checked := condition.resolve env position frame
    match checked.outcome.bind fun found => env.requireType .bool found position with
    | .error fault => ⟨.loop checked.tree body position, checked.frame, .error fault⟩
    | .ok _ =>
      let resolved := resolveNodes env [] body checked.frame
      ⟨.loop checked.tree resolved.tree position, resolved.frame, resolved.outcome⟩
  | .sync locks body position, frame =>
    let resolved := resolveNodes env [] body frame
    ⟨.sync locks resolved.tree position, resolved.frame, resolved.outcome⟩

def resolveConditions (env : TypeEnv) (position : Position) (done : List Operand) :
    List Operand → Variables → Resolution (List Operand) Unit
  | [], frame => ⟨done.reverse, frame, .ok ()⟩
  | condition :: rest, frame =>
    let checked := condition.resolve env position frame
    match checked.outcome.bind fun found => env.requireType .bool found position with
    | .error fault => ⟨done.reverse ++ checked.tree :: rest, checked.frame, .error fault⟩
    | .ok _ => resolveConditions env position (checked.tree :: done) rest checked.frame

/-- Resolve the statements of a block after those done in reverse. -/
def resolveNodes (env : TypeEnv) (done : List Node) :
    List Node → Variables → Resolution (List Node) Unit
  | [], frame => ⟨done.reverse, frame, .ok ()⟩
  | node :: rest, frame =>
    let resolved := node.resolve env frame
    match resolved.outcome with
    | .error fault => ⟨done.reverse ++ resolved.tree :: rest, resolved.frame, .error fault⟩
    | .ok _ => resolveNodes env (resolved.tree :: done) rest resolved.frame

def resolveBlocks (env : TypeEnv) (done : List (List Node)) :
    List (List Node) → Variables → Resolution (List (List Node)) Unit
  | [], frame => ⟨done.reverse, frame, .ok ()⟩
  | block :: rest, frame =>
    let resolved := resolveNodes env [] block frame
    match resolved.outcome with
    | .error fault => ⟨done.reverse ++ resolved.tree :: rest, resolved.frame, .error fault⟩
    | .ok _ => resolveBlocks env (resolved.tree :: done) rest resolved.frame

end

def resolveBlock (env : TypeEnv) (block : Block) (frame : Variables) : Resolution Block Unit :=
  resolveNodes env [] block frame

end SlotCompiler
