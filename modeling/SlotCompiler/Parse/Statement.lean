import SlotCompiler.Parse.Expression

/-!
Contract: statements and blocks.

Owns:
- declarations, assignments, returns, conditionals, loops, locks and calls;
- the scope of a block and the locks that returns inside it must release.

Does not own: expressions, or the items around a body.
-/

namespace SlotCompiler

namespace Parser

def typeOpeners : List TokenKind := [.boolKw, .intKw, .floatKw, .stringKw, .identifier]

def typeName? : Content → Option String
  | .plain .boolKw => some "bool"
  | .plain .intKw => some "int"
  | .plain .floatKw => some "float"
  | .plain .stringKw => some "string"
  | .identifier name => some name
  | _ => none

def typeName : Parser TypeRef := do
  let token ← peek
  match typeName? token.content with
  | some name =>
    let _ ← next
    return ⟨name, token.position⟩
  | none => refuse token typeOpeners

def typeAfter (kind : TokenKind) : Parser (Option TypeRef) := do
  if ← accept kind then
    return some (← typeName)
  else
    return none

end Parser

namespace BodyParser

def statementOpeners : List TokenKind :=
  [.returnKw, .constKw, .mutKw, .ifKw, .whileKw, .syncKw, .identifier, .rightBrace]

/-- A variable declaration.  The name is declared last, so that the initial
value cannot refer to it. -/
def declaration (fuel : Nat) : BodyParser Node := do
  let keyword ← Parser.next
  let isMutable := keyword.kind == .mutKw
  let (name, position) ← Parser.identifier
  requireFresh name position
  let declared? ← Parser.typeAfter .colon
  let _ ← Parser.expect .assign
  let value ← expression fuel
  let _ ← Parser.expect .semicolon
  let slot ← declare name isMutable position
  return .declaration name slot isMutable declared? value keyword.position

def assignedValue (fuel : Nat) : BodyParser Operand := do
  let _ ← Parser.expect .assign
  let value ← expression fuel
  let _ ← Parser.expect .semicolon
  return value

/-- An assignment to a variable whose name has been read. -/
def assignment (fuel : Nat) (name : String) (position : Position) : BodyParser Node := do
  let slot ← lookup name position
  return .assignment slot (← assignedValue fuel) position

/-- An assignment to a member of a variable whose name has been read.  All
members but the last are projected. -/
def memberAssignment (fuel : Nat) (name : String) (position : Position) : BodyParser Node := do
  let source ← lookup name position
  let names ← memberNames fuel #[]
  match names.back? with
  | none => refuse (← Parser.peek) [.dot]
  | some (member, _) =>
    let target ← project source names.pop.toList position
    return .memberAssignment target member none (← assignedValue fuel) position

def returnStatement (fuel : Nat) : BodyParser Node := do
  let keyword ← Parser.expect .returnKw
  let value? ←
    if (← Parser.peekKind) = .semicolon then pure none else some <$> expression fuel
  let _ ← Parser.expect .semicolon
  return .ret value? (← get).context.scopes.lockDepth keyword.position

def namedStatement (fuel : Nat) : BodyParser Node := do
  let (name, position) ← Parser.identifier
  let kind ← Parser.peekKind
  if kind = .assign then
    assignment fuel name position
  else if kind = .dot then
    memberAssignment fuel name position
  else if kind = .leftParen then
    let call ← callExpression fuel name position
    let _ ← Parser.expect .semicolon
    return .call call
  else
    refuse (← Parser.peek) [.assign, .dot, .leftParen]

/-- The variables that a statement locks, after those already read.  A variable
is locked at most once, since a second lock would wait for the first. -/
def lockList : Nat → Array Lock → BodyParser (Array Lock)
  | 0, _ => exhausted
  | fuel + 1, locks => do
      let exclusive ← Parser.accept .mutKw
      let (name, position) ← Parser.identifier
      let slot ← lookup name position
      if locks.any fun lock => lock.slot == slot then
        fail (.duplicateSymbol name) position
      else
        let locks := locks.push { name, slot, exclusive }
        if ← Parser.accept .comma then lockList fuel locks else return locks

def parenthesised (fuel : Nat) : BodyParser Operand := do
  let _ ← Parser.expect .leftParen
  let condition ← expression fuel
  let _ ← Parser.expect .rightParen
  return condition

mutual

/-- One statement, or none once the brace that closes the block is consumed. -/
def statement (fuel : Nat) : BodyParser (Option Node) :=
  match fuel with
  | 0 => exhausted
  | fuel + 1 => do
      let token ← Parser.peek
      let kind := token.kind
      if kind = .returnKw then
        some <$> returnStatement fuel
      else if kind = .constKw ∨ kind = .mutKw then
        some <$> declaration fuel
      else if kind = .ifKw then
        let keyword ← Parser.expect .ifKw
        let (conditions, blocks) ← conditionalArms fuel #[] #[]
        return some (.conditional conditions.toList blocks.toList keyword.position)
      else if kind = .whileKw then
        let keyword ← Parser.expect .whileKw
        let condition ← parenthesised fuel
        let body ← block fuel 0
        return some (.loop condition body keyword.position)
      else if kind = .syncKw then
        let keyword ← Parser.expect .syncKw
        let locks ← lockList fuel #[]
        if 0x10000 ≤ locks.size then
          fail (.tooManyVariables (← get).context.function) keyword.position
        else
          let body ← block fuel locks.size
          return some (.sync locks.toList body keyword.position)
      else if kind = .identifier then
        some <$> namedStatement fuel
      else if kind = .rightBrace then
        let _ ← Parser.next
        return none
      else
        refuse token statementOpeners

/-- A block in braces, in a scope of its own that holds some locks. -/
def block (fuel locks : Nat) : BodyParser Block :=
  match fuel with
  | 0 => exhausted
  | fuel + 1 => do
      let brace ← Parser.expect .leftBrace
      restoringNesting do
        Parser.descend brace.position
        inScope locks do
          return (← statements fuel #[]).toList

/-- The statements up to the closing brace, after those already read. -/
def statements (fuel : Nat) (nodes : Array Node) : BodyParser (Array Node) :=
  match fuel with
  | 0 => exhausted
  | fuel + 1 => do
      match ← statement fuel with
      | some node => statements fuel (nodes.push node)
      | none => return nodes

/-- The arms of a conditional and its final alternative, after the arms already
read. -/
def conditionalArms (fuel : Nat) (conditions : Array Operand) (blocks : Array Block) :
    BodyParser (Array Operand × Array Block) :=
  match fuel with
  | 0 => exhausted
  | fuel + 1 => do
      let condition ← parenthesised fuel
      let arm ← block fuel 0
      let conditions := conditions.push condition
      let blocks := blocks.push arm
      if ← Parser.accept .elseKw then
        if ← Parser.accept .ifKw then
          conditionalArms fuel conditions blocks
        else
          let alternative ← block fuel 0
          return (conditions, blocks.push alternative)
      else
        return (conditions, blocks)

end

end BodyParser

end SlotCompiler
