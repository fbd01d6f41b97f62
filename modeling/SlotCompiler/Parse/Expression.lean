import SlotCompiler.Parse.Context
import SlotCompiler.Tree.Basic

/-!
Contract: expressions.

Owns:
- literals, names, member chains, calls and parentheses;
- operators by precedence, left associative, each with its own temporary.

The parsers below call each other with one unit of fuel less; the budget of the
input is enough for any of them.
-/

namespace SlotCompiler

namespace BodyParser

def operandOpeners : List TokenKind :=
  [.identifier, .intLiteral, .floatLiteral, .stringLiteral, .trueKw, .falseKw, .leftParen]

/-- The text that the contents of a string literal stand for. -/
def decodeEscapes : List Char → List Char
  | [] => []
  | '\\' :: [] => []
  | '\\' :: character :: rest => escapedChar character :: decodeEscapes rest
  | character :: rest => character :: decodeEscapes rest

/-- The members of a chain with their places, after those already read. -/
def memberNames : Nat → Array (String × Position) → BodyParser (Array (String × Position))
  | 0, names => return names
  | fuel + 1, names => do
      if ← Parser.accept .dot then
        let name ← Parser.identifier
        memberNames fuel (names.push name)
      else
        return names

/-- Give every member of a chain its own temporary, in order. -/
def projectSteps : List (String × Position) → BodyParser (List MemberStep)
  | [] => return []
  | (member, position) :: rest => do
      let destination ← temporary position
      let steps ← projectSteps rest
      return { member, destination, field? := none, position } :: steps

def project (source : Slot) (names : List (String × Position)) (position : Position) :
    BodyParser MemberChain := do
  return { source, steps := ← projectSteps names, position }

/-- The fault of a parser without fuel, which counts as nested too deeply. -/
def exhausted {α : Type} : BodyParser α := do
  let token ← Parser.peek
  fail (.nestingTooDeep Input.nestingLimit) token.position

mutual

/-- Operands joined by operators that bind at least as tightly as
`minPrecedence`. -/
def binaryExpression (fuel minPrecedence : Nat) : BodyParser Operand :=
  match fuel with
  | 0 => exhausted
  | fuel + 1 => restoringNesting do
      let lhs ← primaryExpression fuel
      operatorChain fuel minPrecedence lhs

/-- The operators after a left operand.  Each one wraps all to its left, so it
counts as one more level of nesting; its right side takes only tighter ones. -/
def operatorChain (fuel minPrecedence : Nat) (lhs : Operand) : BodyParser Operand :=
  match fuel with
  | 0 => exhausted
  | fuel + 1 => do
      match (← Parser.peekKind).operator? with
      | none => return lhs
      | some operator =>
        if operator.precedence < minPrecedence then
          return lhs
        else
          let token ← Parser.next
          Parser.descend token.position
          let rhs ← binaryExpression fuel (operator.precedence + 1)
          let destination ← temporary token.position
          operatorChain fuel minPrecedence
            (.node (.binary operator lhs rhs destination token.position))

/-- A literal, a name, a member chain, a call or a parenthesised expression. -/
def primaryExpression (fuel : Nat) : BodyParser Operand :=
  match fuel with
  | 0 => exhausted
  | fuel + 1 => do
      let token ← Parser.peek
      match token.content with
      | .int value =>
        let _ ← Parser.next
        return .literal (.int value)
      | .float value =>
        let _ ← Parser.next
        return .literal (.float value)
      | .string raw =>
        let _ ← Parser.next
        return .string (String.ofList (decodeEscapes raw.toList))
      | .plain kind =>
        if kind = .trueKw then
          let _ ← Parser.next
          return .literal (.bool true)
        else if kind = .falseKw then
          let _ ← Parser.next
          return .literal (.bool false)
        else if kind = .leftParen then
          let _ ← Parser.next
          let value ← restoringNesting do
            Parser.descend token.position
            binaryExpression fuel 1
          let _ ← Parser.expect .rightParen
          return value
        else
          refuse token operandOpeners
      | .identifier _ =>
        let (name, position) ← Parser.identifier
        let kind ← Parser.peekKind
        if kind = .dot then
          let source ← lookup name position
          let names ← memberNames fuel #[]
          return .node (.access (← project source names.toList position))
        else if kind = .leftParen then
          return .call (← callExpression fuel name position)
        else
          return .variable (← lookup name position)
      | _ => refuse token operandOpeners

def callExpression (fuel : Nat) (name : String) (position : Position) : BodyParser Call :=
  match fuel with
  | 0 => exhausted
  | fuel + 1 => do
      let _ ← Parser.expect .leftParen
      let arguments ←
        if ← Parser.accept .rightParen then pure #[] else argumentList fuel #[]
      recordCall name position
      return { name, arguments := arguments.toList, position }

/-- The arguments up to the closing parenthesis, after those already read. -/
def argumentList (fuel : Nat) (arguments : Array Operand) : BodyParser (Array Operand) :=
  match fuel with
  | 0 => exhausted
  | fuel + 1 => do
      let argument ← binaryExpression fuel 1
      if ← Parser.accept .comma then
        argumentList fuel (arguments.push argument)
      else
        let _ ← Parser.expect .rightParen
        return arguments.push argument

end

def expression (fuel : Nat) : BodyParser Operand := binaryExpression fuel 1

end BodyParser

end SlotCompiler
