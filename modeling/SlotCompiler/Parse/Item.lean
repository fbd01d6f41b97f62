import SlotCompiler.Parse.Statement
import Std.Data.HashSet

/-!
Contract: the items of a source file.

Owns:
- struct items, function signatures and bodies, and whole files;
- going on after a fault: a faulty body is skipped to its closing brace,
  anything else to the next item.

Does not own: types and layers, which need all items.
-/

namespace SlotCompiler

namespace Parser

/-! ## Structs -/

/-- The fields of a struct up to its closing brace, after those already read. -/
def structFields : Nat → Array FieldDeclaration → Std.HashSet String →
    Parser (Array FieldDeclaration)
  | 0, fields, _ => return fields
  | fuel + 1, fields, seen => do
      if ← accept .rightBrace then
        return fields
      else
        let (name, position) ← identifier
        if seen.contains name then
          fail (.duplicateSymbol name) position
        else
          let _ ← expect .colon
          let type ← typeName
          let fields := fields.push { name, type }
          if ← accept .comma then
            structFields fuel fields (seen.insert name)
          else
            let _ ← expect .rightBrace
            return fields

def structItem (fuel : Nat) : Parser StructItem := do
  let keyword ← expect .structKw
  let (name, _) ← identifier
  let _ ← expect .leftBrace
  let fields ← structFields fuel #[] ∅
  return { name, fields := fields.toList, position := keyword.position }

end Parser

/-! ## Functions -/

/-- What stands before a function body. -/
structure Signature where
  name : String
  position : Position
  parameters : List Parameter
  returnType? : Option TypeRef

namespace BodyParser

/-- The parameters up to the closing parenthesis, after those already read. -/
def parameterList : Nat → Array Parameter → BodyParser (Array Parameter)
  | 0, _ => exhausted
  | fuel + 1, parameters => do
      let isMutable ← Parser.accept .mutKw
      let (name, position) ← Parser.identifier
      let _ ← Parser.expect .colon
      let type ← Parser.typeName
      let slot ← declare name isMutable position
      let parameters := parameters.push { name, slot, isMutable, type }
      if ← Parser.accept .comma then
        parameterList fuel parameters
      else
        let _ ← Parser.expect .rightParen
        return parameters

/-- The signature after the function's name, with the brace that opens the
body. -/
def signatureAfter (fuel : Nat) (name : String) (position : Position) : BodyParser Signature := do
  let _ ← Parser.expect .leftParen
  let parameters ←
    if ← Parser.accept .rightParen then pure #[] else parameterList fuel #[]
  let returnType? ← Parser.typeAfter .arrow
  let _ ← Parser.expect .leftBrace
  return { name, position, parameters := parameters.toList, returnType? }

end BodyParser

namespace Parser

/-- A signature, and the function with its parameters declared. -/
def signature (fuel : Nat) : Parser (Signature × Context) := do
  let keyword ← expect .fnKw
  let (name, _) ← identifier
  fun input =>
    match BodyParser.signatureAfter fuel name keyword.position ⟨input, Context.initial name⟩ with
    | .ok signature ⟨input, context⟩ => .ok (signature, context) input
    | .error fault ⟨input, _⟩ => .error fault input

def functionItem (signature : Signature) (body : Block) (context : Context) (isBroken : Bool) :
    FunctionItem :=
  { name := signature.name, position := signature.position, parameters := signature.parameters,
    returnType? := signature.returnType?, body, frame := context.frame,
    callees := context.callees, isBroken }

/-- A function body after its opening brace.  A faulty body is skipped up to its
closing brace and left empty; what the function collected before the fault is
kept. -/
def functionBody (fuel : Nat) (signature : Signature) (context : Context) (input : Input) :
    (FunctionItem × Option Diagnostic) × Input :=
  let depth := input.depth
  match BodyParser.statements fuel #[] ⟨input, context⟩ with
  | .ok nodes ⟨input, context⟩ => ((functionItem signature nodes.toList context false, none), input)
  | .error fault ⟨input, context⟩ =>
    ((functionItem signature [] context true, some fault), input.skipOutOf depth)

/-- A function item, with the fault of its body if it had one. -/
def function (fuel : Nat) : Parser (FunctionItem × Option Diagnostic) := do
  let (signature, context) ← signature fuel
  fun input =>
    let (result, input) := functionBody fuel signature context input
    .ok result input

end Parser

/-! ## Files -/

/-- The items of a file and the faults found in it. -/
structure ParsedFile where
  file : File
  faults : Array Diagnostic

namespace ParsedFile

def empty : ParsedFile := { file := .empty, faults := #[] }

instance : Inhabited ParsedFile := ⟨empty⟩

def addStruct (parsed : ParsedFile) (item : StructItem) : ParsedFile :=
  { parsed with file := { parsed.file with structs := parsed.file.structs.push item } }

def addFunction (parsed : ParsedFile) (item : FunctionItem) : ParsedFile :=
  { parsed with file := { parsed.file with functions := parsed.file.functions.push item } }

def addFault (parsed : ParsedFile) (fault : Diagnostic) : ParsedFile :=
  { parsed with faults := parsed.faults.push fault }

end ParsedFile

def ParsedFile.addFunctionResult (parsed : ParsedFile)
    (result : FunctionItem × Option Diagnostic) : ParsedFile :=
  let parsed := parsed.addFunction result.1
  match result.2 with
  | some fault => parsed.addFault fault
  | none => parsed

namespace Input

/-- Add the item that a step reads; a fault is noted and parsing goes on at the
next item. -/
def itemOrRecover {α : Type} (step : Parser α) (add : ParsedFile → α → ParsedFile)
    (parsed : ParsedFile) (input : Input) : ParsedFile × Input :=
  match step input with
  | .ok value input => (add parsed value, input)
  | .error fault input => (parsed.addFault fault, input.skipToNextItem)

/-- Refuse a token that starts no item. -/
def strayToken : Parser Unit := do
  let token ← Parser.next
  Parser.refuse token [.fnKw, .structKw]

/-- The items up to the end of the file, after those already read.  Every item
takes at least one token. -/
def itemsWithin (budget : Nat) : Nat → ParsedFile → Input → ParsedFile × Input
  | 0, parsed, input => (parsed, input)
  | fuel + 1, parsed, input =>
    let (token, input) := input.peek
    if token.kind = .endOfFile then
      (parsed, input)
    else
      let (parsed, input) :=
        if token.kind = .structKw then
          itemOrRecover (Parser.structItem budget) ParsedFile.addStruct parsed input
        else if token.kind = .fnKw then
          itemOrRecover (Parser.function budget) ParsedFile.addFunctionResult parsed input
        else
          itemOrRecover strayToken (fun parsed _ => parsed) parsed input
      itemsWithin budget fuel parsed input

def items (input : Input) : ParsedFile × Input :=
  itemsWithin input.budget (input.cursor.pending.length + 1) .empty input

end Input

/-- Parse a source.  Faults do not stop the parser; its last state is given as
well. -/
def parseSource (source : Source) : ParsedFile × Input := (Input.ofSource source).items

end SlotCompiler
