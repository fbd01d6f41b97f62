import SlotCompiler.Source.Span
import SlotCompiler.Text.Column
import SlotCompiler.Token.Basic

/-!
Contract: what can be wrong with a program.

Owns:
- the causes for which a program is refused, and the wording of each;
- a cause at a place of a source, printed on one line or with the line it
  points to.
-/

namespace SlotCompiler

/-- Why a program is refused. -/
inductive Cause where
  | unexpectedToken (found : TokenKind) (expected : List TokenKind)
  | cannotFindSymbol (name : String)
  | lexical (fault : LexicalFault)
  | duplicateSymbol (name : String)
  | unknownType (name : String)
  | unknownMember (type member : String)
  | notAStruct (type member : String)
  | typeMismatch (expected found : String)
  | invalidOperands (operator lhs rhs : String)
  | immutableAssignment (name : String)
  | missingReturn (function : String)
  | unsupportedConstruct (construct : String)
  | selfDependency (function : String)
  | cyclicDependency (function : String)
  | unresolvedType (name : String)
  | tooManyVariables (function : String)
  | tooManyConstants
  | jumpTooFar (distance : Nat)
  | tooManyFields (name : String)
  | nestingTooDeep (limit : Nat)
deriving DecidableEq, Repr

namespace Cause

def expectedText : List TokenKind → String
  | [kind] => kind.wording
  | kinds => "[" ++ ", ".intercalate (kinds.map TokenKind.wording) ++ "]"

def message : Cause → String
  | .unexpectedToken found expected =>
    "Expected " ++ expectedText expected ++ ". Found " ++ found.wording ++ "."
  | .cannotFindSymbol name => s!"Couldn't find symbol '{name}'."
  | .lexical fault => "Syntax error: " ++ fault.message ++ "."
  | .duplicateSymbol name => s!"Symbol '{name}' is already declared."
  | .unknownType name => s!"Unknown type '{name}'."
  | .unknownMember type member => s!"Type '{type}' has no member '{member}'."
  | .notAStruct type member => s!"Cannot access member '{member}' of non-struct type '{type}'."
  | .typeMismatch expected found => s!"Expected type '{expected}'. Found '{found}'."
  | .invalidOperands operator lhs rhs =>
    s!"Operator '{operator}' cannot be applied to '{lhs}' and '{rhs}'."
  | .immutableAssignment name => s!"Cannot assign to immutable variable '{name}'."
  | .missingReturn function => s!"Function '{function}' does not return a value on every path."
  | .unsupportedConstruct construct => s!"{construct} is not supported yet."
  | .selfDependency function => s!"Function '{function}' depends on itself."
  | .cyclicDependency function => s!"Function '{function}' is part of a dependency cycle."
  | .unresolvedType name => s!"Type of '{name}' could not be resolved."
  | .tooManyVariables function => s!"Function '{function}' uses more than 65536 variables."
  | .tooManyConstants => "Function uses more than 65536 string constants."
  | .jumpTooFar distance =>
    s!"Jump of {distance} instructions does not fit in the jump offset."
  | .tooManyFields name => s!"Struct '{name}' has more than 65536 fields."
  | .nestingTooDeep limit => s!"Nesting exceeds the limit of {limit} levels."

end Cause

/-- A cause at a place of the source. -/
structure Diagnostic where
  cause : Cause
  position : Position
deriving DecidableEq, Repr

namespace Diagnostic

def message (diagnostic : Diagnostic) : String := diagnostic.cause.message

/-- The diagnostic on one line: source, line, column and message. -/
def headline (diagnostic : Diagnostic) (sourceName : String) : String :=
  diagnostic.position.textIn sourceName ++ ": " ++ diagnostic.message

/-- A tab is shown as four blanks, the columns it takes. -/
def expandTab (character : Char) : List Char :=
  if character = '\t' then List.replicate Position.tabWidth ' ' else [character]

/-- The diagnostic with the line it points to and a caret under the column.
The line number sets the width of the margin. -/
def render (diagnostic : Diagnostic) (source : Source) : String :=
  let position := diagnostic.position
  let (line, _) := Span.enclosingLine ⟨position.index, 0⟩ source.text
  let number := toString position.line
  let margin := Text.fill number.length ' '
  let shown := String.ofList (line.toList.flatMap expandTab)
  "error: " ++ diagnostic.message ++ "\n" ++
    margin ++ "--> " ++ position.textIn source.name ++ "\n" ++
    number ++ " | " ++ shown ++ "\n" ++
    margin ++ " | " ++ Text.alignRight position.column "^" ++ "\n"

end Diagnostic

end SlotCompiler
