import SlotCompiler.Number.Binary64
import SlotCompiler.Source.Position
import SlotCompiler.Token.Kind

/-!
Contract: tokens and the faults that make one invalid.

Owns:
- what a token stands for, its text and its place;
- the faults of malformed tokens, their wording and where in the token they
  show.

Does not own: recognition of tokens in a text.
-/

namespace SlotCompiler

/-- Why a stretch of text is no proper token. -/
inductive LexicalFault where
  | invalidNumber
  | multipleDecimalPoints
  | unterminatedString
  | unterminatedChar
  | unexpectedCharacter
deriving DecidableEq, Repr

def LexicalFault.message : LexicalFault → String
  | .invalidNumber => "invalid number literal"
  | .multipleDecimalPoints => "number literal contains more than one decimal point"
  | .unterminatedString => "unterminated string literal"
  | .unterminatedChar => "unterminated char literal"
  | .unexpectedCharacter => "unexpected character"

/-- What a token stands for. -/
inductive Content where
  /-- A word, mark or end of file that its kind says all about. -/
  | plain (kind : TokenKind)
  | int (value : Int64)
  | float (value : Binary64)
  | char (value : Char)
  /-- The characters between the quotes, escapes left as written. -/
  | string (raw : String)
  | identifier (name : String)
  | invalid (fault : LexicalFault)
deriving DecidableEq, Repr

def Content.kind : Content → TokenKind
  | .plain kind => kind
  | .int _ => .intLiteral
  | .float _ => .floatLiteral
  | .char _ => .charLiteral
  | .string _ => .stringLiteral
  | .identifier _ => .identifier
  | .invalid _ => .invalid

/-- A token: what it stands for, where it starts and its characters. -/
structure Token where
  content : Content
  position : Position
  text : String
deriving DecidableEq, Repr

/-- A fault and the place where it shows. -/
structure Report where
  fault : LexicalFault
  position : Position
deriving DecidableEq, Repr

namespace Token

def kind (token : Token) : TokenKind := token.content.kind

def size (token : Token) : Nat := utf8Length token.text.toList

/-- A letter or underscore, which no number contains. -/
def isLetter (character : Char) : Bool := character.isAlpha || character == '_'

/-- The characters before the fault inside an invalid token: before the first
letter of a number that has one, before the second point of a number with
several, and none otherwise. -/
def beforeFault (fault : LexicalFault) (text : List Char) : List Char :=
  match fault with
  | .invalidNumber =>
    if text.any isLetter then text.takeWhile fun character => !isLetter character else []
  | .multipleDecimalPoints =>
    let (whole, fraction) := text.span (· != '.')
    match fraction with
    | point :: rest => whole ++ point :: rest.takeWhile (· != '.')
    | [] => []
  | _ => []

def report? (token : Token) : Option Report :=
  match token.content with
  | .invalid fault =>
    some ⟨fault, token.position.advance (beforeFault fault token.text.toList)⟩
  | _ => none

end Token

end SlotCompiler
