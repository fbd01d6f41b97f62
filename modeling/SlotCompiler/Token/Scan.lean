import SlotCompiler.Token.Basic

/-!
Contract: recognition of the next token of a text.

Owns:
- blanks and comments between tokens;
- words, numbers, string and character literals, operators and marks;
- the meaning of an ampersand, asterisk or hyphen from the token before it.

Does not own: the sequence of tokens of a whole text.
-/

namespace SlotCompiler

/-! ## Blanks and comments -/

def isBlank (character : Char) : Bool :=
  character == ' ' || character == '\t' || character == '\r' || character == '\n'

/-- What stretch between tokens is being skipped. -/
inductive Gap where
  | blank
  | lineComment
  | blockComment
deriving DecidableEq, Repr

/-- Skip blanks and comments.  A line comment reaches up to the line feed; a
block comment that is never closed reaches up to the end of the text. -/
def skipGap : Gap → Position → List Char → Position × List Char
  | _, position, [] => (position, [])
  | .blank, position, '/' :: '/' :: rest =>
    skipGap .lineComment ((position.step '/').step '/') rest
  | .blank, position, '/' :: '*' :: rest =>
    skipGap .blockComment ((position.step '/').step '*') rest
  | .blank, position, character :: rest =>
    if isBlank character then skipGap .blank (position.step character) rest
    else (position, character :: rest)
  | .lineComment, position, character :: rest =>
    if character = '\n' then skipGap .blank (position.step character) rest
    else skipGap .lineComment (position.step character) rest
  | .blockComment, position, '*' :: '/' :: rest =>
    skipGap .blank ((position.step '*').step '/') rest
  | .blockComment, position, character :: rest =>
    skipGap .blockComment (position.step character) rest

/-! ## Tokens -/

/-- A recognised token and the text after it. -/
structure Scan where
  content : Content
  text : List Char
  rest : List Char
deriving DecidableEq, Repr

def isWordStart (character : Char) : Bool := character.isAlpha || character == '_'

def isWordPart (character : Char) : Bool := character.isAlphanum || character == '_'

/-- A reserved word or an identifier. -/
def wordContent (word : List Char) : Content :=
  match TokenKind.keywords.find? fun entry => entry.1 == word with
  | some (_, kind) => .plain kind
  | none => .identifier (String.ofList word)

def wordScan (characters : List Char) : Scan :=
  let (word, rest) := characters.span isWordPart
  ⟨wordContent word, word, rest⟩

def digitsValue (digits : List Char) : Nat :=
  digits.foldl (fun value digit => value * 10 + (digit.toNat - '0'.toNat)) 0

/-- Digits without a point: an integer when 64 bits hold it, otherwise the
nearest float. -/
def wholeNumber (negative : Bool) (digits : List Char) : Content :=
  let value := digitsValue digits
  let signed : Int := if negative then -(value : Int) else value
  if -0x8000000000000000 ≤ signed ∧ signed < 0x8000000000000000 then
    .int (Int64.ofInt signed)
  else
    .float (Binary64.ofDecimal negative value 0)

def pointNumber (negative : Bool) (digits : List Char) : Content :=
  let (whole, fraction) := digits.span (· != '.')
  let fraction := fraction.drop 1
  .float (Binary64.ofDecimal negative (digitsValue (whole ++ fraction)) (-(fraction.length : Int)))

/-- The content of a number without its sign.  A letter, the lack of any digit
and a second point make it invalid, checked in that order. -/
def numberContent (negative : Bool) (body : List Char) : Content :=
  if body.any Token.isLetter then
    .invalid .invalidNumber
  else if !body.any Char.isDigit then
    .invalid .invalidNumber
  else
    match body.count '.' with
    | 0 => wholeNumber negative body
    | 1 => pointNumber negative body
    | _ => .invalid .multipleDecimalPoints

def isNumberPart (character : Char) : Bool := isWordPart character || character == '.'

def numberScan (sign : List Char) (characters : List Char) : Scan :=
  let (body, rest) := characters.span isNumberPart
  ⟨numberContent (!sign.isEmpty) body, sign ++ body, rest⟩

def escapedChar (character : Char) : Char :=
  if character = 'n' then '\n'
  else if character = 't' then '\t'
  else if character = 'r' then '\r'
  else if character = '0' then Char.ofNat 0
  else character

/-- The contents of a string literal up to its closing quote, after those
already read in reverse, and the text after the quote.  A backslash takes the
next character with it. -/
def stringContents (reversed : List Char) : List Char → Option (List Char × List Char)
  | [] => none
  | '\x22' :: rest => some (reversed.reverse, rest)
  | '\\' :: character :: rest => stringContents (character :: '\\' :: reversed) rest
  | character :: rest => stringContents (character :: reversed) rest

/-- A string literal after its opening quote.  Without a closing quote it takes
the rest of the text. -/
def stringScan (characters : List Char) : Scan :=
  match stringContents [] characters with
  | some (contents, rest) =>
    ⟨.string (String.ofList contents), '\x22' :: contents ++ ['\x22'], rest⟩
  | none => ⟨.invalid .unterminatedString, '\x22' :: characters, []⟩

/-- A character literal whose value has been read, up to its closing quote. -/
def closeChar (value : Char) (text rest : List Char) : Scan :=
  match rest with
  | '\x27' :: rest => ⟨.char value, text ++ ['\x27'], rest⟩
  | _ => ⟨.invalid .unterminatedChar, text, rest⟩

/-- A character literal after its opening quote. -/
def charScan (characters : List Char) : Scan :=
  match characters with
  | [] => ⟨.invalid .unterminatedChar, ['\x27'], []⟩
  | '\\' :: [] => ⟨.invalid .unterminatedChar, ['\x27', '\\'], []⟩
  | '\\' :: character :: rest =>
    closeChar (escapedChar character) ['\x27', '\\', character] rest
  | '\x27' :: rest => ⟨.invalid .unterminatedChar, ['\x27', '\x27'], rest⟩
  | '\n' :: rest => ⟨.invalid .unterminatedChar, ['\x27'], '\n' :: rest⟩
  | character :: rest => closeChar character ['\x27', character] rest

/-- An operator or mark of the table; any other character is unexpected. -/
def markScan (character : Char) (rest : List Char) : Scan :=
  let characters := character :: rest
  match TokenKind.marks.find? fun entry => entry.1.isPrefixOf characters with
  | some (spelling, kind) => ⟨.plain kind, spelling, characters.drop spelling.length⟩
  | none => ⟨.invalid .unexpectedCharacter, [character], rest⟩

def startsWithOneOf (choices rest : List Char) : Bool :=
  match rest with
  | [] => false
  | character :: _ => choices.contains character

/-- The text goes on like a number after its sign. -/
def startsNumber (rest : List Char) : Bool :=
  match rest with
  | [] => false
  | character :: _ => character.isDigit || character == '.'

/-- The next token of a text without leading blanks, given the kind of the token
before it; none at the end of the text. -/
def nextScan? (previous? : Option TokenKind) (characters : List Char) : Option Scan :=
  match characters with
  | [] => none
  | character :: rest =>
    let valueBefore := previous?.any TokenKind.closesOperand
    some <|
      if isWordStart character then
        wordScan characters
      else if character.isDigit then
        numberScan [] characters
      else if character = '\x22' then
        stringScan rest
      else if character = '\x27' then
        charScan rest
      else if character = '&' ∧ !startsWithOneOf ['&', '='] rest then
        let kind := if previous?.any TokenKind.closesBitOperand then .bitAnd else .reference
        ⟨.plain kind, [character], rest⟩
      else if character = '*' ∧ !startsWithOneOf ['='] rest then
        ⟨.plain (if valueBefore then .multiply else .pointer), [character], rest⟩
      else if character = '-' ∧ !startsWithOneOf ['=', '>'] rest then
        if valueBefore || !startsNumber rest then
          ⟨.plain .subtract, [character], rest⟩
        else
          numberScan [character] rest
      else
        markScan character rest

end SlotCompiler
