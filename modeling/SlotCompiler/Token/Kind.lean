import SlotCompiler.Machine.Operator

/-!
Contract: the kinds of token.

Owns:
- the closed set of kinds, with the spelling of words and marks that have a
  fixed one;
- how a kind is named in messages.

Does not own: how source text is cut into tokens.
-/

namespace SlotCompiler

/-- The kind of a token. -/
inductive TokenKind where
  | constKw
  | mutKw
  | returnKw
  | fnKw
  | pubKw
  | ifKw
  | elseKw
  | switchKw
  | whileKw
  | forKw
  | breakKw
  | continueKw
  | structKw
  | enumKw
  | unionKw
  | syncKw
  | trueKw
  | falseKw
  | nullKw
  | boolKw
  | intKw
  | floatKw
  | stringKw
  | charKw
  | importKw
  | externKw
  | assign
  | equal
  | notEqual
  | not
  | less
  | lessEqual
  | shiftLeft
  | shiftLeftAssign
  | greater
  | greaterEqual
  | shiftRight
  | shiftRightAssign
  | add
  | addAssign
  | subtract
  | subtractAssign
  | multiply
  | multiplyAssign
  | divide
  | divideAssign
  | modulo
  | moduloAssign
  | bitAnd
  | bitAndAssign
  | and
  | bitOr
  | bitOrAssign
  | or
  | bitXor
  | bitXorAssign
  | bitNot
  | leftParen
  | rightParen
  | leftBrace
  | rightBrace
  | leftBracket
  | rightBracket
  | comma
  | dot
  | semicolon
  | colon
  | doubleColon
  | arrow
  | question
  | reference
  | pointer
  | intLiteral
  | floatLiteral
  | charLiteral
  | stringLiteral
  | identifier
  | invalid
  | endOfFile
deriving DecidableEq, Repr

namespace TokenKind

def all : List TokenKind :=
  [.constKw, .mutKw, .returnKw, .fnKw, .pubKw, .ifKw, .elseKw, .switchKw, .whileKw, .forKw,
    .breakKw, .continueKw, .structKw, .enumKw, .unionKw, .syncKw, .trueKw, .falseKw, .nullKw,
    .boolKw, .intKw, .floatKw, .stringKw, .charKw, .importKw, .externKw, .assign, .equal,
    .notEqual, .not, .less, .lessEqual, .shiftLeft, .shiftLeftAssign, .greater, .greaterEqual,
    .shiftRight, .shiftRightAssign, .add, .addAssign, .subtract, .subtractAssign, .multiply,
    .multiplyAssign, .divide, .divideAssign, .modulo, .moduloAssign, .bitAnd, .bitAndAssign,
    .and, .bitOr, .bitOrAssign, .or, .bitXor, .bitXorAssign, .bitNot, .leftParen, .rightParen,
    .leftBrace, .rightBrace, .leftBracket, .rightBracket, .comma, .dot, .semicolon, .colon,
    .doubleColon, .arrow, .question, .reference, .pointer, .intLiteral, .floatLiteral,
    .charLiteral, .stringLiteral, .identifier, .invalid, .endOfFile]

/-- Reserved words with their spelling. -/
def keywords : List (List Char × TokenKind) :=
  [(['c', 'o', 'n', 's', 't'], .constKw),
    (['m', 'u', 't'], .mutKw),
    (['r', 'e', 't', 'u', 'r', 'n'], .returnKw),
    (['f', 'n'], .fnKw),
    (['p', 'u', 'b'], .pubKw),
    (['i', 'f'], .ifKw),
    (['e', 'l', 's', 'e'], .elseKw),
    (['s', 'w', 'i', 't', 'c', 'h'], .switchKw),
    (['w', 'h', 'i', 'l', 'e'], .whileKw),
    (['f', 'o', 'r'], .forKw),
    (['b', 'r', 'e', 'a', 'k'], .breakKw),
    (['c', 'o', 'n', 't', 'i', 'n', 'u', 'e'], .continueKw),
    (['s', 't', 'r', 'u', 'c', 't'], .structKw),
    (['e', 'n', 'u', 'm'], .enumKw),
    (['u', 'n', 'i', 'o', 'n'], .unionKw),
    (['s', 'y', 'n', 'c'], .syncKw),
    (['t', 'r', 'u', 'e'], .trueKw),
    (['f', 'a', 'l', 's', 'e'], .falseKw),
    (['n', 'u', 'l', 'l'], .nullKw),
    (['b', 'o', 'o', 'l'], .boolKw),
    (['i', 'n', 't'], .intKw),
    (['f', 'l', 'o', 'a', 't'], .floatKw),
    (['s', 't', 'r', 'i', 'n', 'g'], .stringKw),
    (['c', 'h', 'a', 'r'], .charKw),
    (['i', 'm', 'p', 'o', 'r', 't'], .importKw),
    (['e', 'x', 't', 'e', 'r', 'n'], .externKw)]

/-- Operators and marks with their spelling, longer ones before those they start
with.  The ampersand, the asterisk and the hyphen on their own are missing: what
they mean depends on the token before them. -/
def marks : List (List Char × TokenKind) :=
  [(['<', '<', '='], .shiftLeftAssign),
    (['>', '>', '='], .shiftRightAssign),
    (['=', '='], .equal),
    (['!', '='], .notEqual),
    (['<', '='], .lessEqual),
    (['<', '<'], .shiftLeft),
    (['>', '='], .greaterEqual),
    (['>', '>'], .shiftRight),
    (['+', '='], .addAssign),
    (['-', '='], .subtractAssign),
    (['*', '='], .multiplyAssign),
    (['/', '='], .divideAssign),
    (['%', '='], .moduloAssign),
    (['&', '='], .bitAndAssign),
    (['&', '&'], .and),
    (['|', '='], .bitOrAssign),
    (['|', '|'], .or),
    (['^', '='], .bitXorAssign),
    ([':', ':'], .doubleColon),
    (['-', '>'], .arrow),
    (['='], .assign),
    (['!'], .not),
    (['<'], .less),
    (['>'], .greater),
    (['+'], .add),
    (['/'], .divide),
    (['%'], .modulo),
    (['|'], .bitOr),
    (['^'], .bitXor),
    (['~'], .bitNot),
    (['('], .leftParen),
    ([')'], .rightParen),
    (['\x7b'], .leftBrace),
    (['\x7d'], .rightBrace),
    (['['], .leftBracket),
    ([']'], .rightBracket),
    ([','], .comma),
    (['.'], .dot),
    ([';'], .semicolon),
    ([':'], .colon),
    (['?'], .question)]

/-- The spelling of kinds that have a fixed one. -/
def symbol? (kind : TokenKind) : Option String :=
  match kind with
  | .bitAnd | .reference => some "&"
  | .multiply | .pointer => some "*"
  | .subtract => some "-"
  | _ =>
    ((keywords ++ marks).find? fun entry => entry.2 == kind).map fun entry =>
      String.ofList entry.1

/-- The token can end a value, so that an asterisk or hyphen after it is a
binary operator. -/
def closesOperand : TokenKind → Bool
  | .intLiteral | .floatLiteral | .identifier | .rightParen | .rightBracket => true
  | _ => false

/-- The token can end a value of the bitwise operators, so that an ampersand
after it is a binary operator. -/
def closesBitOperand : TokenKind → Bool
  | .intLiteral | .identifier | .rightParen | .rightBracket => true
  | _ => false

def operator? : TokenKind → Option Operator
  | .or => some .or
  | .and => some .and
  | .bitOr => some .bitOr
  | .bitXor => some .bitXor
  | .bitAnd => some .bitAnd
  | .equal => some .equal
  | .notEqual => some .notEqual
  | .less => some .less
  | .lessEqual => some .lessEqual
  | .greater => some .greater
  | .greaterEqual => some .greaterEqual
  | .shiftLeft => some .shiftLeft
  | .shiftRight => some .shiftRight
  | .add => some .add
  | .subtract => some .subtract
  | .multiply => some .multiply
  | .divide => some .divide
  | .modulo => some .modulo
  | _ => none

def name : TokenKind → String
  | .constKw => "Const"
  | .mutKw => "Mut"
  | .returnKw => "Return"
  | .fnKw => "Fn"
  | .pubKw => "Pub"
  | .ifKw => "If"
  | .elseKw => "Else"
  | .switchKw => "Switch"
  | .whileKw => "While"
  | .forKw => "For"
  | .breakKw => "Break"
  | .continueKw => "Continue"
  | .structKw => "Struct"
  | .enumKw => "Enum"
  | .unionKw => "Union"
  | .syncKw => "Sync"
  | .trueKw => "True"
  | .falseKw => "False"
  | .nullKw => "Null"
  | .boolKw => "Bool"
  | .intKw => "Int"
  | .floatKw => "Float"
  | .stringKw => "String"
  | .charKw => "Char"
  | .importKw => "Import"
  | .externKw => "Extern"
  | .assign => "Assign"
  | .equal => "Equal"
  | .notEqual => "NotEqual"
  | .not => "Not"
  | .less => "Less"
  | .lessEqual => "LessEqual"
  | .shiftLeft => "ShiftLeft"
  | .shiftLeftAssign => "ShiftLeftAssign"
  | .greater => "Greater"
  | .greaterEqual => "GreaterEqual"
  | .shiftRight => "ShiftRight"
  | .shiftRightAssign => "ShiftRightAssign"
  | .add => "Add"
  | .addAssign => "AddAssign"
  | .subtract => "Subtract"
  | .subtractAssign => "SubtractAssign"
  | .multiply => "Multiply"
  | .multiplyAssign => "MultiplyAssign"
  | .divide => "Divide"
  | .divideAssign => "DivideAssign"
  | .modulo => "Modulo"
  | .moduloAssign => "ModuloAssign"
  | .bitAnd => "BitAnd"
  | .bitAndAssign => "BitAndAssign"
  | .and => "And"
  | .bitOr => "BitOr"
  | .bitOrAssign => "BitOrAssign"
  | .or => "Or"
  | .bitXor => "BitXor"
  | .bitXorAssign => "BitXorAssign"
  | .bitNot => "BitNot"
  | .leftParen => "LeftParen"
  | .rightParen => "RightParen"
  | .leftBrace => "LeftBrace"
  | .rightBrace => "RightBrace"
  | .leftBracket => "LeftBracket"
  | .rightBracket => "RightBracket"
  | .comma => "Comma"
  | .dot => "Dot"
  | .semicolon => "Semicolon"
  | .colon => "Colon"
  | .doubleColon => "DoubleColon"
  | .arrow => "Arrow"
  | .question => "Question"
  | .reference => "Reference"
  | .pointer => "Pointer"
  | .intLiteral => "IntLiteral"
  | .floatLiteral => "FloatLiteral"
  | .charLiteral => "CharLiteral"
  | .stringLiteral => "StringLiteral"
  | .identifier => "Identifier"
  | .invalid => "Invalid"
  | .endOfFile => "EndOfFile"

/-- The kind as messages about the source call it: a class by its name, a fixed
token by its spelling in quotes. -/
def wording (kind : TokenKind) : String :=
  match kind with
  | .intLiteral => "integer literal"
  | .floatLiteral => "float literal"
  | .charLiteral => "char literal"
  | .stringLiteral => "string literal"
  | .identifier => "identifier"
  | .invalid => "invalid token"
  | .endOfFile => "end of file"
  | _ =>
    match kind.symbol? with
    | some spelling => s!"'{spelling}'"
    | none => kind.name

end TokenKind

end SlotCompiler
