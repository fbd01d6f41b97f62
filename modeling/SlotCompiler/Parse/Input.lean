import SlotCompiler.Diagnostic
import SlotCompiler.Token.Stream

/-!
Contract: the tokens being parsed and the steps shared by all parsers.

Owns:
- the input of a parser: its cursor, the brace depth and the tree nesting;
- looking at tokens, consuming expected ones, and skipping after a fault.

Does not own: which tokens a construct is made of.

A step that fails leaves the input where the fault was found, so that parsing
can go on from there.
-/

namespace SlotCompiler

/-- What a parser works on. -/
structure Input where
  cursor : TokenCursor
  /-- Nesting of the braces consumed so far. -/
  depth : Nat
  /-- Nesting of the tree being built. -/
  nesting : Nat

abbrev Parser := EStateM Diagnostic Input

namespace Input

/-- The deepest nesting of blocks, parentheses and operator chains. -/
def nestingLimit : Nat := 128

def ofSource (source : Source) : Input :=
  { cursor := TokenCursor.ofSource source, depth := 0, nesting := 0 }

/-- A bound on the steps that the tokens left can be parsed in: no parser takes
more than a few steps without consuming a token. -/
def budget (input : Input) : Nat := 8 * (input.cursor.pending.length + 1)

def depthAfter (depth : Nat) (kind : TokenKind) : Nat :=
  match kind with
  | .leftBrace => depth + 1
  | .rightBrace => depth - 1
  | _ => depth

/-- The next token, which is now looked at. -/
def peek (input : Input) : Token × Input :=
  match input with
  | ⟨cursor, depth, nesting⟩ =>
    let (token, cursor) := cursor.peek
    (token, ⟨cursor, depth, nesting⟩)

def next (input : Input) : Token × Input :=
  match input with
  | ⟨cursor, depth, nesting⟩ =>
    let (token, cursor) := cursor.next
    (token, ⟨cursor, depthAfter depth token.kind, nesting⟩)

/-! ## Skipping -/

def skipOutOfWithin (depth : Nat) : Nat → Input → Input
  | 0, input => input
  | fuel + 1, input =>
    if input.depth < depth then
      input
    else
      let (token, input) := input.peek
      if token.kind = .endOfFile then input else skipOutOfWithin depth fuel input.next.2

/-- Skip tokens until the brace that brings the depth below `depth` has been
consumed, or to the end of the file.  Every round but the last consumes a
token. -/
def skipOutOf (depth : Nat) (input : Input) : Input :=
  skipOutOfWithin depth (input.cursor.pending.length + 1) input

def startsItem (kind : TokenKind) : Bool := kind == .fnKw || kind == .structKw

def skipToNextItemWithin : Nat → Input → Input
  | 0, input => input
  | fuel + 1, input =>
    let (token, input) := input.peek
    if token.kind = .endOfFile ∨ (startsItem token.kind ∧ input.depth = 0) then
      input
    else
      skipToNextItemWithin fuel input.next.2

/-- Skip tokens until the next item outside all braces, or to the end of the
file.  Every round but the last consumes a token. -/
def skipToNextItem (input : Input) : Input :=
  skipToNextItemWithin (input.cursor.pending.length + 1) input

end Input

/-- The diagnostic for a token that is not allowed where it stands.  An invalid
token shows its own fault. -/
def Token.refusal (token : Token) (expected : List TokenKind) : Diagnostic :=
  match token.content with
  | .invalid fault => ⟨.lexical fault, token.position⟩
  | _ => ⟨.unexpectedToken token.kind expected, token.position⟩

namespace Parser

def fail {α : Type} (cause : Cause) (position : Position) : Parser α :=
  throw ⟨cause, position⟩

def refuse {α : Type} (token : Token) (expected : List TokenKind) : Parser α :=
  throw (token.refusal expected)

/-- Look at the next token. -/
def peek : Parser Token := fun input =>
  let (token, input) := input.peek
  .ok token input

def peekKind : Parser TokenKind := return (← peek).kind

def next : Parser Token := fun input =>
  let (token, input) := input.next
  .ok token input

/-- Consume the next token if it is of a kind, and tell whether it was. -/
def accept (kind : TokenKind) : Parser Bool := do
  if (← peekKind) = kind then
    let _ ← next
    return true
  else
    return false

def expect (kind : TokenKind) : Parser Token := do
  let token ← peek
  if token.kind = kind then next else refuse token [kind]

/-- Consume an identifier and give its name and place. -/
def identifier : Parser (String × Position) := do
  let token ← expect .identifier
  match token.content with
  | .identifier name => return (name, token.position)
  | _ => refuse token [.identifier]

/-! ## Nesting -/

def setNesting (nesting : Nat) : Parser Unit :=
  modify fun input => { input with nesting := nesting }

/-- Go one level deeper into the tree, unless the limit is reached. -/
def descend (position : Position) : Parser Unit := do
  if (← get).nesting < Input.nestingLimit then
    modify fun input => { input with nesting := input.nesting + 1 }
  else
    fail (.nestingTooDeep Input.nestingLimit) position

end Parser

end SlotCompiler
