import SlotCompiler.Token.Scan

/-!
Contract: the tokens of a whole text and reading them one by one.

Owns:
- the token stream of a text: its tokens, then the end of file for ever;
- a cursor that consumes tokens and can look one token ahead;
- the faults reported for the tokens looked at so far.

Does not own: what the tokens mean together.
-/

namespace SlotCompiler

/-- The tokens of a text and the place of the end of file after them. -/
structure TokenStream where
  tokens : List Token
  finishPosition : Position
deriving DecidableEq, Repr

namespace TokenStream

def finish (stream : TokenStream) : Token := ⟨.plain .endOfFile, stream.finishPosition, ""⟩

/-- Append the tokens of the text from a place on.  Every token takes at least
one character, so the number of characters bounds the rounds. -/
def collect : Nat → Option TokenKind → Position → List Char → Array Token → TokenStream
  | 0, _, position, _, tokens => ⟨tokens.toList, position⟩
  | fuel + 1, previous?, position, characters, tokens =>
    let (position, characters) := skipGap .blank position characters
    match nextScan? previous? characters with
    | none => ⟨tokens.toList, position⟩
    | some scan =>
      let token : Token := ⟨scan.content, position, String.ofList scan.text⟩
      collect fuel (some token.kind) (position.advance scan.text) scan.rest (tokens.push token)

def ofText (text : String) : TokenStream :=
  let characters := text.toList
  collect (characters.length + 1) none Position.start characters #[]

def get (stream : TokenStream) (index : Nat) : Token :=
  stream.tokens[index]?.getD stream.finish

def take (stream : TokenStream) (count : Nat) : List Token :=
  stream.tokens.take count ++ List.replicate (count - stream.tokens.length) stream.finish

end TokenStream

/-- A reader of a token stream. -/
structure TokenCursor where
  sourceName : String
  stream : TokenStream
  /-- The tokens not consumed yet, without the end of file. -/
  pending : List Token
  /-- How many tokens were consumed. -/
  consumed : Nat
  /-- How many tokens were looked at: those consumed and perhaps the next. -/
  inspected : Nat
  /-- An iteration has yielded the end of file. -/
  finished : Bool
deriving DecidableEq, Repr

namespace TokenCursor

def ofSource (source : Source) : TokenCursor :=
  let stream := TokenStream.ofText source.text
  { sourceName := source.name, stream := stream, pending := stream.tokens,
    consumed := 0, inspected := 0, finished := false }

def head (cursor : TokenCursor) : Token :=
  match cursor.pending with
  | token :: _ => token
  | [] => cursor.stream.finish

/-- Remember that the next token was looked at. -/
def inspect (cursor : TokenCursor) : TokenCursor :=
  { cursor with inspected := max cursor.inspected (cursor.consumed + 1) }

/-- Look at the next token. -/
def peek (cursor : TokenCursor) : Token × TokenCursor :=
  (cursor.head, cursor.inspect)

/-- Consume the next token; at the end of the text this is the end of file
again and again. -/
def next (cursor : TokenCursor) : Token × TokenCursor :=
  (cursor.head,
    { cursor.inspect with pending := cursor.pending.tail, consumed := cursor.consumed + 1 })

/-- The token consumed last. -/
def current? (cursor : TokenCursor) : Option Token :=
  match cursor.consumed with
  | 0 => none
  | consumed + 1 => some (cursor.stream.get consumed)

/-- The place of the token consumed last, or the start of the text. -/
def currentPosition (cursor : TokenCursor) : Position :=
  match cursor.current? with
  | some token => token.position
  | none => Position.start

/-- Consume the next token of an iteration, which yields the end of file
once. -/
def iterate (cursor : TokenCursor) : Option Token × TokenCursor :=
  if cursor.finished then
    (none, cursor)
  else
    let (token, cursor) := cursor.next
    (some token, { cursor with finished := token.kind == .endOfFile })

/-- The tokens looked at so far. -/
def seen (cursor : TokenCursor) : List Token := cursor.stream.take cursor.inspected

/-- The faults reported so far. -/
def reports (cursor : TokenCursor) : List Report := cursor.seen.filterMap Token.report?

end TokenCursor

end SlotCompiler
