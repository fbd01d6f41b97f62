import SlotCompiler.Source.Position

/-!
Contract: stretches of a source text, by byte index and size.

Owns:
- the characters of a stretch that starts and ends between characters;
- the line that contains the start of a stretch.
-/

namespace SlotCompiler

/-- A stretch of text. -/
structure Span where
  index : Nat
  size : Nat
deriving DecidableEq, Repr

namespace Span

/-- The byte index after the stretch. -/
def stop (span : Span) : Nat := span.index + span.size

/-- The characters after a number of bytes; none when that place lies inside a
character or past the end. -/
def dropBytes : Nat → List Char → Option (List Char)
  | 0, characters => some characters
  | _ + 1, [] => none
  | count + 1, character :: rest =>
    if character.utf8Size ≤ count + 1 then
      dropBytes (count + 1 - character.utf8Size) rest
    else
      none

/-- The characters that take exactly a number of bytes, after those already
taken in reverse. -/
def takeBytes (taken : List Char) : Nat → List Char → Option (List Char)
  | 0, _ => some taken.reverse
  | _ + 1, [] => none
  | count + 1, character :: rest =>
    if character.utf8Size ≤ count + 1 then
      takeBytes (character :: taken) (count + 1 - character.utf8Size) rest
    else
      none

/-- The characters of a stretch; empty when an end lies inside a character or
past the text. -/
def excerpt (span : Span) (text : String) : String :=
  match (dropBytes span.index text.toList).bind (takeBytes [] span.size) with
  | some characters => String.ofList characters
  | none => ""

/-- A line without the carriage return that ends it, given in reverse. -/
def trimReturn (reversed : List Char) : List Char :=
  match reversed with
  | '\r' :: earlier => earlier.reverse
  | _ => reversed.reverse

/-- Walk the text from a byte offset to the line that contains `index`.  The
line so far starts at byte `first` and is kept in reverse.  A line feed before
`index` starts another line, one at or after `index` ends the search. -/
def lineAround (index : Nat) : Nat → Nat → List Char → List Char → Nat × List Char
  | _, first, reversed, [] => (first, trimReturn reversed)
  | offset, first, reversed, character :: rest =>
    if character = '\n' then
      if index ≤ offset then
        (first, trimReturn reversed)
      else
        lineAround index (offset + 1) (offset + 1) [] rest
    else
      lineAround index (offset + character.utf8Size) first (character :: reversed) rest

/-- The line that contains the start of the stretch, and its own stretch
without the line end.  A start past the text belongs to the last line. -/
def enclosingLine (span : Span) (text : String) : String × Span :=
  let (first, line) := lineAround span.index 0 0 [] text.toList
  (String.ofList line, { index := first, size := utf8Length line })

end Span

end SlotCompiler
