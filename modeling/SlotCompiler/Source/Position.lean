/-!
Contract: places in a source text.

Owns:
- byte index, line and column of a character, and how each character moves
  them;
- the printed form of a place with and without the name of its source.

Does not own: which places are worth reporting.
-/

namespace SlotCompiler

/-- A named source text. -/
structure Source where
  name : String
  text : String
deriving DecidableEq, Repr, Inhabited

def utf8Length (characters : List Char) : Nat :=
  characters.foldl (fun total character => total + character.utf8Size) 0

/-- A place in a source text. -/
structure Position where
  /-- Byte index, from 0. -/
  index : Nat
  /-- Line number, from 1. -/
  line : Nat
  /-- Column, from 1; a tab takes four columns. -/
  column : Nat
deriving DecidableEq, Repr

namespace Position

def start : Position := { index := 0, line := 1, column := 1 }

instance : Inhabited Position := ⟨start⟩

/-- The columns that a tab takes. -/
def tabWidth : Nat := 4

/-- The place after one more character.  A line feed starts a line, a carriage
return takes no column, and any other character takes one. -/
def step (position : Position) (character : Char) : Position :=
  let index := position.index + character.utf8Size
  if character = '\n' then
    { index := index, line := position.line + 1, column := 1 }
  else if character = '\t' then
    { index := index, line := position.line, column := position.column + tabWidth }
  else if character = '\r' then
    { index := index, line := position.line, column := position.column }
  else
    { index := index, line := position.line, column := position.column + 1 }

/-- The place after some characters. -/
def advance (position : Position) (characters : List Char) : Position :=
  characters.foldl step position

@[simp] theorem advance_nil (position : Position) : position.advance [] = position := rfl

@[simp] theorem advance_cons (position : Position) (character : Char) (rest : List Char) :
    position.advance (character :: rest) = (position.step character).advance rest := rfl

theorem advance_append (position : Position) (first second : List Char) :
    position.advance (first ++ second) = (position.advance first).advance second :=
  List.foldl_append

/-- Line and column. -/
def text (position : Position) : String :=
  let line := position.line
  let column := position.column
  s!"{line}:{column}"

def textIn (position : Position) (sourceName : String) : String :=
  sourceName ++ ":" ++ position.text

end Position

end SlotCompiler
