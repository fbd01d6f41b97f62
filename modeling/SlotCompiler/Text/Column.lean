/-!
Contract: numbers and short texts set in columns of a fixed width.

Owns:
- alignment to the left and to the right by blanks;
- decimal numbers with leading zeros and fixed-width base-sixteen numbers.
-/

namespace SlotCompiler.Text

def fill (width : Nat) (character : Char) : String :=
  String.ofList (List.replicate width character)

/-- Set a text flush right in a column; a longer text is kept whole. -/
def alignRight (width : Nat) (text : String) : String :=
  fill (width - text.length) ' ' ++ text

/-- Set a text flush left in a column; a longer text is kept whole. -/
def alignLeft (width : Nat) (text : String) : String :=
  text ++ fill (width - text.length) ' '

def zeroPadded (width number : Nat) : String :=
  let digits := toString number
  fill (width - digits.length) '0' ++ digits

/-- A base-sixteen number in lower case with leading zeros. -/
def hexadecimal (width number : Nat) : String :=
  let digits := Nat.toDigits 16 number
  fill (width - digits.length) '0' ++ String.ofList digits

/-- A base-sixteen number in upper case with leading zeros. -/
def hexadecimalUpper (width number : Nat) : String :=
  let digits := (Nat.toDigits 16 number).map Char.toUpper
  fill (width - digits.length) '0' ++ String.ofList digits

def signed (value : Int) : String :=
  let magnitude := value.natAbs
  if value < 0 then s!"-{magnitude}" else s!"+{magnitude}"

end SlotCompiler.Text
