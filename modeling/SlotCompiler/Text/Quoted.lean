import SlotCompiler.Text.Invisible

/-!
Contract: text between double quotes, written so that every character shows.

Owns:
- the short escapes of quote, backslash, newline, return, tab and zero;
- the numbered escape of every other character without a mark of its own.

Does not own: the escapes of string literals in source text.
-/

namespace SlotCompiler.Text

def quotedChar (character : Char) : List Char :=
  if character = '"' then ['\\', '"']
  else if character = '\\' then ['\\', '\\']
  else if character = '\n' then ['\\', 'n']
  else if character = '\r' then ['\\', 'r']
  else if character = '\t' then ['\\', 't']
  else if character = Char.ofNat 0 then ['\\', '0']
  else if isInvisible character then
    ['\\', 'u', '\x7b'] ++ Nat.toDigits 16 character.toNat ++ ['\x7d']
  else [character]

def quoted (text : String) : String :=
  String.ofList ('"' :: text.toList.flatMap quotedChar ++ ['"'])

end SlotCompiler.Text
