import SlotCompiler.Machine.Instruction
import SlotCompiler.Text.Quoted

/-!
Contract: human readable listings of word sequences.

Owns:
- one line per instruction with its index, its jump target and its constant;
- the line that reports a malformed word and ends the listing.
-/

namespace SlotCompiler

namespace Listing

/-- The line of one instruction.  A loaded constant is shown when the pool has
an entry of that index. -/
def line (constants : Array String) (index : Nat) (instruction : Instruction) : String :=
  let target :=
    match instruction.jumpTarget? index with
    | some target => " -> " ++ Text.zeroPadded 4 target
    | none => ""
  let constant :=
    match instruction with
    | .loadConstant _ number =>
      match constants[number.toNat]? with
      | some value => " ; " ++ Text.quoted value
      | none => ""
    | _ => ""
  Text.zeroPadded 4 index ++ ": " ++ instruction.text ++ target ++ constant ++ "\n"

/-- The line that ends a listing at a malformed word. -/
def faultLine (fault : DecodeFault) : String :=
  "; " ++ fault.message ++ "\n"

def ofWords (constants : Array String) (code : List Word) : String :=
  let decoding := Decoding.ofWords code
  let body := decoding.items.foldl
    (fun text (index, instruction) => text ++ line constants index instruction) ""
  match decoding.fault? with
  | some fault => body ++ faultLine fault
  | none => body

end Listing

end SlotCompiler
