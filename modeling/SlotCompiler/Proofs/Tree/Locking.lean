import SlotCompiler.Tree.Basic

/-!
Contract: the locks around the statements of a body.
-/

namespace SlotCompiler

mutual

def Node.returnsUnder (limit held : Nat) : Node → Bool
  | .ret _ _ _ => decide (held ≤ limit)
  | .conditional _ blocks _ => blocksReturnUnder limit held blocks
  | .loop _ body _ => blockReturnsUnder limit held body
  | .sync locks body _ => blockReturnsUnder limit (locks.length + held) body
  | _ => true

def blockReturnsUnder (limit held : Nat) : List Node → Bool
  | [] => true
  | node :: rest => node.returnsUnder limit held && blockReturnsUnder limit held rest

def blocksReturnUnder (limit held : Nat) : List (List Node) → Bool
  | [] => true
  | block :: rest => blockReturnsUnder limit held block && blocksReturnUnder limit held rest

end

mutual

def Node.relocks (held : List Slot) : Node → Bool
  | .conditional _ blocks _ => blocksRelock held blocks
  | .loop _ body _ => blockRelocks held body
  | .sync locks body _ =>
    (locks.any fun lock => held.contains lock.slot) ||
      blockRelocks ((locks.map Lock.slot).reverse ++ held) body
  | _ => false

/-- Control does not come to what follows a statement that always returns. -/
def blockRelocks (held : List Slot) : List Node → Bool
  | [] => false
  | node :: rest => node.relocks held || (!node.alwaysReturns && blockRelocks held rest)

def blocksRelock (held : List Slot) : List (List Node) → Bool
  | [] => false
  | block :: rest => blockRelocks held block || blocksRelock held rest

end

end SlotCompiler
