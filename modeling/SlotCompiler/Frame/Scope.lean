import SlotCompiler.Machine.Word

/-!
Contract: lexical scopes of one function.

Owns:
- the chain of open blocks, innermost first, with the names each one declares;
- the number of locks that the open blocks hold.

Does not own: slots, which outlive the block that declared them.
-/

namespace SlotCompiler

/-- One open block. -/
structure Scope where
  /-- Declared names with their slots, latest first. -/
  names : List (String × Slot)
  /-- Locks taken by the statement that opened the block. -/
  locks : Nat
deriving DecidableEq, Repr

namespace Scope

/-- A block that holds a number of locks and declares nothing yet. -/
def holding (locks : Nat) : Scope := { names := [], locks := locks }

def find? (scope : Scope) (name : String) : Option Slot :=
  (scope.names.find? fun entry => entry.1 == name).map Prod.snd

end Scope

/-- The open blocks of a function.  The outermost one is never closed. -/
structure ScopeChain where
  innermost : Scope
  outer : List Scope
deriving DecidableEq, Repr

namespace ScopeChain

/-- The scope of a function body. -/
def initial : ScopeChain := { innermost := Scope.holding 0, outer := [] }

instance : Inhabited ScopeChain := ⟨initial⟩

/-- The open blocks, innermost first. -/
def scopes (chain : ScopeChain) : List Scope := chain.innermost :: chain.outer

/-- Open a block that holds a number of locks. -/
def enter (chain : ScopeChain) (locks : Nat) : ScopeChain :=
  { innermost := Scope.holding locks, outer := chain.scopes }

/-- Close the innermost block; the function's own scope stays. -/
def leave (chain : ScopeChain) : ScopeChain :=
  match chain.outer with
  | [] => chain
  | scope :: outer => { innermost := scope, outer := outer }

@[simp] theorem leave_enter (chain : ScopeChain) (locks : Nat) :
    (chain.enter locks).leave = chain := rfl

/-- The innermost block declares the name. -/
def isTaken (chain : ScopeChain) (name : String) : Bool :=
  (chain.innermost.find? name).isSome

/-- Declare a name in the innermost block, unless that block has it already. -/
def declare? (chain : ScopeChain) (name : String) (slot : Slot) : Option ScopeChain :=
  if chain.isTaken name then
    none
  else
    some { chain with
      innermost := { chain.innermost with names := (name, slot) :: chain.innermost.names } }

def lookup? (chain : ScopeChain) (name : String) : Option Slot :=
  chain.scopes.findSome? fun scope => scope.find? name

/-- The locks held by all open blocks together. -/
def lockDepth (chain : ScopeChain) : Nat :=
  chain.scopes.foldr (fun scope total => scope.locks + total) 0

end ScopeChain

end SlotCompiler
