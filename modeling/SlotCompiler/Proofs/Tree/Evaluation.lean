import SlotCompiler.Proofs.Emission.Code
import SlotCompiler.Proofs.Machine.Execution

/-!
Contract: what a function body does, told by its tree.

Evaluation reads and writes declared variables only.  A return gives up all
locks of the `sync` statements around it; like the operand that counts them,
their number has 16 bits.
-/

namespace SlotCompiler

section Evaluation

variable {Value Heap : Type}

/-! ## Operands -/

def members? (meaning : Meaning Value Heap) (heap : Heap) : Value → List MemberStep → Option Value
  | object, [] => some object
  | object, step :: rest => do
      let field ← step.field?
      members? meaning heap (meaning.member heap object field) rest

def MemberChain.value? (meaning : Meaning Value Heap) (store : Store Value Heap)
    (chain : MemberChain) : Option Value :=
  members? meaning store.heap (store.slots chain.source) chain.steps

mutual

def Operand.value? (meaning : Meaning Value Heap) (store : Store Value Heap) :
    Operand → Option Value
  | .variable slot => some (store.slots slot)
  | .literal value => some (meaning.immediate value)
  | .string text => some (meaning.string text)
  | .node inner => inner.value? meaning store
  | .call _ => none

def Node.value? (meaning : Meaning Value Heap) (store : Store Value Heap) : Node → Option Value
  | .access chain => chain.value? meaning store
  | .binary operator lhs rhs _ _ => do
      let left ← lhs.value? meaning store
      let right ← rhs.value? meaning store
      some (meaning.operator operator left right)
  | _ => none

end

/-! ## Statements -/

/-- How a part of a body ends. -/
inductive Completion (Value Heap : Type) where
  /-- Evaluation goes on after the part. -/
  | falls (store : Store Value Heap)
  /-- The function returns. -/
  | returns (value? : Option Value) (store : Store Value Heap)

/-- Take the locks of a `sync` statement in order. -/
def Store.acquireAll : List Lock → Store Value Heap → Store Value Heap
  | [], store => store
  | lock :: rest, store => acquireAll rest (store.acquire lock.slot lock.exclusive)

/-- Evaluation of a part of a body under a number of locks. -/
inductive Runs (meaning : Meaning Value Heap) :
    Nat → Fragment → Store Value Heap → Completion Value Heap → Prop where
  | declaration {held name slot isMutable declared?} {value : Operand} {position store found}
      (valued : value.value? meaning store = some found) :
      Runs meaning held (.node (.declaration name slot isMutable declared? value position)) store
        (.falls (store.set slot found))
  | assignment {held slot} {value : Operand} {position store found}
      (valued : value.value? meaning store = some found) :
      Runs meaning held (.node (.assignment slot value position)) store
        (.falls (store.set slot found))
  | memberAssignment {held} {target : MemberChain} {member field} {value : Operand}
      {position store object found} (targeted : target.value? meaning store = some object)
      (valued : value.value? meaning store = some found) :
      Runs meaning held (.node (.memberAssignment target member (some field) value position)) store
        (.falls { store with heap := meaning.update store.heap object field found })
  | ret {held locks position store} :
      Runs meaning held (.node (.ret none locks position)) store
        (.returns none (store.release (UInt16.ofNat held)))
  | retValue {held locks} {value : Operand} {position store found}
      (valued : value.value? meaning store = some found) :
      Runs meaning held (.node (.ret (some value) locks position)) store
        (.returns (some found) (store.release (UInt16.ofNat held)))
  | conditional {held conditions blocks position store completion}
      (chosen : Runs meaning held (.arms conditions blocks) store completion) :
      Runs meaning held (.node (.conditional conditions blocks position)) store completion
  | loopDone {held} {condition : Operand} {body position store found}
      (tested : condition.value? meaning store = some found)
      (isFalse : meaning.isTrue found = false) :
      Runs meaning held (.node (.loop condition body position)) store (.falls store)
  | loopAgain {held} {condition : Operand} {body position store later found completion}
      (tested : condition.value? meaning store = some found) (isTrue : meaning.isTrue found = true)
      (once : Runs meaning held (.nodes body) store (.falls later))
      (again : Runs meaning held (.node (.loop condition body position)) later completion) :
      Runs meaning held (.node (.loop condition body position)) store completion
  | loopReturns {held} {condition : Operand} {body position store later found value?}
      (tested : condition.value? meaning store = some found) (isTrue : meaning.isTrue found = true)
      (once : Runs meaning held (.nodes body) store (.returns value? later)) :
      Runs meaning held (.node (.loop condition body position)) store (.returns value? later)
  | syncDone {held} {locks : List Lock} {body position} {store later : Store Value Heap}
      (guarded : Runs meaning (locks.length + held) (.nodes body) (store.acquireAll locks)
        (.falls later)) :
      Runs meaning held (.node (.sync locks body position)) store
        (.falls (later.release (UInt16.ofNat locks.length)))
  | syncReturns {held} {locks : List Lock} {body position} {store later : Store Value Heap} {value?}
      (guarded : Runs meaning (locks.length + held) (.nodes body) (store.acquireAll locks)
        (.returns value? later)) :
      Runs meaning held (.node (.sync locks body position)) store (.returns value? later)
  | nil {held store} : Runs meaning held (.nodes []) store (.falls store)
  | cons {held node rest store later completion}
      (head : Runs meaning held (.node node) store (.falls later))
      (tail : Runs meaning held (.nodes rest) later completion) :
      Runs meaning held (.nodes (node :: rest)) store completion
  | consReturns {held node rest store later value?}
      (head : Runs meaning held (.node node) store (.returns value? later)) :
      Runs meaning held (.nodes (node :: rest)) store (.returns value? later)
  | armTaken {held} {condition : Operand} {conditions block blocks store found completion}
      (tested : condition.value? meaning store = some found) (isTrue : meaning.isTrue found = true)
      (taken : Runs meaning held (.nodes block) store completion) :
      Runs meaning held (.arms (condition :: conditions) (block :: blocks)) store completion
  | armSkipped {held} {condition : Operand} {conditions block blocks store found completion}
      (tested : condition.value? meaning store = some found)
      (isFalse : meaning.isTrue found = false)
      (rest : Runs meaning held (.arms conditions blocks) store completion) :
      Runs meaning held (.arms (condition :: conditions) (block :: blocks)) store completion
  | alternative {held block store completion}
      (taken : Runs meaning held (.nodes block) store completion) :
      Runs meaning held (.arms [] [block]) store completion
  | noAlternative {held store} : Runs meaning held (.arms [] []) store (.falls store)

end Evaluation

end SlotCompiler
