import Mathlib
import SlotCompiler.Tree.Basic

/-!
Contract: how deep the tree of a function body goes.
-/

namespace SlotCompiler

/-- A step from a node down to a part of it. -/
inductive TreeLevel where
  | block
  | leftOperand
  | rightOperand
  | call
deriving DecidableEq, Repr

namespace TreeLevel

def all : TreeLevel → Nat := fun _ => 1

/-- Only calls count. -/
def calls : TreeLevel → Nat
  | .call => 1
  | _ => 0

def blocksAndRights : TreeLevel → Nat
  | .block => 1
  | .rightOperand => 1
  | _ => 0

end TreeLevel

/-! ## Depth of a tree -/

section Depth

variable (weigh : TreeLevel → Nat)

mutual

def Operand.depth : Operand → Nat
  | .node inner => inner.depth
  | .call invoked => invoked.depth
  | _ => 0

def Call.depth : Call → Nat
  | ⟨_, arguments, _⟩ => weigh .call + operandsDepth arguments

def Node.depth : Node → Nat
  | .declaration _ _ _ _ value _ => value.depth
  | .assignment _ value _ => value.depth
  | .access _ => 0
  | .memberAssignment _ _ _ value _ => value.depth
  | .ret none _ _ => 0
  | .ret (some value) _ _ => value.depth
  | .binary _ lhs rhs _ _ => max (weigh .leftOperand + lhs.depth) (weigh .rightOperand + rhs.depth)
  | .call invoked => invoked.depth
  | .conditional conditions blocks _ => max (operandsDepth conditions) (blocksDepth blocks)
  | .loop condition body _ => max condition.depth (weigh .block + blockDepth body)
  | .sync _ body _ => weigh .block + blockDepth body

def operandsDepth : List Operand → Nat
  | [] => 0
  | operand :: rest => max operand.depth (operandsDepth rest)

/-- The depth of the deepest statement. -/
def blockDepth : List Node → Nat
  | [] => 0
  | node :: rest => max node.depth (blockDepth rest)

def blocksDepth : List (List Node) → Nat
  | [] => 0
  | block :: rest => max (weigh .block + blockDepth block) (blocksDepth rest)

end

end Depth

/-! ## Room for a tree -/

/-- The greatest depth without calls of a tree built with some levels left: a chain
of that many operators, around a group built with one level less. -/
def reach : Nat → Nat
  | 0 => 0
  | room + 1 => reach room + (room + 1)

theorem le_reach (room : Nat) : room ≤ reach room := by
  induction room with
  | zero => exact Nat.le_refl 0
  | succ room _ => exact Nat.le_add_left _ _

theorem reach_mono {small large} (isLess : small ≤ large) : reach small ≤ reach large := by
  induction isLess with
  | refl => exact Nat.le_refl _
  | step _ ih => exact ih.trans (Nat.le_add_right _ _)

/-- A part of a tree, given by its depth for each way of weighing, is as shallow as
parts are that were built with `room` levels left, and stays so within `spare`
more operators. -/
structure Shallow (room spare : Nat) (depth : (TreeLevel → Nat) → Nat) : Prop where
  counted : depth TreeLevel.blocksAndRights ≤ room
  total : depth TreeLevel.all + spare ≤ reach room + (room + 1) * depth TreeLevel.calls

namespace Shallow

variable {room spare : Nat} {depth other : (TreeLevel → Nat) → Nat}

theorem flat (isLess : spare ≤ room) : Shallow room spare fun _ => 0 where
  counted := Nat.zero_le room
  total := by
    have enough := le_reach room
    omega

theorem mono {larger less} (fits : Shallow room spare depth) (isLarger : room ≤ larger)
    (isLess : less ≤ spare) : Shallow larger less depth where
  counted := fits.counted.trans isLarger
  total := by
    have levels := fits.total
    have reached := reach_mono isLarger
    have called : (room + 1) * depth TreeLevel.calls ≤ (larger + 1) * depth TreeLevel.calls :=
      Nat.mul_le_mul_right _ (Nat.succ_le_succ isLarger)
    omega

theorem deepest (first : Shallow room spare depth) (second : Shallow room spare other) :
    Shallow room spare fun weigh => max (depth weigh) (other weigh) where
  counted := max_le first.counted second.counted
  total := by
    have firstLevels := first.total
    have secondLevels := second.total
    have firstCalled : (room + 1) * depth TreeLevel.calls ≤
        (room + 1) * max (depth TreeLevel.calls) (other TreeLevel.calls) :=
      Nat.mul_le_mul_left _ (le_max_left _ _)
    have secondCalled : (room + 1) * other TreeLevel.calls ≤
        (room + 1) * max (depth TreeLevel.calls) (other TreeLevel.calls) :=
      Nat.mul_le_mul_left _ (le_max_right _ _)
    omega

theorem block (inside : Shallow room 0 depth) :
    Shallow (room + 1) 0 fun weigh => weigh .block + depth weigh where
  counted := by
    have counted := inside.counted
    show 1 + depth TreeLevel.blocksAndRights ≤ room + 1
    omega
  total := by
    have levels := inside.total
    show 1 + depth TreeLevel.all + 0 ≤
      reach room + (room + 1) + (room + 2) * (0 + depth TreeLevel.calls)
    rw [Nat.zero_add, Nat.succ_mul (room + 1)]
    omega

theorem call (arguments : Shallow room 0 depth) :
    Shallow room room fun weigh => weigh .call + depth weigh where
  counted := by
    show 0 + depth TreeLevel.blocksAndRights ≤ room
    rw [Nat.zero_add]
    exact arguments.counted
  total := by
    have levels := arguments.total
    show 1 + depth TreeLevel.all + room ≤ reach room + (room + 1) * (1 + depth TreeLevel.calls)
    rw [Nat.mul_add]
    omega

theorem group (inside : Shallow room 0 depth) : Shallow (room + 1) (room + 1) depth where
  counted := inside.counted.trans (Nat.le_succ room)
  total := by
    have levels := inside.total
    show depth TreeLevel.all + (room + 1) ≤
      reach room + (room + 1) + (room + 2) * depth TreeLevel.calls
    rw [Nat.succ_mul (room + 1)]
    omega

theorem leftOperand (lhs : Shallow room (spare + 1) depth) :
    Shallow room spare fun weigh => weigh .leftOperand + depth weigh where
  counted := by
    show 0 + depth TreeLevel.blocksAndRights ≤ room
    rw [Nat.zero_add]
    exact lhs.counted
  total := by
    have levels := lhs.total
    show 1 + depth TreeLevel.all + spare ≤ reach room + (room + 1) * (0 + depth TreeLevel.calls)
    rw [Nat.zero_add]
    omega

theorem rightOperand (rhs : Shallow room 0 depth) :
    Shallow (room + 1) room fun weigh => weigh .rightOperand + depth weigh where
  counted := by
    have counted := rhs.counted
    show 1 + depth TreeLevel.blocksAndRights ≤ room + 1
    omega
  total := by
    have levels := rhs.total
    show 1 + depth TreeLevel.all + room ≤
      reach room + (room + 1) + (room + 2) * (0 + depth TreeLevel.calls)
    rw [Nat.zero_add, Nat.succ_mul (room + 1)]
    omega

end Shallow

end SlotCompiler
