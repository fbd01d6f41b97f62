import SlotCompiler.Proofs.Machine.Jumps

/-!
Contract: a machine that runs words.
-/

namespace SlotCompiler

/-! ## Stores -/

/-- What values, operators and members mean.  The machine is the same for all
meanings. -/
structure Meaning (Value Heap : Type) where
  immediate : Immediate → Value
  string : String → Value
  operator : Operator → Value → Value → Value
  isTrue : Value → Bool
  member : Heap → Value → UInt16 → Value
  update : Heap → Value → UInt16 → Value → Heap

/-- A lock on an object. -/
structure HeldLock (Value : Type) where
  object : Value
  exclusive : Bool
deriving DecidableEq

/-- What happens to a lock. -/
inductive LockOperation (Value : Type) where
  | acquire (lock : HeldLock Value)
  | release (lock : HeldLock Value)
deriving DecidableEq

/-- The locks held, the last one first, and all that happened to locks so far. -/
structure Locks (Value : Type) where
  stack : List (HeldLock Value)
  history : List (LockOperation Value)

namespace Locks

variable {Value : Type}

def none : Locks Value := ⟨[], []⟩

def acquire (locks : Locks Value) (lock : HeldLock Value) : Locks Value :=
  ⟨lock :: locks.stack, locks.history ++ [.acquire lock]⟩

def release (locks : Locks Value) (count : UInt16) : Locks Value :=
  ⟨locks.stack.drop count.toNat,
    locks.history ++ (locks.stack.take count.toNat).map .release⟩

@[simp] theorem release_zero (locks : Locks Value) : locks.release 0 = locks := by
  simp [release]

end Locks

/-- What a function works on. -/
structure Store (Value Heap : Type) where
  slots : Slot → Value
  heap : Heap
  locks : Locks Value

/-- What is left when a function has returned. -/
structure Result (Value Heap : Type) where
  value? : Option Value
  heap : Heap
  operations : List (LockOperation Value)
deriving DecidableEq

section Execution

variable {offset : Int32}

variable {target : Nat} {condition : Slot}

variable {Value Heap : Type}

namespace Store

def set (store : Store Value Heap) (slot : Slot) (value : Value) : Store Value Heap :=
  { store with slots := Function.update store.slots slot value }

def acquire (store : Store Value Heap) (slot : Slot) (exclusive : Bool) : Store Value Heap :=
  { store with locks := store.locks.acquire ⟨store.slots slot, exclusive⟩ }

def release (store : Store Value Heap) (count : UInt16) : Store Value Heap :=
  { store with locks := store.locks.release count }

def result (store : Store Value Heap) (value? : Option Value) : Result Value Heap :=
  ⟨value?, store.heap, store.locks.history⟩

@[simp] theorem slots_set_self (store : Store Value Heap) (slot : Slot) (value : Value) :
    (store.set slot value).slots slot = value := by
  simp [set]

theorem slots_set_of_ne (store : Store Value Heap) {slot other} (value : Value)
    (apart : other ≠ slot) : (store.set slot value).slots other = store.slots other := by
  simp [set, apart]

end Store

/-! ## Instructions -/

/-- What an instruction that goes on to the next one does to the store. -/
def Instruction.effect? (meaning : Meaning Value Heap) (constants : Array String)
    (store : Store Value Heap) : Instruction → Option (Store Value Heap)
  | .nop => some store
  | .loadImmediate dst value => some (store.set dst (meaning.immediate value))
  | .loadConstant dst index =>
    (constants[index.toNat]?).map fun text => store.set dst (meaning.string text)
  | .move dst src => some (store.set dst (store.slots src))
  | .binary operator dst lhs rhs =>
    some (store.set dst (meaning.operator operator (store.slots lhs) (store.slots rhs)))
  | .memberLoad dst object field =>
    some (store.set dst (meaning.member store.heap (store.slots object) field))
  | .memberStore object field src =>
    some { store with
      heap := meaning.update store.heap (store.slots object) field (store.slots src) }
  | .syncAcquire slot exclusive => some (store.acquire slot exclusive)
  | .syncRelease count => some (store.release count)
  | .jump _ | .jumpIfFalse _ _ | .ret | .retValue _ => none

def effects? (meaning : Meaning Value Heap) (constants : Array String) :
    List Instruction → Store Value Heap → Option (Store Value Heap)
  | [], store => some store
  | instruction :: rest, store =>
    (instruction.effect? meaning constants store).bind (effects? meaning constants rest)

theorem effects?_append (meaning : Meaning Value Heap) (constants : Array String)
    (first second : List Instruction) (store : Store Value Heap) :
    effects? meaning constants (first ++ second) store =
      (effects? meaning constants first store).bind (effects? meaning constants second) := by
  induction first generalizing store with
  | nil => rfl
  | cons instruction rest ih =>
    simp only [List.cons_append, effects?]
    cases instruction.effect? meaning constants store with
    | none => rfl
    | some later => exact ih later

theorem effects?_single (meaning : Meaning Value Heap) (constants : Array String)
    (instruction : Instruction) (store : Store Value Heap) :
    effects? meaning constants [instruction] store =
      instruction.effect? meaning constants store := by
  exact Option.bind_fun_some _

/-! ## Steps -/

/-- The words and strings that a machine runs. -/
structure Image where
  words : List Word
  constants : Array String

def Image.fetch? (image : Image) (index : Nat) : Option (Instruction × Nat) :=
  (image.words[index]?).bind fun word =>
    (decodeWord index word image.words[index + 1]?).toOption

structure Machine (Value Heap : Type) where
  index : Nat
  store : Store Value Heap

/-- What one step of a machine comes to. -/
inductive Progress (Value Heap : Type) where
  | goesOn (machine : Machine Value Heap)
  | ends (value? : Option Value)
  | stuck

namespace Machine

def jump (machine : Machine Value Heap) (target? : Option Nat) : Progress Value Heap :=
  match target? with
  | some target => .goesOn ⟨target, machine.store⟩
  | none => .stuck

def step (meaning : Meaning Value Heap) (image : Image) (machine : Machine Value Heap) :
    Progress Value Heap :=
  match image.fetch? machine.index with
  | none => .stuck
  | some (instruction, width) =>
    match instruction with
    | .jump _ => machine.jump (instruction.jumpTarget? machine.index)
    | .jumpIfFalse condition _ =>
      if meaning.isTrue (machine.store.slots condition) then
        .goesOn ⟨machine.index + width, machine.store⟩
      else
        machine.jump (instruction.jumpTarget? machine.index)
    | .ret => .ends none
    | .retValue src => .ends (some (machine.store.slots src))
    | _ =>
      match instruction.effect? meaning image.constants machine.store with
      | some store => .goesOn ⟨machine.index + width, store⟩
      | none => .stuck

/-- Run a machine up to its return, for a number of steps at most. -/
def run (meaning : Meaning Value Heap) (image : Image) :
    Nat → Machine Value Heap → Option (Result Value Heap)
  | 0, _ => none
  | fuel + 1, machine =>
    match machine.step meaning image with
    | .goesOn next => next.run meaning image fuel
    | .ends value? => some (machine.store.result value?)
    | .stuck => none

end Machine

/-! ## Words of a sequence -/

def Image.Holds (image : Image) (index : Nat) (code : List Instruction) : Prop :=
  ∃ before after, image.words = encode (before ++ code ++ after) ∧ index = extent before

namespace Image.Holds

variable {image : Image} {index : Nat} {first second rest : List Instruction}
  {instruction : Instruction}

theorem left (holds : image.Holds index (first ++ second)) : image.Holds index first := by
  obtain ⟨before, after, wordsEq, indexEq⟩ := holds
  exact ⟨before, second ++ after, by simpa only [List.append_assoc] using wordsEq, indexEq⟩

theorem right (holds : image.Holds index (first ++ second)) :
    image.Holds (index + extent first) second := by
  obtain ⟨before, after, wordsEq, indexEq⟩ := holds
  refine ⟨before ++ first, after, by simpa only [List.append_assoc] using wordsEq, ?_⟩
  rw [indexEq, extent_append]

theorem tail (holds : image.Holds index (instruction :: rest)) :
    image.Holds (index + instruction.width) rest := by
  rw [← List.singleton_append] at holds
  have after := holds.right
  rwa [extent_cons, extent_nil, Nat.add_zero] at after

theorem fetch?_eq (holds : image.Holds index (instruction :: rest)) :
    image.fetch? index = some (instruction, instruction.width) := by
  obtain ⟨before, after, wordsEq, indexEq⟩ := holds
  obtain ⟨firstWord, more, instructionWords, _, decoded⟩ := instruction.words_eq
  have split : image.words = encode before ++ firstWord :: (more ++ encode (rest ++ after)) := by
    simp only [wordsEq, encode_append, encode_cons, instructionWords, List.append_assoc,
      List.cons_append]
  have widthEq : instruction.width = more.length + 1 := by
    simp [Instruction.width, instructionWords]
  have here : image.words[index]? = some firstWord := by
    rw [split, indexEq, extent, List.getElem?_append_right (le_refl _), Nat.sub_self]
    rfl
  have next : image.words[index + 1]? = (more ++ encode (rest ++ after)).head? := by
    rw [split, indexEq, extent, List.getElem?_append_right (Nat.le_add_right _ 1),
      Nat.add_sub_cancel_left, List.getElem?_cons_succ, List.head?_eq_getElem?]
  rw [Image.fetch?, here, next, Option.bind_some, decoded, widthEq]
  rfl

end Image.Holds

section Steps

variable {offset : Int32}

variable {meaning : Meaning Value Heap} {image : Image} {index : Nat} {rest : List Instruction}
  {store later : Store Value Heap}

theorem step_of_effect {instruction} (holds : image.Holds index (instruction :: rest))
    (effect : instruction.effect? meaning image.constants store = some later) :
    Machine.step meaning image ⟨index, store⟩ = .goesOn ⟨index + instruction.width, later⟩ := by
  unfold Machine.step
  rw [holds.fetch?_eq]
  cases instruction with
  | jump | jumpIfFalse | ret | retValue => contradiction
  | _ => simp only [effect]

theorem step_jump (holds : image.Holds index (.jump offset :: rest))
    (goes : (Instruction.jump offset).jumpTarget? index = some target) :
    Machine.step meaning image ⟨index, store⟩ = .goesOn ⟨target, store⟩ := by
  unfold Machine.step
  rw [holds.fetch?_eq]
  simp only [goes, Machine.jump]

theorem step_jumpIfFalse_true (holds : image.Holds index (.jumpIfFalse condition offset :: rest))
    (isTrue : meaning.isTrue (store.slots condition) = true) :
    Machine.step meaning image ⟨index, store⟩ = .goesOn ⟨index + 1, store⟩ := by
  unfold Machine.step
  rw [holds.fetch?_eq]
  simp only [isTrue, if_true, Instruction.width_jumpIfFalse]

theorem step_jumpIfFalse_false (holds : image.Holds index (.jumpIfFalse condition offset :: rest))
    (isFalse : meaning.isTrue (store.slots condition) = false)
    (goes : (Instruction.jumpIfFalse condition offset).jumpTarget? index = some target) :
    Machine.step meaning image ⟨index, store⟩ = .goesOn ⟨target, store⟩ := by
  unfold Machine.step
  rw [holds.fetch?_eq]
  simp only [isFalse, Bool.false_eq_true, if_false, goes, Machine.jump]

theorem step_ret (holds : image.Holds index (.ret :: rest)) :
    Machine.step meaning image ⟨index, store⟩ = .ends none := by
  unfold Machine.step
  rw [holds.fetch?_eq]

theorem step_retValue {src} (holds : image.Holds index (.retValue src :: rest)) :
    Machine.step meaning image ⟨index, store⟩ = .ends (some (store.slots src)) := by
  unfold Machine.step
  rw [holds.fetch?_eq]

end Steps

/-! ## Runs -/

abbrev Steps (meaning : Meaning Value Heap) (image : Image) :
    Machine Value Heap → Machine Value Heap → Prop :=
  Relation.ReflTransGen fun machine next => machine.step meaning image = .goesOn next

def Machine.Ends (meaning : Meaning Value Heap) (image : Image) (machine : Machine Value Heap)
    (result : Result Value Heap) : Prop :=
  ∃ fuel, machine.run meaning image fuel = some result

section Runs

variable {meaning : Meaning Value Heap} {image : Image} {machine next : Machine Value Heap}
  {result other : Result Value Heap} {fuel : Nat}

theorem Machine.run_of_goesOn (stepped : machine.step meaning image = .goesOn next) :
    machine.run meaning image (fuel + 1) = next.run meaning image fuel := by
  rw [Machine.run, stepped]

theorem Machine.ends_of_ends {value?} (stepped : machine.step meaning image = .ends value?) :
    machine.Ends meaning image (machine.store.result value?) :=
  ⟨1, by rw [Machine.run, stepped]⟩

theorem Machine.run_next (stepped : machine.step meaning image = .goesOn next)
    (ran : machine.run meaning image fuel = some result) :
    ∃ less, less < fuel ∧ next.run meaning image less = some result := by
  cases fuel with
  | zero => contradiction
  | succ less =>
    rw [Machine.run_of_goesOn stepped] at ran
    exact ⟨less, Nat.lt_succ_self less, ran⟩

theorem Steps.run (steps : Steps meaning image machine next)
    (ran : machine.run meaning image fuel = some result) :
    ∃ less, less ≤ fuel ∧ next.run meaning image less = some result := by
  induction steps with
  | refl => exact ⟨fuel, le_refl _, ran⟩
  | tail _ stepped ih =>
    obtain ⟨middle, middleLe, middleRan⟩ := ih
    obtain ⟨less, lessLt, lessRan⟩ := Machine.run_next stepped middleRan
    exact ⟨less, lessLt.le.trans middleLe, lessRan⟩

theorem Steps.ends (steps : Steps meaning image machine next)
    (ends : next.Ends meaning image result) : machine.Ends meaning image result := by
  induction steps with
  | refl => exact ends
  | tail _ stepped ih =>
    obtain ⟨fuel, ran⟩ := ends
    exact ih ⟨fuel + 1, (Machine.run_of_goesOn stepped).trans ran⟩

theorem Machine.Ends.unique (first : machine.Ends meaning image result)
    (second : machine.Ends meaning image other) : result = other := by
  obtain ⟨fuel, firstRan⟩ := first
  obtain ⟨otherFuel, secondRan⟩ := second
  induction fuel generalizing machine otherFuel with
  | zero => contradiction
  | succ fuel ih =>
    cases otherFuel with
    | zero => contradiction
    | succ otherFuel =>
      cases stepped : machine.step meaning image with
      | goesOn next =>
        rw [Machine.run_of_goesOn stepped] at firstRan secondRan
        exact ih firstRan otherFuel secondRan
      | ends value? =>
        simp only [Machine.run, stepped] at firstRan secondRan
        exact Option.some.inj (firstRan.symm.trans secondRan)
      | stuck =>
        simp only [Machine.run, stepped] at firstRan
        contradiction

theorem steps_of_effects {index code store later} (holds : image.Holds index code)
    (effects : effects? meaning image.constants code store = some later) :
    Steps meaning image ⟨index, store⟩ ⟨index + extent code, later⟩ := by
  induction code generalizing index store with
  | nil =>
    cases effects
    exact .refl
  | cons instruction rest ih =>
    obtain ⟨middle, effect, restEffects⟩ := Option.bind_eq_some_iff.mp effects
    rw [extent_cons, ← Nat.add_assoc]
    exact .head (step_of_effect holds effect) (ih holds.tail restEffects)

end Runs

end Execution

end SlotCompiler
