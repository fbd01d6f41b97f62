import SlotCompiler.Proofs.Emission.Jumps
import SlotCompiler.Proofs.Emission.Stock
import SlotCompiler.Proofs.Tree.Evaluation

/-!
Contract: what the code of operands does to a store.

Evaluation of a tree has no slots for intermediate values, so the store of a
machine and that of an evaluation agree on declared variables only.
-/

namespace SlotCompiler

section Effects

variable {Value Heap : Type}

variable {scratch : Slot → Prop} {slot : Slot} {value : Operand}

/-- Two stores agree on the heap, the locks, and the slots of all names in open
scopes. -/
structure Agrees (scopes : ScopeChain) (store source : Store Value Heap) : Prop where
  heap_eq : store.heap = source.heap
  locks_eq : store.locks = source.locks
  slots_eq : ∀ slot, scopes.Holds slot → store.slots slot = source.slots slot

/-- A store in which only scratch slots changed. -/
structure Store.Keeps (store later : Store Value Heap) (scratch : Slot → Prop) : Prop where
  heap_eq : later.heap = store.heap
  locks_eq : later.locks = store.locks
  slots_eq : ∀ slot, ¬ scratch slot → later.slots slot = store.slots slot

theorem Store.Keeps.refl (store : Store Value Heap) (scratch : Slot → Prop) :
    store.Keeps store scratch :=
  ⟨rfl, rfl, fun _ _ => rfl⟩

theorem Store.Keeps.trans {first second third : Store Value Heap} {early late : Slot → Prop}
    (firstKeeps : first.Keeps second early) (secondKeeps : second.Keeps third late)
    (earlyIn : ∀ slot, early slot → scratch slot) (lateIn : ∀ slot, late slot → scratch slot) :
    first.Keeps third scratch where
  heap_eq := secondKeeps.heap_eq.trans firstKeeps.heap_eq
  locks_eq := secondKeeps.locks_eq.trans firstKeeps.locks_eq
  slots_eq slot kept :=
    (secondKeeps.slots_eq slot fun isLate => kept (lateIn slot isLate)).trans
      (firstKeeps.slots_eq slot fun isEarly => kept (earlyIn slot isEarly))

theorem Store.keeps_set (store : Store Value Heap) (value : Value) (isScratch : scratch slot) :
    store.Keeps (store.set slot value) scratch :=
  ⟨rfl, rfl, fun _ kept => store.slots_set_of_ne value fun same => kept (same ▸ isScratch)⟩

def Scratch (before after : Context) (stock finish : Stock) (slot : Slot) : Prop :=
  Between before.frame.size after.frame.size slot ∨
    Between stock.frame.size finish.frame.size slot

theorem Scratch.mono {before after inner innerAfter : Context}
    {stock finish innerStock innerFinish : Stock}
    (scratch : Scratch inner innerAfter innerStock innerFinish slot)
    (starts : before.frame.size ≤ inner.frame.size)
    (ends : innerAfter.frame.size ≤ after.frame.size)
    (stockStarts : stock.frame.size ≤ innerStock.frame.size)
    (stockEnds : innerFinish.frame.size ≤ finish.frame.size) :
    Scratch before after stock finish slot :=
  scratch.imp (fun inside => ⟨starts.trans inside.1, inside.2.trans_le ends⟩)
    fun inside => ⟨stockStarts.trans inside.1, inside.2.trans_le stockEnds⟩

theorem Context.Bounded.not_scratch {before after : Context} {stock finish : Stock}
    (bounded : before.Bounded) (room : before.frame.size ≤ stock.frame.size)
    (held : before.scopes.Holds slot) : ¬ Scratch before after stock finish slot := by
  have small := bounded slot held
  rintro (⟨low, _⟩ | ⟨low, _⟩) <;> omega

/-- The code of a part of a tree starts where the emitter's frame holds all that
was declared when the part was read, and its constants will be known. -/
structure Prepared (before : Context) (frame : Variables) (stock finish : Stock)
    (constants : Array String) : Prop where
  bounded : before.Bounded
  room : frame.size ≤ stock.frame.size
  within : stock.Bounded
  known : finish.constants.toList <+: constants.toList

namespace Prepared

variable {before after inner : Context} {frame early : Variables} {stock middle finish : Stock}
  {constants : Array String}

theorem head (prepared : Prepared before frame stock finish constants) (read : early.Grows frame)
    (emitted : middle.Grows finish) : Prepared before early stock middle constants :=
  ⟨prepared.bounded, read.size_le.trans prepared.room, prepared.within,
    emitted.constants.trans prepared.known⟩

theorem tail (prepared : Prepared before frame stock finish constants) (bounded : inner.Bounded)
    (emitted : stock.Grows middle) : Prepared inner frame middle finish constants :=
  ⟨bounded, prepared.room.trans emitted.size_le, emitted.bounded prepared.within, prepared.known⟩

theorem not_scratch (prepared : Prepared before after.frame stock finish constants)
    (read : before.frame.Grows after.frame) (held : before.scopes.Holds slot) :
    ¬ Scratch before after stock finish slot :=
  prepared.bounded.not_scratch (read.size_le.trans prepared.room) held

end Prepared

theorem Agrees.of_keeps {scopes : ScopeChain} {store later source : Store Value Heap}
    (agrees : Agrees scopes store source) (keeps : store.Keeps later scratch)
    (apart : ∀ slot, scopes.Holds slot → ¬ scratch slot) : Agrees scopes later source where
  heap_eq := keeps.heap_eq.trans agrees.heap_eq
  locks_eq := keeps.locks_eq.trans agrees.locks_eq
  slots_eq slot held := (keeps.slots_eq slot (apart slot held)).trans (agrees.slots_eq slot held)

/-- Code leaves a value in a slot and changes scratch slots only. -/
structure Leaves (meaning : Meaning Value Heap) (constants : Array String)
    (code : List Instruction) (scratch : Slot → Prop) (slot : Slot) (found : Value)
    (store later : Store Value Heap) : Prop where
  effects : effects? meaning constants code store = some later
  value : later.slots slot = found
  keeps : store.Keeps later scratch

/-! ## Member chains -/

def lastSlot : Slot → List MemberStep → Slot
  | object, [] => object
  | _, step :: rest => lastSlot step.destination rest

theorem MemberChain.valueSlot_eq (chain : MemberChain) :
    chain.valueSlot = lastSlot chain.source chain.steps := by
  obtain ⟨source, steps, position⟩ := chain
  induction steps generalizing source with
  | nil => rfl
  | cons step rest ih =>
    rw [lastSlot, ← ih step.destination]
    simp only [MemberChain.valueSlot, List.getLast?_cons]
    cases rest.getLast? <;> rfl

variable {before after : Context} {code : List Instruction}

theorem memberLoads?_leaves (meaning : Meaning Value Heap) (constants : Array String) {object steps}
    (store : Store Value Heap) (read : Reads (.steps steps) before after)
    (loaded : memberLoads? object steps = some code) :
    ∃ found later, members? meaning store.heap (store.slots object) steps = some found ∧
      Leaves meaning constants code (Between before.frame.size after.frame.size)
        (lastSlot object steps) found store later := by
  induction steps generalizing object code before store with
  | nil =>
    cases loaded
    exact ⟨_, store, rfl, rfl, rfl, .refl store _⟩
  | cons step rest ih =>
    obtain ⟨field, others, fieldEq, restLoaded, rfl⟩ := memberLoads?_cons loaded
    have .moreSteps added tail := read
    have slotEq := added.takes.slot_eq
    have sizeEq := added.takes.size_eq
    have tailLe := tail.grows.size_le
    let member := meaning.member store.heap (store.slots object) field
    obtain ⟨found, later, valued, leaves⟩ := ih (store.set step.destination member) tail restLoaded
    rw [Store.slots_set_self] at valued
    refine ⟨found, later, ?_, leaves.effects, leaves.value, ?_⟩
    · rw [members?, fieldEq]
      exact valued
    · refine (store.keeps_set member (?_ : Between _ _ step.destination)).trans leaves.keeps
        (fun _ => id) fun slot inRest => ⟨?_, inRest.2⟩
      · exact ⟨slotEq.ge, by omega⟩
      · have low := inRest.1
        omega

/-! ## Operands -/

variable (meaning : Meaning Value Heap) {constants : Array String} {stock finish : Stock}
  {store source : Store Value Heap}

theorem Loads.slot_lt_or_between (loads : Loads value slot stock code finish)
    (read : Reads (.operand value) before after) (bounded : before.Bounded) :
    slot.toNat < after.frame.size ∨ Between stock.frame.size finish.frame.size slot := by
  cases loads with
  | held =>
    have .visible found := read
    exact .inl (bounded.slot_lt found)
  | literal allocated =>
    have adds := Stock.temporary?_adds allocated
    exact .inr ⟨adds.slot_eq.ge, adds.slot_lt⟩
  | string allocated interned =>
    have adds := Stock.temporary?_adds allocated
    have sameFrame := Stock.intern?_frame_eq interned
    exact .inr ⟨adds.slot_eq.ge, sameFrame ▸ adds.slot_lt⟩
  | access =>
    have .access found projected := read
    exact .inl (projected.valueSlot_lt (bounded.slot_lt found))
  | binary =>
    have .binary _ _ added := read
    exact .inl added.takes.slot_lt

theorem Loads.leaves (loads : Loads value slot stock code finish)
    (read : Reads (.operand value) before after)
    (prepared : Prepared before after.frame stock finish constants)
    (agrees : Agrees before.scopes store source) :
    ∃ found later, value.value? meaning source = some found ∧
      Leaves meaning constants code (Scratch before after stock finish) slot found store later := by
  induction loads generalizing before after store with
  | held =>
    have .visible found := read
    exact ⟨_, store, rfl, rfl, agrees.slots_eq _ (ScopeChain.holds_of_lookup? found), .refl store _⟩
  | literal allocated =>
    have adds := Stock.temporary?_adds allocated
    refine ⟨_, _, rfl, rfl, store.slots_set_self _ _, store.keeps_set _ (.inr ?_)⟩
    exact ⟨adds.slot_eq.ge, adds.slot_lt⟩
  | @string text slot index _ _ _ allocated interned =>
    have adds := Stock.temporary?_adds allocated
    have sameFrame := Stock.intern?_frame_eq interned
    have found := constant_of_grows prepared.known
      (Stock.intern?_constant (adds.grows.bounded prepared.within) interned)
    refine ⟨_, store.set slot (meaning.string text), rfl, ?_, store.slots_set_self _ _,
      store.keeps_set _ (.inr ?_)⟩
    · rw [effects?_single, Instruction.effect?, found]
      rfl
    · exact ⟨adds.slot_eq.ge, sameFrame ▸ adds.slot_lt⟩
  | @access chain _ _ loaded =>
    have .access found projected := read
    obtain ⟨value, later, valued, leaves⟩ :=
      memberLoads?_leaves meaning constants store projected loaded
    rw [agrees.heap_eq, agrees.slots_eq _ (ScopeChain.holds_of_lookup? found)] at valued
    refine ⟨value, later, valued, leaves.effects, ?_, ?_⟩
    · rw [chain.valueSlot_eq]
      exact leaves.value
    · exact (Store.Keeps.refl store _).trans leaves.keeps (fun _ => id) fun _ => .inl
  | @binary operator lhs rhs destination leftSlot rightSlot position stock middle finish leftCode
      rightCode leftLoaded rightLoaded left right =>
      cases read with
      | @binary _ _ _ _ _ _ between late _ leftRead rightRead added =>
        have takes := added.takes
        have leftGrows := leftLoaded.grows
        have rightGrows := rightLoaded.grows
        have bothPrepared := prepared.head takes.grows (.refl finish)
        have leftPrepared := bothPrepared.head rightRead.grows rightGrows
        have rightPrepared := bothPrepared.tail (leftRead.bounded prepared.bounded) leftGrows
        obtain ⟨leftFound, leftStore, leftValued, leftLeaves⟩ := left leftRead leftPrepared agrees
        have stillAgrees : Agrees between.scopes leftStore source := by
          rw [leftRead.scopes_eq rfl]
          exact agrees.of_keeps leftLeaves.keeps fun slot =>
            leftPrepared.not_scratch leftRead.grows
        obtain ⟨rightFound, rightStore, rightValued, rightLeaves⟩ :=
          right rightRead rightPrepared stillAgrees
        -- The left value survives: its slot is older than all that the right one uses.
        have leftKept : rightStore.slots leftSlot = leftFound := by
          refine (rightLeaves.keeps.slots_eq leftSlot ?_).trans leftLeaves.value
          have older := leftLoaded.slot_lt_or_between leftRead prepared.bounded
          have grown := leftGrows.size_le
          have betweenRoom := leftPrepared.room
          have lateRoom := bothPrepared.room
          rintro (⟨low, high⟩ | ⟨low, high⟩) <;>
            rcases older with small | ⟨_, small⟩ <;> omega
        let found := meaning.operator operator leftFound rightFound
        refine ⟨found, rightStore.set destination found, ?_, ?_, ?_, ?_⟩
        · show (do
            let left ← lhs.value? meaning source
            let right ← rhs.value? meaning source
            some (meaning.operator operator left right)) = some found
          rw [leftValued, rightValued]
          rfl
        · rw [effects?_append, effects?_append, leftLeaves.effects, Option.bind_some,
            rightLeaves.effects, Option.bind_some, effects?_single, Instruction.effect?, leftKept,
            rightLeaves.value]
        · exact rightStore.slots_set_self _ _
        · have computed : store.Keeps rightStore (Scratch before after stock finish) := by
            refine leftLeaves.keeps.trans rightLeaves.keeps (fun slot scratch => ?_)
              fun slot scratch => ?_
            · exact scratch.mono (le_refl _) (rightRead.grows.size_le.trans takes.grows.size_le)
                (le_refl _) rightGrows.size_le
            · exact scratch.mono leftRead.grows.size_le takes.grows.size_le leftGrows.size_le
                (le_refl _)
          refine computed.trans (rightStore.keeps_set found (.inl ?_)) (fun _ => id) fun _ => id
          have lateGrown := leftRead.grows.size_le.trans rightRead.grows.size_le
          exact ⟨lateGrown.trans takes.slot_eq.ge, takes.slot_lt⟩

theorem Stores.leaves {value dst} (stores : Stores value dst stock code finish)
    (read : Reads (.operand value) before after)
    (prepared : Prepared before after.frame stock finish constants)
    (agrees : Agrees before.scopes store source) :
    ∃ found later, value.value? meaning source = some found ∧
      Leaves meaning constants code
        (fun slot => slot = dst ∨ Scratch before after stock finish slot) dst found store later := by
  cases stores with
  | literal => exact ⟨_, _, rfl, rfl, store.slots_set_self _ _, store.keeps_set _ (.inl rfl)⟩
  | @string text _ index _ _ interned =>
    have found := constant_of_grows prepared.known (Stock.intern?_constant prepared.within interned)
    refine ⟨_, store.set dst (meaning.string text), rfl, ?_, store.slots_set_self _ _,
      store.keeps_set _ (.inl rfl)⟩
    rw [effects?_single, Instruction.effect?, found]
    rfl
  | kept _ loaded =>
    obtain ⟨found, later, valued, leaves⟩ := loaded.leaves meaning read prepared agrees
    exact ⟨found, later, valued, leaves.effects, leaves.value,
      (Store.Keeps.refl store _).trans leaves.keeps (fun _ => id) fun _ => .inr⟩
  | @moved _ src _ _ _ loadCode _ loaded _ =>
    obtain ⟨found, later, valued, leaves⟩ := loaded.leaves meaning read prepared agrees
    refine ⟨found, later.set dst found, valued, ?_, later.slots_set_self _ _, ?_⟩
    · rw [effects?_append, leaves.effects, Option.bind_some, effects?_single,
        Instruction.effect?, leaves.value]
    · exact leaves.keeps.trans (later.keeps_set found (.inl rfl)) (fun _ => .inr) fun _ => id

end Effects

end SlotCompiler
