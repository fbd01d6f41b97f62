import SlotCompiler.Proofs.Emission.Effects
import SlotCompiler.Proofs.Machine.Dataflow
import SlotCompiler.Proofs.Tree.Mutability

/-!
Contract: how often emitted code writes a slot.

Reading and emission hand out slots in order, so the slots of a part are two
ranges, and those of its parts one after the other make up the whole.
-/

namespace SlotCompiler

variable {slot dst : Slot} {value : Operand}

/-! ## Variables -/

theorem Stock.temporary?_becomes {stock later : Stock} {type}
    (allocated : stock.temporary? type = some (slot, later)) : stock.frame.Becomes later.frame := by
  unfold temporary? at allocated
  split at allocated
  · rename_i given frame added
    cases allocated
    exact (Variables.append_becomes (fun _ => rfl) added).1.trans
      (frame.retypes_setType slot type).becomes
  · contradiction

theorem Loads.becomes {stock finish code}
    (loads : Loads value slot stock code finish) : stock.frame.Becomes finish.frame := by
  induction loads with
  | held | access => exact .refl _
  | literal allocated => exact Stock.temporary?_becomes allocated
  | string allocated interned =>
    rw [Stock.intern?_frame_eq interned]
    exact Stock.temporary?_becomes allocated
  | binary _ _ left right => exact left.trans right

theorem Stores.becomes {stock finish code}
    (stores : Stores value dst stock code finish) : stock.frame.Becomes finish.frame := by
  cases stores with
  | literal => exact .refl _
  | string interned =>
    rw [Stock.intern?_frame_eq interned]
    exact .refl _
  | kept _ loaded | moved _ loaded => exact loaded.becomes

theorem Emits.becomes {fragment stock finish code}
    (emits : Emits fragment stock code finish) : stock.frame.Becomes finish.frame := by
  induction emits with
  | declaration stored | assignment stored => exact stored.becomes
  | value loaded | memberAssignment _ loaded | retValue loaded => exact loaded.becomes
  | ret | nil | done => exact .refl _
  | conditional _ arms => exact arms
  | loop tested _ _ _ repeated => exact tested.becomes.trans repeated
  | sync _ guarded => exact guarded
  | cons _ _ head tail => exact head.trans tail
  | arm conditionLoaded _ _ _ _ block rest => exact (conditionLoaded.becomes.trans block).trans rest
  | alternative _ taken => exact taken

/-! ## Ranges of slots -/

def share (low high : Nat) (slot : Slot) : Nat :=
  if low ≤ slot.toNat ∧ slot.toNat < high then 1 else 0

theorem share_self (low : Nat) (slot : Slot) : share low low slot = 0 :=
  if_neg (by omega)

theorem share_le_one (low high : Nat) (slot : Slot) : share low high slot ≤ 1 := by
  unfold share
  split_ifs <;> omega

theorem share_add {low middle high} (first : low ≤ middle) (second : middle ≤ high)
    (slot : Slot) : share low middle slot + share middle high slot = share low high slot := by
  unfold share
  split_ifs <;> omega

theorem share_next {low high} (dstEq : dst.toNat = low) (highEq : high = low + 1)
    (slot : Slot) : share low high slot = if slot = dst then 1 else 0 := by
  have sameIff : slot = dst ↔ slot.toNat = low := by rw [← UInt16.toNat_inj, dstEq]
  refine if_congr ?_ rfl rfl
  rw [sameIff]
  omega

theorem Variables.Takes.share_eq {frame later : Variables} (takes : frame.Takes dst later)
    (slot : Slot) : share frame.size later.size slot = if slot = dst then 1 else 0 :=
  share_next takes.slot_eq takes.size_eq slot

theorem Stock.Adds.share_eq {stock later : Stock} {type} (adds : stock.Adds dst type later)
    (slot : Slot) : share stock.frame.size later.frame.size slot = if slot = dst then 1 else 0 :=
  share_next adds.slot_eq adds.size_eq slot

/-! ## Operands -/

section Operands

variable {before after : Context} {stock finish : Stock} {code : List Instruction}

theorem memberLoads?_writes {object steps}
    (read : Reads (.steps steps) before after) (loaded : memberLoads? object steps = some code)
    (slot : Slot) : writes code slot = share before.frame.size after.frame.size slot := by
  induction steps generalizing object code before with
  | nil =>
    cases loaded
    cases read
    rw [share_self, writes_nil]
  | cons step rest ih =>
    obtain ⟨field, others, _, restLoaded, rfl⟩ := memberLoads?_cons loaded
    have .moreSteps added tail := read
    rw [writes_cons, writes_single rfl, ih tail restLoaded,
      ← added.takes.share_eq slot, share_add added.takes.grows.size_le tail.grows.size_le]

theorem Loads.writes_eq {src} (loads : Loads value src stock code finish)
    (read : Reads (.operand value) before after) (slot : Slot) :
    writes code slot = share before.frame.size after.frame.size slot +
      share stock.frame.size finish.frame.size slot := by
  induction loads generalizing before after with
  | held =>
    cases read
    rw [share_self, share_self, writes_nil]
  | literal allocated =>
    cases read
    rw [share_self, writes_single rfl, (Stock.temporary?_adds allocated).share_eq, Nat.zero_add]
  | string allocated interned =>
    cases read
    rw [share_self, writes_single rfl, Stock.intern?_frame_eq interned,
      (Stock.temporary?_adds allocated).share_eq, Nat.zero_add]
  | access loaded =>
    have .access found projected := read
    rw [share_self, memberLoads?_writes projected loaded, Nat.add_zero]
  | binary leftLoaded rightLoaded left right =>
    have .binary leftRead rightRead added := read
    have takes := added.takes
    have readShare := share_add leftRead.grows.size_le rightRead.grows.size_le slot
    have allShare := share_add (leftRead.grows.trans rightRead.grows).size_le
      takes.grows.size_le slot
    have stockShare := share_add leftLoaded.grows.size_le rightLoaded.grows.size_le slot
    rw [writes_append, writes_append, left leftRead, right rightRead, writes_single rfl,
      ← takes.share_eq slot]
    omega

theorem Stores.writes_eq_of_ne (stores : Stores value dst stock code finish)
    (read : Reads (.operand value) before after) (apart : slot ≠ dst) :
    writes code slot = share before.frame.size after.frame.size slot +
      share stock.frame.size finish.frame.size slot := by
  cases stores with
  | literal =>
    cases read
    rw [share_self, share_self, writes_single rfl, if_neg apart]
  | string interned =>
    cases read
    rw [share_self, writes_single rfl, if_neg apart, Stock.intern?_frame_eq interned, share_self]
  | kept _ loaded => exact loaded.writes_eq read slot
  | moved _ loaded =>
    rw [writes_append, writes_single rfl, if_neg apart, loaded.writes_eq read, Nat.add_zero]

theorem Stores.writes_fresh (stores : Stores value dst stock code finish)
    (read : Reads (.operand value) before after) (bounded : before.Bounded)
    (dstEq : dst.toNat = after.frame.size) (room : after.frame.size < stock.frame.size) :
    writes code dst = 1 := by
  cases stores with
  | literal | string => rw [writes_single rfl, if_pos rfl]
  | kept _ loaded =>
    -- The value of an operand is in an older slot, or in one of emission.
    rcases loaded.slot_lt_or_between read bounded with older | ⟨newer, _⟩ <;> omega
  | moved _ loaded =>
    have outside : share before.frame.size after.frame.size dst +
        share stock.frame.size finish.frame.size dst = 0 := by
      unfold share
      split_ifs <;> omega
    rw [writes_append, writes_single rfl, if_pos rfl, loaded.writes_eq read, outside]

end Operands

/-! ## Statements -/

def Fragment.assigned : Fragment → List Slot
  | .node statement => statement.assigned
  | .nodes statements => blockAssigned statements
  | .arms _ blocks => blocksAssigned blocks

theorem writes_releases (locks : Nat) (slot : Slot) : writes (releases locks) slot = 0 := by
  refine writes_eq_zero (fun instruction member => ?_) slot
  unfold releases at member
  split at member
  · rw [List.mem_singleton.mp member]
    rfl
  · exact absurd member List.not_mem_nil

theorem writes_acquisitions (locks : List Lock) (slot : Slot) :
    writes (acquisitions locks) slot = 0 := by
  refine writes_eq_zero (fun instruction member => ?_) slot
  obtain ⟨lock, _, rfl⟩ := List.mem_map.mp member
  rfl

theorem writes_silent {instruction : Instruction} (silent : instruction.destination? = none)
    (slot : Slot) : writes [instruction] slot = 0 :=
  writes_eq_zero (List.forall_mem_singleton.mpr silent) slot

theorem writes_loopCode (test : Slot) (condition body : List Instruction) (slot : Slot) :
    writes (loopCode test condition body) slot = writes condition slot + writes body slot := by
  rw [loopCode, writes_append, writes_append, writes_cons, writes_silent rfl, writes_silent rfl]
  omega

theorem writes_armCode (test : Slot) (condition block rest : List Instruction) (slot : Slot) :
    writes (armCode test condition block rest) slot =
      writes condition slot + writes block slot + writes rest slot := by
  rw [armCode, writes_append, writes_append, writes_cons, writes_cons (.jump _) rest,
    writes_silent rfl, writes_silent rfl]
  omega

private theorem writes_block {locks body before after} {stock finish : Stock} {code}
    (entered : Reads (.block locks body) before after) (bounded : before.Bounded)
    (room : after.frame.size ≤ stock.frame.size)
    (inside : ∀ {before after}, Reads (.nodes body) before after → before.Bounded →
      after.frame.size ≤ stock.frame.size →
      writes code slot = share before.frame.size after.frame.size slot +
        share stock.frame.size finish.frame.size slot) :
    writes code slot = share before.frame.size after.frame.size slot +
      share stock.frame.size finish.frame.size slot := by
  have .block insideRead := entered
  have bodyWrites := inside insideRead (bounded.enter locks) room
  exact bodyWrites

/-- The code of a part writes a slot that is not assigned to once, if it was
handed out for the part, and not at all otherwise. -/
theorem Emits.writes_eq {fragment before after stock finish code}
    (emits : Emits fragment stock code finish) (read : Reads fragment.part before after)
    (bounded : before.Bounded) (room : after.frame.size ≤ stock.frame.size)
    (kept : slot ∉ fragment.assigned) :
    writes code slot = share before.frame.size after.frame.size slot +
      share stock.frame.size finish.frame.size slot := by
  induction emits generalizing before after with
  | @declaration _ declared _ _ _ _ stock finish _ stored =>
    cases read with
    | @declaration _ _ _ _ _ _ _ middle _ initial declares =>
      have takes := declares.takes
      have readShare := share_add initial.grows.size_le takes.grows.size_le slot
      rw [takes.share_eq] at readShare
      by_cases isNew : slot = declared
      · have slotEq := takes.slot_eq
        have sizeEq := takes.size_eq
        subst isNew
        have older : share stock.frame.size finish.frame.size slot = 0 := if_neg (by omega)
        have notYet : share before.frame.size middle.frame.size slot = 0 := if_neg (by omega)
        rw [stored.writes_fresh initial bounded slotEq (by omega), ← readShare, older, notYet,
          if_pos rfl]
      · rw [stored.writes_eq_of_ne initial isNew, ← readShare, if_neg isNew, Nat.add_zero]
  | assignment stored =>
    have .assignment found assigned := read
    exact stored.writes_eq_of_ne assigned fun same => kept (same ▸ List.mem_singleton_self _)
  | value loaded => cases loaded <;> cases read
  | memberAssignment object loaded =>
    have .memberAssignment found projected assigned := read
    have readShare := share_add projected.grows.size_le assigned.grows.size_le slot
    rw [writes_append, writes_append, writes_silent rfl, memberLoads?_writes projected object,
      loaded.writes_eq assigned]
    omega
  | ret =>
    cases read
    rw [writes_append, writes_releases, writes_silent rfl, share_self, share_self]
  | retValue loaded =>
    have .retValue returned := read
    rw [writes_append, writes_append, writes_releases, writes_silent rfl, loaded.writes_eq returned]
    rfl
  | conditional _ arms =>
    have .conditional chained := read
    exact arms chained bounded room kept
  | loop tested bodyEmitted _ _ repeated =>
    have .loop testedRead repeatedRead := read
    have readShare := share_add testedRead.grows.size_le repeatedRead.grows.size_le slot
    have stockShare := share_add tested.grows.size_le bodyEmitted.grows.size_le slot
    have bodyWrites := writes_block repeatedRead (testedRead.bounded bounded)
      (room.trans tested.grows.size_le)
      fun read bounded room => repeated read bounded room kept
    rw [writes_loopCode, tested.writes_eq testedRead, bodyWrites, ← readShare, ← stockShare]
    exact Nat.add_add_add_comm ..
  | sync _ guarded =>
    have .sync _ _ _ guardedRead := read
    have bodyWrites := writes_block guardedRead bounded room
      fun read bounded room => guarded read bounded room kept
    rw [writes_append, writes_append, writes_acquisitions, writes_silent rfl, bodyWrites,
      Nat.add_zero, Nat.zero_add]
  | nil =>
    cases read
    rw [writes_nil, share_self, share_self]
  | cons headEmitted tailEmitted head tail =>
    have .moreNodes headRead tailRead := read
    have readShare := share_add headRead.grows.size_le tailRead.grows.size_le slot
    have stockShare := share_add headEmitted.grows.size_le tailEmitted.grows.size_le slot
    have headWrites := head headRead bounded (tailRead.grows.size_le.trans room)
      fun member => kept (List.mem_append_left _ member)
    have tailWrites := tail tailRead (headRead.bounded bounded)
      (room.trans headEmitted.grows.size_le)
      fun member => kept (List.mem_append_right _ member)
    rw [writes_append, headWrites, tailWrites, ← readShare, ← stockShare]
    exact Nat.add_add_add_comm ..
  | arm conditionLoaded blockEmitted restEmitted _ _ block rest =>
    have .arm testedRead enteredRead restRead := read
    have blockLe := enteredRead.grows.size_le
    have restLe := restRead.grows.size_le
    have conditionGrows := conditionLoaded.grows.size_le
    have blockGrows := blockEmitted.grows.size_le
    have takenBounded := testedRead.bounded bounded
    have takenShare := share_add testedRead.grows.size_le blockLe slot
    have readShare := share_add (testedRead.grows.size_le.trans blockLe) restLe slot
    have takenStockShare := share_add conditionGrows blockGrows slot
    have stockShare := share_add (conditionGrows.trans blockGrows) restEmitted.grows.size_le slot
    have blockWrites := writes_block enteredRead takenBounded (by omega)
      fun read bounded room =>
        block read bounded room fun member => kept (List.mem_append_left _ member)
    have restWrites := rest restRead (enteredRead.bounded takenBounded) (by omega)
      fun member => kept (List.mem_append_right _ member)
    rw [writes_armCode, conditionLoaded.writes_eq testedRead, blockWrites, restWrites]
    omega
  | alternative _ taken =>
    have .alternative entered := read
    exact writes_block entered bounded room fun read bounded room =>
      taken read bounded room fun member => kept (List.mem_append_left _ member)
  | done =>
    cases read
    rw [writes_nil, share_self, share_self]

end SlotCompiler
