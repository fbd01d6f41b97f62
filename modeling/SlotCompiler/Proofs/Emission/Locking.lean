import SlotCompiler.Proofs.Emission.Jumps
import SlotCompiler.Proofs.Emission.Stock
import SlotCompiler.Proofs.Machine.Locking
import SlotCompiler.Proofs.Tree.Locking

/-!
Contract: the locks that emitted code holds.
-/

namespace SlotCompiler

variable {inner held : Nat → LockStack} {stock finish : Stock} {code : List Instruction}
  {before : Context}

/-! ## Taking and giving back -/

def lockStack (locks : List Lock) : LockStack :=
  (locks.map fun lock => ⟨lock.slot, lock.exclusive⟩).reverse

theorem length_lockStack (locks : List Lock) : (lockStack locks).length = locks.length := by
  rw [lockStack, List.length_reverse, List.length_map]

theorem lockStack_cons (lock : Lock) (rest : List Lock) (held : LockStack) :
    lockStack (lock :: rest) ++ held = lockStack rest ++ ⟨lock.slot, lock.exclusive⟩ :: held := by
  simp [lockStack]

theorem carries_acquisitions (locks : List Lock) (entry : LockStack) :
    ∃ held, Carries (acquisitions locks) entry (lockStack locks ++ entry) held := by
  induction locks generalizing entry with
  | nil => exact ⟨_, carries_nil entry⟩
  | cons lock rest ih =>
    let acquire : Instruction := .syncAcquire lock.slot lock.exclusive
    obtain ⟨_, taken⟩ := @carries_of_plain acquire rfl entry trivial
    obtain ⟨_, others⟩ := ih (acquire.locksAfter entry)
    obtain ⟨held, carries, _⟩ := taken.append others
    rw [lockStack_cons]
    exact ⟨held, carries⟩

theorem carries_releases {entry : LockStack} (few : entry.length ≤ 0xFFFF) :
    ∃ held, Carries (releases entry.length) entry [] held := by
  cases entry with
  | nil => exact ⟨_, carries_nil []⟩
  | cons lock rest =>
    have countEq : (UInt16.ofNat (lock :: rest).length).toNat = (lock :: rest).length :=
      UInt16.toNat_ofNat_of_lt' (Nat.lt_succ_of_le few)
    obtain ⟨held, carries⟩ := @carries_of_plain
      (.syncRelease (UInt16.ofNat (lock :: rest).length)) rfl (lock :: rest) countEq.le
    have dropped : (Instruction.syncRelease (UInt16.ofNat (lock :: rest).length)).locksAfter
        (lock :: rest) = [] := by
      rw [Instruction.locksAfter, countEq, List.drop_length]
    rw [dropped] at carries
    exact ⟨held, carries⟩

/-! ## Loops and conditionals -/

theorem carries_loopCode {slot condition body entry}
    (computing : ∀ instruction ∈ condition, instruction.isComputing = true)
    (repeated : Carries body entry entry inner)
    (backNear : extent condition + 1 + extent body < jumpReach)
    (exitNear : extent body + 2 < jumpReach) :
    ∃ held, Carries (loopCode slot condition body) entry entry held ∧
      Continues held (extent condition + 1) body inner := by
  let held := overlay (fun _ => entry) (extent condition + 1) body inner
  have inBody : Continues held (extent condition + 1) body inner := continues_overlay _ _ _ _
  have around : ∀ offset, offset ≤ extent condition + 1 ∨
      extent condition + 1 + extent body ≤ offset → held offset = entry :=
    fun offset outside => repeated.overlay_eq outside rfl
  have test := carries_of_computing computing entry
  refine ⟨held, ⟨around 0 (by omega), ?_, ?_⟩, inBody⟩
  · rw [extent_loopCode]
    exact around _ (by omega)
  · nth_rewrite 2 [loopCode]
    rw [extent_loopCode, List.append_assoc, allKeep_append, List.cons_append, allKeep_cons,
      allKeep_append, allKeep_cons, Nat.zero_add, Instruction.width_jumpIfFalse]
    refine ⟨test.keeps_within ?_ (by omega), ?_, repeated.keeps_within inBody (by omega), ?_,
      allKeep_nil _ _ _⟩
    · intro offset offsetLe
      exact around _ (by omega)
    · apply keeps_jumpIfFalse exitNear (by omega) (le_refl _)
      · rw [around _ (by omega), around _ (by omega)]
      · rw [around _ (by omega), around _ (by omega)]
    · apply keeps_jump_back backNear
      rw [around _ (by omega), around _ (by omega)]

theorem carries_armCode {slot condition block rest entry} {later : Nat → LockStack}
    (computing : ∀ instruction ∈ condition, instruction.isComputing = true)
    (taken : Carries block entry entry inner) (skipped : Carries rest entry entry later)
    (skipNear : extent block + 2 < jumpReach) (exitNear : extent rest + 1 < jumpReach) :
    ∃ held, Carries (armCode slot condition block rest) entry entry held ∧
      Continues held (extent condition + 1) block inner ∧
      Continues held (extent condition + 1 + extent block + 1) rest later := by
  let outer := overlay (fun _ => entry) (extent condition + 1 + extent block + 1) rest later
  let held := overlay outer (extent condition + 1) block inner
  have inBlock : Continues held (extent condition + 1) block inner := continues_overlay _ _ _ _
  have inRest : Continues held (extent condition + 1 + extent block + 1) rest later := by
    intro offset offsetLe
    rw [← continues_overlay (fun _ => entry) _ rest later offset offsetLe]
    exact overlay_of_outside (by omega)
  have around : ∀ offset, offset ≤ extent condition + 1 ∨
      offset = extent condition + 1 + extent block ∨
      offset = extent condition + 1 + extent block + 1 ∨
      extent condition + 1 + extent block + (extent rest + 1) ≤ offset → held offset = entry :=
    fun offset outside => taken.overlay_eq (by omega) (skipped.overlay_eq (by omega) rfl)
  have test := carries_of_computing computing entry
  refine ⟨held, ⟨around 0 (by omega), ?_, ?_⟩, inBlock, inRest⟩
  · rw [extent_armCode]
    exact around _ (by omega)
  · nth_rewrite 2 [armCode]
    rw [extent_armCode, List.append_assoc, allKeep_append, List.cons_append, allKeep_cons,
      allKeep_append, allKeep_cons, Nat.zero_add, Instruction.width_jumpIfFalse,
      Instruction.width_jump]
    refine ⟨test.keeps_within ?_ (by omega), ?_, taken.keeps_within inBlock (by omega), ?_,
      skipped.keeps_within inRest (by omega)⟩
    · intro offset offsetLe
      exact around _ (by omega)
    · apply keeps_jumpIfFalse skipNear (by omega) (by omega)
      · rw [around _ (by omega), around _ (by omega)]
      · rw [around _ (by omega), around _ (by omega)]
    · apply keeps_jump exitNear (le_refl _)
      rw [around _ (by omega), around _ (by omega)]

/-! ## Sync blocks in code -/

/-- The code of a sync block: where its locks are taken, and where they are
given back when control leaves the block over its end. -/
structure Guard where
  start : Nat
  locks : List Lock
  release : Nat

def Guard.shift (distance : Nat) (guard : Guard) : Guard :=
  ⟨distance + guard.start, guard.locks, distance + guard.release⟩

/-- The statement has no statements inside. -/
def Node.isFlat : Node → Bool
  | .conditional _ _ _ | .loop _ _ _ | .sync _ _ _ => false
  | _ => true

/-- Code of a part of a body, with its sync blocks in order. -/
inductive EmitsGuarded : Fragment → Stock → List Instruction → Stock → List Guard → Prop where
  | flat {statement : Node} {stock finish code} (isFlat : statement.isFlat = true)
      (emitted : Emits (.node statement) stock code finish) :
      EmitsGuarded (.node statement) stock code finish []
  | conditional {conditions blocks position stock finish code guards}
      (arms : EmitsGuarded (.arms conditions blocks) stock code finish guards) :
      EmitsGuarded (.node (.conditional conditions blocks position)) stock code finish guards
  | loop {condition body position slot stock middle finish conditionCode bodyCode guards}
      (tested : Loads condition slot stock conditionCode middle)
      (repeated : EmitsGuarded (.nodes body) middle bodyCode finish guards)
      (backNear : extent conditionCode + 1 + extent bodyCode < jumpReach)
      (exitNear : extent bodyCode + 2 < jumpReach) :
      EmitsGuarded (.node (.loop condition body position)) stock
        (loopCode slot conditionCode bodyCode) finish
        (guards.map (Guard.shift (extent conditionCode + 1)))
  | sync {locks body position stock finish code guards}
      (guarded : EmitsGuarded (.nodes body) stock code finish guards) :
      EmitsGuarded (.node (.sync locks body position)) stock
        (acquisitions locks ++ code ++ [.syncRelease (UInt16.ofNat locks.length)]) finish
        (⟨0, locks, extent (acquisitions locks ++ code)⟩ ::
          guards.map (Guard.shift (extent (acquisitions locks))))
  | nil {stock : Stock} : EmitsGuarded (.nodes []) stock [] stock []
  | cons {node rest stock middle finish first second guards later}
      (head : EmitsGuarded (.node node) stock first middle guards)
      (tail : EmitsGuarded (.nodes rest) middle second finish later) :
      EmitsGuarded (.nodes (node :: rest)) stock (first ++ second) finish
        (guards ++ later.map (Guard.shift (extent first)))
  | arm
      {condition conditions block blocks slot stock tested taken finish conditionCode blockCode
        restCode guards later} (conditionLoaded : Loads condition slot stock conditionCode tested)
      (blockEmitted : EmitsGuarded (.nodes block) tested blockCode taken guards)
      (restEmitted : EmitsGuarded (.arms conditions blocks) taken restCode finish later)
      (skipNear : extent blockCode + 2 < jumpReach) (exitNear : extent restCode + 1 < jumpReach) :
      EmitsGuarded (.arms (condition :: conditions) (block :: blocks)) stock
        (armCode slot conditionCode blockCode restCode) finish
        (guards.map (Guard.shift (extent conditionCode + 1)) ++
          later.map (Guard.shift (extent conditionCode + 1 + extent blockCode + 1)))
  | alternative {block others stock finish code guards}
      (taken : EmitsGuarded (.nodes block) stock code finish guards) :
      EmitsGuarded (.arms [] (block :: others)) stock code finish guards
  | done {conditions stock} : EmitsGuarded (.arms conditions []) stock [] stock []

theorem Emits.exists_guards {fragment} (emits : Emits fragment stock code finish) :
    ∃ guards, EmitsGuarded fragment stock code finish guards := by
  induction emits with
  | declaration stored => exact ⟨_, .flat rfl (.declaration stored)⟩
  | assignment stored => exact ⟨_, .flat rfl (.assignment stored)⟩
  | value loaded =>
    refine ⟨_, .flat ?_ (.value loaded)⟩
    cases loaded <;> rfl
  | memberAssignment object loaded => exact ⟨_, .flat rfl (.memberAssignment object loaded)⟩
  | ret => exact ⟨_, .flat rfl .ret⟩
  | retValue loaded => exact ⟨_, .flat rfl (.retValue loaded)⟩
  | conditional _ arms =>
    obtain ⟨_, arms⟩ := arms
    exact ⟨_, .conditional arms⟩
  | loop tested _ backNear exitNear repeated =>
    obtain ⟨_, repeated⟩ := repeated
    exact ⟨_, .loop tested repeated backNear exitNear⟩
  | sync _ guarded =>
    obtain ⟨_, guarded⟩ := guarded
    exact ⟨_, .sync guarded⟩
  | nil => exact ⟨_, .nil⟩
  | cons _ _ head tail =>
    obtain ⟨_, head⟩ := head
    obtain ⟨_, tail⟩ := tail
    exact ⟨_, .cons head tail⟩
  | arm conditionLoaded _ _ skipNear exitNear block rest =>
    obtain ⟨_, block⟩ := block
    obtain ⟨_, rest⟩ := rest
    exact ⟨_, .arm conditionLoaded block rest skipNear exitNear⟩
  | alternative _ taken =>
    obtain ⟨_, taken⟩ := taken
    exact ⟨_, .alternative taken⟩
  | done => exact ⟨_, .done⟩

/-- A sync block of a sequence: the block takes its locks one after the other,
holds them at its end on top of what was held before it, and its release gives
back as many. -/
structure Guard.Balances (guard : Guard) (code : List Instruction) (held : Nat → LockStack) :
    Prop where
  stands : ∃ early middle late,
    code = early ++ acquisitions guard.locks ++ middle ++
      .syncRelease (UInt16.ofNat guard.locks.length) :: late ∧
    guard.start = extent early ∧
    guard.release = extent (early ++ acquisitions guard.locks ++ middle)
  few : guard.locks.length < 0x10000
  locked : held guard.release = lockStack guard.locks ++ held guard.start

theorem Guard.Balances.release_le {guard : Guard} (balances : guard.Balances code held) :
    guard.start ≤ guard.release ∧ guard.release ≤ extent code := by
  obtain ⟨early, middle, late, codeEq, startEq, releaseEq⟩ := balances.stands
  rw [startEq, releaseEq, codeEq]
  simp only [extent_append]
  omega

theorem Guard.Balances.embed {guard : Guard} {part} (balances : guard.Balances part inner)
    (before after : List Instruction) (continues : Continues held (extent before) part inner) :
    (guard.shift (extent before)).Balances (before ++ part ++ after) held := by
  have ⟨startLe, releaseLe⟩ := balances.release_le
  obtain ⟨early, middle, late, codeEq, startEq, releaseEq⟩ := balances.stands
  refine ⟨⟨before ++ early, middle, late ++ after, ?_, ?_, ?_⟩, balances.few, ?_⟩
  · simp only [codeEq, Guard.shift, List.append_assoc, List.cons_append]
  · rw [Guard.shift, startEq, extent_append]
  · simp only [Guard.shift, releaseEq, extent_append, Nat.add_assoc]
  · rw [Guard.shift, continues _ releaseLe, continues _ (startLe.trans releaseLe), balances.locked]

theorem balances_of_part {guards : List Guard} {part whole : List Instruction} {distance : Nat}
    (balances : ∀ guard ∈ guards, guard.Balances part inner)
    (continues : Continues held distance part inner) (before after : List Instruction)
    (wholeEq : whole = before ++ part ++ after) (distanceEq : distance = extent before) :
    ∀ guard ∈ guards.map (Guard.shift distance), guard.Balances whole held := by
  intro guard member
  obtain ⟨original, isMember, rfl⟩ := List.mem_map.mp member
  rw [wholeEq]
  rw [distanceEq] at continues ⊢
  exact (balances original isMember).embed before after continues

def GuardsLocks (code : List Instruction) (guards : List Guard) (entry : LockStack) : Prop :=
  ∃ held, Carries code entry entry held ∧ ∀ guard ∈ guards, guard.Balances code held

section Joining

variable {entry : LockStack} {guards later : List Guard}

theorem guardsLocks_of_carries (carries : Carries code entry entry held) :
    GuardsLocks code [] entry :=
  ⟨held, carries, fun _ member => absurd member List.not_mem_nil⟩

theorem GuardsLocks.append {first second : List Instruction}
    (early : GuardsLocks first guards entry) (late : GuardsLocks second later entry) :
    GuardsLocks (first ++ second) (guards ++ later.map (Guard.shift (extent first))) entry := by
  obtain ⟨_, firstCarries, firstBalances⟩ := early
  obtain ⟨_, secondCarries, secondBalances⟩ := late
  obtain ⟨held, carries, inFirst, inSecond⟩ := firstCarries.append secondCarries
  refine ⟨held, carries, List.forall_mem_append.mpr ⟨?_, ?_⟩⟩
  · intro guard member
    have balances := (firstBalances guard member).embed [] second inFirst
    simpa [Guard.shift] using balances
  · exact balances_of_part secondBalances inSecond first [] (by simp) rfl

theorem GuardsLocks.loop {slot : Slot} {condition body : List Instruction}
    (repeated : GuardsLocks body guards entry)
    (computing : ∀ instruction ∈ condition, instruction.isComputing = true)
    (backNear : extent condition + 1 + extent body < jumpReach)
    (exitNear : extent body + 2 < jumpReach) :
    GuardsLocks (loopCode slot condition body)
      (guards.map (Guard.shift (extent condition + 1))) entry := by
  obtain ⟨_, bodyCarries, bodyBalances⟩ := repeated
  obtain ⟨held, carries, inBody⟩ := carries_loopCode computing bodyCarries backNear exitNear
  refine ⟨held, carries, ?_⟩
  apply balances_of_part bodyBalances inBody
    (condition ++ [.jumpIfFalse slot (Int32.ofNat (extent body + 2))])
    [.jump (-Int32.ofNat (extent condition + 1 + extent body))]
  · simp [loopCode]
  · simp [extent_append, extent_cons, extent_nil]

theorem GuardsLocks.arm {slot : Slot} {condition block rest : List Instruction}
    (taken : GuardsLocks block guards entry) (skipped : GuardsLocks rest later entry)
    (computing : ∀ instruction ∈ condition, instruction.isComputing = true)
    (skipNear : extent block + 2 < jumpReach) (exitNear : extent rest + 1 < jumpReach) :
    GuardsLocks (armCode slot condition block rest)
      (guards.map (Guard.shift (extent condition + 1)) ++
        later.map (Guard.shift (extent condition + 1 + extent block + 1))) entry := by
  obtain ⟨_, blockCarries, blockBalances⟩ := taken
  obtain ⟨_, restCarries, restBalances⟩ := skipped
  obtain ⟨held, carries, inBlock, inRest⟩ :=
    carries_armCode computing blockCarries restCarries skipNear exitNear
  let skip : Instruction := .jumpIfFalse slot (Int32.ofNat (extent block + 2))
  let exit : Instruction := .jump (Int32.ofNat (extent rest + 1))
  refine ⟨held, carries, List.forall_mem_append.mpr ⟨?_, ?_⟩⟩
  · apply balances_of_part blockBalances inBlock (condition ++ [skip]) (exit :: rest)
    · simp [armCode, skip, exit]
    · simp [skip, extent_append, extent_cons, extent_nil]
  · apply balances_of_part restBalances inRest (condition ++ skip :: block ++ [exit]) []
    · simp [armCode, skip, exit]
    · simp only [skip, exit, extent_append, extent_cons, extent_nil, Instruction.width_jump,
        Instruction.width_jumpIfFalse]
      omega

theorem GuardsLocks.sync {locks : List Lock} {code : List Instruction}
    (guarded : GuardsLocks code guards (lockStack locks ++ entry)) (few : locks.length < 0x10000) :
    GuardsLocks (acquisitions locks ++ code ++ [.syncRelease (UInt16.ofNat locks.length)])
      (⟨0, locks, extent (acquisitions locks ++ code)⟩ ::
        guards.map (Guard.shift (extent (acquisitions locks)))) entry := by
  let release : Instruction := .syncRelease (UInt16.ofNat locks.length)
  have countEq : (UInt16.ofNat locks.length).toNat = locks.length := UInt16.toNat_ofNat_of_lt' few
  have permits : release.Permits (lockStack locks ++ entry) := by
    show (UInt16.ofNat locks.length).toNat ≤ _
    rw [countEq, List.length_append, length_lockStack]
    omega
  have restored : release.locksAfter (lockStack locks ++ entry) = entry := by
    show (lockStack locks ++ entry).drop (UInt16.ofNat locks.length).toNat = entry
    rw [countEq, ← length_lockStack, List.drop_left]
  obtain ⟨_, taken⟩ := carries_acquisitions locks entry
  obtain ⟨_, codeCarries, codeBalances⟩ := guarded
  obtain ⟨_, released⟩ := @carries_of_plain release rfl _ permits
  rw [restored] at released
  obtain ⟨inner, lockedCarries, _, inCode⟩ := taken.append codeCarries
  obtain ⟨held, carries, inLocked, _⟩ := lockedCarries.append released
  refine ⟨held, carries, List.forall_mem_cons.mpr ⟨⟨⟨[], code, [], ?_, rfl, ?_⟩, few, ?_⟩, ?_⟩⟩
  · simp
  · simp
  · have atEnd := inLocked _ (le_refl _)
    rw [Nat.zero_add, lockedCarries.finish] at atEnd
    show held (extent (acquisitions locks ++ code)) = lockStack locks ++ held 0
    rw [atEnd, carries.start]
  · apply balances_of_part codeBalances _ (acquisitions locks) [release] rfl rfl
    intro offset offsetLe
    rw [← inCode offset offsetLe, ← inLocked, Nat.zero_add]
    rw [extent_append]
    omega

end Joining

/-! ## Emitted code -/

def Fragment.returnsUnder (limit held : Nat) : Fragment → Bool
  | .node statement => statement.returnsUnder limit held
  | .nodes statements => blockReturnsUnder limit held statements
  | .arms _ blocks => blocksReturnUnder limit held blocks

theorem Emits.carries_of_isFlat {statement after}
    (emits : Emits (.node statement) stock code finish) (isFlat : statement.isFlat = true)
    (read : Reads (.node statement) before after) {entry : LockStack}
    (depth : entry.length = before.scopes.lockDepth)
    (few : statement.returnsUnder 0xFFFF entry.length = true) :
    ∃ held, Carries code entry entry held := by
  cases emits with
  | declaration stored | assignment stored => exact ⟨_, carries_of_computing stored.computing entry⟩
  | value loaded => exact ⟨_, carries_of_computing loaded.computing entry⟩
  | memberAssignment object loaded =>
    refine ⟨_, carries_of_computing ?_ entry⟩
    exact List.forall_mem_append.mpr
      ⟨List.forall_mem_append.mpr ⟨memberLoads?_computing object, loaded.computing⟩,
        List.forall_mem_singleton.mpr rfl⟩
  | ret =>
    have .ret := read
    obtain ⟨_, released⟩ := carries_releases (of_decide_eq_true few)
    obtain ⟨_, returned⟩ := @carries_of_final .ret [] entry (fun _ => rfl) rfl
    obtain ⟨held, carries, _⟩ := released.append returned
    rw [depth] at carries
    exact ⟨held, carries⟩
  | retValue loaded =>
    have .retValue returnedRead := read
    have sameDepth := returnedRead.sameBlocks.lockDepth_eq
    obtain ⟨_, released⟩ := carries_releases (of_decide_eq_true few)
    obtain ⟨_, returned⟩ := @carries_of_final (.retValue _) [] entry (fun _ => rfl) rfl
    obtain ⟨_, computed, _⟩ := (carries_of_computing loaded.computing entry).append released
    obtain ⟨held, carries, _⟩ := computed.append returned
    rw [depth, ← sameDepth] at carries
    exact ⟨held, carries⟩
  | conditional | loop | sync => contradiction

private theorem depth_inside {condition middle}
    (tested : Reads (.operand condition) before middle) :
    before.scopes.lockDepth = (middle.scopes.enter 0).lockDepth := by
  rw [ScopeChain.lockDepth_enter, Nat.zero_add, tested.sameBlocks.lockDepth_eq]

/-- Every part of a body ends with the locks it started with, and so does every
sync block in it. -/
theorem EmitsGuarded.guardsLocks {fragment after guards}
    (emits : EmitsGuarded fragment stock code finish guards)
    (read : Reads fragment.part before after) {entry : LockStack}
    (depth : entry.length = before.scopes.lockDepth)
    (few : fragment.returnsUnder 0xFFFF entry.length = true) : GuardsLocks code guards entry := by
  induction emits generalizing before after entry with
  | flat isFlat emitted =>
    obtain ⟨_, carries⟩ := emitted.carries_of_isFlat isFlat read depth few
    exact guardsLocks_of_carries carries
  | conditional _ arms =>
    have .conditional chained := read
    exact arms chained depth few
  | loop tested _ backNear exitNear repeated =>
    have .loop testedRead (.block inside) := read
    have bodyLocks := repeated inside (depth.trans (depth_inside testedRead)) few
    exact bodyLocks.loop tested.computing backNear exitNear
  | @sync locks _ _ _ _ _ _ _ guarded =>
    have .sync _ _ fewLocks (.block inside) := read
    have lengthEq : (lockStack locks ++ entry).length = locks.length + entry.length := by
      rw [List.length_append, length_lockStack]
    have bodyLocks := guarded inside (lengthEq.trans (congrArg (locks.length + ·) depth))
      (by rw [lengthEq]; exact few)
    exact bodyLocks.sync fewLocks
  | nil | done => exact guardsLocks_of_carries (carries_nil entry)
  | cons _ _ head tail =>
    have .moreNodes headRead tailRead := read
    have ⟨fewHead, fewTail⟩ := Bool.and_eq_true_iff.mp few
    have sameDepth := headRead.sameBlocks.lockDepth_eq
    exact (head headRead depth fewHead).append (tail tailRead (depth.trans sameDepth.symm) fewTail)
  | arm conditionLoaded _ _ skipNear exitNear block rest =>
    have .arm testedRead blockRead restRead := read
    have ⟨fewBlock, fewRest⟩ := Bool.and_eq_true_iff.mp few
    have sameBlocks := testedRead.sameBlocks.trans blockRead.sameBlocks
    have restLocks := rest restRead (depth.trans sameBlocks.lockDepth_eq.symm) fewRest
    have .block inside := blockRead
    have blockLocks := block inside (depth.trans (depth_inside testedRead)) fewBlock
    exact blockLocks.arm restLocks conditionLoaded.computing skipNear exitNear
  | alternative _ taken =>
    have .alternative (.block inside) := read
    have ⟨fewBlock, _⟩ := Bool.and_eq_true_iff.mp few
    exact taken inside (depth.trans (Nat.zero_add _).symm) fewBlock

end SlotCompiler
