import SlotCompiler.Proofs.Emission.Following

/-!
Contract: emitted code follows the evaluation of the tree.
-/

namespace SlotCompiler

section Simulation

variable {Value Heap : Type} {meaning : Meaning Value Heap} {image : Image}
  {before after : Context} {stock finish : Stock} {code : List Instruction} {index : Nat}

variable {condition value : Operand} {slot src : Slot} {scopes : ScopeChain}
  {store source : Store Value Heap} {position : Position} {held last : Nat}
  {conditionCode : List Instruction}

/-! ## Single statements -/

theorem Loads.tests (meaning : Meaning Value Heap) (loads : Loads condition slot stock code finish)
    (read : Reads (.operand condition) before after)
    (prepared : Prepared before after.frame stock finish image.constants)
    (holds : image.Holds index code) :
    Tests meaning image condition before.scopes index (index + extent code) slot := by
  intro store source agrees
  obtain ⟨found, later, valued, leaves⟩ := loads.leaves meaning read prepared agrees
  refine ⟨found, later, valued, steps_of_effects holds leaves.effects, leaves.value, ?_⟩
  exact agrees.of_keeps leaves.keeps fun slot =>
    prepared.not_scratch read.grows

theorem Agrees.set {later : ScopeChain} {last constants} {scratch : Slot → Prop} {dst found}
    (agrees : Agrees scopes store source)
    (leaves : Leaves meaning constants code (fun slot => slot = dst ∨ scratch slot) dst found store
      last) (apart : ∀ slot, scopes.Holds slot → ¬ scratch slot)
    (holds : ∀ slot, later.Holds slot → slot = dst ∨ scopes.Holds slot) :
    Agrees later last (source.set dst found) where
  heap_eq := leaves.keeps.heap_eq.trans agrees.heap_eq
  locks_eq := leaves.keeps.locks_eq.trans agrees.locks_eq
  slots_eq slot held := by
    by_cases isDst : slot = dst
    · rw [isDst, leaves.value, Store.slots_set_self]
    · have visible := (holds slot held).resolve_left isDst
      have kept := leaves.keeps.slots_eq slot (not_or.mpr ⟨isDst, apart slot visible⟩)
      rw [kept, agrees.slots_eq slot visible, Store.slots_set_of_ne _ _ isDst]

theorem Agrees.result_eq (agrees : Agrees scopes store source) (value? : Option Value) :
    store.result value? = source.result value? := by
  rw [Store.result, Store.result, agrees.heap_eq, agrees.locks_eq]

theorem Stores.follows_declaration {name isMutable declared?}
    (stores : Stores value slot stock code finish)
    (read : Reads (.node (.declaration name slot isMutable declared? value position)) before after)
    (prepared : Prepared before after.frame stock finish image.constants)
    (holds : image.Holds index code) :
    Follows meaning image held (.node (.declaration name slot isMutable declared? value position))
      before.scopes after.scopes index (index + extent code) := by
  cases read with
  | @declaration _ _ _ _ _ _ _ middle _ initial declared =>
    have initialised := prepared.head declared.takes.grows (.refl finish)
    refine follows_of_determined fun store source agrees => ?_
    obtain ⟨found, later, valued, leaves⟩ := stores.leaves meaning initial initialised agrees
    refine ⟨.falls (source.set slot found),
      ⟨later, steps_of_effects holds leaves.effects, ?_⟩, fun other => ⟨fun runs => ?_, ?_⟩⟩
    · refine agrees.set leaves (fun other =>
        initialised.not_scratch initial.grows) fun other visible => ?_
      rw [← initial.scopes_eq rfl]
      exact declared.holds_iff.mp visible
    · have .declaration again := runs
      rw [Option.some.inj (again.symm.trans valued)]
    · rintro rfl
      exact .declaration valued

theorem Stores.follows_assignment (stores : Stores value slot stock code finish)
    (read : Reads (.node (.assignment slot value position)) before after)
    (prepared : Prepared before after.frame stock finish image.constants)
    (holds : image.Holds index code) :
    Follows meaning image held (.node (.assignment slot value position)) before.scopes
      after.scopes index (index + extent code) := by
  have .assignment _ assigned := read
  refine follows_of_determined fun store source agrees => ?_
  obtain ⟨found, later, valued, leaves⟩ := stores.leaves meaning assigned prepared agrees
  refine ⟨.falls (source.set slot found),
    ⟨later, steps_of_effects holds leaves.effects, ?_⟩, fun other => ⟨fun runs => ?_, ?_⟩⟩
  · refine agrees.set leaves (fun other =>
      prepared.not_scratch assigned.grows) fun other visible => ?_
    rw [← assigned.scopes_eq rfl]
    exact .inr visible
  · have .assignment again := runs
    rw [Option.some.inj (again.symm.trans valued)]
  · rintro rfl
    exact .assignment valued

theorem Loads.follows_memberAssignment {target : MemberChain}
    {member field value position src held objectCode valueCode}
    (object : memberLoads? target.source target.steps = some objectCode)
    (loads : Loads value src stock valueCode finish)
    (read : Reads (.node (.memberAssignment target member (some field) value position)) before after)
    (prepared : Prepared before after.frame stock finish image.constants) (holds : image.Holds index
      (objectCode ++ valueCode ++ [.memberStore target.valueSlot field src])) :
    Follows meaning image held (.node (.memberAssignment target member (some field) value position))
      before.scopes after.scopes index
      (index + extent (objectCode ++ valueCode ++ [.memberStore target.valueSlot field src])) := by
  cases read with
  | @memberAssignment _ _ _ _ _ _ _ middle _ found projected assigned =>
    have sameScopes : middle.scopes = before.scopes := projected.scopes_eq rfl
    have lastScopes : after.scopes = before.scopes := (assigned.scopes_eq rfl).trans sameScopes
    have middleRoom := assigned.grows.size_le.trans prepared.room
    have valuePrepared := prepared.tail (projected.bounded prepared.bounded) (.refl stock)
    have sourceVisible := ScopeChain.holds_of_lookup? found
    refine follows_of_determined fun store source agrees => ?_
    obtain ⟨objectFound, objectStore, objectValued, objectLeaves⟩ :=
      memberLoads?_leaves meaning image.constants store projected object
    rw [agrees.heap_eq, agrees.slots_eq _ sourceVisible] at objectValued
    have objectAgrees : Agrees middle.scopes objectStore source := by
      rw [sameScopes]
      refine agrees.of_keeps objectLeaves.keeps fun slot held inSteps => ?_
      exact absurd (prepared.bounded slot held) (Nat.not_lt.mpr inSteps.1)
    obtain ⟨valueFound, valueStore, valueValued, valueLeaves⟩ :=
      loads.leaves meaning assigned valuePrepared objectAgrees
    have valueAgrees := objectAgrees.of_keeps valueLeaves.keeps fun slot =>
      valuePrepared.not_scratch assigned.grows
    -- The object is not lost while the value is computed.
    have objectKept : valueStore.slots target.valueSlot = objectFound := by
      have older := projected.valueSlot_lt (prepared.bounded _ sourceVisible)
      rw [valueLeaves.keeps.slots_eq target.valueSlot, target.valueSlot_eq, objectLeaves.value]
      rintro (⟨low, _⟩ | ⟨low, _⟩) <;> omega
    let heap := meaning.update source.heap objectFound field valueFound
    have effects : effects? meaning image.constants
        (objectCode ++ valueCode ++ [.memberStore target.valueSlot field src]) store =
        some { valueStore with heap := heap } := by
      rw [effects?_append, effects?_append, objectLeaves.effects, Option.bind_some,
        valueLeaves.effects, Option.bind_some, effects?_single, Instruction.effect?, objectKept,
        valueLeaves.value, valueAgrees.heap_eq]
    refine ⟨.falls { source with heap := heap }, ⟨_, steps_of_effects holds effects, ?_⟩,
      fun other => ⟨fun runs => ?_, ?_⟩⟩
    · rw [lastScopes, ← sameScopes]
      exact ⟨rfl, valueAgrees.locks_eq, valueAgrees.slots_eq⟩
    · cases runs with
      | memberAssignment targeted valued =>
        rw [Option.some.inj (targeted.symm.trans objectValued),
          Option.some.inj (valued.symm.trans valueValued)]
    · rintro rfl
      exact .memberAssignment objectValued valueValued

/-! ## Returns -/

theorem follows_ret (holds : image.Holds index (releases scopes.lockDepth ++ [.ret])) :
    Follows meaning image scopes.lockDepth (.node (.ret none scopes.lockDepth position)) scopes
      scopes index last := by
  refine follows_of_determined fun store source agrees =>
    ⟨.returns none (source.release (UInt16.ofNat scopes.lockDepth)), ?_,
      fun other => ⟨fun runs => ?_, ?_⟩⟩
  · have released := steps_of_effects holds.left
      (effects?_releases meaning image.constants scopes.lockDepth store)
    have ends := Steps.ends released (Machine.ends_of_ends (step_ret holds.right))
    rwa [(agrees.release _).result_eq] at ends
  · cases runs
    rfl
  · rintro rfl
    exact .ret

theorem Loads.follows_retValue (loads : Loads value src stock code finish)
    (read : Reads (.operand value) before after)
    (prepared : Prepared before after.frame stock finish image.constants)
    (holds : image.Holds index (code ++ releases after.scopes.lockDepth ++ [.retValue src])) :
    Follows meaning image before.scopes.lockDepth
      (.node (.ret (some value) after.scopes.lockDepth position)) before.scopes after.scopes index
      last := by
  have sameScopes : after.scopes = before.scopes := read.scopes_eq rfl
  rw [sameScopes] at holds ⊢
  refine follows_of_determined fun store source agrees => ?_
  obtain ⟨found, later, valued, leaves⟩ := loads.leaves meaning read prepared agrees
  have still := agrees.of_keeps leaves.keeps fun slot =>
    prepared.not_scratch read.grows
  refine ⟨.returns (some found) (source.release (UInt16.ofNat before.scopes.lockDepth)), ?_,
    fun other => ⟨fun runs => ?_, ?_⟩⟩
  · have effects : effects? meaning image.constants (code ++ releases before.scopes.lockDepth)
        store = some (later.release (UInt16.ofNat before.scopes.lockDepth)) := by
      rw [effects?_append, leaves.effects, Option.bind_some, effects?_releases]
    have ends := Steps.ends (steps_of_effects holds.left effects)
      (Machine.ends_of_ends (step_retValue holds.right))
    have same : (later.release (UInt16.ofNat before.scopes.lockDepth)).slots src = found :=
      leaves.value
    rwa [same, (still.release _).result_eq] at ends
  · have .retValue again := runs
    rw [Option.some.inj (again.symm.trans valued)]
  · rintro rfl
    exact .retValue valued

/-! ## Layouts with jumps -/

theorem Image.Holds.loop {slot condition body}
    (holds : image.Holds index (loopCode slot condition body)) :
    image.Holds index condition ∧
      image.Holds (index + extent condition)
        (.jumpIfFalse slot (Int32.ofNat (extent body + 2)) :: body) ∧
      image.Holds (index + (extent condition + 1 + extent body))
        [.jump (-Int32.ofNat (extent condition + 1 + extent body))] := by
  refine ⟨holds.left.left, holds.left.right, ?_⟩
  have back := holds.right
  rwa [extent_append, extent_cons, Instruction.width_jumpIfFalse,
    ← Nat.add_assoc (extent condition)] at back

theorem Image.Holds.arm {slot condition block rest}
    (holds : image.Holds index (armCode slot condition block rest)) :
    image.Holds index condition ∧
      image.Holds (index + extent condition)
        (.jumpIfFalse slot (Int32.ofNat (extent block + 2)) :: block) ∧
      image.Holds (index + extent condition + 1 + extent block)
        (.jump (Int32.ofNat (extent rest + 1)) :: rest) := by
  refine ⟨holds.left.left, holds.left.right, ?_⟩
  have exit := holds.right
  rwa [extent_append, extent_cons, Instruction.width_jumpIfFalse, ← Nat.add_assoc,
    ← Nat.add_assoc] at exit

theorem follows_loopCode {body bodyCode}
    (holds : image.Holds index (loopCode slot conditionCode bodyCode))
    (backNear : extent conditionCode + 1 + extent bodyCode < jumpReach)
    (exitNear : extent bodyCode + 2 < jumpReach)
    (tests : Tests meaning image condition scopes index (index + extent conditionCode) slot)
    (bodyFollows : Follows meaning image held (.nodes body) scopes scopes
      (index + extent conditionCode + 1) (index + extent conditionCode + 1 + extent bodyCode)) :
    Follows meaning image held (.node (.loop condition body position)) scopes scopes index
      (index + extent (loopCode slot conditionCode bodyCode)) := by
  obtain ⟨_, testHolds, backHolds⟩ := holds.loop
  rw [extent_loopCode, ← Nat.add_assoc]
  have branches := tests.branches testHolds (Instruction.jumpTarget?_jumpIfFalse exitNear)
  rw [show index + extent conditionCode + 1 + extent bodyCode =
    index + (extent conditionCode + 1 + extent bodyCode) by omega] at bodyFollows
  exact follows_loop branches bodyFollows backHolds (Instruction.jumpTarget?_jump_back backNear)

theorem follows_armCode {conditions block blocks blockCode restCode}
    (holds : image.Holds index (armCode slot conditionCode blockCode restCode))
    (skipNear : extent blockCode + 2 < jumpReach) (exitNear : extent restCode + 1 < jumpReach)
    (tests : Tests meaning image condition scopes index (index + extent conditionCode) slot)
    (blockFollows : Follows meaning image held (.nodes block) scopes scopes
      (index + extent conditionCode + 1) (index + extent conditionCode + 1 + extent blockCode))
    (restFollows : Follows meaning image held (.arms conditions blocks) scopes scopes
      (index + extent conditionCode + 1 + extent blockCode + 1)
      (index + extent conditionCode + 1 + extent blockCode + 1 + extent restCode)) :
    Follows meaning image held (.arms (condition :: conditions) (block :: blocks)) scopes scopes
      index (index + extent (armCode slot conditionCode blockCode restCode)) := by
  obtain ⟨_, testHolds, exitHolds⟩ := holds.arm
  have finishEq : index + extent (armCode slot conditionCode blockCode restCode) =
      index + extent conditionCode + 1 + extent blockCode + (extent restCode + 1) := by
    rw [extent_armCode]
    omega
  rw [finishEq]
  have branches := tests.branches testHolds (Instruction.jumpTarget?_jumpIfFalse skipNear)
  rw [show index + extent conditionCode + 1 + extent blockCode + 1 =
      index + extent conditionCode + (extent blockCode + 2) by omega,
    show index + extent conditionCode + (extent blockCode + 2) + extent restCode =
      index + extent conditionCode + 1 + extent blockCode + (extent restCode + 1) by omega]
    at restFollows
  exact follows_arm branches blockFollows exitHolds (Instruction.jumpTarget?_jump exitNear)
    restFollows

/-! ## Whole bodies -/

theorem Follows.block {nodes locks last} {scopes : ScopeChain} {inside}
    (read : Reads (.nodes nodes) (before.withScopes (scopes.enter locks)) inside)
    (follows : Follows meaning image (scopes.enter locks).lockDepth (.nodes nodes)
      (scopes.enter locks) inside.scopes index last) :
    Follows meaning image (locks + scopes.lockDepth) (.nodes nodes) scopes scopes index last := by
  have same : (scopes.enter locks).SameBlocks inside.scopes := read.sameBlocks
  rw [ScopeChain.lockDepth_enter] at follows
  exact follows.consequence (fun slot => ScopeChain.holds_enter_iff.mp) fun slot => same.holds

theorem Emits.follows {fragment} (emits : Emits fragment stock code finish)
    (read : Reads fragment.part before after)
    (prepared : Prepared before after.frame stock finish image.constants)
    (holds : image.Holds index code) :
    Follows meaning image before.scopes.lockDepth fragment before.scopes after.scopes index
      (index + extent code) := by
  induction emits generalizing before after index with
  | declaration stored => exact stored.follows_declaration read prepared holds
  | assignment stored => exact stored.follows_assignment read prepared holds
  | value loaded => cases loaded <;> cases read
  | memberAssignment object loaded =>
    exact loaded.follows_memberAssignment object read prepared holds
  | ret =>
    have .ret := read
    exact follows_ret holds
  | retValue loaded =>
    have .retValue returned := read
    exact loaded.follows_retValue returned prepared holds
  | conditional _ arms =>
    have .conditional chained := read
    exact follows_conditional (arms chained prepared holds)
  | loop tested repeatedEmitted backNear exitNear repeated =>
    cases read with
    | @loop _ _ _ _ middle _ testedRead blockRead =>
      have afterScopes : after.scopes = middle.scopes := blockRead.scopes_eq rfl
      have sameScopes : middle.scopes = before.scopes := testedRead.scopes_eq rfl
      obtain ⟨conditionHolds, testHolds, _⟩ := holds.loop
      have tests := tested.tests meaning testedRead
        (prepared.head blockRead.grows repeatedEmitted.grows) conditionHolds
      have .block inside := blockRead
      have body := repeated inside
        (prepared.tail ((testedRead.bounded prepared.bounded).enter 0) tested.grows) testHolds.tail
      -- Each iteration opens the scope of the body anew.
      have bodyFollows := Follows.block inside body
      rw [Nat.zero_add, sameScopes] at bodyFollows
      rw [afterScopes, sameScopes]
      exact follows_loopCode holds backNear exitNear tests bodyFollows
  | @sync locks _ _ _ _ code emitted guarded =>
    have .sync found _ _ blockRead := read
    have afterScopes : after.scopes = before.scopes := blockRead.scopes_eq rfl
    have .block inside := blockRead
    have body := guarded inside (prepared.tail (prepared.bounded.enter _) (.refl _))
      holds.left.right
    have visible : ∀ lock ∈ locks, before.scopes.Holds lock.slot := fun lock member =>
      ScopeChain.holds_of_lookup? (found lock member)
    have bodyFollows := Follows.block inside body
    have finishEq : index + extent (acquisitions locks ++ code ++
        [.syncRelease (UInt16.ofNat locks.length)]) =
        index + extent (acquisitions locks) + extent code + 1 := by
      rw [extent_append, extent_append, ← Nat.add_assoc, ← Nat.add_assoc]
      rfl
    have releaseHolds := holds.right
    rw [extent_append, ← Nat.add_assoc] at releaseHolds
    rw [afterScopes, finishEq]
    exact follows_sync visible holds.left.left bodyFollows releaseHolds
  | nil =>
    have .noNodes := read
    exact follows_nil
  | cons headEmitted tailEmitted head tail =>
    have .moreNodes headRead tailRead := read
    have headFollows := head headRead (prepared.head tailRead.grows tailEmitted.grows) holds.left
    have tailFollows := tail tailRead
      (prepared.tail (headRead.bounded prepared.bounded) headEmitted.grows) holds.right
    rw [headRead.sameBlocks.lockDepth_eq] at tailFollows
    rw [extent_append, ← Nat.add_assoc]
    exact follows_cons headFollows tailFollows
  | arm conditionLoaded blockEmitted restEmitted skipNear exitNear block rest =>
    cases read with
    | @arm _ _ _ _ _ middle late _ testedRead blockRead restRead =>
      have sameScopes : middle.scopes = before.scopes := testedRead.scopes_eq rfl
      have lateScopes : late.scopes = before.scopes := (blockRead.scopes_eq rfl).trans sameScopes
      have afterScopes : after.scopes = before.scopes := (restRead.scopes_eq rfl).trans lateScopes
      obtain ⟨conditionHolds, testHolds, exitHolds⟩ := holds.arm
      have latePrepared := prepared.head restRead.grows restEmitted.grows
      have testedBounded := testedRead.bounded prepared.bounded
      have tests := conditionLoaded.tests meaning testedRead
        (latePrepared.head blockRead.grows blockEmitted.grows) conditionHolds
      have restFollows := rest restRead (prepared.tail (blockRead.bounded testedBounded)
        (conditionLoaded.grows.trans blockEmitted.grows)) exitHolds.tail
      rw [lateScopes, afterScopes] at restFollows
      have .block inside := blockRead
      have body := block inside
        (latePrepared.tail (testedBounded.enter 0) conditionLoaded.grows) testHolds.tail
      have blockFollows := Follows.block inside body
      rw [Nat.zero_add, sameScopes] at blockFollows
      rw [afterScopes]
      exact follows_armCode holds skipNear exitNear tests blockFollows restFollows
  | alternative emitted taken =>
    have .alternative blockRead := read
    have afterScopes : after.scopes = before.scopes := blockRead.scopes_eq rfl
    have .block inside := blockRead
    have block := taken inside (prepared.tail (prepared.bounded.enter 0) (.refl _)) holds
    have blockFollows := Follows.block inside block
    rw [Nat.zero_add] at blockFollows
    rw [afterScopes]
    exact follows_alternative blockFollows
  | done =>
    have .noAlternative := read
    exact follows_noAlternative

end Simulation

end SlotCompiler
