import SlotCompiler.Proofs.Emission.Code
import SlotCompiler.Proofs.Machine.Jumps

/-!
Contract: the jumps of emitted code.
-/

namespace SlotCompiler

variable {code : List Instruction} {slot : Slot} {stock finish : Stock}

/-! ## Plain code -/

theorem memberLoads?_computing {object steps} (loaded : memberLoads? object steps = some code) :
    ∀ instruction ∈ code, instruction.isComputing = true := by
  induction steps generalizing object code with
  | nil =>
    cases loaded
    exact fun instruction member => absurd member List.not_mem_nil
  | cons step rest ih =>
    obtain ⟨field, others, _, restLoaded, rfl⟩ := memberLoads?_cons loaded
    exact List.forall_mem_cons.mpr ⟨rfl, ih restLoaded⟩

theorem Loads.computing {value} (loads : Loads value slot stock code finish) :
    ∀ instruction ∈ code, instruction.isComputing = true := by
  induction loads with
  | held => exact fun instruction member => absurd member List.not_mem_nil
  | literal | string => exact List.forall_mem_singleton.mpr rfl
  | access loaded => exact memberLoads?_computing loaded
  | binary _ _ left right =>
    exact List.forall_mem_append.mpr
      ⟨List.forall_mem_append.mpr ⟨left, right⟩, List.forall_mem_singleton.mpr rfl⟩

theorem Stores.computing {value dst} (stores : Stores value dst stock code finish) :
    ∀ instruction ∈ code, instruction.isComputing = true := by
  cases stores with
  | literal | string => exact List.forall_mem_singleton.mpr rfl
  | kept _ loaded => exact loaded.computing
  | moved _ loaded =>
    exact List.forall_mem_append.mpr ⟨loaded.computing, List.forall_mem_singleton.mpr rfl⟩

theorem plain_of_computing (computing : ∀ instruction ∈ code, instruction.isComputing = true) :
    ∀ instruction ∈ code, instruction.isPlain = true :=
  fun instruction member => Instruction.isPlain_of_isComputing (computing instruction member)

theorem Loads.plain {value slot stock finish code} (loads : Loads value slot stock code finish) :
    ∀ instruction ∈ code, instruction.isPlain = true :=
  plain_of_computing loads.computing

theorem releases_plain (locks : Nat) :
    ∀ instruction ∈ releases locks, instruction.isPlain = true := by
  unfold releases
  split
  · exact List.forall_mem_singleton.mpr rfl
  · exact fun instruction member => absurd member List.not_mem_nil

theorem acquisitions_plain (locks : List Lock) :
    ∀ instruction ∈ acquisitions locks, instruction.isPlain = true := by
  intro instruction member
  obtain ⟨lock, _, rfl⟩ := List.mem_map.mp member
  rfl

/-! ## Jumps -/

theorem jumpsLand_loopCode {condition body} (conditionLands : JumpsLand condition)
    (bodyLands : JumpsLand body) (backNear : extent condition + 1 + extent body < jumpReach)
    (exitNear : extent body + 2 < jumpReach) : JumpsLand (loopCode slot condition body) := by
  have conditionIn : AllLandIn (loopCode slot condition body) 0 condition := by
    have embedded := conditionLands.embed [] (.jumpIfFalse slot (Int32.ofNat (extent body + 2)) ::
      body ++ [.jump (-Int32.ofNat (extent condition + 1 + extent body))])
    simpa only [List.nil_append, extent_nil, loopCode, List.append_assoc, List.cons_append]
      using embedded
  have bodyIn : AllLandIn (loopCode slot condition body) (extent condition + 1) body := by
    have embedded := bodyLands.embed
      (condition ++ [.jumpIfFalse slot (Int32.ofNat (extent body + 2))])
      [.jump (-Int32.ofNat (extent condition + 1 + extent body))]
    simpa only [extent_append, extent_cons, extent_nil, Instruction.width_jumpIfFalse,
      Nat.add_zero, loopCode, List.append_assoc, List.cons_append, List.nil_append]
      using embedded
  have exitLands : LandsIn (loopCode slot condition body)
      (extent condition, .jumpIfFalse slot (Int32.ofNat (extent body + 2))) := by
    intro _ base
    refine ⟨extent condition + (extent body + 2), ?_, extent_loopCode .. ▸ boundary_end _⟩
    rw [← Nat.add_assoc]
    exact Instruction.jumpTarget?_jumpIfFalse exitNear
  have backLands : LandsIn (loopCode slot condition body)
      (extent condition + 1 + extent body,
        .jump (-Int32.ofNat (extent condition + 1 + extent body))) := by
    intro _ base
    exact ⟨0, Instruction.jumpTarget?_jump_back backNear, boundary_start _⟩
  unfold JumpsLand
  nth_rewrite 2 [loopCode]
  rw [List.append_assoc, allLandIn_append, List.cons_append, allLandIn_cons, allLandIn_append,
    allLandIn_cons, Nat.zero_add, Instruction.width_jumpIfFalse]
  exact ⟨conditionIn, exitLands, bodyIn, backLands,
    fun placement member => absurd member List.not_mem_nil⟩

theorem jumpsLand_armCode {condition block rest}
    (conditionLands : JumpsLand condition) (blockLands : JumpsLand block)
    (restLands : JumpsLand rest) (skipNear : extent block + 2 < jumpReach)
    (exitNear : extent rest + 1 < jumpReach) : JumpsLand (armCode slot condition block rest) := by
  let test : Instruction := .jumpIfFalse slot (Int32.ofNat (extent block + 2))
  let exit : Instruction := .jump (Int32.ofNat (extent rest + 1))
  have conditionIn : AllLandIn (armCode slot condition block rest) 0 condition := by
    have embedded := conditionLands.embed [] (test :: block ++ exit :: rest)
    simpa only [List.nil_append, extent_nil, armCode, List.append_assoc, List.cons_append]
      using embedded
  have blockIn : AllLandIn (armCode slot condition block rest) (extent condition + 1) block := by
    have embedded := blockLands.embed (condition ++ [test]) (exit :: rest)
    simpa only [extent_append, extent_cons, extent_nil, Instruction.width_jumpIfFalse, test,
      Nat.add_zero, armCode, List.append_assoc, List.cons_append, List.nil_append] using embedded
  have restIn : AllLandIn (armCode slot condition block rest)
      (extent condition + 1 + extent block + 1) rest := by
    have embedded := restLands.embed (condition ++ [test] ++ block ++ [exit]) []
    simpa only [extent_append, extent_cons, extent_nil, Instruction.width_jumpIfFalse, test, exit,
      Instruction.width_jump, Nat.add_zero, Nat.add_assoc, armCode, List.append_assoc,
      List.cons_append, List.nil_append, List.append_nil] using embedded
  have restStarts : Boundary (armCode slot condition block rest)
      (extent condition + (extent block + 2)) := by
    refine ⟨condition ++ test :: block ++ [exit], rest, ?_, ?_⟩
    · simp only [armCode, test, exit, List.append_assoc, List.cons_append, List.nil_append]
    · simp only [extent_append, extent_cons, extent_nil, Instruction.width_jumpIfFalse, test, exit,
        Instruction.width_jump]
      omega
  have skipLands : LandsIn (armCode slot condition block rest) (extent condition, test) := by
    intro _ base
    refine ⟨_, ?_, restStarts⟩
    rw [← Nat.add_assoc]
    exact Instruction.jumpTarget?_jumpIfFalse skipNear
  have exitLands : LandsIn (armCode slot condition block rest)
      (extent condition + 1 + extent block, exit) := by
    intro _ base
    refine ⟨_, ?_, extent_armCode .. ▸ boundary_end _⟩
    rw [← Nat.add_assoc base (extent condition + 1 + extent block)]
    exact Instruction.jumpTarget?_jump exitNear
  unfold JumpsLand
  nth_rewrite 2 [armCode]
  rw [List.append_assoc, allLandIn_append, List.cons_append, allLandIn_cons, allLandIn_append,
    allLandIn_cons, Nat.zero_add, Instruction.width_jumpIfFalse, Instruction.width_jump]
  exact ⟨conditionIn, skipLands, blockIn, exitLands, restIn⟩

theorem Emits.jumpsLand {fragment} (emits : Emits fragment stock code finish) : JumpsLand code := by
  induction emits with
  | declaration stored => exact jumpsLand_of_plain (plain_of_computing stored.computing)
  | assignment stored => exact jumpsLand_of_plain (plain_of_computing stored.computing)
  | value loaded => exact jumpsLand_of_plain loaded.plain
  | memberAssignment object loaded =>
    refine JumpsLand.append (JumpsLand.append ?_ ?_) ?_
    · exact jumpsLand_of_plain (plain_of_computing (memberLoads?_computing object))
    · exact jumpsLand_of_plain loaded.plain
    · exact jumpsLand_of_straight (List.forall_mem_singleton.mpr rfl)
  | ret =>
    refine JumpsLand.append (jumpsLand_of_plain (releases_plain _)) ?_
    exact jumpsLand_of_straight (List.forall_mem_singleton.mpr rfl)
  | retValue loaded =>
    refine JumpsLand.append (JumpsLand.append ?_ ?_) ?_
    · exact jumpsLand_of_plain loaded.plain
    · exact jumpsLand_of_plain (releases_plain _)
    · exact jumpsLand_of_straight (List.forall_mem_singleton.mpr rfl)
  | conditional _ arms => exact arms
  | loop tested _ backNear exitNear repeated =>
    exact jumpsLand_loopCode (jumpsLand_of_plain tested.plain) repeated backNear exitNear
  | sync _ guarded =>
    refine JumpsLand.append (JumpsLand.append ?_ guarded) ?_
    · exact jumpsLand_of_plain (acquisitions_plain _)
    · exact jumpsLand_of_straight (List.forall_mem_singleton.mpr rfl)
  | nil | done => exact jumpsLand_of_straight fun _ member => absurd member List.not_mem_nil
  | cons _ _ head tail => exact head.append tail
  | arm conditionLoaded _ _ skipNear exitNear block rest =>
    exact jumpsLand_armCode (jumpsLand_of_plain conditionLoaded.plain) block rest skipNear exitNear
  | alternative _ taken => exact taken

end SlotCompiler
