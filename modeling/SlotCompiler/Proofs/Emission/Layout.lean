import SlotCompiler.Proofs.Emission.Code
import SlotCompiler.Proofs.Success

/-!
Contract: emission appends the words of the code that a part of the tree has.
-/

namespace SlotCompiler

open Emit CodeBuffer

variable {position : Position}

/-! ## Words of a buffer -/

namespace CodeBuffer

@[simp] theorem words_emit (buffer : CodeBuffer) (instruction : Instruction) :
    (buffer.emit instruction).words = buffer.words ++ instruction.words := by
  have pushed : ∀ (words : List Word) (start : CodeBuffer),
      (words.foldl push start).words = start.words ++ words := by
    intro words
    induction words with
    | nil => simp
    | cons word rest ih =>
      intro start
      rw [List.foldl_cons, ih]
      simp [push, CodeBuffer.words]
  exact pushed _ _

@[simp] theorem constants_emit (buffer : CodeBuffer) (instruction : Instruction) :
    (buffer.emit instruction).constants = buffer.constants := by
  have kept : ∀ (words : List Word) (start : CodeBuffer),
      (words.foldl push start).constants = start.constants := by
    intro words
    induction words with
    | nil => simp
    | cons word rest ih =>
      intro start
      rw [List.foldl_cons, ih]
      rfl
  exact kept _ _

@[simp] theorem length_words (buffer : CodeBuffer) : buffer.words.length = buffer.size := by
  simp [CodeBuffer.words, CodeBuffer.size]

end CodeBuffer

theorem modify_append_cons {α : Type} (before after : List α) (element : α) (change : α → α) :
    (before ++ element :: after).modify before.length change = before ++ change element :: after := by
  induction before with
  | nil => simp
  | cons head rest ih => simp [ih]

/-! ## Steps of emission -/

def Appends (code : List Instruction) (start finish : EmitState) : Prop :=
  finish.buffer.words = start.buffer.words ++ encode code

theorem Appends.refl (state : EmitState) : Appends [] state state := by
  simp [Appends]

theorem Appends.trans {first second start middle finish}
    (appendedFirst : Appends first start middle) (appendedSecond : Appends second middle finish) :
    Appends (first ++ second) start finish := by
  unfold Appends at *
  rw [appendedSecond, appendedFirst, encode_append, List.append_assoc]

theorem Appends.size_eq {code start finish} (appended : Appends code start finish) :
    finish.buffer.size = start.buffer.size + extent code := by
  rw [← length_words, appended, List.length_append, length_words, extent]

namespace Emit

variable {start finish : EmitState}

variable {given : Instruction} {index : Nat} {text : String}

theorem instruction_ok (ran : instruction given start = .ok () finish) :
    Appends [given] start finish ∧ finish.stock = start.stock := by
  cases ran
  constructor
  · simp [Appends]
  · simp [EmitState.stock]

theorem placeholder_ok (ran : placeholder given start = .ok index finish) :
    index = start.buffer.size ∧ Appends [given] start finish ∧ finish.stock = start.stock := by
  obtain ⟨found, state, hereRan, ran⟩ := bind_eq_ok_iff.mp ran
  cases hereRan
  obtain ⟨_, state, emitted, ran⟩ := bind_eq_ok_iff.mp ran
  cases ran
  exact ⟨rfl, instruction_ok emitted⟩

theorem temporary_ok {function type slot}
    (ran : temporary function type position start = .ok slot finish) :
    start.stock.temporary? type = some (slot, finish.stock) ∧ Appends [] start finish := by
  unfold temporary at ran
  rcases start with ⟨buffer, frame⟩
  simp only at ran
  split at ran
  · rename_i allocated
    cases ran
    constructor
    · simp [Stock.temporary?, EmitState.stock, allocated]
    · simp [Appends]
  · contradiction

theorem intern_ok {index} (ran : edit position (intern text) start = .ok index finish) :
    start.stock.intern? text = some (index, finish.stock) ∧ Appends [] start finish := by
  rcases start with ⟨⟨code, constants⟩, frame⟩
  simp only [edit, intern] at ran
  cases found : constants.findIdx? (· == text) with
  | some number =>
    simp only [found] at ran
    cases ran
    constructor
    · simp [Stock.intern?, EmitState.stock, found]
    · simp [Appends]
  | none =>
    simp only [found] at ran
    by_cases room : constants.size < constantCapacity
    · simp only [room, if_true] at ran
      cases ran
      constructor
      · simp [Stock.intern?, EmitState.stock, found, room]
      · simp [Appends, words]
    · simp only [room, if_false] at ran
      contradiction

theorem loadString_ok {dst} (ran : loadString text dst position start = .ok () finish) :
    ∃ index, start.stock.intern? text = some (index, finish.stock) ∧
      Appends [.loadConstant dst index] start finish := by
  obtain ⟨index, state, interned, ran⟩ := bind_eq_ok_iff.mp ran
  obtain ⟨found, nothing⟩ := intern_ok interned
  obtain ⟨appended, kept⟩ := instruction_ok ran
  refine ⟨index, ?_, nothing.trans appended⟩
  rw [found, kept]

private theorem jumpOffset_ok {distance offset} (fits : jumpOffset distance = .ok offset) :
    distance < jumpReach ∧ offset = Int32.ofNat distance := by
  unfold jumpOffset at fits
  split at fits
  · rename_i near
    cases fits
    exact ⟨near, rfl⟩
  · contradiction

theorem landJump_ok (ran : edit position (landJump index) start = .ok () finish) :
    start.buffer.size - index < jumpReach ∧ finish.stock = start.stock ∧
      finish.buffer.words = start.buffer.words.modify index fun word =>
        word.redirect (Int32.ofNat (start.buffer.size - index)) := by
  rcases start with ⟨buffer, frame⟩
  simp only [edit, landJump] at ran
  cases offsetFits : jumpOffset (buffer.size - index) with
  | ok offset =>
    simp only [offsetFits] at ran
    cases ran
    obtain ⟨near, offsetEq⟩ := jumpOffset_ok offsetFits
    refine ⟨near, rfl, ?_⟩
    simp [words, offsetEq]
  | error fault =>
    simp only [offsetFits] at ran
    contradiction

theorem jumpBack_ok {target} (ran : edit position (jumpBack target) start = .ok () finish) :
    start.buffer.size - target < jumpReach ∧ finish.stock = start.stock ∧
      Appends [.jump (-Int32.ofNat (start.buffer.size - target))] start finish := by
  rcases start with ⟨buffer, frame⟩
  simp only [edit, jumpBack] at ran
  cases offsetFits : jumpOffset (buffer.size - target) with
  | ok offset =>
    simp only [offsetFits] at ran
    cases ran
    obtain ⟨near, offsetEq⟩ := jumpOffset_ok offsetFits
    refine ⟨near, ?_, ?_⟩
    · simp [EmitState.stock]
    · simp [Appends, offsetEq]
  | error fault =>
    simp only [offsetFits] at ran
    contradiction

theorem acquire_ok {locks} (ran : acquire locks start = .ok () finish) :
    Appends (acquisitions locks) start finish ∧ finish.stock = start.stock := by
  induction locks generalizing start with
  | nil =>
    obtain ⟨_, rfl⟩ := pure_eq_ok_iff.mp ran
    exact ⟨Appends.refl start, rfl⟩
  | cons lock rest ih =>
    obtain ⟨_, state, emitted, ran⟩ := bind_eq_ok_iff.mp ran
    obtain ⟨appended, kept⟩ := instruction_ok emitted
    obtain ⟨appendedRest, keptRest⟩ := ih ran
    exact ⟨appended.trans appendedRest, keptRest.trans kept⟩

theorem fieldNumber_ok {field? number}
    (ran : fieldNumber field? position start = .ok number finish) :
    field? = some number ∧ start = finish := by
  cases field? with
  | some found =>
    cases ran
    exact ⟨rfl, rfl⟩
  | none => contradiction

theorem projections_ok {object steps} (ran : projections object steps start = .ok () finish) :
    ∃ code, memberLoads? object steps = some code ∧ Appends code start finish ∧
      finish.stock = start.stock := by
  induction steps generalizing object start with
  | nil =>
    obtain ⟨_, rfl⟩ := pure_eq_ok_iff.mp ran
    exact ⟨[], rfl, Appends.refl start, rfl⟩
  | cons step rest ih =>
    obtain ⟨number, state, numbered, ran⟩ := bind_eq_ok_iff.mp ran
    obtain ⟨known, rfl⟩ := fieldNumber_ok numbered
    obtain ⟨_, state, emitted, ran⟩ := bind_eq_ok_iff.mp ran
    obtain ⟨appended, kept⟩ := instruction_ok emitted
    obtain ⟨code, loaded, appendedRest, keptRest⟩ := ih ran
    refine ⟨.memberLoad step.destination object number :: code, ?_, ?_, keptRest.trans kept⟩
    · simp [memberLoads?, known, loaded]
    · exact appended.trans appendedRest

theorem ret_eq (src? : Option Slot) (locks : Nat) :
    ret src? locks = (do
      if 0 < locks then
        instruction (.syncRelease (UInt16.ofNat locks))
      instruction (src?.elim .ret .retValue)) := by
  cases src? <;> rfl

theorem ret_ok {src? locks} (ran : ret src? locks start = .ok () finish) :
    Appends (releases locks ++ [src?.elim .ret .retValue]) start finish ∧
      finish.stock = start.stock := by
  rw [ret_eq] at ran
  by_cases held : 0 < locks
  · simp only [held, if_true] at ran
    obtain ⟨_, state, released, returned⟩ := bind_eq_ok_iff.mp ran
    obtain ⟨appended, kept⟩ := instruction_ok released
    obtain ⟨appendedRest, keptRest⟩ := instruction_ok returned
    simp only [releases, held, if_true]
    exact ⟨appended.trans appendedRest, keptRest.trans kept⟩
  · simp only [held, if_false] at ran
    simp only [releases, held, if_false, List.nil_append]
    exact instruction_ok ran

end Emit

/-! ## Conditionals and loops -/

/-- An arm of a conditional whose end jump does not point anywhere yet. -/
structure OpenArm where
  slot : Slot
  condition : List Instruction
  block : List Instruction

namespace OpenArm

def head (arm : OpenArm) : List Instruction :=
  arm.condition ++ .jumpIfFalse arm.slot (Int32.ofNat (extent arm.block + 2)) :: arm.block

def openCode (arms : List OpenArm) : List Instruction :=
  arms.flatMap fun arm => arm.head ++ [.jump 0]

def closedCode : List OpenArm → List Instruction → List Instruction
  | [], alternative => alternative
  | arm :: rest, alternative =>
    armCode arm.slot arm.condition arm.block (closedCode rest alternative)

def exits : Nat → List OpenArm → List Nat
  | _, [] => []
  | base, arm :: rest => (base + extent arm.head) :: exits (base + extent arm.head + 1) rest

def ExitsNear : List OpenArm → List Instruction → Prop
  | [], _ => True
  | _ :: rest, alternative =>
    extent (closedCode rest alternative) + 1 < jumpReach ∧ ExitsNear rest alternative

@[simp] theorem openCode_nil : openCode [] = [] := rfl

@[simp] theorem openCode_cons (arm : OpenArm) (rest : List OpenArm) :
    openCode (arm :: rest) = arm.head ++ .jump 0 :: openCode rest := by
  simp [openCode]

theorem closedCode_cons (arm : OpenArm) (rest : List OpenArm) (alternative : List Instruction) :
    closedCode (arm :: rest) alternative =
      arm.head ++ .jump (Int32.ofNat (extent (closedCode rest alternative) + 1)) ::
        closedCode rest alternative := by
  simp [closedCode, armCode, head]

theorem extent_closedCode (arms : List OpenArm) (alternative : List Instruction) :
    extent (closedCode arms alternative) = extent (openCode arms) + extent alternative := by
  induction arms with
  | nil => simp [closedCode]
  | cons arm rest ih =>
    rw [closedCode_cons, openCode_cons]
    simp only [extent_append, extent_cons, Instruction.width_jump]
    omega

end OpenArm

namespace Emit

variable {start finish : EmitState}

variable {condition : Emit Slot}

/-- A conditional jump is landed behind the body that it skips and the jump after it. -/
theorem landSkip_ok {slot skip offset tested entered taken closed conditionCode bodyCode}
    (conditionAppended : Appends conditionCode start tested) (skipEq : skip = tested.buffer.size)
    (skipAppended : Appends [.jumpIfFalse slot 0] tested entered)
    (bodyAppended : Appends bodyCode entered taken)
    (jumpAppended : Appends [.jump offset] taken closed)
    (landRan : edit position (landJump skip) closed = .ok () finish) :
    Appends ((OpenArm.mk slot conditionCode bodyCode).head ++ [.jump offset]) start finish ∧
      extent bodyCode + 2 < jumpReach := by
  obtain ⟨near, _, landed⟩ := landJump_ok landRan
  have distance : closed.buffer.size - skip = extent bodyCode + 2 := by
    rw [jumpAppended.size_eq, bodyAppended.size_eq, skipAppended.size_eq, skipEq]
    simp only [extent_cons, extent_nil, Instruction.width_jump, Instruction.width_jumpIfFalse]
    omega
  have opened : closed.buffer.words =
      (start.buffer.words ++ encode conditionCode) ++
        Word.jumpIfFalse slot 0 :: (encode bodyCode ++ [Word.jump offset]) := by
    rw [jumpAppended, bodyAppended, skipAppended, conditionAppended]
    simp [Instruction.words]
  have skipIndex : skip = (start.buffer.words ++ encode conditionCode).length := by
    rw [skipEq, conditionAppended.size_eq, List.length_append, length_words, extent]
  rw [distance] at near landed
  refine ⟨?_, near⟩
  unfold Appends
  rw [landed, opened, skipIndex, modify_append_cons]
  simp [OpenArm.head, Instruction.words, Word.jumpIfFalse, Word.redirect_offsetForm]

theorem arm_ok {block exit} (ran : arm position condition block start = .ok exit finish) :
    ∃ slot tested entered taken,
      condition start = .ok slot tested ∧ block entered = .ok () taken ∧
      Appends [.jumpIfFalse slot 0] tested entered ∧
      entered.stock = tested.stock ∧ finish.stock = taken.stock ∧
      ∀ {conditionCode blockCode},
        Appends conditionCode start tested → Appends blockCode entered taken →
        Appends ((OpenArm.mk slot conditionCode blockCode).head ++ [.jump 0]) start finish ∧
          exit = start.buffer.size + extent (OpenArm.mk slot conditionCode blockCode).head ∧
          extent blockCode + 2 < jumpReach := by
  obtain ⟨slot, tested, conditionRan, ran⟩ := bind_eq_ok_iff.mp ran
  obtain ⟨skip, entered, skipRan, ran⟩ := bind_eq_ok_iff.mp ran
  obtain ⟨_, taken, blockRan, ran⟩ := bind_eq_ok_iff.mp ran
  obtain ⟨last, closed, exitRan, ran⟩ := bind_eq_ok_iff.mp ran
  obtain ⟨_, landed, landRan, ran⟩ := bind_eq_ok_iff.mp ran
  cases ran
  obtain ⟨skipEq, skipAppended, skipKept⟩ := placeholder_ok skipRan
  obtain ⟨exitEq, exitAppended, exitKept⟩ := placeholder_ok exitRan
  refine ⟨slot, tested, entered, taken, conditionRan, blockRan, skipAppended, skipKept,
    (landJump_ok landRan).2.1.trans exitKept, ?_⟩
  intro conditionCode blockCode conditionAppended blockAppended
  obtain ⟨appended, near⟩ :=
    landSkip_ok conditionAppended skipEq skipAppended blockAppended exitAppended landRan
  refine ⟨appended, ?_, near⟩
  rw [exitEq, blockAppended.size_eq, skipAppended.size_eq, conditionAppended.size_eq]
  simp only [OpenArm.head, extent_append, extent_cons, extent_nil, Instruction.width_jumpIfFalse]
  omega

theorem loop_ok {body} (ran : loop position condition body start = .ok () finish) :
    ∃ slot tested entered taken,
      condition start = .ok slot tested ∧ body entered = .ok () taken ∧
      Appends [.jumpIfFalse slot 0] tested entered ∧
      entered.stock = tested.stock ∧ finish.stock = taken.stock ∧
      ∀ {conditionCode bodyCode},
        Appends conditionCode start tested → Appends bodyCode entered taken →
        Appends (loopCode slot conditionCode bodyCode) start finish ∧
          extent conditionCode + 1 + extent bodyCode < jumpReach ∧
          extent bodyCode + 2 < jumpReach := by
  obtain ⟨first, state, hereRan, ran⟩ := bind_eq_ok_iff.mp ran
  cases hereRan
  obtain ⟨slot, tested, conditionRan, ran⟩ := bind_eq_ok_iff.mp ran
  obtain ⟨exit, entered, exitRan, ran⟩ := bind_eq_ok_iff.mp ran
  obtain ⟨_, taken, bodyRan, ran⟩ := bind_eq_ok_iff.mp ran
  obtain ⟨_, closed, backRan, landRan⟩ := bind_eq_ok_iff.mp ran
  obtain ⟨exitEq, exitAppended, exitKept⟩ := placeholder_ok exitRan
  obtain ⟨backNear, backKept, backAppended⟩ := jumpBack_ok backRan
  refine ⟨slot, tested, entered, taken, conditionRan, bodyRan, exitAppended, exitKept,
    (landJump_ok landRan).2.1.trans backKept, ?_⟩
  intro conditionCode bodyCode conditionAppended bodyAppended
  have backDistance : taken.buffer.size - start.buffer.size =
      extent conditionCode + 1 + extent bodyCode := by
    rw [bodyAppended.size_eq, exitAppended.size_eq, conditionAppended.size_eq]
    simp only [extent_cons, extent_nil, Instruction.width_jumpIfFalse]
    omega
  rw [backDistance] at backNear backAppended
  obtain ⟨appended, exitNear⟩ :=
    landSkip_ok conditionAppended exitEq exitAppended bodyAppended backAppended landRan
  exact ⟨appended, backNear, exitNear⟩

theorem conditional_ok {conditions blocks}
    (ran : conditional position conditions blocks start = .ok () finish) :
    ∃ exits state middle, arms position #[] (conditions.zip blocks) start = .ok exits state ∧
      blocks[conditions.length]?.getD (pure ()) state = .ok () middle ∧
      landAll position exits.toList middle = .ok () finish := by
  obtain ⟨exits, state, armsRan, ran⟩ := bind_eq_ok_iff.mp ran
  refine ⟨exits, state, ?_⟩
  cases found : blocks[conditions.length]? with
  | some alternative =>
    simp only [found] at ran
    obtain ⟨_, middle, alternativeRan, landRan⟩ := bind_eq_ok_iff.mp ran
    exact ⟨middle, armsRan, alternativeRan, landRan⟩
  | none =>
    simp only [found] at ran
    exact ⟨state, armsRan, rfl, ran⟩

theorem landAll_ok {arms alternative} {before : List Word}
    (ran : landAll position (OpenArm.exits before.length arms) start = .ok () finish)
    (opened : start.buffer.words = before ++ encode (OpenArm.openCode arms ++ alternative)) :
    finish.buffer.words = before ++ encode (OpenArm.closedCode arms alternative) ∧
      OpenArm.ExitsNear arms alternative ∧ finish.stock = start.stock := by
  induction arms generalizing before start with
  | nil =>
    cases ran
    exact ⟨opened, trivial, rfl⟩
  | cons arm rest ih =>
    rw [OpenArm.exits, landAll] at ran
    obtain ⟨_, state, landRan, restRan⟩ := bind_eq_ok_iff.mp ran
    obtain ⟨near, kept, landed⟩ := landJump_ok landRan
    -- The words are cut at the jump, so that landing it is a change in the middle.
    have cut : start.buffer.words =
        (before ++ encode arm.head) ++
          Word.jump 0 :: encode (OpenArm.openCode rest ++ alternative) := by
      rw [opened]
      simp [Instruction.words]
    have index : before.length + extent arm.head = (before ++ encode arm.head).length := by
      rw [List.length_append, extent]
    have distance : start.buffer.size - (before.length + extent arm.head) =
        extent (OpenArm.closedCode rest alternative) + 1 := by
      rw [← length_words, cut, index, OpenArm.extent_closedCode, List.length_append]
      simp only [List.length_cons, encode_append, List.length_append, extent]
      omega
    rw [distance] at near landed
    rw [index, cut, modify_append_cons] at landed
    let jumped := before ++ encode arm.head ++
      [Word.jump (Int32.ofNat (extent (OpenArm.closedCode rest alternative) + 1))]
    have jumpedLength : before.length + extent arm.head + 1 = jumped.length := by
      simp [jumped, extent]
      omega
    rw [jumpedLength] at restRan
    have reopened : state.buffer.words =
        jumped ++ encode (OpenArm.openCode rest ++ alternative) := by
      rw [landed]
      simp [jumped, Word.jump, Word.redirect_offsetForm]
    obtain ⟨closed, restNear, restKept⟩ := ih restRan reopened
    refine ⟨?_, ⟨near, restNear⟩, restKept.trans kept⟩
    rw [closed, OpenArm.closedCode_cons]
    simp [jumped, Instruction.words]

theorem into_ok {operand dst source} (loads : ∀ {slot state}, source start = .ok slot state →
      ∃ code, Loads operand slot start.stock code state.stock ∧ Appends code start state)
    (ran : into operand dst position source start = .ok () finish) :
    ∃ code, Stores operand dst start.stock code finish.stock ∧ Appends code start finish := by
  have moves (computed : operand.isLiteral = false)
      (movedRan : (do
          let src ← source
          if src = dst then return () else instruction (.move dst src)) start =
        .ok () finish) :
      ∃ code, Stores operand dst start.stock code finish.stock ∧ Appends code start finish := by
    obtain ⟨src, state, sourceRan, ran⟩ := bind_eq_ok_iff.mp movedRan
    obtain ⟨code, loaded, appended⟩ := loads sourceRan
    by_cases same : src = dst
    · simp only [same, if_true] at ran
      cases ran
      rw [same] at loaded
      exact ⟨code, .kept computed loaded, appended⟩
    · simp only [same, if_false] at ran
      obtain ⟨movedAppended, kept⟩ := instruction_ok ran
      refine ⟨code ++ [.move dst src], ?_, appended.trans movedAppended⟩
      rw [kept]
      exact .moved computed loaded same
  cases operand with
  | literal value =>
    obtain ⟨appended, kept⟩ := instruction_ok ran
    refine ⟨[.loadImmediate dst value], ?_, appended⟩
    rw [kept]
    exact .literal
  | string text =>
    obtain ⟨index, interned, appended⟩ := loadString_ok ran
    exact ⟨[.loadConstant dst index], .string interned, appended⟩
  | _ => exact moves rfl ran

end Emit

/-! ## The whole tree -/

theorem loaders_length (function : String) (position : Position) (conditions : List Operand) :
    (loaders function position conditions).length = conditions.length := by
  induction conditions with
  | nil => rfl
  | cons condition rest ih => simp [loaders, ih]

private theorem loads_of_emits {node slot stock finish code}
    (emitted : Emits (.node node) stock code finish)
    (valued : node.valueSlot? = some slot) : Loads (.node node) slot stock code finish := by
  cases emitted with
  | value loaded =>
    cases loaded with
    | access chainLoaded =>
      cases valued
      exact .access chainLoaded
    | binary leftLoaded rightLoaded =>
      cases valued
      exact .binary leftLoaded rightLoaded
  | _ => contradiction

mutual

theorem Operand.load_ok (function : String) {position start finish slot} : (operand : Operand) →
    operand.load function position start = .ok slot finish →
    ∃ code, Loads operand slot start.stock code finish.stock ∧ Appends code start finish
  | .variable given, ran => by
      rw [Operand.load] at ran
      obtain ⟨rfl, rfl⟩ := pure_eq_ok_iff.mp ran
      exact ⟨[], .held, Appends.refl start⟩
  | .literal value, ran => by
      rw [Operand.load] at ran
      obtain ⟨given, state, allocatedRan, ran⟩ := bind_eq_ok_iff.mp ran
      obtain ⟨_, loaded, loadedRan, ran⟩ := bind_eq_ok_iff.mp ran
      obtain ⟨rfl, rfl⟩ := pure_eq_ok_iff.mp ran
      obtain ⟨allocated, nothing⟩ := temporary_ok allocatedRan
      obtain ⟨appended, kept⟩ := instruction_ok loadedRan
      refine ⟨[.loadImmediate given value], ?_, nothing.trans appended⟩
      rw [kept]
      exact .literal allocated
  | .string text, ran => by
      rw [Operand.load] at ran
      obtain ⟨given, state, allocatedRan, ran⟩ := bind_eq_ok_iff.mp ran
      obtain ⟨_, loaded, loadedRan, ran⟩ := bind_eq_ok_iff.mp ran
      obtain ⟨rfl, rfl⟩ := pure_eq_ok_iff.mp ran
      obtain ⟨allocated, nothing⟩ := temporary_ok allocatedRan
      obtain ⟨index, interned, appended⟩ := loadString_ok loadedRan
      exact ⟨[.loadConstant given index], .string allocated interned, nothing.trans appended⟩
  | .node node, ran => by
      rw [Operand.load] at ran
      obtain ⟨_, state, emittedRan, ran⟩ := bind_eq_ok_iff.mp ran
      obtain ⟨code, emitted, appended⟩ := Node.emit_ok function node emittedRan
      cases valued : node.valueSlot? with
      | none =>
        simp only [valued] at ran
        contradiction
      | some found =>
        simp only [valued] at ran
        obtain ⟨rfl, rfl⟩ := pure_eq_ok_iff.mp ran
        exact ⟨code, loads_of_emits emitted valued, appended⟩
  | .call invoked, ran => by
      rw [Operand.load] at ran
      contradiction
termination_by operand _ => sizeOf operand

theorem Node.emit_ok (function : String) {start finish} : (node : Node) →
    node.emit function start = .ok () finish →
    ∃ code, Emits (.node node) start.stock code finish.stock ∧ Appends code start finish
  | .declaration name slot isMutable declared? value position, ran => by
      rw [Node.emit] at ran
      obtain ⟨code, stored, appended⟩ :=
        into_ok (fun loadRan => Operand.load_ok function value loadRan) ran
      exact ⟨code, .declaration stored, appended⟩
  | .assignment slot value position, ran => by
      rw [Node.emit] at ran
      obtain ⟨code, stored, appended⟩ :=
        into_ok (fun loadRan => Operand.load_ok function value loadRan) ran
      exact ⟨code, .assignment stored, appended⟩
  | .access chain, ran => by
      rw [Node.emit] at ran
      obtain ⟨code, loaded, appended, kept⟩ := projections_ok ran
      refine ⟨code, ?_, appended⟩
      rw [kept]
      exact .value (.access loaded)
  | .memberAssignment target member field? value position, ran => by
      rw [Node.emit] at ran
      obtain ⟨_, state, objectRan, ran⟩ := bind_eq_ok_iff.mp ran
      obtain ⟨src, loadedState, valueRan, ran⟩ := bind_eq_ok_iff.mp ran
      obtain ⟨number, numberedState, numberRan, ran⟩ := bind_eq_ok_iff.mp ran
      obtain ⟨objectCode, object, objectAppended, objectKept⟩ := projections_ok objectRan
      obtain ⟨valueCode, loaded, valueAppended⟩ := Operand.load_ok function value valueRan
      obtain ⟨known, rfl⟩ := fieldNumber_ok numberRan
      obtain ⟨storeAppended, storeKept⟩ := instruction_ok ran
      refine ⟨objectCode ++ valueCode ++ [.memberStore target.valueSlot number src], ?_,
        (objectAppended.trans valueAppended).trans storeAppended⟩
      rw [objectKept] at loaded
      rw [storeKept, known]
      exact .memberAssignment object loaded
  | .ret none locks position, ran => by
      rw [Node.emit] at ran
      obtain ⟨appended, kept⟩ := ret_ok ran
      refine ⟨_, ?_, appended⟩
      rw [kept]
      exact .ret
  | .ret (some value) locks position, ran => by
      rw [Node.emit] at ran
      obtain ⟨src, state, valueRan, ran⟩ := bind_eq_ok_iff.mp ran
      obtain ⟨code, loaded, valueAppended⟩ := Operand.load_ok function value valueRan
      obtain ⟨appended, kept⟩ := ret_ok ran
      refine ⟨code ++ releases locks ++ [.retValue src], ?_, ?_⟩
      · rw [kept]
        exact .retValue loaded
      · rw [List.append_assoc]
        exact valueAppended.trans appended
  | .binary operator lhs rhs destination position, ran => by
      rw [Node.emit] at ran
      obtain ⟨left, leftState, leftRan, ran⟩ := bind_eq_ok_iff.mp ran
      obtain ⟨right, rightState, rightRan, ran⟩ := bind_eq_ok_iff.mp ran
      obtain ⟨leftCode, leftLoaded, leftAppended⟩ := Operand.load_ok function lhs leftRan
      obtain ⟨rightCode, rightLoaded, rightAppended⟩ := Operand.load_ok function rhs rightRan
      obtain ⟨appended, kept⟩ := instruction_ok ran
      refine ⟨leftCode ++ rightCode ++ [.binary operator destination left right], ?_,
        (leftAppended.trans rightAppended).trans appended⟩
      rw [kept]
      exact .value (.binary leftLoaded rightLoaded)
  | .call invoked, ran => by
      rw [Node.emit] at ran
      contradiction
  | .conditional conditions blocks position, ran => by
      rw [Node.emit] at ran
      obtain ⟨exits, state, middle, armsRan, alternativeRan, landRan⟩ := conditional_ok ran
      rw [loaders_length] at alternativeRan
      obtain ⟨arms, alternative, exitsEq, opened, emitted⟩ :=
        arms_ok function conditions blocks armsRan alternativeRan
      rw [exitsEq, List.nil_append, ← length_words] at landRan
      obtain ⟨closed, near, kept⟩ := landAll_ok landRan opened
      refine ⟨OpenArm.closedCode arms alternative, ?_, closed⟩
      rw [kept]
      exact .conditional (emitted near)
  | .loop condition body position, ran => by
      rw [Node.emit] at ran
      obtain ⟨slot, tested, entered, taken, conditionRan, bodyRan, _, enteredKept, takenKept,
        layout⟩ := loop_ok ran
      obtain ⟨conditionCode, conditionLoaded, conditionAppended⟩ :=
        Operand.load_ok function condition conditionRan
      obtain ⟨bodyCode, bodyEmitted, bodyAppended⟩ := emitNodes_ok function body bodyRan
      obtain ⟨appended, backNear, exitNear⟩ := layout conditionAppended bodyAppended
      refine ⟨loopCode slot conditionCode bodyCode, ?_, appended⟩
      rw [enteredKept] at bodyEmitted
      rw [takenKept]
      exact .loop conditionLoaded bodyEmitted backNear exitNear
  | .sync locks body position, ran => by
      rw [Node.emit] at ran
      obtain ⟨_, state, acquireRan, ran⟩ := bind_eq_ok_iff.mp ran
      obtain ⟨_, guarded, bodyRan, ran⟩ := bind_eq_ok_iff.mp ran
      obtain ⟨acquired, acquireKept⟩ := acquire_ok acquireRan
      obtain ⟨code, emitted, appended⟩ := emitNodes_ok function body bodyRan
      obtain ⟨released, releaseKept⟩ := instruction_ok ran
      refine ⟨acquisitions locks ++ code ++ [.syncRelease (UInt16.ofNat locks.length)], ?_,
        (acquired.trans appended).trans released⟩
      rw [acquireKept] at emitted
      rw [releaseKept]
      exact .sync emitted
termination_by node _ => sizeOf node

theorem emitNodes_ok (function : String) {start finish} : (nodes : List Node) →
    emitNodes function nodes start = .ok () finish →
    ∃ code, Emits (.nodes nodes) start.stock code finish.stock ∧ Appends code start finish
  | [], ran => by
      rw [emitNodes] at ran
      cases ran
      exact ⟨[], .nil, Appends.refl start⟩
  | node :: rest, ran => by
      rw [emitNodes] at ran
      obtain ⟨_, state, nodeRan, restRan⟩ := bind_eq_ok_iff.mp ran
      obtain ⟨first, head, headAppended⟩ := Node.emit_ok function node nodeRan
      obtain ⟨second, tail, tailAppended⟩ := emitNodes_ok function rest restRan
      exact ⟨first ++ second, .cons head tail, headAppended.trans tailAppended⟩
termination_by nodes _ => sizeOf nodes

theorem arms_ok (function : String) {position exits last start middle finish} :
    (conditions : List Operand) →
    (blocks : List (List Node)) →
    arms position exits
        ((loaders function position conditions).zip (blockEmitters function blocks)) start =
      .ok last middle →
    (blockEmitters function blocks)[conditions.length]?.getD (pure ()) middle = .ok () finish →
    ∃ arms alternative,
      last.toList = exits.toList ++ OpenArm.exits start.buffer.size arms ∧
      Appends (OpenArm.openCode arms ++ alternative) start finish ∧
      (OpenArm.ExitsNear arms alternative →
        Emits (.arms conditions blocks) start.stock (OpenArm.closedCode arms alternative)
          finish.stock)
  | [], [], armsRan, alternativeRan => by
      cases armsRan
      cases alternativeRan
      exact ⟨[], [], by simp [OpenArm.exits], Appends.refl start, fun _ => .done⟩
  | [], block :: others, armsRan, alternativeRan => by
      cases armsRan
      obtain ⟨code, emitted, appended⟩ := emitNodes_ok function block alternativeRan
      exact ⟨[], code, by simp [OpenArm.exits], appended, fun _ => .alternative emitted⟩
  | condition :: conditions, [], armsRan, alternativeRan => by
      cases armsRan
      cases alternativeRan
      exact ⟨[], [], by simp [OpenArm.exits], Appends.refl start, fun _ => .done⟩
  | condition :: conditions, block :: blocks, armsRan, alternativeRan => by
      rw [loaders, blockEmitters, List.zip_cons_cons, arms] at armsRan
      obtain ⟨exit, state, armRan, armsRan⟩ := bind_eq_ok_iff.mp armsRan
      obtain ⟨slot, tested, entered, taken, conditionRan, blockRan, _, enteredKept, takenKept,
        layout⟩ := arm_ok armRan
      obtain ⟨conditionCode, conditionLoaded, conditionAppended⟩ :=
        Operand.load_ok function condition conditionRan
      obtain ⟨blockCode, blockEmitted, blockAppended⟩ := emitNodes_ok function block blockRan
      obtain ⟨appended, exitIndex, skipNear⟩ := layout conditionAppended blockAppended
      obtain ⟨arms, alternative, lastEq, restAppended, restEmitted⟩ :=
        arms_ok function conditions blocks armsRan alternativeRan
      refine ⟨⟨slot, conditionCode, blockCode⟩ :: arms, alternative, ?_, ?_, ?_⟩
      · rw [lastEq, Array.toList_push, List.append_assoc, appended.size_eq, exitIndex]
        simp [OpenArm.exits, Nat.add_assoc]
      · have joined := appended.trans restAppended
        simpa using joined
      · rintro ⟨exitNear, restNear⟩
        have restCode := restEmitted restNear
        rw [takenKept] at restCode
        rw [enteredKept] at blockEmitted
        exact .arm conditionLoaded blockEmitted restCode skipNear exitNear
termination_by conditions blocks _ _ => sizeOf conditions + sizeOf blocks

end

end SlotCompiler
