import SlotCompiler.Proofs.Emission.Layout
import SlotCompiler.Proofs.Machine.Jumps

/-!
Contract: the words of a conditional and of a loop, jump by jump.

A forward jump is emitted before its target is known and redirected later.  The
statements here say that the words of conditions and blocks are left alone by
that.
-/

namespace SlotCompiler

variable {start finish : EmitState} {function : String} {position : Position}
  {conditions : List Operand} {blocks : List Block}

/-- Emission of a part that starts at an index, with the variables and constants
of `stock`, appends exactly `words` and gives `value`. -/
def EmittedAt {α : Type} (step : Emit α) (index : Nat) (stock : Stock) (value : α)
    (words : List Word) (rest : Stock) : Prop :=
  ∃ before after : EmitState, before.buffer.size = index ∧ before.stock = stock ∧
    step before = .ok value after ∧ after.buffer.words = before.buffer.words ++ words ∧
    after.stock = rest

/-- The words of a conditional whose first remaining arm starts at an index, where
`exit` is the index after the whole conditional. -/
inductive ConditionalWords (function : String) (position : Position) (exit : Nat) :
    List Operand → List Block → Nat → Stock → List Word → Stock → Prop where
  | arm {condition : Operand}
      {conditions block blocks index stock tested taken finish slot skip leave conditionWords
        blockWords restWords} (conditionEmitted :
        EmittedAt (condition.load function position) index stock slot conditionWords tested)
      (blockEmitted : EmittedAt (emitBlock function block) (index + conditionWords.length + 1)
        tested () blockWords taken)
      (skips : (Instruction.jumpIfFalse slot skip).jumpTarget? (index + conditionWords.length) =
        some (index + conditionWords.length + 1 + blockWords.length + 1))
      (leaves : (Instruction.jump leave).jumpTarget?
        (index + conditionWords.length + 1 + blockWords.length) = some exit)
      (rest : ConditionalWords function position exit conditions blocks
        (index + conditionWords.length + 1 + blockWords.length + 1) taken restWords finish) :
      ConditionalWords function position exit (condition :: conditions) (block :: blocks) index
        stock
        (conditionWords ++ [Word.jumpIfFalse slot skip] ++ blockWords ++ [Word.jump leave] ++
          restWords)
        finish
  | alternative {block index stock finish words}
      (blockEmitted : EmittedAt (emitBlock function block) index stock () words finish)
      (ends : exit = index + words.length) :
      ConditionalWords function position exit [] [block] index stock words finish
  | done {index stock} (ends : exit = index) :
      ConditionalWords function position exit [] [] index stock [] stock

/-- The words of a loop that starts at an index. -/
inductive LoopWords (function : String) (position : Position) (condition : Operand) (body : Block) :
    Nat → Stock → List Word → Stock → Prop where
  | intro {index stock tested finish slot leave back conditionWords bodyWords} (conditionEmitted :
        EmittedAt (condition.load function position) index stock slot conditionWords tested)
      (bodyEmitted : EmittedAt (emitBlock function body) (index + conditionWords.length + 1)
        tested () bodyWords finish)
      (leaves : (Instruction.jumpIfFalse slot leave).jumpTarget? (index + conditionWords.length) =
        some (index + conditionWords.length + 1 + bodyWords.length + 1))
      (repeats : (Instruction.jump back).jumpTarget?
        (index + conditionWords.length + 1 + bodyWords.length) = some index) :
      LoopWords function position condition body index stock
        (conditionWords ++ [Word.jumpIfFalse slot leave] ++ bodyWords ++ [Word.jump back]) finish

/-! ## Parts at their index -/

theorem Appends.emittedAt {α : Type} {step : Emit α} {value : α} {code : List Instruction}
    (appended : Appends code start finish) (ran : step start = .ok value finish) :
    EmittedAt step start.buffer.size start.stock value (encode code) finish.stock :=
  ⟨start, finish, rfl, rfl, ran, appended, rfl⟩

theorem Appends.size_after_test {condition slot tested entered}
    (conditionAppended : Appends condition start tested)
    (jumpAppended : Appends [.jumpIfFalse slot 0] tested entered) :
    entered.buffer.size = start.buffer.size + (encode condition).length + 1 := by
  rw [jumpAppended.size_eq, conditionAppended.size_eq, extent_cons, Instruction.width_jumpIfFalse]
  rfl

theorem blockEmitters_eq_map (function : String) (blocks : List Block) :
    blockEmitters function blocks = blocks.map (emitBlock function) := by
  induction blocks with
  | nil => rfl
  | cons block rest ih =>
    rw [blockEmitters, ih, List.map_cons]
    rfl

/-! ## Conditionals -/

theorem OpenArm.conditionalWords_cons {arm : OpenArm} {condition : Operand}
    {block start stock tested taken finish rest}
    (conditionEmitted : EmittedAt (condition.load function position) start stock arm.slot
      (encode arm.condition) tested) (blockEmitted : EmittedAt (emitBlock function block)
      (start + (encode arm.condition).length + 1) tested () (encode arm.block) taken)
    (skipNear : extent arm.block + 2 < jumpReach) (exitNear : extent rest + 1 < jumpReach)
    (restWords : ConditionalWords function position (start + extent arm.head + 1 + extent rest)
      conditions blocks (start + extent arm.head + 1) taken (encode rest) finish) :
    ConditionalWords function position
      (start + extent (arm.head ++ .jump (Int32.ofNat (extent rest + 1)) :: rest))
      (condition :: conditions) (block :: blocks) start stock
      (encode (arm.head ++ .jump (Int32.ofNat (extent rest + 1)) :: rest)) finish := by
  have headExtent : extent arm.head =
      (encode arm.condition).length + 1 + (encode arm.block).length := by
    rw [OpenArm.head, extent_append, extent_cons, Instruction.width_jumpIfFalse, Nat.add_assoc]
    rfl
  have wholeExtent : start + extent (arm.head ++ .jump (Int32.ofNat (extent rest + 1)) :: rest) =
      start + extent arm.head + 1 + extent rest := by
    simp only [extent_append, extent_cons, Instruction.width_jump]
    omega
  have wordsEq : encode (arm.head ++ .jump (Int32.ofNat (extent rest + 1)) :: rest) =
      encode arm.condition ++ [Word.jumpIfFalse arm.slot (Int32.ofNat (extent arm.block + 2))] ++
        encode arm.block ++ [Word.jump (Int32.ofNat (extent rest + 1))] ++ encode rest := by
    simp [OpenArm.head, Instruction.words]
  have jumpIndex : start + (encode arm.condition).length + 1 + (encode arm.block).length =
      start + extent arm.head := by
    omega
  rw [wholeExtent, wordsEq]
  refine .arm conditionEmitted blockEmitted ?_ ?_ ?_
  · rw [Instruction.jumpTarget?_jumpIfFalse skipNear, extent]
    congr 1
    omega
  · rw [jumpIndex, Instruction.jumpTarget?_jump exitNear]
    congr 1
    omega
  · rw [jumpIndex]
    exact restWords

theorem arms_conditionalWords (function : String) {position : Position} {exits last : Array Nat}
    {start middle : EmitState} : (conditions : List Operand) → (blocks : List Block) →
    conditions.length ≤ blocks.length →
    Emit.arms position exits
        ((loaders function position conditions).zip (blockEmitters function blocks)) start =
      .ok last middle →
    ∃ arms, last.toList = exits.toList ++ OpenArm.exits start.buffer.size arms ∧
      Appends (OpenArm.openCode arms) start middle ∧
      ∀ {alternative finish},
        OpenArm.ExitsNear arms alternative →
        ConditionalWords function position (middle.buffer.size + extent alternative) []
          (blocks.drop conditions.length) middle.buffer.size middle.stock (encode alternative)
          finish →
        ConditionalWords function position
          (start.buffer.size + extent (OpenArm.closedCode arms alternative)) conditions blocks
          start.buffer.size start.stock (encode (OpenArm.closedCode arms alternative)) finish
  | [], blocks, _, ran => by
      rw [loaders, List.zip_nil_left] at ran
      cases ran
      refine ⟨[], by simp [OpenArm.exits], Appends.refl start, ?_⟩
      intro alternative finish _ alternativeWords
      exact alternativeWords
  | condition :: conditions, [], short, _ => absurd short (by simp)
  | condition :: conditions, block :: blocks, short, ran => by
      rw [loaders, blockEmitters, List.zip_cons_cons, Emit.arms] at ran
      obtain ⟨exit, state, armRan, armsRan⟩ := bind_eq_ok_iff.mp ran
      obtain ⟨slot, tested, entered, taken, conditionRan, blockRan, jumpAppended, enteredKept,
        takenKept, layout⟩ := Emit.arm_ok armRan
      obtain ⟨conditionCode, _, conditionAppended⟩ :=
        Operand.load_ok function condition conditionRan
      obtain ⟨blockCode, _, blockAppended⟩ := emitNodes_ok function block blockRan
      obtain ⟨appended, exitIndex, skipNear⟩ := layout conditionAppended blockAppended
      obtain ⟨arms, lastEq, restAppended, restWords⟩ := arms_conditionalWords function conditions
        blocks (Nat.le_of_succ_le_succ short) armsRan
      have stateSize : state.buffer.size =
          start.buffer.size + extent (OpenArm.mk slot conditionCode blockCode).head + 1 := by
        rw [appended.size_eq, extent_append]
        simp only [extent_cons, extent_nil, Instruction.width_jump]
        omega
      refine ⟨⟨slot, conditionCode, blockCode⟩ :: arms, ?_, ?_, ?_⟩
      · rw [lastEq, Array.toList_push, List.append_assoc, stateSize, exitIndex]
        simp [OpenArm.exits]
      · simpa using appended.trans restAppended
      · rintro alternative finish ⟨exitNear, restNear⟩ alternativeWords
        have closedRest := restWords restNear alternativeWords
        rw [takenKept, stateSize] at closedRest
        have blockEmitted := blockAppended.emittedAt  blockRan
        rw [conditionAppended.size_after_test jumpAppended, enteredKept] at blockEmitted
        rw [OpenArm.closedCode_cons]
        exact OpenArm.conditionalWords_cons (conditionAppended.emittedAt conditionRan) blockEmitted
          skipNear exitNear closedRest

theorem alternative_conditionalWords {function : String} {position : Position}
    {conditions : List Operand} {blocks : List Block} {start finish : EmitState}
    (shape : blocks.length = conditions.length ∨ blocks.length = conditions.length + 1)
    (ran : (blockEmitters function blocks)[conditions.length]?.getD (pure ()) start =
      .ok () finish) :
    ∃ alternative, Appends alternative start finish ∧
      ConditionalWords function position (start.buffer.size + extent alternative) []
        (blocks.drop conditions.length) start.buffer.size start.stock (encode alternative)
        finish.stock := by
  rw [blockEmitters_eq_map, List.getElem?_map] at ran
  rcases shape with same | oneMore
  · have nothingLeft : blocks.drop conditions.length = [] :=
      List.drop_eq_nil_of_le (Nat.le_of_eq same)
    rw [List.getElem?_eq_none (Nat.le_of_eq same)] at ran
    cases ran
    rw [nothingLeft]
    exact ⟨[], Appends.refl start, .done rfl⟩
  · have inRange : conditions.length < blocks.length := by omega
    have oneLeft : blocks.drop conditions.length = [blocks[conditions.length]] := by
      rw [List.drop_eq_getElem_cons inRange, List.drop_eq_nil_of_le (Nat.le_of_eq oneMore)]
    rw [List.getElem?_eq_getElem inRange] at ran
    obtain ⟨code, _, appended⟩ := emitNodes_ok function blocks[conditions.length] ran
    rw [oneLeft]
    exact ⟨code, appended, .alternative (appended.emittedAt ran) rfl⟩

theorem conditional_conditionalWords
    (shape : blocks.length = conditions.length ∨ blocks.length = conditions.length + 1)
    (ran : (Node.conditional conditions blocks position).emit function start = .ok () finish) :
    ∃ words, finish.buffer.words = start.buffer.words ++ words ∧
      ConditionalWords function position (start.buffer.size + words.length) conditions blocks
        start.buffer.size start.stock words finish.stock := by
  rw [Node.emit] at ran
  obtain ⟨exits, middle, landing, armsRan, alternativeRan, landRan⟩ := Emit.conditional_ok ran
  rw [loaders_length] at alternativeRan
  obtain ⟨arms, exitsEq, armsAppended, armsWords⟩ :=
    arms_conditionalWords function conditions blocks (by omega) armsRan
  obtain ⟨alternative, alternativeAppended, alternativeWords⟩ :=
    alternative_conditionalWords shape alternativeRan
  rw [exitsEq, List.nil_append, ← CodeBuffer.length_words] at landRan
  obtain ⟨closed, near, kept⟩ := Emit.landAll_ok landRan (armsAppended.trans alternativeAppended)
  refine ⟨encode (OpenArm.closedCode arms alternative), closed, ?_⟩
  rw [kept]
  exact armsWords near alternativeWords

/-! ## Loops -/

theorem loop_loopWords {condition : Operand} {body : Block}
    (ran : (Node.loop condition body position).emit function start = .ok () finish) :
    ∃ words, finish.buffer.words = start.buffer.words ++ words ∧
      LoopWords function position condition body start.buffer.size start.stock words
        finish.stock := by
  rw [Node.emit] at ran
  obtain ⟨slot, tested, entered, taken, conditionRan, bodyRan, jumpAppended, enteredKept,
    takenKept, layout⟩ := Emit.loop_ok ran
  obtain ⟨conditionCode, _, conditionAppended⟩ := Operand.load_ok function condition conditionRan
  obtain ⟨bodyCode, _, bodyAppended⟩ := emitNodes_ok function body bodyRan
  obtain ⟨appended, backNear, exitNear⟩ := layout conditionAppended bodyAppended
  have bodyEmitted := bodyAppended.emittedAt  bodyRan
  rw [conditionAppended.size_after_test jumpAppended, enteredKept, ← takenKept] at bodyEmitted
  refine ⟨encode (loopCode slot conditionCode bodyCode), appended, ?_⟩
  have wordsEq : encode (loopCode slot conditionCode bodyCode) =
      encode conditionCode ++ [Word.jumpIfFalse slot (Int32.ofNat (extent bodyCode + 2))] ++
        encode bodyCode ++
        [Word.jump (-Int32.ofNat (extent conditionCode + 1 + extent bodyCode))] := by
    simp [loopCode, Instruction.words]
  rw [wordsEq]
  refine .intro (conditionAppended.emittedAt conditionRan) bodyEmitted ?_ ?_
  · rw [Instruction.jumpTarget?_jumpIfFalse exitNear, extent]
    congr 1
    omega
  · have jumpIndex : start.buffer.size + (encode conditionCode).length + 1 +
        (encode bodyCode).length =
        start.buffer.size + (extent conditionCode + 1 + extent bodyCode) := by
      simp only [extent]
      omega
    rw [jumpIndex]
    exact Instruction.jumpTarget?_jump_back backNear

/-- A conditional is its arms one after the other, each with a jump past itself and
a jump to the end, and then its alternative.  A loop is its condition, a jump to
the end, its body, and a jump to the condition. -/
theorem emit_lays_out_jumps (function : String) (position : Position) (start finish : EmitState) :
    (∀ (conditions : List Operand) (blocks : List Block),
      blocks.length = conditions.length ∨ blocks.length = conditions.length + 1 →
      (Node.conditional conditions blocks position).emit function start = .ok () finish →
      ∃ words, finish.buffer.words = start.buffer.words ++ words ∧
        ConditionalWords function position (start.buffer.size + words.length) conditions blocks
          start.buffer.size start.stock words finish.stock) ∧
    ∀ (condition : Operand) (body : Block),
      (Node.loop condition body position).emit function start = .ok () finish →
      ∃ words, finish.buffer.words = start.buffer.words ++ words ∧
        LoopWords function position condition body start.buffer.size start.stock words
          finish.stock :=
  ⟨fun _ _ shape ran => conditional_conditionalWords shape ran, fun _ _ ran => loop_loopWords ran⟩

/-- Two arms and an alternative, and then a loop, on two variables. -/
theorem emit_lays_out_jumps_choice :
    ∃ chosen repeated : EmitState,
      (Node.conditional [.variable 0, .variable 1]
        [[.assignment 0 (.literal (.int 1)) ⟨0, 1, 1⟩], [], [.assignment 1 (.variable 0) ⟨0, 2, 1⟩]]
        ⟨0, 1, 1⟩).emit "f" default = .ok () chosen ∧
      (∃ words, chosen.buffer.words = (default : EmitState).buffer.words ++ words ∧
        ConditionalWords "f" ⟨0, 1, 1⟩ (0 + words.length) [.variable 0, .variable 1]
          [[.assignment 0 (.literal (.int 1)) ⟨0, 1, 1⟩], [], [.assignment 1 (.variable 0) ⟨0, 2, 1⟩]]
          0 (default : EmitState).stock words chosen.stock) ∧
      (Node.loop (.variable 0) [.assignment 0 (.variable 1) ⟨0, 3, 1⟩] ⟨0, 3, 1⟩).emit "f" chosen =
        .ok () repeated ∧
      ∃ words, repeated.buffer.words = chosen.buffer.words ++ words ∧
        LoopWords "f" ⟨0, 3, 1⟩ (.variable 0) [.assignment 0 (.variable 1) ⟨0, 3, 1⟩]
          chosen.buffer.size chosen.stock words repeated.stock := by
  refine ⟨_, _, rfl, ?_, rfl, ?_⟩
  · exact (emit_lays_out_jumps "f" ⟨0, 1, 1⟩ default _).1 _ _ (Or.inr rfl) rfl
  · exact (emit_lays_out_jumps "f" ⟨0, 3, 1⟩ _ _).2 _ _ rfl

end SlotCompiler
