import SlotCompiler.Proofs.Emission.Effects

/-!
Contract: a machine that follows the evaluation of a tree.

A machine that follows a part comes to the part's end, or to a return, as the
evaluation does.  Conversely, a machine that ever returns shows that evaluation
of the part ends.
-/

namespace SlotCompiler

section Following

variable {Value Heap : Type} {meaning : Meaning Value Heap} {image : Image}

variable {fragment : Fragment} {next : Nat} {conditions : List Operand} {block body : List Node}
  {blocks : List (List Node)} {locks : List Lock} {store source : Store Value Heap}
  {condition : Operand} {offset : Int32} {more : List Instruction} {position : Position}

def Completion.Reached (meaning : Meaning Value Heap) (image : Image)
    (machine : Machine Value Heap) (finish : Nat) (scopes : ScopeChain) :
    Completion Value Heap → Prop
  | .falls source =>
    ∃ store, Steps meaning image machine ⟨finish, store⟩ ∧ Agrees scopes store source
  | .returns value? source => machine.Ends meaning image (source.result value?)

theorem Completion.Reached.of_steps {machine next finish scopes}
    {completion : Completion Value Heap} (steps : Steps meaning image machine next)
    (reached : completion.Reached meaning image next finish scopes) :
    completion.Reached meaning image machine finish scopes := by
  cases completion with
  | falls source =>
    obtain ⟨store, more, agrees⟩ := reached
    exact ⟨store, steps.trans more, agrees⟩
  | returns value? source => exact steps.ends reached

/-- The machine follows the evaluation of a part from one index to another. -/
structure Follows (meaning : Meaning Value Heap) (image : Image) (held : Nat)
    (fragment : Fragment) (before after : ScopeChain) (index finish : Nat) : Prop where
  reached : ∀ {store source : Store Value Heap} {completion : Completion Value Heap},
    Agrees before store source → Runs meaning held fragment source completion →
      completion.Reached meaning image ⟨index, store⟩ finish after
  completes : ∀ {store source : Store Value Heap} {fuel : Nat} {result : Result Value Heap},
    Agrees before store source → Machine.run meaning image fuel ⟨index, store⟩ = some result →
      ∃ completion, Runs meaning held fragment source completion

section Rules

variable {held index finish : Nat} {before after scopes : ScopeChain}

variable {condition : Operand} {offset : Int32} {more : List Instruction} {position : Position}

theorem Follows.consequence {inner innerAfter}
    (follows : Follows meaning image held fragment inner innerAfter index finish)
    (enters : ∀ slot, inner.Holds slot → before.Holds slot)
    (leaves : ∀ slot, after.Holds slot → innerAfter.Holds slot) :
    Follows meaning image held fragment before after index finish := by
  have entering : ∀ {store source : Store Value Heap}, Agrees before store source →
      Agrees inner store source := fun agrees =>
    ⟨agrees.heap_eq, agrees.locks_eq, fun slot held => agrees.slots_eq slot (enters slot held)⟩
  constructor
  · intro store source completion agrees runs
    have reached := follows.reached (entering agrees) runs
    cases completion with
    | falls target =>
      obtain ⟨later, steps, still⟩ := reached
      exact ⟨later, steps, still.heap_eq, still.locks_eq,
        fun slot held => still.slots_eq slot (leaves slot held)⟩
    | returns value? target => exact reached
  · intro store source fuel result agrees ran
    exact follows.completes (entering agrees) ran

theorem follows_of_determined
    (acts : ∀ store source : Store Value Heap, Agrees before store source →
      ∃ completion : Completion Value Heap,
        completion.Reached meaning image ⟨index, store⟩ finish after ∧
        ∀ other, Runs meaning held fragment source other ↔ other = completion) :
    Follows meaning image held fragment before after index finish := by
  constructor
  · intro store source completion agrees runs
    obtain ⟨determined, reached, unique⟩ := acts store source agrees
    rw [(unique completion).mp runs]
    exact reached
  · intro store source fuel result agrees _
    obtain ⟨determined, _, unique⟩ := acts store source agrees
    exact ⟨determined, (unique determined).mpr rfl⟩

/-! ## Blocks -/

theorem follows_nil : Follows meaning image held (.nodes []) scopes scopes index index := by
  refine follows_of_determined fun store source agrees =>
    ⟨.falls source, ⟨store, .refl, agrees⟩, fun other => ⟨?_, ?_⟩⟩
  · intro runs
    cases runs
    rfl
  · rintro rfl
    exact .nil

theorem follows_cons {node rest middle}
    (head : Follows meaning image held (.node node) before middle index next)
    (tail : Follows meaning image held (.nodes rest) middle after next finish) :
    Follows meaning image held (.nodes (node :: rest)) before after index finish := by
  constructor
  · intro store source completion agrees runs
    cases runs with
    | cons headRuns tailRuns =>
      obtain ⟨later, steps, still⟩ := head.reached agrees headRuns
      exact (tail.reached still tailRuns).of_steps steps
    | consReturns headRuns => exact head.reached agrees headRuns
  · intro store source fuel result agrees ran
    obtain ⟨completion, headRuns⟩ := head.completes agrees ran
    cases completion with
    | falls middleSource =>
      obtain ⟨later, steps, still⟩ := head.reached agrees headRuns
      obtain ⟨less, _, lessRan⟩ := Steps.run steps ran
      obtain ⟨last, tailRuns⟩ := tail.completes still lessRan
      exact ⟨last, .cons headRuns tailRuns⟩
    | returns value? target => exact ⟨_, .consReturns headRuns⟩

/-! ## Conditions -/

def Tests (meaning : Meaning Value Heap) (image : Image) (condition : Operand)
    (scopes : ScopeChain) (index next : Nat) (slot : Slot) : Prop :=
  ∀ store source : Store Value Heap, Agrees scopes store source →
    ∃ found later, condition.value? meaning source = some found ∧
      Steps meaning image ⟨index, store⟩ ⟨next, later⟩ ∧ later.slots slot = found ∧
      Agrees scopes later source

/-- A branch: the condition is computed, and the machine goes to one of two
places. -/
structure Branches (meaning : Meaning Value Heap) (image : Image) (condition : Operand)
    (scopes : ScopeChain) (index whenTrue whenFalse : Nat) : Prop where
  choose : ∀ store source : Store Value Heap, Agrees scopes store source →
    ∃ found test later, condition.value? meaning source = some found ∧
      Steps meaning image ⟨index, store⟩ test ∧
      test.step meaning image =
        .goesOn ⟨if meaning.isTrue found then whenTrue else whenFalse, later⟩ ∧
      Agrees scopes later source

theorem Tests.branches {slot target} (tests : Tests meaning image condition scopes index next slot)
    (holds : image.Holds next (.jumpIfFalse slot offset :: more))
    (goes : (Instruction.jumpIfFalse slot offset).jumpTarget? next = some target) :
    Branches meaning image condition scopes index (next + 1) target := by
  constructor
  intro store source agrees
  obtain ⟨found, later, valued, steps, slotEq, still⟩ := tests store source agrees
  refine ⟨found, _, later, valued, steps, ?_, still⟩
  cases isTrue : meaning.isTrue found with
  | true => exact step_jumpIfFalse_true holds (by rw [slotEq, isTrue])
  | false => exact step_jumpIfFalse_false holds (by rw [slotEq, isTrue]) goes

theorem Branches.goes {whenTrue whenFalse found isTrue}
    (branches : Branches meaning image condition scopes index whenTrue whenFalse)
    (agrees : Agrees scopes store source) (tested : condition.value? meaning source = some found)
    (decided : meaning.isTrue found = isTrue) :
    ∃ later, Steps meaning image ⟨index, store⟩ ⟨if isTrue then whenTrue else whenFalse, later⟩ ∧
      Agrees scopes later source := by
  obtain ⟨_, test, later, valued, steps, stepped, still⟩ := branches.choose store source agrees
  rw [Option.some.inj (valued.symm.trans tested), decided] at stepped
  exact ⟨later, steps.tail stepped, still⟩

/-- A chain of arms: the first block if its condition holds, else the rest of the
chain.  The block ends with a jump to the end of the chain. -/
theorem follows_arm {taken exit skipped}
    (branches : Branches meaning image condition scopes index taken skipped)
    (blockFollows : Follows meaning image held (.nodes block) scopes scopes taken exit)
    (exitHolds : image.Holds exit (.jump offset :: more))
    (exitGoes : (Instruction.jump offset).jumpTarget? exit = some finish)
    (restFollows : Follows meaning image held (.arms conditions blocks) scopes scopes skipped
      finish) :
    Follows meaning image held (.arms (condition :: conditions) (block :: blocks)) scopes scopes
      index finish := by
  constructor
  · intro store source completion agrees runs
    cases runs with
    | armTaken tested isTrue takenRuns =>
      obtain ⟨later, entered, still⟩ := branches.goes agrees tested isTrue
      have reached := blockFollows.reached still takenRuns
      cases completion with
      | falls target =>
        obtain ⟨last, blockSteps, agreesLast⟩ := reached
        have left := blockSteps.tail (step_jump exitHolds exitGoes)
        exact ⟨last, entered.trans left, agreesLast⟩
      | returns value? target => exact Steps.ends entered reached
    | armSkipped tested isFalse restRuns =>
      obtain ⟨later, entered, still⟩ := branches.goes agrees tested isFalse
      exact (restFollows.reached still restRuns).of_steps entered
  · intro store source fuel result agrees ran
    obtain ⟨found, test, later, valued, steps, stepped, still⟩ :=
      branches.choose store source agrees
    obtain ⟨less, _, lessRan⟩ := Steps.run (steps.tail stepped) ran
    cases isTrue : meaning.isTrue found with
    | true =>
      rw [isTrue, if_pos rfl] at lessRan
      obtain ⟨completion, takenRuns⟩ := blockFollows.completes still lessRan
      exact ⟨completion, .armTaken valued isTrue takenRuns⟩
    | false =>
      rw [isTrue, if_neg Bool.false_ne_true] at lessRan
      obtain ⟨completion, restRuns⟩ := restFollows.completes still lessRan
      exact ⟨completion, .armSkipped valued isTrue restRuns⟩

theorem follows_alternative
    (blockFollows : Follows meaning image held (.nodes block) scopes scopes index finish) :
    Follows meaning image held (.arms [] [block]) scopes scopes index finish := by
  constructor
  · intro store source completion agrees runs
    have .alternative taken := runs
    exact blockFollows.reached agrees taken
  · intro store source fuel result agrees ran
    obtain ⟨completion, taken⟩ := blockFollows.completes agrees ran
    exact ⟨completion, .alternative taken⟩

theorem follows_noAlternative :
    Follows meaning image held (.arms [] []) scopes scopes index index := by
  refine follows_of_determined fun store source agrees =>
    ⟨.falls source, ⟨store, .refl, agrees⟩, fun other => ⟨?_, ?_⟩⟩
  · intro runs
    cases runs
    rfl
  · rintro rfl
    exact .noAlternative

theorem follows_conditional
    (arms : Follows meaning image held (.arms conditions blocks) before after index finish) :
    Follows meaning image held (.node (.conditional conditions blocks position)) before after
      index finish := by
  constructor
  · intro store source completion agrees runs
    have .conditional chosen := runs
    exact arms.reached agrees chosen
  · intro store source fuel result agrees ran
    obtain ⟨completion, chosen⟩ := arms.completes agrees ran
    exact ⟨completion, .conditional chosen⟩

/-! ## Loops -/

/-- A loop: the body as long as the condition holds.  The body ends with a jump
back to the condition. -/
theorem follows_loop {entry back}
    (branches : Branches meaning image condition scopes index entry finish)
    (bodyFollows : Follows meaning image held (.nodes body) scopes scopes entry back)
    (backHolds : image.Holds back (.jump offset :: more))
    (backGoes : (Instruction.jump offset).jumpTarget? back = some index) :
    Follows meaning image held (.node (.loop condition body position)) scopes scopes index
      finish := by
  constructor
  · -- By induction on the evaluation, one iteration at a time.
    intro store source completion agrees runs
    generalize isLoop : Fragment.node (.loop condition body position) = fragment at runs
    induction runs generalizing store with
    | loopDone tested isFalse =>
      cases isLoop
      exact branches.goes agrees tested isFalse
    | loopAgain tested isTrue once _ _ again =>
      cases isLoop
      obtain ⟨later, entered, still⟩ := branches.goes agrees tested isTrue
      obtain ⟨last, bodySteps, agreesLast⟩ := bodyFollows.reached still once
      have returned := bodySteps.tail (step_jump backHolds backGoes)
      exact (again bodyFollows agreesLast rfl).of_steps (entered.trans returned)
    | loopReturns tested isTrue once _ =>
      cases isLoop
      obtain ⟨later, entered, still⟩ := branches.goes agrees tested isTrue
      exact Steps.ends entered (bodyFollows.reached still once)
    | _ => cases isLoop
  · -- By induction on the steps that the machine has left.
    intro store source fuel result agrees ran
    induction fuel using Nat.strong_induction_on generalizing store source with
    | _ fuel ih =>
      obtain ⟨found, test, later, valued, steps, stepped, still⟩ :=
        branches.choose store source agrees
      obtain ⟨atTest, atTestLe, testRan⟩ := Steps.run steps ran
      obtain ⟨inside, insideLt, insideRan⟩ := Machine.run_next stepped testRan
      cases isTrue : meaning.isTrue found with
      | false => exact ⟨_, .loopDone valued isTrue⟩
      | true =>
        rw [isTrue, if_pos rfl] at insideRan
        obtain ⟨completion, once⟩ := bodyFollows.completes still insideRan
        cases completion with
        | returns value? target => exact ⟨_, .loopReturns valued isTrue once⟩
        | falls target =>
          obtain ⟨last, bodySteps, agreesLast⟩ := bodyFollows.reached still once
          have returned := bodySteps.tail (step_jump backHolds backGoes)
          obtain ⟨less, lessLe, lessRan⟩ := Steps.run returned insideRan
          obtain ⟨final, again⟩ := ih less (by omega) agreesLast lessRan
          exact ⟨final, .loopAgain valued isTrue once again⟩

/-! ## Locks -/

theorem effects?_acquisitions (meaning : Meaning Value Heap) (constants : Array String)
    (locks : List Lock) (store : Store Value Heap) :
    effects? meaning constants (acquisitions locks) store = some (store.acquireAll locks) := by
  induction locks generalizing store with
  | nil => rfl
  | cons lock rest ih => exact ih (store.acquire lock.slot lock.exclusive)

theorem effects?_releases (meaning : Meaning Value Heap) (constants : Array String) (locks : Nat)
    (store : Store Value Heap) :
    effects? meaning constants (releases locks) store =
      some (store.release (UInt16.ofNat locks)) := by
  unfold releases
  split
  · rfl
  · rename_i isZero
    have none : locks = 0 := by omega
    rw [none]
    simp [effects?, Store.release]

theorem Agrees.acquireAll (agrees : Agrees scopes store source)
    (visible : ∀ lock ∈ locks, scopes.Holds lock.slot) :
    Agrees scopes (store.acquireAll locks) (source.acquireAll locks) := by
  induction locks generalizing store source with
  | nil => exact agrees
  | cons lock rest ih =>
    obtain ⟨firstVisible, restVisible⟩ := List.forall_mem_cons.mp visible
    refine ih ⟨agrees.heap_eq, ?_, agrees.slots_eq⟩ restVisible
    show store.locks.acquire _ = source.locks.acquire _
    rw [agrees.locks_eq, agrees.slots_eq _ firstVisible]

theorem Agrees.release (agrees : Agrees scopes store source) (count : UInt16) :
    Agrees scopes (store.release count) (source.release count) := by
  refine ⟨agrees.heap_eq, ?_, agrees.slots_eq⟩
  show store.locks.release count = source.locks.release count
  rw [agrees.locks_eq]

theorem follows_sync {last} (visible : ∀ lock ∈ locks, scopes.Holds lock.slot)
    (holds : image.Holds index (acquisitions locks))
    (bodyFollows : Follows meaning image (locks.length + held) (.nodes body) scopes scopes
      (index + extent (acquisitions locks)) last)
    (releaseHolds : image.Holds last (.syncRelease (UInt16.ofNat locks.length) :: more)) :
    Follows meaning image held (.node (.sync locks body position)) scopes scopes index
      (last + 1) := by
  have locked : ∀ store : Store Value Heap, Steps meaning image ⟨index, store⟩
      ⟨index + extent (acquisitions locks), store.acquireAll locks⟩ := fun store =>
    steps_of_effects holds (effects?_acquisitions meaning image.constants locks store)
  constructor
  · intro store source completion agrees runs
    cases runs with
    | syncDone guarded =>
      obtain ⟨later, steps, still⟩ := bodyFollows.reached (agrees.acquireAll visible) guarded
      have released := steps.tail (step_of_effect releaseHolds rfl)
      exact ⟨_, (locked store).trans released, still.release _⟩
    | syncReturns guarded =>
      exact Steps.ends (locked store) (bodyFollows.reached (agrees.acquireAll visible) guarded)
  · intro store source fuel result agrees ran
    obtain ⟨less, _, lessRan⟩ := Steps.run (locked store) ran
    obtain ⟨completion, guarded⟩ := bodyFollows.completes (agrees.acquireAll visible) lessRan
    cases completion with
    | falls target => exact ⟨_, .syncDone guarded⟩
    | returns value? target => exact ⟨_, .syncReturns guarded⟩

end Rules

end Following

end SlotCompiler
