import SlotCompiler.Proofs.Emission.Simulation
import SlotCompiler.Proofs.Program.Origin

/-!
Contract: the code of a function does what its tree says.
-/

namespace SlotCompiler

section Meaning

variable {Value Heap : Type}

variable {meaning : Meaning Value Heap} {store : Store Value Heap}

/-- Evaluation of a function's body ends with a result.  A function without a
result may also return at the end of its body. -/
inductive TypedFunction.Evaluates (typed : TypedFunction) (meaning : Meaning Value Heap)
    (slots : Slot → Value) (heap : Heap) : Result Value Heap → Prop where
  | returns {value? store}
      (runs : Runs meaning 0 (.nodes typed.body) ⟨slots, heap, .none⟩ (.returns value? store)) :
      typed.Evaluates meaning slots heap (store.result value?)
  | falls {store : Store Value Heap} (noResult : typed.returnType? = none)
      (runs : Runs meaning 0 (.nodes typed.body) ⟨slots, heap, .none⟩ (.falls store)) :
      typed.Evaluates meaning slots heap (store.result none)

/-- What a machine needs of a function. -/
def FunctionCode.image (function : FunctionCode) : Image :=
  ⟨function.code.toList, function.constants⟩

/-- Run the code of a function from its first word, for a number of steps at
most. -/
def FunctionCode.run? (function : FunctionCode) (meaning : Meaning Value Heap)
    (slots : Slot → Value) (heap : Heap) (fuel : Nat) : Option (Result Value Heap) :=
  Machine.run meaning function.image fuel ⟨0, ⟨slots, heap, .none⟩⟩

def FunctionCode.Executes (function : FunctionCode) (meaning : Meaning Value Heap)
    (slots : Slot → Value) (heap : Heap) (result : Result Value Heap) : Prop :=
  ∃ fuel, function.run? meaning slots heap fuel = some result

theorem Machine.run_past_end {image} (fuel : Nat) :
    Machine.run meaning image fuel ⟨image.words.length, store⟩ = none := by
  cases fuel with
  | zero => rfl
  | succ fuel => simp [Machine.run, Machine.step, Image.fetch?]

variable {function : FunctionCode} {types : TypeTable} {item : FunctionItem}
  {typed : TypedFunction} {code : List Instruction} {finish : Stock} {entered left : Context}

theorem FunctionCode.ComesFrom.follows (comesFrom : function.ComesFrom types item typed code finish)
    (read : item.WasRead entered left) (meaning : Meaning Value Heap) :
    Follows meaning function.image 0 (.nodes typed.body) entered.scopes left.scopes 0
      (extent code) := by
  have fits := typeFunction_fits read comesFrom.typedOk
  have known : finish.constants.toList <+: function.image.constants.toList := by
    rw [FunctionCode.image, comesFrom.constants_eq]
  have holds : function.image.Holds 0 code :=
    ⟨[], closing typed.returnType?, comesFrom.words_eq, rfl⟩
  have follows : Follows meaning function.image entered.scopes.lockDepth (.nodes typed.body)
      entered.scopes left.scopes 0 (0 + extent code) :=
    comesFrom.emitted.follows fits.body
      ⟨read.entered_bounded, fits.size_eq.ge, fits.stock_bounded read, known⟩ holds
  rwa [read.lockDepth_eq_zero, Nat.zero_add] at follows

theorem Agrees.refl (scopes : ScopeChain) (store : Store Value Heap) : Agrees scopes store store :=
  ⟨rfl, rfl, fun _ _ => rfl⟩

theorem FunctionCode.ComesFrom.ends_iff
    (comesFrom : function.ComesFrom types item typed code finish) {result} :
    Machine.Ends meaning function.image ⟨extent code, store⟩ result ↔
      typed.returnType? = none ∧ result = store.result none := by
  cases hasResult : typed.returnType? with
  | none =>
    have holds : function.image.Holds (extent code) [.ret] := by
      refine ⟨code, [], ?_, rfl⟩
      have wordsEq := comesFrom.words_eq
      rw [hasResult] at wordsEq
      rw [List.append_nil]
      exact wordsEq
    have ends : Machine.Ends meaning function.image ⟨extent code, store⟩ (store.result none) :=
      Machine.ends_of_ends (step_ret holds)
    constructor
    · exact fun given => ⟨rfl, given.unique ends⟩
    · rintro ⟨_, rfl⟩
      exact ends
  | some type =>
    have sizeEq : function.image.words.length = extent code := by
      have wordsEq := comesFrom.words_eq
      rw [hasResult, closing, if_neg (by simp), List.append_nil] at wordsEq
      rw [FunctionCode.image, wordsEq, extent]
    rw [← sizeEq]
    constructor
    · rintro ⟨fuel, ran⟩
      rw [Machine.run_past_end] at ran
      contradiction
    · rintro ⟨impossible, _⟩
      contradiction

theorem FunctionCode.ComesFrom.evaluates_iff
    (comesFrom : function.ComesFrom types item typed code finish)
    (read : item.WasRead entered left) (meaning : Meaning Value Heap) (slots : Slot → Value)
    (heap : Heap) (result : Result Value Heap) :
    typed.Evaluates meaning slots heap result ↔ function.Executes meaning slots heap result := by
  have follows := comesFrom.follows read meaning
  have agrees := Agrees.refl entered.scopes (⟨slots, heap, .none⟩ : Store Value Heap)
  constructor
  · intro evaluates
    cases evaluates with
    | returns runs => exact follows.reached agrees runs
    | falls noResult runs =>
      obtain ⟨store, steps, still⟩ := follows.reached agrees runs
      rw [← still.result_eq]
      exact Steps.ends steps (comesFrom.ends_iff.mpr ⟨noResult, rfl⟩)
  · rintro ⟨fuel, ran⟩
    obtain ⟨completion, runs⟩ := follows.completes agrees ran
    have reached := follows.reached agrees runs
    cases completion with
    | returns value? store =>
      rw [Machine.Ends.unique ⟨fuel, ran⟩ reached]
      exact .returns runs
    | falls source =>
      obtain ⟨store, steps, still⟩ := reached
      obtain ⟨less, _, lessRan⟩ := Steps.run steps ran
      obtain ⟨noResult, resultEq⟩ := comesFrom.ends_iff.mp ⟨less, lessRan⟩
      rw [resultEq, still.result_eq]
      exact .falls noResult runs

end Meaning

/-- Compiling preserves meaning: for every meaning of values and operators, and
from every frame and heap, evaluation of a function that was read from a source
ends with a result exactly when its code does. -/
theorem compileFunction_preserves {source : Source} {item : FunctionItem}
    (inFile : item ∈ (parseSource source).1.file.functions) (isWhole : item.isBroken = false)
    {types : TypeTable} {layer : Nat} {function : FunctionCode}
    (compiled : compileFunction types item layer = .ok function) :
    ∃ typed, typeFunction types item = .ok typed ∧
      ∀ {Value Heap : Type} (meaning : Meaning Value Heap) (slots : Slot → Value) (heap : Heap)
        (result : Result Value Heap),
        typed.Evaluates meaning slots heap result ↔
          function.Executes meaning slots heap result := by
  obtain ⟨entered, left, read⟩ := parseSource_functionsRead source item inFile isWhole
  obtain ⟨typed, code, finish, comesFrom⟩ := compileFunction_comesFrom compiled
  refine ⟨typed, comesFrom.typedOk, ?_⟩
  intro Value Heap meaning slots heap result
  exact comesFrom.evaluates_iff read meaning slots heap result

/-- Integers, with what a countdown needs. -/
def Meaning.integers : Meaning Int Unit where
  immediate
    | .int value => value.toInt
    | .float _ => 0
    | .bool value => value.toInt
  string _ := 0
  operator
    | .subtract, lhs, rhs => lhs - rhs
    | .less, lhs, rhs => (decide (lhs < rhs)).toInt
    | .equal, lhs, rhs => (decide (lhs = rhs)).toInt
    | _, _, _ => 0
  isTrue value := value != 0
  member _ object _ := object
  update heap _ _ _ := heap

/-- A countdown under a lock, with a way out at three. -/
def countdown : Source where
  name := "countdown"
  text := "fn f(mut n: int, limit: int) -> int \x7b
    sync mut n \x7b
      while (limit < n) \x7b n = n - 1; if (n == 3) \x7b return n; \x7d \x7d
    \x7d
    return limit; \x7d"

/-- From five down, evaluation returns three out of the loop, and releases the
lock on the way. -/
theorem compileFunction_preserves_countdown :
    ∃ item ∈ (parseSource countdown).1.file.functions, item.isBroken = false ∧
      ∃ typed, typeFunction .primitive item = .ok typed ∧
        typed.Evaluates .integers (fun slot => if slot = 0 then 5 else 1) ()
          ⟨some 3, (), [.acquire ⟨5, true⟩, .release ⟨5, true⟩]⟩ := by
  have found : ((parseSource countdown).1.file.functions.toList.any fun item =>
      !item.isBroken && (compileFunction .primitive item 0).toOption.any fun function =>
        function.run? .integers (fun slot => if slot = 0 then 5 else 1) () 60 =
          some ⟨some 3, (), [.acquire ⟨5, true⟩, .release ⟨5, true⟩]⟩) = true := by
    decide +kernel
  obtain ⟨item, inFile, passes⟩ := List.any_eq_true.mp found
  obtain ⟨isWhole, executes⟩ := Bool.and_eq_true_iff.mp passes
  have whole : item.isBroken = false := by simpa using isWhole
  cases compiled : compileFunction .primitive item 0 with
  | error fault =>
    rw [compiled] at executes
    exact absurd (show false = true from executes) Bool.false_ne_true
  | ok function =>
    rw [compiled] at executes
    have member := Array.mem_toList_iff.mp inFile
    obtain ⟨typed, typedOk, preserves⟩ := compileFunction_preserves member whole compiled
    refine ⟨item, member, whole, typed, typedOk, ?_⟩
    exact (preserves _ _ _ _).mpr ⟨60, of_decide_eq_true executes⟩

end SlotCompiler
