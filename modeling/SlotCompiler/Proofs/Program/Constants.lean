import SlotCompiler.Proofs.Code.Interning
import SlotCompiler.Proofs.Emission.Typed
import SlotCompiler.Proofs.Program.Signatures
import SlotCompiler.Proofs.Tree.Trace

/-!
Contract: compiled code loads the string literals of its source, in order.
-/

namespace SlotCompiler

/-! ## Literals of trees -/

mutual

/-- The string literals of an operand, in the order in which they are emitted. -/
def Operand.strings : Operand → List String
  | .variable _ | .literal _ => []
  | .string text => [text]
  | .node inner => inner.strings
  | .call invoked => invoked.strings

def Call.strings : Call → List String
  | ⟨_, arguments, _⟩ => (operandsStrings arguments).flatten

def Node.strings : Node → List String
  | .declaration _ _ _ _ value _ | .assignment _ value _ => value.strings
  | .memberAssignment _ _ _ value _ | .ret (some value) _ _ => value.strings
  | .access _ | .ret none _ _ => []
  | .binary _ lhs rhs _ _ => lhs.strings ++ rhs.strings
  | .call invoked => invoked.strings
  | .conditional conditions blocks _ =>
    alternate (operandsStrings conditions) (blocksStrings blocks)
  | .loop condition body _ => condition.strings ++ nodesStrings body
  | .sync _ body _ => nodesStrings body

def operandsStrings : List Operand → List (List String)
  | [] => []
  | value :: rest => value.strings :: operandsStrings rest

/-- The string literals of a block, those of an arm after those of its condition. -/
def nodesStrings : List Node → List String
  | [] => []
  | node :: rest => node.strings ++ nodesStrings rest

def blocksStrings : List (List Node) → List (List String)
  | [] => []
  | block :: rest => nodesStrings block :: blocksStrings rest

end

attribute [simp] Operand.strings Call.strings Node.strings operandsStrings nodesStrings
  blocksStrings

@[simp] def Fragment.strings : Fragment → List String
  | .node statement => statement.strings
  | .nodes statements => nodesStrings statements
  | .arms conditions blocks => alternate (operandsStrings conditions) (blocksStrings blocks)

section Numbered

variable (types : TypeTable) (slots : Slot → TypeId)

mutual

theorem Operand.strings_numbered (value : Operand) :
    (value.numbered types slots).strings = value.strings := by
  cases value with
  | node inner => simp [inner.strings_numbered]
  | _ => simp

theorem Node.strings_numbered (node : Node) :
    (node.numbered types slots).strings = node.strings := by
  cases node with
  | declaration name slot isMutable declared? value => simp [value.strings_numbered]
  | assignment slot value => simp [value.strings_numbered]
  | memberAssignment target member field? value => simp [value.strings_numbered]
  | ret value? =>
    cases value? with
    | none => simp
    | some value => simp [value.strings_numbered]
  | binary operator lhs rhs => simp [lhs.strings_numbered, rhs.strings_numbered]
  | conditional conditions blocks =>
    simp [operandsStrings_numbered conditions, blocksStrings_numbered blocks]
  | loop condition body => simp [condition.strings_numbered, nodesStrings_numbered body]
  | sync locks body => simp [nodesStrings_numbered body]
  | _ => simp

theorem operandsStrings_numbered (values : List Operand) :
    operandsStrings (operandsNumbered types slots values) = operandsStrings values := by
  cases values with
  | nil => rfl
  | cons value rest => simp [value.strings_numbered, operandsStrings_numbered rest]

theorem nodesStrings_numbered (block : List Node) :
    nodesStrings (blockNumbered types slots block) = nodesStrings block := by
  cases block with
  | nil => rfl
  | cons node rest => simp [node.strings_numbered, nodesStrings_numbered rest]

theorem blocksStrings_numbered (blocks : List (List Node)) :
    blocksStrings (blocksNumbered types slots blocks) = blocksStrings blocks := by
  cases blocks with
  | nil => rfl
  | cons block rest => simp [nodesStrings_numbered block, blocksStrings_numbered rest]

end

end Numbered

/-! ## Constants of code -/

/-- What the constants that code loads stand for in a pool. -/
def loadedTexts (pool : Array String) (code : List Instruction) : List (Option String) :=
  (code.filterMap Instruction.constant?).map fun index => pool[index.toNat]?

section Loads

attribute [local simp] Instruction.constant? loopCode armCode alternate

variable {pool : Array String} {stock finish : Stock} {code : List Instruction} {slot : Slot}
  {value : Operand}

@[simp] theorem loadedTexts_nil : loadedTexts pool [] = [] := rfl

@[simp] theorem loadedTexts_append (first second : List Instruction) :
    loadedTexts pool (first ++ second) = loadedTexts pool first ++ loadedTexts pool second := by
  rw [loadedTexts, List.filterMap_append, List.map_append]
  rfl

@[simp] theorem loadedTexts_cons (instruction : Instruction) :
    loadedTexts pool (instruction :: code) =
      (instruction.constant?.map fun index => pool[index.toNat]?).toList ++
        loadedTexts pool code := by
  rw [loadedTexts, List.filterMap_cons]
  cases instruction.constant? <;> rfl

theorem loadedTexts_memberLoads {steps}
    (loaded : memberLoads? slot steps = some code) : loadedTexts pool code = [] := by
  induction steps generalizing slot code with
  | nil =>
    cases loaded
    rfl
  | cons step rest ih =>
    obtain ⟨_, _, _, others, rfl⟩ := memberLoads?_cons loaded
    simpa using ih others

@[simp] theorem loadedTexts_releases (locks : Nat) : loadedTexts pool (releases locks) = [] := by
  unfold releases
  split <;> rfl

@[simp] theorem loadedTexts_acquisitions (locks : List Lock) :
    loadedTexts pool (acquisitions locks) = [] := by
  induction locks with
  | nil => rfl
  | cons lock rest ih => exact ih

theorem Loads.loadedTexts_eq (loads : Loads value slot stock code finish) (within : stock.Bounded)
    (known : finish.constants.toList <+: pool.toList) :
    loadedTexts pool code = value.strings.map some := by
  induction loads with
  | held | literal => simp
  | string allocated interned =>
    have entered := (Stock.temporary?_adds allocated).grows.bounded within
    simpa using constant_of_grows known (Stock.intern?_constant entered interned)
  | access loaded => simpa using loadedTexts_memberLoads loaded
  | binary left right leftLoads rightLoads =>
    simp [leftLoads within (right.grows.constants.trans known),
      rightLoads (left.grows.bounded within) known]

theorem Stores.loadedTexts_eq (stores : Stores value slot stock code finish)
    (within : stock.Bounded) (known : finish.constants.toList <+: pool.toList) :
    loadedTexts pool code = value.strings.map some := by
  cases stores with
  | literal => simp
  | string interned => simpa using constant_of_grows known (Stock.intern?_constant within interned)
  | kept _ loaded => exact loaded.loadedTexts_eq within known
  | moved _ loaded => simp [loaded.loadedTexts_eq within known]

/-- The code of a part loads the string literals of the part, one for one. -/
theorem Emits.loadedTexts_eq {fragment before after} (emits : Emits fragment stock code finish)
    (read : Reads fragment.part before after) (within : stock.Bounded)
    (known : finish.constants.toList <+: pool.toList) :
    loadedTexts pool code = fragment.strings.map some := by
  induction emits generalizing before after with
  | declaration stored | assignment stored => simpa using stored.loadedTexts_eq within known
  | value loaded => exact loaded.loadedTexts_eq within known
  | memberAssignment object loaded =>
    simp [loadedTexts_memberLoads object, loaded.loadedTexts_eq within known]
  | ret => simp
  | retValue loaded => simp [loaded.loadedTexts_eq within known]
  | conditional _ arms =>
    have .conditional chained := read
    simpa using arms chained within known
  | loop tested repeated _ _ body =>
    have .loop _ (.block inside) := read
    have bodyLoads := body inside (tested.grows.bounded within) known
    have conditionLoads := tested.loadedTexts_eq within (repeated.grows.constants.trans known)
    simp [conditionLoads, bodyLoads]
  | sync _ guarded =>
    have .sync _ _ _ (.block inside) := read
    simp [guarded inside within known]
  | nil => rfl
  | cons headEmitted tailEmitted head tail =>
    have .moreNodes headRead tailRead := read
    have headLoads := head headRead within (tailEmitted.grows.constants.trans known)
    have tailLoads := tail tailRead (headEmitted.grows.bounded within) known
    simp [headLoads, tailLoads]
  | arm tested blockEmitted restEmitted _ _ block rest =>
    have .arm _ (.block inside) restRead := read
    have entered := tested.grows.bounded within
    have later := restEmitted.grows.constants.trans known
    have conditionLoads := tested.loadedTexts_eq within (blockEmitted.grows.constants.trans later)
    have blockLoads := block inside entered later
    have restLoads := rest restRead (blockEmitted.grows.bounded entered) known
    simp [conditionLoads, blockLoads, restLoads]
  | alternative _ taken =>
    have .alternative (.block inside) := read
    simpa using taken inside within known
  | done =>
    cases read
    rfl

end Loads

/-! ## Programs -/

/-- What the instructions of a function that load constants load, in the order of its
code. -/
def FunctionCode.loadedTexts (function : FunctionCode) : List (Option String) :=
  SlotCompiler.loadedTexts function.constants
    ((Decoding.ofWords function.code.toList).items.toList.map Prod.snd)

theorem map_snd_placed (base : Nat) (code : List Instruction) :
    (placed base code).map Prod.snd = code := by
  induction code generalizing base with
  | nil => rfl
  | cons instruction rest ih => rw [placed, List.map_cons, ih]

theorem FunctionCode.ComesFrom.loadedTexts_eq {function : FunctionCode}
    {types item typed code finish entered left}
    (comesFrom : function.ComesFrom types item typed code finish)
    (read : item.WasRead entered left) :
    function.loadedTexts = (nodesStrings item.body).map some := by
  have fits := typeFunction_fits read comesFrom.typedOk
  have bodyLoads := comesFrom.emitted.loadedTexts_eq fits.body (fits.stock_bounded read)
    (List.prefix_refl _)
  have silent : SlotCompiler.loadedTexts finish.constants (closing typed.returnType?) = [] := by
    unfold closing
    split <;> rfl
  rw [loadedTexts, comesFrom.constants_eq, comesFrom.words_eq, Decoding.ofWords_encode,
    map_snd_placed, loadedTexts_append, bodyLoads, silent, List.append_nil, Fragment.strings,
    (typeFunction_resolved read comesFrom.typedOk).1.body_eq, nodesStrings_numbered]

/-- The pool of constants is an exact table of strings, after any strings were
interned: none stands in it twice, and it never holds more than its capacity.  The
number that a string is given leads back to it whatever is interned later.  A string
is refused exactly if it is new and the pool is full, and nothing changes then.
Therefore the constants that a compiled function loads are the string literals of its
body, in order. -/
theorem constants_intern_strings :
    (∀ texts : List String, let buffer := CodeBuffer.empty.internAll texts
      buffer.constants.toList.Nodup ∧ buffer.constants.size ≤ 65536 ∧
      (∀ text index later, CodeBuffer.intern text buffer = .ok index later →
        ∀ more, (later.internAll more).constants[index.toNat]? = some text) ∧
      ∀ text fault later, CodeBuffer.intern text buffer = .error fault later ↔
        (text ∉ buffer.constants ∧ buffer.constants.size = 65536) ∧
          fault = .tooManyConstants ∧ later = buffer) ∧
    ∀ config source program, (compile config source).outcome = .ok program →
      ∀ function ∈ program.functions, ∃ item ∈ (parseSource source).1.file.functions,
        item.name = function.name ∧
        function.loadedTexts = (nodesStrings item.body).map some := by
  refine ⟨fun texts => ?_, fun config source program compiled function member => ?_⟩
  · have interning := CodeBuffer.interning_empty.internAll texts
    refine ⟨interning.distinct, interning.size_le, ?_, ?_⟩
    · intro text index later ok more
      exact constant_of_grows (later.internAll_grows more) (interning.constant_eq ok)
    · exact fun text fault later => CodeBuffer.intern_eq_error_iff interning
  · obtain ⟨item, inFile, _, ⟨entered, left, read⟩, layer, ok⟩ := compile_origin compiled member
    obtain ⟨typed, code, finish, comesFrom⟩ := compileFunction_comesFrom ok
    exact ⟨item, inFile, (compileFunction_signature ok).1.symm,
      comesFrom.loadedTexts_eq read⟩

/-- Three literals, two of them equal, are loaded through two constants. -/
theorem constants_intern_strings_repeated :
    (∃ later, CodeBuffer.intern "x" (CodeBuffer.empty.internAll ["x", "y"]) = .ok 0 later ∧
      ∀ more, (later.internAll more).constants[0]? = some "x") ∧
    ∃ function ∈ compiledFunctions Config.standard ⟨"repeated",
      "fn f(a: int) -> string \x7b if (a < 1) \x7b return \"x\" + \"y\"; \x7d return \"x\"; \x7d"⟩,
      decide (function.constants = #["x", "y"] ∧
        function.loadedTexts = [some "x", some "y", some "x"]) = true ∧
      ∃ item : FunctionItem, item.name = function.name ∧
        function.loadedTexts = (nodesStrings item.body).map some := by
  obtain ⟨pools, programs⟩ := constants_intern_strings
  refine ⟨?_, exists_compiledFunction (by decide +kernel) fun compiled member => ?_⟩
  · have ok : CodeBuffer.intern "x" (CodeBuffer.empty.internAll ["x", "y"]) =
        .ok 0 ⟨#[], #["x", "y"]⟩ := by cbv
    exact ⟨_, ok, (pools ["x", "y"]).2.2.1 "x" 0 _ ok⟩
  · obtain ⟨item, _, named, loads⟩ := programs _ _ _ compiled _ member
    exact ⟨item, named, loads⟩

end SlotCompiler
