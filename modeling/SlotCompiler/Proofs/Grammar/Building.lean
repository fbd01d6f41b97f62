import SlotCompiler.Proofs.Grammar.File
import SlotCompiler.Proofs.Success

/-!
Contract: how the tree of what is written is built, step by step.

A tree says only that all is in order.  Building says also what goes wrong first.
-/

namespace SlotCompiler

variable {nesting : Nat}

/-- A step of building a tree in a function.  It gives something and what the function
has collected after it, or the cause for which it cannot. -/
abbrev Building := StateT Context (Except Cause)

/-! ## Steps -/

namespace Building

variable {cause : Context → Cause} {holds : Context → Bool} {name : String}

/-- What a change of the function gives, or the cause for which it gives nothing. -/
def ofOption {α : Type} (cause : Context → Cause) (change : Context → Option (α × Context)) :
    Building α := fun context =>
  match change context with
  | some given => .ok given
  | none => .error (cause context)

/-- Go on only if a condition holds in the function. -/
def require (holds : Context → Bool) (cause : Context → Cause) : Building Unit :=
  ofOption cause fun context => if holds context then some ((), context) else none

def lookup (name : String) : Building Slot :=
  ofOption (fun _ => .cannotFindSymbol name) fun context =>
    (context.scopes.lookup? name).map (·, context)

def temporary : Building Slot :=
  ofOption (fun context => .tooManyVariables context.function) Context.temporary?

def record (name : String) : Building Unit :=
  ofOption (fun _ => .selfDependency name) fun context => (context.record? name).map ((), ·)

/-- The innermost block does not have the name. -/
def requireFresh (name : String) : Building Unit :=
  require (!·.scopes.isTaken name) fun _ => .duplicateSymbol name

def declare (name : String) (isMutable : Bool) : Building Slot :=
  ofOption
    (fun context =>
      if context.scopes.isTaken name then .duplicateSymbol name
      else .tooManyVariables context.function)
    (·.declare? name isMutable)

/-- A part may be nested one level below this one. -/
def descend (nesting : Nat) : Building Unit :=
  require (fun _ => nesting < Input.nestingLimit) fun _ => .nestingTooDeep Input.nestingLimit

def lockDepth : Building Nat := fun context => .ok (context.scopes.lockDepth, context)

def enter (locks : Nat) : Building Unit := fun context =>
  .ok ((), context.withScopes (context.scopes.enter locks))

def leave : Building Unit := fun context => .ok ((), context.withScopes context.scopes.leave)

def enclosed {α : Type} (nesting locks : Nat) (inside : Nat → Building α) : Building α := do
  descend nesting
  enter locks
  let value ← inside (nesting + 1)
  leave
  return value

section Steps

variable {cause : Context → Cause} {holds : Context → Bool} {name : String}

variable {α β : Type} {context middle after : Context} {value : α}

theorem bind_of_ok {step} {next : α → Building β}
    (given : step context = .ok (value, middle)) : (step >>= next) context = next value middle := by
  show (step context >>= fun given => next given.1 given.2) = _
  rw [given]
  rfl

variable {step : Building α} {next : α → Building β}

theorem bind_of_error {cause} (failed : step context = .error cause) :
    (step >>= next) context = .error cause := by
  show (step context >>= fun given => next given.1 given.2) = _
  rw [failed]
  rfl

theorem bind_eq_ok_iff {value} :
    (step >>= next) context = .ok (value, after) ↔
      ∃ given middle, step context = .ok (given, middle) ∧
        next given middle = .ok (value, after) := by
  refine except_bind_eq_ok_iff.trans ?_
  rw [Prod.exists]

theorem bind_eq_error_iff {cause} :
    (step >>= next) context = .error cause ↔
      step context = .error cause ∨
        ∃ given middle, step context = .ok (given, middle) ∧ next given middle = .error cause := by
  show (step context >>= fun given => next given.1 given.2) = .error cause ↔ _
  rcases step context with other | ⟨given, middle⟩
  · simp [Bind.bind, Except.bind]
  · simp [Bind.bind, Except.bind]

theorem ofOption_eq_ok_iff {change : Context → Option (α × Context)} :
    ofOption cause change context = .ok (value, after) ↔ change context = some (value, after) := by
  unfold ofOption
  cases change context with
  | none => simp
  | some given => simp

theorem ofOption_eq_error {change : Context → Option (α × Context)} {given}
    (failed : ofOption cause change context = .error given) : cause context = given := by
  unfold ofOption at failed
  split at failed
  · contradiction
  · cases failed
    rfl

theorem require_of_holds (isHolding : holds context = true) :
    require holds cause context = .ok ((), context) :=
  ofOption_eq_ok_iff.mpr (if_pos isHolding)

theorem require_keeps (ran : require holds cause context = .ok ((), after)) : context = after := by
  obtain ⟨_, same⟩ := Option.ite_none_right_eq_some.mp (ofOption_eq_ok_iff.mp ran)
  cases same
  rfl

theorem require_of_fails (isFailing : holds context = false) :
    require holds cause context = .error (cause context) := by
  rw [require, ofOption, isFailing]
  rfl

theorem map_lockDepth (value : α) : (fun _ => value) <$> lockDepth = pure value := rfl

theorem lookup_of_found {slot} (found : context.scopes.lookup? name = some slot) :
    lookup name context = .ok (slot, context) :=
  ofOption_eq_ok_iff.mpr (congrArg (Option.map (·, context)) found)

theorem lookup_of_missing (missing : context.scopes.lookup? name = none) :
    lookup name context = .error (.cannotFindSymbol name) := by
  rw [lookup, ofOption, missing]
  rfl

theorem record_of_recorded (recorded : context.record? name = some after) :
    record name context = .ok ((), after) :=
  ofOption_eq_ok_iff.mpr (congrArg (Option.map ((), ·)) recorded)

theorem requireFresh_of_free (isFree : context.scopes.isTaken name = false) :
    requireFresh name context = .ok ((), context) :=
  require_of_holds (by rw [isFree]; rfl)

theorem descend_of_shallow (isShallow : nesting < Input.nestingLimit) (context : Context) :
    descend nesting context = .ok ((), context) :=
  require_of_holds (decide_eq_true isShallow)

end Steps

end Building

/-! ## Parts -/

def membersBuild : List (String × Position) → Building (List MemberStep)
  | [] => return []
  | (member, position) :: rest => do
      let destination ← .temporary
      let steps ← membersBuild rest
      return { member, destination, field? := none, position } :: steps

mutual

def Expression.build : Expression → Nat → Building Operand
  | .literal value, _ => return .literal value
  | .string raw, _ => return .string (String.ofList (BodyParser.decodeEscapes raw.toList))
  | .named name, _ => return .variable (← .lookup name)
  | .access name members position, _ => do
      let source ← .lookup name
      return .node (.access { source, steps := ← membersBuild members, position })
  | .call name arguments position, nesting => do
      let arguments ← argumentsBuild arguments nesting
      .record name
      return .call { name, arguments, position }
  | .group inner, nesting => do
      .descend nesting
      inner.build (nesting + 1)
  | .binary operator lhs rhs position, nesting => do
      let left ← lhs.build nesting
      .descend (nesting + lhs.spine)
      let right ← rhs.build (nesting + lhs.spine + 1)
      let destination ← .temporary
      return .node (.binary operator left right destination position)

def argumentsBuild : List Expression → Nat → Building (List Operand)
  | [], _ => return []
  | value :: rest, nesting => do
      let first ← value.build nesting
      let others ← argumentsBuild rest nesting
      return first :: others

end

def callBuild (name : String) (arguments : List Expression) (position : Position)
    (nesting : Nat) : Building Call := do
  let arguments ← argumentsBuild arguments nesting
  .record name
  return { name, arguments, position }

theorem Expression.build_call (name : String) (arguments : List Expression) (position : Position)
    (nesting : Nat) :
    (Expression.call name arguments position).build nesting =
      (return .call (← callBuild name arguments position nesting)) := by
  simp only [Expression.build, callBuild, bind_assoc, pure_bind]

def locksBuild : List Lock → List WrittenLock → Building (List Lock)
  | given, [] => return given
  | given, ⟨name, exclusive⟩ :: rest => do
      let slot ← .lookup name
      .require (fun _ => slot ∉ given.map Lock.slot) fun _ => .duplicateSymbol name
      locksBuild (given ++ [⟨name, slot, exclusive⟩]) rest

mutual

def Statement.build : Statement → Nat → Building Node
  | .declaration isMutable name declared? value position, nesting => do
      .requireFresh name
      let value ← value.build nesting
      let slot ← .declare name isMutable
      return .declaration name slot isMutable declared? value position
  | .assignment name value position, nesting => do
      let slot ← .lookup name
      return .assignment slot (← value.build nesting) position
  | .memberAssignment name members member value position, nesting => do
      let source ← .lookup name
      let steps ← membersBuild members
      let value ← value.build nesting
      return .memberAssignment { source, steps, position } member none value position
  | .ret none position, _ => return .ret none (← .lockDepth) position
  | .ret (some value) position, nesting => do
      let value ← value.build nesting
      return .ret (some value) (← .lockDepth) position
  | .call name arguments position, nesting =>
    return .call (← callBuild name arguments position nesting)
  | .conditional arms position, nesting => do
      let trees ← arms.build nesting
      return .conditional trees.1 trees.2 position
  | .loop condition body position, nesting => do
      let condition ← condition.build nesting
      let body ← .enclosed nesting 0 (statementsBuild body)
      return .loop condition body position
  | .sync locks body position, nesting => do
      let locks ← locksBuild [] locks
      .require (fun _ => locks.length < 0x10000) (.tooManyVariables ·.function)
      let body ← .enclosed nesting locks.length (statementsBuild body)
      return .sync locks body position

def Arms.build : Arms → Nat → Building (List Operand × List Block)
  | .last condition body, nesting => do
      let condition ← condition.build nesting
      let body ← .enclosed nesting 0 (statementsBuild body)
      return ([condition], [body])
  | .otherwise condition body alternative, nesting => do
      let condition ← condition.build nesting
      let body ← .enclosed nesting 0 (statementsBuild body)
      let alternative ← .enclosed nesting 0 (statementsBuild alternative)
      return ([condition], [body, alternative])
  | .more condition body rest, nesting => do
      let condition ← condition.build nesting
      let body ← .enclosed nesting 0 (statementsBuild body)
      let trees ← rest.build nesting
      return (condition :: trees.1, body :: trees.2)

def statementsBuild : List Statement → Nat → Building (List Node)
  | [], _ => return []
  | written :: rest, nesting => do
      let node ← written.build nesting
      let nodes ← statementsBuild rest nesting
      return node :: nodes

end

def parametersBuild : List WrittenParameter → Building (List Parameter)
  | [] => return []
  | ⟨name, isMutable, type⟩ :: rest => do
      let slot ← .declare name isMutable
      let others ← parametersBuild rest
      return ⟨name, slot, isMutable, type⟩ :: others

/-! ## Whatever has a tree is built -/

open Building

theorem locksBuild_of_built {locks given found} {context : Context}
    (built : locksTree? context.scopes locks = some found)
    (distinct : ((given ++ found).map Lock.slot).Nodup) :
    locksBuild given locks context = .ok (given ++ found, context) := by
  induction locks generalizing given found with
  | nil =>
    cases built
    rw [List.append_nil]
    rfl
  | cons lock rest ih =>
    rcases lock with ⟨name, exclusive⟩
    obtain ⟨slot, isVisible, built⟩ := Option.bind_eq_some_iff.mp built
    obtain ⟨others, othersBuilt, ⟨⟩⟩ := Option.bind_eq_some_iff.mp built
    have isNew : slot ∉ given.map Lock.slot := by
      rw [List.map_append, List.map_cons] at distinct
      exact fun isTwice => List.disjoint_of_nodup_append distinct isTwice List.mem_cons_self
    have added : given ++ ⟨name, slot, exclusive⟩ :: others =
        (given ++ [⟨name, slot, exclusive⟩]) ++ others := by simp
    refine (bind_of_ok (lookup_of_found isVisible)).trans ?_
    refine (bind_of_ok (require_of_holds (decide_eq_true isNew))).trans ?_
    rw [added] at distinct ⊢
    exact ih othersBuilt distinct

/-- Building the part gives the tree. -/
def WrittenPart.Gives (part : WrittenPart) (nesting : Nat) (tree : TreePart)
    (context after : Context) : Prop :=
  match part, tree with
  | .value written, .operand tree => written.build nesting context = .ok (tree, after)
  | .members names, .steps steps => membersBuild names context = .ok (steps, after)
  | .arguments values, .operands trees => argumentsBuild values nesting context = .ok (trees, after)
  | .statement written, .node node => written.build nesting context = .ok (node, after)
  | .arms written, .arms conditions blocks =>
    written.build nesting context = .ok ((conditions, blocks), after)
  | .body statements, .nodes nodes => statementsBuild statements nesting context = .ok (nodes, after)
  | .block locks statements, .block _ nodes =>
    Building.enclosed nesting locks (statementsBuild statements) context = .ok (nodes, after)
  | _, _ => False

theorem Builds.gives {part tree context after} (builds : Builds part nesting tree context after) :
    part.Gives nesting tree context after := by
  induction builds with
  | literal | string | noMembers | noArguments | ret | noStatements => rfl
  | named found => exact bind_of_ok (lookup_of_found found)
  | access found _ inner | assignment found _ inner =>
    exact (bind_of_ok (lookup_of_found found)).trans (bind_of_ok inner)
  | call _ recorded given =>
    exact (bind_of_ok given).trans (bind_of_ok (record_of_recorded recorded))
  | group isShallow _ inner => exact (bind_of_ok (descend_of_shallow isShallow _)).trans inner
  | binary _ isShallow _ added left right =>
    refine (bind_of_ok left).trans ((bind_of_ok (descend_of_shallow isShallow _)).trans ?_)
    exact (bind_of_ok right).trans (bind_of_ok (ofOption_eq_ok_iff.mpr added))
  | moreMembers added _ tail =>
    exact (bind_of_ok (ofOption_eq_ok_iff.mpr added)).trans (bind_of_ok tail)
  | declaration valueBuilds declared initial =>
    -- The initial value declares nothing, so the name is free before it as well.
    obtain ⟨isFree, _⟩ := Context.declare?_eq_some_iff.mp declared
    rw [valueBuilds.reads.scopes_eq rfl] at isFree
    refine (bind_of_ok (requireFresh_of_free isFree)).trans ?_
    exact (bind_of_ok initial).trans (bind_of_ok (ofOption_eq_ok_iff.mpr declared))
  | memberAssignment found _ _ projected assigned =>
    refine (bind_of_ok (lookup_of_found found)).trans ?_
    exact (bind_of_ok projected).trans (bind_of_ok assigned)
  | retValue _ inner | conditional _ inner => exact bind_of_ok inner
  | callStatement _ invoked =>
    rw [WrittenPart.Gives, Expression.build_call] at invoked
    obtain ⟨_, _, called, ⟨⟩⟩ := Building.bind_eq_ok_iff.mp invoked
    exact bind_of_ok called
  | sync areVisible distinct few _ guarded =>
    refine (bind_of_ok (@locksBuild_of_built _ [] _ _ areVisible distinct)).trans ?_
    exact (bind_of_ok (require_of_holds (decide_eq_true few))).trans (bind_of_ok guarded)
  | moreArguments _ _ first second | moreStatements _ _ first second | loop _ _ first second
  | last _ _ first second => exact (bind_of_ok first).trans (bind_of_ok second)
  | otherwise _ _ _ first second third | moreArms _ _ _ first second third =>
    exact (bind_of_ok first).trans ((bind_of_ok second).trans (bind_of_ok third))
  | block isShallow _ inside =>
    refine (bind_of_ok (descend_of_shallow isShallow _)).trans ?_
    exact (bind_of_ok rfl).trans ((bind_of_ok inside).trans rfl)

theorem parametersBuild_of_built {parameters context after trees}
    (built : parametersTree? parameters context = some (trees, after)) :
    parametersBuild parameters context = .ok (trees, after) := by
  induction parameters generalizing context trees with
  | nil =>
    cases built
    rfl
  | cons parameter rest ih =>
    obtain ⟨_, _, _, declared, restBuilt, rfl⟩ := parametersTree?_cons_eq_some.mp built
    refine (bind_of_ok (ofOption_eq_ok_iff.mpr declared)).trans ?_
    exact bind_of_ok (ih restBuilt)

theorem Building.declare_ne_missing (declared : String) (isMutable : Bool) (context : Context)
    (name : String) : declare declared isMutable context ≠ .error (.cannotFindSymbol name) := by
  intro failed
  have isCause := ofOption_eq_error failed
  split at isCause <;> cases isCause

theorem parametersBuild_ne_missing (parameters : List WrittenParameter) (context : Context)
    (name : String) : parametersBuild parameters context ≠ .error (.cannotFindSymbol name) := by
  induction parameters generalizing context with
  | nil =>
    intro failed
    contradiction
  | cons parameter rest ih =>
    intro failed
    rcases Building.bind_eq_error_iff.mp failed with declaring | ⟨_, middle, _, failed⟩
    · exact declare_ne_missing _ _ context name declaring
    · rcases Building.bind_eq_error_iff.mp failed with restFailed | ⟨_, _, _, ⟨⟩⟩
      exact ih middle restFailed

end SlotCompiler
