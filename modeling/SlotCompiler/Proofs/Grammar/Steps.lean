import SlotCompiler.Proofs.Grammar.Building
import SlotCompiler.Proofs.Tree.LexicalScope

/-!
Contract: what is written as a row of steps.

Building a part gives its tree only if all of it is in order.  Its steps say also how
far it is in order, which is as far as it is parsed.
-/

namespace SlotCompiler

open Statement

variable {name : String}

/-! ## Steps -/

/-- What is checked while a function is read, besides what its events need. -/
inductive Rule where
  /-- A part may be nested one level below this one. -/
  | nested (level : Nat)
  /-- The innermost block does not have the name. -/
  | fresh (name : String)
  /-- A variable is none of those locked together with it. -/
  | unlocked (name : String) (others : List String)
  /-- So many variables may be locked together. -/
  | lockCount (count : Nat)
deriving DecidableEq, Repr

/-- A step in which a function is read. -/
inductive WrittenStep where
  | event (written : WrittenEvent)
  | rule (checked : Rule)
deriving DecidableEq, Repr

def WrittenStep.event? : WrittenStep → Option WrittenEvent
  | .event written => some written
  | .rule _ => none

def membersSteps : List (String × Position) → List WrittenStep
  | [] => []
  | _ :: rest => .event (.computes ()) :: membersSteps rest

mutual

def Expression.steps : Expression → Nat → List WrittenStep
  | .literal _, _ => []
  | .string _, _ => []
  | .named name, _ => [.event (.uses name)]
  | .access name members _, _ => .event (.uses name) :: membersSteps members
  | .call name arguments _, nesting => argumentsSteps arguments nesting ++ [.event (.calls name)]
  | .group inner, nesting => .rule (.nested nesting) :: inner.steps (nesting + 1)
  | .binary _ lhs rhs _, nesting =>
    lhs.steps nesting ++ .rule (.nested (nesting + lhs.spine)) ::
      (rhs.steps (nesting + lhs.spine + 1) ++ [.event (.computes ())])

def argumentsSteps : List Expression → Nat → List WrittenStep
  | [], _ => []
  | value :: rest, nesting => value.steps nesting ++ argumentsSteps rest nesting

end

def lockSteps : List String → List WrittenLock → List WrittenStep
  | _, [] => []
  | locked, ⟨name, _⟩ :: rest =>
    .event (.uses name) :: .rule (.unlocked name locked) :: lockSteps (locked ++ [name]) rest

def blockSteps (locks nesting : Nat) (inside : List WrittenStep) : List WrittenStep :=
  .rule (.nested nesting) :: .event (.opens locks) :: (inside ++ [.event .closes])

mutual

def Statement.steps : Statement → Nat → List WrittenStep
  | .declaration isMutable name _ value _, nesting =>
    .rule (.fresh name) :: (value.steps nesting ++ [.event (.declares name isMutable ())])
  | .assignment name value _, nesting => .event (.uses name) :: value.steps nesting
  | .memberAssignment name members _ value _, nesting =>
    .event (.uses name) :: (membersSteps members ++ value.steps nesting)
  | .ret none _, _ => []
  | .ret (some value) _, nesting => value.steps nesting
  | .call name arguments _, nesting => argumentsSteps arguments nesting ++ [.event (.calls name)]
  | .conditional arms _, nesting => arms.steps nesting
  | .loop condition body _, nesting =>
    condition.steps nesting ++ blockSteps 0 nesting (statementsSteps body (nesting + 1))
  | .sync locks body _, nesting =>
    lockSteps [] locks ++ .rule (.lockCount locks.length) ::
      blockSteps locks.length nesting (statementsSteps body (nesting + 1))

def Arms.steps : Arms → Nat → List WrittenStep
  | .last condition body, nesting =>
    condition.steps nesting ++ blockSteps 0 nesting (statementsSteps body (nesting + 1))
  | .otherwise condition body alternative, nesting =>
    condition.steps nesting ++ blockSteps 0 nesting (statementsSteps body (nesting + 1)) ++
      blockSteps 0 nesting (statementsSteps alternative (nesting + 1))
  | .more condition body rest, nesting =>
    condition.steps nesting ++ blockSteps 0 nesting (statementsSteps body (nesting + 1)) ++
      rest.steps nesting

def statementsSteps : List Statement → Nat → List WrittenStep
  | [], _ => []
  | written :: rest, nesting => written.steps nesting ++ statementsSteps rest nesting

end

def parametersSteps : List WrittenParameter → List WrittenStep
  | [] => []
  | ⟨name, isMutable, _⟩ :: rest => .event (.declares name isMutable ()) :: parametersSteps rest

/-- The steps of a function: its parameters are declared, and then its body is read. -/
def WrittenFunction.steps (item : WrittenFunction) : List WrittenStep :=
  parametersSteps item.parameters ++ statementsSteps item.body 0

/-- What happens to the variables of a function, by name. -/
def WrittenFunction.events (item : WrittenFunction) : List WrittenEvent :=
  item.steps.filterMap WrittenStep.event?

/-! ## Following steps -/

def Rule.check : Rule → Building Unit
  | .nested level => .descend level
  | .fresh name => .requireFresh name
  | .unlocked name others =>
    .require (fun context => context.scopes.lookup? name ∉ others.map context.scopes.lookup?)
      fun _ => .duplicateSymbol name
  | .lockCount count => .require (fun _ => count < 0x10000) (.tooManyVariables ·.function)

def WrittenEvent.happen : WrittenEvent → Building SlotEvent
  | .opens locks => do
      .enter locks
      return .opens locks
  | .closes => do
      .leave
      return .closes
  | .declares name isMutable _ => return .declares name isMutable (← .declare name isMutable)
  | .computes _ => return .computes (← .temporary)
  | .uses name => return .uses (← .lookup name)
  | .calls name => do
      .record name
      return .calls name

/-- Check the rules of the steps and let their events happen, one after the other. -/
def follow : List WrittenStep → Building (List SlotEvent)
  | [] => return []
  | .event written :: rest => return (← written.happen) :: (← follow rest)
  | .rule checked :: rest => do
      checked.check
      follow rest

theorem follow_append (first second : List WrittenStep) :
    follow (first ++ second) = (do return (← follow first) ++ (← follow second)) := by
  induction first with
  | nil => simp [follow]
  | cons step rest ih =>
    cases step with
    | event written => simp [follow, ih]
    | rule checked => simp [follow, ih]

theorem follow_membersSteps (members : List (String × Position)) :
    follow (membersSteps members) = (do return stepsTrace (← membersBuild members)) := by
  induction members with
  | nil => rfl
  | cons member rest ih =>
    simp [membersSteps, membersBuild, follow, ih, WrittenEvent.happen, stepsTrace]

mutual

theorem Expression.follow_steps (value : Expression) (nesting : Nat) :
    follow (value.steps nesting) = (do return (← value.build nesting).trace) := by
  match value with
  | .literal _ | .string _ => rfl
  | .named name => simp [Expression.steps, Expression.build, follow, WrittenEvent.happen]
  | .access name members position =>
    simp [Expression.steps, Expression.build, follow, WrittenEvent.happen, follow_membersSteps]
  | .call name arguments position =>
    simp [Expression.steps, Expression.build, follow_append, follow, WrittenEvent.happen,
      follow_argumentsSteps arguments]
  | .group inner =>
    simp [Expression.steps, Expression.build, follow, Rule.check, inner.follow_steps]
  | .binary operator lhs rhs position =>
    simp [Expression.steps, Expression.build, follow_append, follow, Rule.check,
      WrittenEvent.happen, lhs.follow_steps, rhs.follow_steps]

theorem follow_argumentsSteps (values : List Expression) (nesting : Nat) :
    follow (argumentsSteps values nesting) =
      (do return (operandsTraces (← argumentsBuild values nesting)).flatten) := by
  match values with
  | [] => rfl
  | value :: rest =>
    simp [argumentsSteps, argumentsBuild, follow_append, value.follow_steps,
      follow_argumentsSteps rest]

end

theorem follow_blockSteps {body nesting}
    (insideEq : follow (statementsSteps body (nesting + 1)) =
      (do return nodesTrace (← statementsBuild body (nesting + 1)))) (locks : Nat) :
    follow (blockSteps locks nesting (statementsSteps body (nesting + 1))) =
      (do return enclosed locks (nodesTrace (← .enclosed nesting locks (statementsBuild body)))) := by
  simp [blockSteps, follow, follow_append, Rule.check, WrittenEvent.happen, insideEq,
    Building.enclosed, enclosed]

open Building

theorem follow_lockSteps {locks} {locked : List String} {given : List Lock} {context : Context}
    (isGiven : locked.map context.scopes.lookup? = given.map fun lock => some lock.slot) :
    (∃ found, locksBuild given locks context = .ok (given ++ found, context) ∧
      found.length = locks.length ∧
      follow (lockSteps locked locks) context = .ok (found.map fun lock => .uses lock.slot, context)) ∨
    ∃ cause, locksBuild given locks context = .error cause ∧
      follow (lockSteps locked locks) context = .error cause := by
  induction locks generalizing locked given with
  | nil => exact .inl ⟨[], by rw [List.append_nil]; rfl, rfl, rfl⟩
  | cons lock rest ih =>
    rcases lock with ⟨name, exclusive⟩
    have followEq : follow (lockSteps locked (⟨name, exclusive⟩ :: rest)) = (do
        let slot ← .lookup name
        Rule.check (.unlocked name locked)
        return .uses slot :: (← follow (lockSteps (locked ++ [name]) rest))) := by
      simp [lockSteps, follow, WrittenEvent.happen]
    rw [followEq, locksBuild]
    cases found : context.scopes.lookup? name with
    | none =>
      have missing := lookup_of_missing found
      exact .inr ⟨_, bind_of_error missing, bind_of_error missing⟩
    | some slot =>
      rw [bind_of_ok (lookup_of_found found), bind_of_ok (lookup_of_found found)]
      have sameRule : (context.scopes.lookup? name ∉ locked.map context.scopes.lookup?) ↔
          slot ∉ given.map Lock.slot := by
        rw [found, isGiven]
        simp
      by_cases isNew : slot ∉ given.map Lock.slot
      · have isChecked : Rule.check (.unlocked name locked) context = .ok ((), context) :=
          require_of_holds (decide_eq_true (sameRule.mpr isNew))
        rw [bind_of_ok (require_of_holds (decide_eq_true isNew)), bind_of_ok isChecked]
        have isGivenToo : (locked ++ [name]).map context.scopes.lookup? =
            (given ++ [(⟨name, slot, exclusive⟩ : Lock)]).map fun lock => some lock.slot := by
          simp [isGiven, found]
        rcases ih isGivenToo with
          ⟨others, built, lengthEq, followed⟩ | ⟨cause, failed, stopped⟩
        · refine .inl ⟨⟨name, slot, exclusive⟩ :: others, ?_, congrArg Nat.succ lengthEq,
            bind_of_ok followed⟩
          rw [built, List.append_assoc, List.singleton_append]
        · exact .inr ⟨cause, failed, bind_of_error stopped⟩
      · have isTwice : Rule.check (.unlocked name locked) context =
            .error (.duplicateSymbol name) :=
          require_of_fails (decide_eq_false (sameRule.not.mpr isNew))
        exact .inr ⟨_, bind_of_error (require_of_fails (decide_eq_false isNew)),
          bind_of_error isTwice⟩

theorem follow_sync {locks body position nesting}
    (insideEq : follow (statementsSteps body (nesting + 1)) =
      (do return nodesTrace (← statementsBuild body (nesting + 1)))) :
    follow ((sync locks body position).steps nesting) =
      (do return (← (sync locks body position).build nesting).trace) := by
  funext context
  rw [steps, build, follow_append]
  simp only [bind_assoc]
  rcases @follow_lockSteps locks [] [] context rfl with
    ⟨found, built, lengthEq, followed⟩ | ⟨cause, failed, stopped⟩
  · rw [bind_of_ok followed, bind_of_ok built]
    simp [follow, Rule.check, follow_blockSteps insideEq, lengthEq]
  · rw [bind_of_error stopped, bind_of_error failed]

mutual

theorem Statement.follow_steps (written : Statement) (nesting : Nat) :
    follow (written.steps nesting) = (do return (← written.build nesting).trace) := by
  match written with
  | .declaration isMutable name declared? value position =>
    simp [steps, build, follow, follow_append, Rule.check, WrittenEvent.happen, value.follow_steps]
  | .assignment name value position =>
    simp [steps, build, follow, WrittenEvent.happen, value.follow_steps]
  | .memberAssignment name members member value position =>
    simp [steps, build, follow, follow_append, WrittenEvent.happen,
      follow_membersSteps, value.follow_steps]
  | .ret none position => rfl
  | .ret (some value) position => simp [steps, build, value.follow_steps, map_lockDepth]
  | .call name arguments position =>
    simp [steps, build, callBuild, follow, follow_append,
      WrittenEvent.happen, follow_argumentsSteps]
  | .conditional arms position => simp [steps, build, arms.follow_steps]
  | .loop condition body position =>
    simp [steps, build, follow_append, condition.follow_steps,
      follow_blockSteps (follow_statementsSteps body _)]
  | .sync locks body position => exact follow_sync (follow_statementsSteps body _)

theorem Arms.follow_steps (written : Arms) (nesting : Nat) :
    follow (written.steps nesting) = (do
      let trees ← written.build nesting
      return alternate (operandsTraces trees.1) (blocksTraces trees.2)) := by
  match written with
  | .last condition body =>
    simp [Arms.steps, Arms.build, follow_append, condition.follow_steps, alternate,
      follow_blockSteps (follow_statementsSteps body _)]
  | .otherwise condition body alternative =>
    simp [Arms.steps, Arms.build, follow_append, condition.follow_steps, alternate,
      follow_blockSteps (follow_statementsSteps body _),
      follow_blockSteps (follow_statementsSteps alternative _)]
  | .more condition body rest =>
    simp [Arms.steps, Arms.build, follow_append, condition.follow_steps, alternate,
      follow_blockSteps (follow_statementsSteps body _), rest.follow_steps]

theorem follow_statementsSteps (body : List Statement) (nesting : Nat) :
    follow (statementsSteps body nesting) =
      (do return nodesTrace (← statementsBuild body nesting)) := by
  match body with
  | [] => rfl
  | written :: rest =>
    simp [statementsSteps, statementsBuild, follow_append, written.follow_steps,
      follow_statementsSteps rest]

end

theorem follow_parametersSteps (parameters : List WrittenParameter) :
    follow (parametersSteps parameters) =
      (do return parametersTrace (← parametersBuild parameters)) := by
  induction parameters with
  | nil => rfl
  | cons parameter rest ih =>
    simp [parametersSteps, parametersBuild, follow, ih, WrittenEvent.happen, parametersTrace]

theorem WrittenFunction.follow_steps (item : WrittenFunction) :
    follow item.steps = (do
      let parameters ← parametersBuild item.parameters
      let body ← statementsBuild item.body 0
      return parametersTrace parameters ++ nodesTrace body) := by
  rw [WrittenFunction.steps, follow_append, follow_parametersSteps, follow_statementsSteps]
  simp only [bind_assoc, pure_bind]

theorem WrittenFunction.follow_of_tree {item : WrittenFunction} {tree}
    (built : item.tree? = some tree) :
    ∃ after, follow item.steps (.initial item.name) = .ok (tree.trace, after) := by
  obtain ⟨parameters, entered, body, left, parametersBuilt, bodyBuilt, rfl⟩ :=
    WrittenFunction.tree?_eq_some.mp built
  refine ⟨left, ?_⟩
  rw [item.follow_steps, bind_of_ok (parametersBuild_of_built parametersBuilt),
    bind_of_ok (statementsTree?_builds item.body bodyBuilt).gives]
  rfl

/-! ## Open blocks -/

def WrittenStep.level? : WrittenStep → Nat → Option Nat
  | .event (.opens _), level => some (level + 1)
  | .event .closes, level => if level = 0 then none else some (level - 1)
  | _, level => some level

def levelAfter (steps : List WrittenStep) (level : Nat) : Option Nat :=
  steps.foldlM (fun level step => step.level? level) level

theorem levelAfter_append (first second : List WrittenStep) (level : Nat) :
    levelAfter (first ++ second) level = levelAfter first level >>= levelAfter second :=
  List.foldlM_append

theorem levelAfter_cons (step : WrittenStep) (rest : List WrittenStep) (level : Nat) :
    levelAfter (step :: rest) level = step.level? level >>= levelAfter rest := rfl

theorem levelAfter_membersSteps (members : List (String × Position)) (level : Nat) :
    levelAfter (membersSteps members) level = some level := by
  induction members with
  | nil => rfl
  | cons member rest ih => exact ih

mutual

theorem Expression.levelAfter_steps (value : Expression) (nesting level : Nat) :
    levelAfter (value.steps nesting) level = some level := by
  match value with
  | .literal _ | .string _ | .named _ => rfl
  | .access name members _ => exact levelAfter_membersSteps members level
  | .call name arguments _ =>
    rw [Expression.steps, levelAfter_append, levelAfter_argumentsSteps arguments]
    rfl
  | .group inner => exact inner.levelAfter_steps (nesting + 1) level
  | .binary _ lhs rhs _ =>
    rw [Expression.steps, levelAfter_append, lhs.levelAfter_steps]
    simp [levelAfter_cons, levelAfter_append, rhs.levelAfter_steps, WrittenStep.level?]
    rfl

theorem levelAfter_argumentsSteps (values : List Expression) (nesting level : Nat) :
    levelAfter (argumentsSteps values nesting) level = some level := by
  match values with
  | [] => rfl
  | value :: rest =>
    rw [argumentsSteps, levelAfter_append, value.levelAfter_steps]
    exact levelAfter_argumentsSteps rest nesting level

end

theorem levelAfter_lockSteps (locked : List String) (locks : List WrittenLock) (level : Nat) :
    levelAfter (lockSteps locked locks) level = some level := by
  induction locks generalizing locked with
  | nil => rfl
  | cons lock rest ih => exact ih _

theorem levelAfter_blockSteps {inside level}
    (insideLevel : levelAfter inside (level + 1) = some (level + 1)) (locks nesting : Nat) :
    levelAfter (blockSteps locks nesting inside) level = some level := by
  show levelAfter (inside ++ [.event .closes]) (level + 1) = _
  rw [levelAfter_append, insideLevel]
  rfl

theorem levelAfter_guarded {inside level}
    (insideLevel : levelAfter inside (level + 1) = some (level + 1)) (condition : Expression)
    (nesting : Nat) :
    levelAfter (condition.steps nesting ++ blockSteps 0 nesting inside) level = some level := by
  rw [levelAfter_append, condition.levelAfter_steps]
  exact levelAfter_blockSteps insideLevel 0 nesting

mutual

theorem Statement.levelAfter_steps (written : Statement) (nesting level : Nat) :
    levelAfter (written.steps nesting) level = some level := by
  match written with
  | .declaration _ _ _ value _ =>
    show levelAfter (value.steps nesting ++ _) level = _
    rw [levelAfter_append, value.levelAfter_steps]
    rfl
  | .assignment _ value _ => exact value.levelAfter_steps nesting level
  | .memberAssignment _ members _ value _ =>
    show levelAfter (membersSteps members ++ value.steps nesting) level = _
    rw [levelAfter_append, levelAfter_membersSteps]
    exact value.levelAfter_steps nesting level
  | .ret none _ => rfl
  | .ret (some value) _ => exact value.levelAfter_steps nesting level
  | .call _ arguments _ =>
    rw [steps, levelAfter_append, levelAfter_argumentsSteps]
    rfl
  | .conditional arms _ => exact arms.levelAfter_steps nesting level
  | .loop condition body _ => exact levelAfter_guarded (levelAfter_statementsSteps body _ _) _ _
  | .sync locks body _ =>
    rw [steps, levelAfter_append, levelAfter_lockSteps]
    exact levelAfter_blockSteps (levelAfter_statementsSteps body _ _) locks.length nesting

theorem Arms.levelAfter_steps (written : Arms) (nesting level : Nat) :
    levelAfter (written.steps nesting) level = some level := by
  match written with
  | .last condition body => exact levelAfter_guarded (levelAfter_statementsSteps body _ _) _ _
  | .otherwise condition body alternative =>
    rw [Arms.steps, levelAfter_append, levelAfter_guarded (levelAfter_statementsSteps body _ _)]
    exact levelAfter_blockSteps (levelAfter_statementsSteps alternative _ _) 0 nesting
  | .more condition body rest =>
    rw [Arms.steps, levelAfter_append, levelAfter_guarded (levelAfter_statementsSteps body _ _)]
    exact rest.levelAfter_steps nesting level

theorem levelAfter_statementsSteps (body : List Statement) (nesting level : Nat) :
    levelAfter (statementsSteps body nesting) level = some level := by
  match body with
  | [] => rfl
  | written :: rest =>
    rw [statementsSteps, levelAfter_append, written.levelAfter_steps]
    exact levelAfter_statementsSteps rest nesting level

end

theorem WrittenFunction.levelAfter_steps (item : WrittenFunction) :
    levelAfter item.steps 0 = some 0 := by
  have ofParameters (parameters : List WrittenParameter) :
      levelAfter (parametersSteps parameters) 0 = some 0 := by
    induction parameters with
    | nil => rfl
    | cons parameter rest ih => exact ih
  rw [WrittenFunction.steps, levelAfter_append, ofParameters]
  exact levelAfter_statementsSteps item.body 0 0

theorem WrittenFunction.exists_levelAfter (item : WrittenFunction) {front back}
    (split : item.steps = front ++ back) :
    ∃ level, levelAfter front 0 = some level ∧ levelAfter back level = some 0 := by
  have isLevel := item.levelAfter_steps
  rw [split, levelAfter_append] at isLevel
  exact Option.bind_eq_some_iff.mp isLevel

/-! ## Names -/

section Names

variable {context after : Context} {before events : List SlotEvent} {level : Nat}

theorem Rule.exists_check_eq (checked : Rule) :
    ∃ holds cause, checked.check = .require holds cause ∧
      ∀ context name, cause context ≠ .cannotFindSymbol name := by
  cases checked with
  | nested | fresh | unlocked | lockCount => exact ⟨_, _, rfl, by simp⟩

theorem Rule.check_keeps {checked : Rule} (isChecked : checked.check context = .ok ((), after)) :
    context = after := by
  obtain ⟨holds, cause, checkEq, _⟩ := checked.exists_check_eq
  rw [checkEq] at isChecked
  exact require_keeps isChecked

theorem happen_resolves {written event}
    (isLevel : (WrittenStep.event written).level? context.scopes.outer.length = some level)
    (happened : written.happen context = .ok (event, after))
    (describes : context.scopes.Describes before) :
    ResolvesEvent before written event ∧ after.scopes.Describes (before ++ [event]) ∧
      after.scopes.outer.length = level := by
  cases written with
  | opens locks =>
    cases isLevel
    cases happened
    exact ⟨.opens locks, describes.enter locks, rfl⟩
  | closes =>
    cases happened
    obtain ⟨isInner, levelEq⟩ := Option.ite_none_left_eq_some.mp isLevel
    cases levelEq
    exact ⟨.closes, describes.leave (mt (congrArg List.length) isInner), context.scopes.length_leave⟩
  | declares name isMutable =>
    obtain ⟨slot, _, declared, ⟨⟩⟩ := Building.bind_eq_ok_iff.mp happened
    obtain ⟨_, frame, scopes, _, ran, rfl⟩ :=
      Context.declare?_eq_some_iff.mp (ofOption_eq_ok_iff.mp declared)
    cases isLevel
    exact ⟨.declares _ _ _, describes.declare ran,
      congrArg List.length (ScopeChain.sameBlocks_declare? ran).outer⟩
  | computes =>
    obtain ⟨slot, _, added, ⟨⟩⟩ := Building.bind_eq_ok_iff.mp happened
    cases isLevel
    rw [(Context.temporary?_extends (ofOption_eq_ok_iff.mp added)).1]
    exact ⟨.computes _, describes.other rfl rfl rfl, rfl⟩
  | uses name =>
    obtain ⟨_, _, looked, ⟨⟩⟩ := Building.bind_eq_ok_iff.mp happened
    obtain ⟨slot, found, ⟨⟩⟩ := Option.map_eq_some_iff.mp (ofOption_eq_ok_iff.mp looked)
    cases isLevel
    exact ⟨.uses (describes.selects found), describes.other rfl rfl rfl, rfl⟩
  | calls name =>
    obtain ⟨_, _, ran, ⟨⟩⟩ := Building.bind_eq_ok_iff.mp happened
    obtain ⟨_, recorded, ⟨⟩⟩ := Option.map_eq_some_iff.mp (ofOption_eq_ok_iff.mp ran)
    cases isLevel
    rw [(Context.record?_extends recorded).1]
    exact ⟨.calls _, describes.other rfl rfl rfl, rfl⟩

theorem follow_resolves {steps}
    (isLevel : levelAfter steps context.scopes.outer.length = some level)
    (followed : follow steps context = .ok (events, after))
    (describes : context.scopes.Describes before) :
    Resolves before (steps.filterMap WrittenStep.event?) events ∧
      after.scopes.Describes (before ++ events) := by
  induction steps generalizing context before events with
  | nil =>
    cases followed
    rw [List.append_nil]
    exact ⟨.nil, describes⟩
  | cons step rest ih =>
    cases step with
    | rule checked =>
      obtain ⟨_, middle, isChecked, restFollowed⟩ := Building.bind_eq_ok_iff.mp followed
      cases checked.check_keeps isChecked
      exact ih isLevel restFollowed describes
    | event written =>
      obtain ⟨event, middle, happened, restFollowed⟩ := Building.bind_eq_ok_iff.mp followed
      obtain ⟨others, _, othersFollowed, ⟨⟩⟩ := Building.bind_eq_ok_iff.mp restFollowed
      obtain ⟨between, firstLevel, restLevel⟩ := Option.bind_eq_some_iff.mp isLevel
      obtain ⟨resolved, next, rfl⟩ := happen_resolves firstLevel happened describes
      obtain ⟨othersResolved, last⟩ := ih restLevel othersFollowed next
      rw [List.append_assoc, List.singleton_append] at last
      exact ⟨.cons resolved othersResolved, last⟩

end Names

/-! ## Unknown names -/

theorem Rule.check_ne_missing (checked : Rule) (context : Context) (name : String) :
    checked.check context ≠ .error (.cannotFindSymbol name) := by
  obtain ⟨holds, cause, checkEq, otherCause⟩ := checked.exists_check_eq
  rw [checkEq]
  exact fun failed => otherCause context name (ofOption_eq_error failed)

theorem WrittenEvent.happen_missing {written : WrittenEvent} {context}
    (failed : written.happen context = .error (.cannotFindSymbol name)) :
    written = .uses name ∧ context.scopes.lookup? name = none := by
  cases written with
  | opens | closes => contradiction
  | declares declared isMutable =>
    rcases Building.bind_eq_error_iff.mp failed with declaring | ⟨_, _, _, ⟨⟩⟩
    exact absurd declaring (declare_ne_missing declared isMutable context name)
  | computes =>
    rcases Building.bind_eq_error_iff.mp failed with adding | ⟨_, _, _, ⟨⟩⟩
    cases ofOption_eq_error adding
  | uses used =>
    rcases Building.bind_eq_error_iff.mp failed with looking | ⟨_, _, _, ⟨⟩⟩
    cases ofOption_eq_error looking
    cases found : context.scopes.lookup? name with
    | none => exact ⟨rfl, rfl⟩
    | some slot =>
      rw [lookup_of_found found] at looking
      contradiction
  | calls called =>
    rcases Building.bind_eq_error_iff.mp failed with recording | ⟨_, _, _, ⟨⟩⟩
    cases ofOption_eq_error recording

theorem follow_missing_iff {steps context} :
    follow steps context = .error (.cannotFindSymbol name) ↔
      ∃ front back events reached, steps = front ++ .event (.uses name) :: back ∧
        follow front context = .ok (events, reached) ∧ reached.scopes.lookup? name = none := by
  constructor
  · intro failed
    induction steps generalizing context with
    | nil => contradiction
    | cons step rest ih =>
      cases step with
      | rule checked =>
        rcases Building.bind_eq_error_iff.mp failed with
          checking | ⟨_, middle, isChecked, restFailed⟩
        · exact absurd checking (checked.check_ne_missing context name)
        · obtain ⟨front, back, events, reached, rfl, followed, isUnknown⟩ := ih restFailed
          exact ⟨.rule checked :: front, back, events, reached, rfl,
            (bind_of_ok isChecked).trans followed, isUnknown⟩
      | event written =>
        rcases Building.bind_eq_error_iff.mp failed with
          happening | ⟨event, middle, happened, restFailed⟩
        · obtain ⟨rfl, isUnknown⟩ := WrittenEvent.happen_missing happening
          exact ⟨[], rest, [], context, rfl, rfl, isUnknown⟩
        · rcases Building.bind_eq_error_iff.mp restFailed with restFailed | ⟨_, _, _, ⟨⟩⟩
          obtain ⟨front, back, events, reached, rfl, followed, isUnknown⟩ := ih restFailed
          exact ⟨.event written :: front, back, event :: events, reached, rfl,
            (bind_of_ok happened).trans (bind_of_ok followed), isUnknown⟩
  · rintro ⟨front, back, events, reached, rfl, followed, isUnknown⟩
    rw [follow_append]
    refine (bind_of_ok followed).trans (bind_of_error (bind_of_error ?_))
    exact bind_of_error (lookup_of_missing isUnknown)

/-- The first thing of a function that is not in order is a use of the name: all steps
before it can be followed, and no declaration of the name is visible there. -/
def WrittenFunction.FirstUnknown (item : WrittenFunction) (name : String) : Prop :=
  ∃ front back events reached, item.steps = front ++ .event (.uses name) :: back ∧
    follow front (.initial item.name) = .ok (events, reached) ∧
    ∀ slot depth, ¬ Visible events name slot depth

theorem WrittenFunction.firstUnknown_iff {item : WrittenFunction} :
    item.FirstUnknown name ↔
      follow item.steps (.initial item.name) = .error (.cannotFindSymbol name) := by
  rw [follow_missing_iff]
  refine exists₄_congr fun front back events reached =>
    and_congr_right fun split => and_congr_right fun followed => ?_
  obtain ⟨level, isLevel, _⟩ := item.exists_levelAfter split
  have describes := (follow_resolves isLevel followed ScopeChain.describes_initial).2
  exact describes.lookup?_eq_none_iff.symm

end SlotCompiler
