import SlotCompiler.Proofs.Parse.Reading
import SlotCompiler.Proofs.Success

/-!
Contract: what the steps shared by all parsers of a body do to the function's context.
-/

namespace SlotCompiler

namespace BodyInput

def nesting (body : BodyInput) : Nat := body.input.nesting

def atNesting (body : BodyInput) (nesting : Nat) : BodyInput :=
  { body with input := { body.input with nesting := nesting } }

def opened (body : BodyInput) (locks : Nat) : BodyInput :=
  { body with context := body.context.withScopes (body.context.scopes.enter locks) }

def closed (body : BodyInput) : BodyInput :=
  { body with context := body.context.withScopes body.context.scopes.leave }

end BodyInput

namespace BodyParser

variable {α : Type} {name : String} {position : Position} {slot : Slot}

variable {body after : BodyInput}

theorem lift_eq_ok {step : Parser α} {value : α}
    (ran : (liftM step : BodyParser α) body = .ok value after) :
    step body.input = .ok value after.input ∧ after.context = body.context := by
  change ofParser step body = .ok value after at ran
  rcases body with ⟨input, context⟩
  simp only [ofParser] at ran
  cases stepRan : step input with
  | ok found rest =>
    simp only [stepRan] at ran
    cases ran
    exact ⟨rfl, rfl⟩
  | error fault rest =>
    simp only [stepRan] at ran
    contradiction

theorem lift_ok {step : Parser α} {value : α}
    (ran : (liftM step : BodyParser α) body = .ok value after) :
    ∃ input, after = ⟨input, body.context⟩ := by
  obtain ⟨_, sameContext⟩ := lift_eq_ok ran
  exact ⟨after.input, by rw [← sameContext]⟩

theorem lookup_ok (ran : lookup name position body = .ok slot after) :
    body.context.scopes.lookup? name = some slot ∧ body = after := by
  obtain ⟨state, _, got, found⟩ := bind_eq_ok_iff.mp ran
  cases got
  cases visible : body.context.scopes.lookup? name with
  | none =>
    simp only [visible] at found
    contradiction
  | some given =>
    simp only [visible] at found
    cases found
    exact ⟨rfl, rfl⟩

theorem allocate_ok {change : Variables → Option Slot × Variables}
    (ran : allocate change position body = .ok slot after) :
    ∃ frame, change body.context.frame = (some slot, frame) ∧
      after = ⟨body.input, body.context.withFrame frame⟩ := by
  rcases body with ⟨input, function, frame, scopes, callees⟩
  simp only [allocate] at ran
  split at ran
  · rename_i given changed allocated
    cases ran
    exact ⟨changed, allocated, rfl⟩
  · contradiction

theorem recordCall_ok (ran : recordCall name position body = .ok () after) :
    body.context.Records name after.context := by
  unfold recordCall at ran
  split at ran
  · rename_i callees isNew recorded
    cases ran
    exact ⟨callees, isNew, recorded, rfl⟩
  · contradiction

theorem exhausted_ok {value : α} (ran : exhausted body = .ok value after) : False := by
  obtain ⟨token, state, _, failed⟩ := bind_eq_ok_iff.mp ran
  contradiction

theorem requireFresh_ok (ran : requireFresh name position body = .ok () after) :
    body.context.scopes.isTaken name = false ∧ body = after := by
  obtain ⟨state, _, got, ran⟩ := bind_eq_ok_iff.mp ran
  cases got
  cases isTaken : body.context.scopes.isTaken name with
  | true =>
    simp only [isTaken] at ran
    contradiction
  | false =>
    simp only [isTaken] at ran
    cases ran
    exact ⟨rfl, rfl⟩

theorem declare_ok {name isMutable position slot}
    (ran : declare name isMutable position body = .ok slot after) :
    body.context.Declares name isMutable slot after.context := by
  obtain ⟨_, state, freshRan, ran⟩ := bind_eq_ok_iff.mp ran
  obtain ⟨isFresh, rfl⟩ := requireFresh_ok freshRan
  obtain ⟨given, state, allocateRan, ran⟩ := bind_eq_ok_iff.mp ran
  obtain ⟨frame, added, rfl⟩ := allocate_ok allocateRan
  obtain ⟨_, state, scopesRan, ran⟩ := bind_eq_ok_iff.mp ran
  cases ran
  cases scopesRan
  refine ⟨isFresh, frame, _, added, ?_, rfl⟩
  simp [ScopeChain.declare?, isFresh, Context.withFrame]

/-! ## Locks -/

/-- Locks that a statement may take: visible variables, each taken once. -/
structure Lockable (scopes : ScopeChain) (locks : List Lock) : Prop where
  found : ∀ lock ∈ locks, scopes.lookup? lock.name = some lock.slot
  distinct : (locks.map Lock.slot).Nodup

theorem Lockable.push {scopes locks} {lock : Lock} (lockable : Lockable scopes locks)
    (found : scopes.lookup? lock.name = some lock.slot)
    (isNew : ∀ earlier ∈ locks, earlier.slot ≠ lock.slot) : Lockable scopes (locks ++ [lock]) where
  found := by
    intro other member
    rcases List.mem_append.mp member with earlier | last
    · exact lockable.found other earlier
    · rw [List.mem_singleton.mp last]
      exact found
  distinct := by
    rw [List.map_append, List.map_singleton, List.nodup_append]
    refine ⟨lockable.distinct, List.nodup_singleton _, ?_⟩
    intro slot member other last
    obtain ⟨earlier, isEarlier, rfl⟩ := List.mem_map.mp member
    rw [List.mem_singleton.mp last]
    exact isNew earlier isEarlier

theorem lockList_ok {fuel : Nat} {given locks : Array Lock}
    (ran : lockList fuel given body = .ok locks after)
    (lockable : Lockable body.context.scopes given.toList) :
    Lockable body.context.scopes locks.toList ∧ ∃ input, after = ⟨input, body.context⟩ := by
  induction fuel generalizing given body with
  | zero => exact (exhausted_ok ran).elim
  | succ fuel ih =>
    obtain ⟨exclusive, state, mutRan, ran⟩ := bind_eq_ok_iff.mp ran
    obtain ⟨input, rfl⟩ := lift_ok mutRan
    obtain ⟨⟨name, position⟩, state, nameRan, ran⟩ := bind_eq_ok_iff.mp ran
    obtain ⟨input, rfl⟩ := lift_ok nameRan
    obtain ⟨slot, state, lookupRan, ran⟩ := bind_eq_ok_iff.mp ran
    obtain ⟨found, rfl⟩ := lookup_ok lookupRan
    by_cases isTwice : (given.any fun lock => lock.slot == slot) = true
    · rw [if_pos isTwice] at ran
      contradiction
    rw [if_neg isTwice] at ran
    have isNew : ∀ earlier ∈ given.toList, earlier.slot ≠ slot := by
      intro earlier member sameSlot
      apply isTwice
      rw [Array.any_eq_true']
      exact ⟨earlier, Array.mem_toList_iff.mp member, by simp [sameSlot]⟩
    have pushed : Lockable body.context.scopes (given.push { name, slot, exclusive }).toList := by
      rw [Array.toList_push]
      exact lockable.push found isNew
    obtain ⟨isComma, state, commaRan, ran⟩ := bind_eq_ok_iff.mp ran
    obtain ⟨input, rfl⟩ := lift_ok commaRan
    cases isComma with
    | true =>
      have rest := ih ran pushed
      exact rest
    | false =>
      cases ran
      exact ⟨pushed, input, rfl⟩

/-! ## Nesting and scopes -/

theorem descend_eq (position : Position) (start : BodyInput) :
    (liftM (Parser.descend position) : BodyParser Unit) start =
      if start.nesting < Input.nestingLimit then .ok () (start.atNesting (start.nesting + 1))
      else .error ⟨.nestingTooDeep Input.nestingLimit, position⟩ start := by
  rcases start with ⟨⟨cursor, depth, nesting⟩, context⟩
  show ofParser (Parser.descend position) _ = _
  simp only [ofParser, Parser.descend, bind, EStateM.bind, get, getThe, MonadStateOf.get,
    EStateM.get]
  by_cases isShallow : nesting < Input.nestingLimit
  · have shallow : BodyInput.nesting ⟨⟨cursor, depth, nesting⟩, context⟩ < Input.nestingLimit :=
      isShallow
    rw [if_pos isShallow, if_pos shallow]
    rfl
  · have deep : ¬ BodyInput.nesting ⟨⟨cursor, depth, nesting⟩, context⟩ < Input.nestingLimit :=
      isShallow
    rw [if_neg isShallow, if_neg deep]
    rfl

theorem restoringNesting_eq (step : BodyParser α) (start : BodyInput) :
    restoringNesting step start = overState (BodyInput.atNesting · start.nesting) (step start) := by
  unfold restoringNesting
  cases step start <;> rfl

theorem inScope_eq (locks : Nat) (step : BodyParser α) (start : BodyInput) :
    inScope locks step start = overState BodyInput.closed (step (start.opened locks)) := by
  have entered : modifyScopes (ScopeChain.enter · locks) start = .ok () (start.opened locks) := rfl
  unfold inScope
  simp only [entered]
  cases step (start.opened locks) <;> rfl

end BodyParser

end SlotCompiler
