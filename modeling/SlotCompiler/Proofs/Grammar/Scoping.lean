import SlotCompiler.Proofs.Grammar.Trees
import SlotCompiler.Proofs.Parse.Frame

/-!
Contract: when the statements of a function have trees.

Names are enough to tell variables apart, since two names that are visible at one
place never share a slot.
-/

namespace SlotCompiler

open Context

variable {slots : Nat} {α β : Type}

/-! ## Needs -/

/-- What a part of a function needs: calls of these functions, so many levels of
nesting below its own, and so many variables. -/
structure Needs where
  calls : List String
  height : Nat
  slots : Nat

namespace Needs

def nothing : Needs := ⟨[], 0, 0⟩

def room (count : Nat) : Needs := ⟨[], 0, count⟩

/-- The needs of two parts that follow each other. -/
def and (first second : Needs) : Needs :=
  ⟨first.calls ++ second.calls, max first.height second.height, first.slots + second.slots⟩

theorem and_room (needs : Needs) (count : Nat) :
    needs.and (.room count) = ⟨needs.calls, needs.height, needs.slots + count⟩ := by
  simp [and, room]

/-- The needs of a part in a block of its own. -/
def deeper (inner : Needs) : Needs := { inner with height := inner.height + 1 }

end Needs

def Expression.needs (value : Expression) : Needs := ⟨value.calls, value.height, value.slots⟩

mutual

def Statement.needs : Statement → Needs
  | .declaration _ _ _ value _ => value.needs.and (.room 1)
  | .assignment _ value _ => value.needs
  | .memberAssignment _ members _ value _ => (Needs.room members.length).and value.needs
  | .ret none _ => .nothing
  | .ret (some value) _ => value.needs
  | .call name arguments position => (Expression.call name arguments position).needs
  | .conditional arms _ => arms.needs
  | .loop condition body _ => condition.needs.and (statementsNeeds body).deeper
  | .sync _ body _ => (statementsNeeds body).deeper

def Arms.needs : Arms → Needs
  | .last condition body => condition.needs.and (statementsNeeds body).deeper
  | .otherwise condition body alternative =>
    (condition.needs.and (statementsNeeds body).deeper).and (statementsNeeds alternative).deeper
  | .more condition body rest => (condition.needs.and (statementsNeeds body).deeper).and rest.needs

def statementsNeeds : List Statement → Needs
  | [] => .nothing
  | written :: rest => written.needs.and (statementsNeeds rest)

end

def WrittenPart.needs : WrittenPart → Needs
  | .value written => written.needs
  | .members names => .room names.length
  | .arguments values => ⟨argumentsCalls values, argumentsHeight values, argumentsSlots values⟩
  | .statement written => written.needs
  | .arms written => written.needs
  | .body statements => statementsNeeds statements
  | .block _ statements => (statementsNeeds statements).deeper

/-! ## Names -/

/-- The names that a statement adds to the block it stands in. -/
def Statement.declared : Statement → List String
  | .declaration _ name _ _ _ => [name]
  | _ => []

def WrittenPart.declared : WrittenPart → List String
  | .statement written => written.declared
  | .body statements => statements.foldr (fun written later => later ++ written.declared) []
  | _ => []

mutual

def Statement.Scoped (inner outer : List String) : Statement → Prop
  | .declaration _ name _ value _ => value.names ⊆ inner ++ outer ∧ name ∉ inner
  | .assignment name value _ => name ∈ inner ++ outer ∧ value.names ⊆ inner ++ outer
  | .memberAssignment name _ _ value _ => name ∈ inner ++ outer ∧ value.names ⊆ inner ++ outer
  | .ret none _ => True
  | .ret (some value) _ => value.names ⊆ inner ++ outer
  | .call _ arguments _ => argumentsNames arguments ⊆ inner ++ outer
  | .conditional arms _ => arms.Scoped (inner ++ outer)
  | .loop condition body _ =>
    condition.names ⊆ inner ++ outer ∧ StatementsScoped [] (inner ++ outer) body
  | .sync locks body _ =>
    ((locks.map WrittenLock.name ⊆ inner ++ outer ∧ (locks.map WrittenLock.name).Nodup) ∧
      locks.length < 0x10000) ∧ StatementsScoped [] (inner ++ outer) body

def Arms.Scoped (visible : List String) : Arms → Prop
  | .last condition body => condition.names ⊆ visible ∧ StatementsScoped [] visible body
  | .otherwise condition body alternative =>
    (condition.names ⊆ visible ∧ StatementsScoped [] visible body) ∧
      StatementsScoped [] visible alternative
  | .more condition body rest =>
    (condition.names ⊆ visible ∧ StatementsScoped [] visible body) ∧ rest.Scoped visible

/-- The names of statements are in order, each one after those before it. -/
def StatementsScoped (inner outer : List String) : List Statement → Prop
  | [] => True
  | written :: rest =>
    written.Scoped inner outer ∧ StatementsScoped (written.declared ++ inner) outer rest

end

/-! ## Names in a function -/

namespace ScopeChain

variable {chain later : ScopeChain} {name : String} {slot : Slot}

theorem isTaken_declare?_iff (declared : chain.declare? name slot = some later) (other : String) :
    later.isTaken other = true ↔ name = other ∨ chain.isTaken other = true := by
  unfold declare? at declared
  split at declared
  · cases declared
  · cases declared
    by_cases same : name = other
    · simp [isTaken, Scope.find?, same]
    · simp [isTaken, Scope.find?, same]

theorem lookup?_declare? (declared : chain.declare? name slot = some later) (other : String) :
    later.lookup? other = if name = other then some slot else chain.lookup? other := by
  unfold declare? at declared
  split at declared
  · cases declared
  · cases declared
    by_cases same : name = other
    · simp [lookup?, scopes, Scope.find?, same]
    · simp [lookup?, scopes, Scope.find?, List.findSome?_cons, same]

end ScopeChain

namespace Context

variable {name : String} {isMutable : Bool} {slot : Slot}

/-- The innermost block of a function has the inner names, the blocks around it
have the outer ones, and no two visible names share a slot. -/
structure Names (context : Context) (inner outer : List String) : Prop where
  taken : ∀ name, context.scopes.isTaken name = true ↔ name ∈ inner
  visible : ∀ name, (context.scopes.lookup? name).isSome = true ↔ name ∈ inner ++ outer
  bounded : context.Bounded
  distinct : ∀ {first second : String} {slot : Slot},
    context.scopes.lookup? first = some slot → context.scopes.lookup? second = some slot →
      first = second

/-- A part of a function declares some names and adds some variables. -/
structure Gains (context : Context) (declared : List String) (slots : Nat)
    (after : Context) : Prop where
  grown : context.Extends slots after
  sameBlocks : context.scopes.SameBlocks after.scopes
  names : ∀ {inner outer : List String}, context.Names inner outer →
    after.Names (declared ++ inner) outer

variable {context middle after : Context} {inner outer : List String}

section

variable (names : context.Names inner outer)

include names

theorem Names.sees_iff {used} : context.scopes.Sees used ↔ used ⊆ inner ++ outer := by
  constructor
  · intro sees name member
    exact (names.visible name).mp (sees name member)
  · intro subset name member
    exact (names.visible name).mpr (subset member)

theorem Names.congr {others} (same : ∀ name, name ∈ inner ↔ name ∈ others) :
    context.Names others outer where
  taken name := (names.taken name).trans (same name)
  visible name := by rw [names.visible, List.mem_append, List.mem_append, same]
  bounded := names.bounded
  distinct := names.distinct

theorem Names.of_scopes_eq (sameScopes : after.scopes = context.scopes)
    (larger : context.frame.size ≤ after.frame.size) : after.Names inner outer where
  taken := by
    rw [sameScopes]
    exact names.taken
  visible := by
    rw [sameScopes]
    exact names.visible
  bounded := by
    intro slot held
    rw [sameScopes] at held
    exact (names.bounded slot held).trans_le larger
  distinct := by
    rw [sameScopes]
    exact names.distinct

theorem Names.enter (locks : Nat) :
    (context.withScopes (context.scopes.enter locks)).Names [] (inner ++ outer) where
  taken _ := iff_of_false Bool.false_ne_true List.not_mem_nil
  visible := names.visible
  bounded := names.bounded.enter locks
  distinct := names.distinct

theorem Names.declares (declares : context.Declares name isMutable slot after) :
    after.Names (name :: inner) outer := by
  have bounded := names.bounded.declares declares
  have slotEq := declares.takes.slot_eq
  obtain ⟨_, frame, scopes, _, declared, rfl⟩ := declares
  have lookupEq := ScopeChain.lookup?_declare? declared
  -- The slot of the new name is larger than those of all others.
  have isNew {other : String} {found : Slot}
      (isVisible : context.scopes.lookup? other = some found) : found ≠ slot := by
    rintro rfl
    have inside := names.bounded found (ScopeChain.holds_of_lookup? isVisible)
    omega
  refine ⟨fun other => ?_, fun other => ?_, bounded, fun {first second found} => ?_⟩
  · refine (ScopeChain.isTaken_declare?_iff declared other).trans ?_
    rw [names.taken, List.mem_cons, eq_comm]
  · show (scopes.lookup? other).isSome = true ↔ _
    rw [lookupEq, List.cons_append, List.mem_cons]
    by_cases same : name = other
    · simp [same]
    · rw [if_neg same, names.visible]
      simp [Ne.symm same]
  · show scopes.lookup? first = some found → scopes.lookup? second = some found → _
    rw [lookupEq, lookupEq]
    by_cases isFirst : name = first
    · by_cases isSecond : name = second
      · exact fun _ _ => isFirst.symm.trans isSecond
      · rw [if_pos isFirst, if_neg isSecond]
        rintro ⟨⟩ isVisible
        exact absurd rfl (isNew isVisible)
    · by_cases isSecond : name = second
      · rw [if_neg isFirst, if_pos isSecond]
        rintro isVisible ⟨⟩
        exact absurd rfl (isNew isVisible)
      · rw [if_neg isFirst, if_neg isSecond]
        exact names.distinct

end

theorem gains_of_scopes_eq (sameScopes : after.scopes = context.scopes)
    (grown : context.Extends slots after) : context.Gains [] slots after where
  grown := grown
  sameBlocks := by
    rw [sameScopes]
    exact .refl _
  names names := by
    refine names.of_scopes_eq sameScopes ?_
    rw [grown.size_eq]
    exact Nat.le_add_right _ _

theorem Gains.refl (context : Context) : context.Gains [] 0 context :=
  gains_of_scopes_eq rfl (.refl context)

theorem Gains.trans {early late others} (first : context.Gains early slots middle)
    (second : middle.Gains late others after) :
    context.Gains (late ++ early) (slots + others) after where
  grown := first.grown.trans second.grown
  sameBlocks := first.sameBlocks.trans second.sameBlocks
  names names := by
    rw [List.append_assoc]
    exact second.names (first.names names)

theorem Declares.gains (declares : context.Declares name isMutable slot after) :
    context.Gains [name] 1 after where
  grown := by
    refine ⟨?_, declares.takes.size_eq⟩
    obtain ⟨_, _, _, _, _, rfl⟩ := declares
    rfl
  sameBlocks := declares.sameBlocks
  names names := names.declares declares

end Context

theorem Builds.gains {part nesting tree context after}
    (builds : Builds part nesting tree context after) :
    context.Gains part.declared part.needs.slots after := by
  induction builds with
  | literal | string | named | noMembers | noArguments | ret | noStatements => exact .refl _
  | access _ _ inner | group _ _ inner | assignment _ _ inner | retValue _ inner
  | callStatement _ inner | conditional _ inner | sync _ _ _ _ inner => exact inner
  | call _ recorded given =>
    obtain ⟨sameScopes, grown⟩ := record?_extends recorded
    exact given.trans (gains_of_scopes_eq sameScopes grown)
  | binary _ _ _ added left right =>
    obtain ⟨sameScopes, grown⟩ := temporary?_extends added
    exact left.trans (right.trans (gains_of_scopes_eq sameScopes grown))
  | moreMembers added _ tail =>
    obtain ⟨sameScopes, grown⟩ := temporary?_extends added
    have both := (gains_of_scopes_eq sameScopes grown).trans tail
    rw [Nat.add_comm] at both
    exact both
  | declaration _ declared initial => exact initial.trans (declare?_eq_some_iff.mp declared).gains
  | moreArguments _ _ first second | memberAssignment _ _ _ first second
  | loop _ _ first second | last _ _ first second | moreStatements _ _ first second =>
    exact first.trans second
  | otherwise _ _ _ first second third | moreArms _ _ _ first second third =>
    exact (first.trans second).trans third
  | block _ _ inside =>
    exact gains_of_scopes_eq inside.sameBlocks.leave_eq
      ⟨inside.grown.function_eq, inside.grown.size_eq⟩

/-! ## When there is a tree -/

namespace Context

variable {needs : Needs}

def Fits (context : Context) (nesting : Nat) (needs : Needs) : Prop :=
  context.HasRoom nesting needs.calls needs.height needs.slots

variable {context after : Context} {nesting : Nat}

theorem fits_nothing (context : Context) (nesting : Nat) : context.Fits nesting .nothing :=
  context.hasRoom_nothing nesting

theorem fits_below_iff {calls height levels} :
    context.Fits nesting ⟨calls, levels + 1 + height, slots⟩ ↔
      nesting + levels < Input.nestingLimit ∧
        context.Fits (nesting + levels + 1) ⟨calls, height, slots⟩ := by
  constructor
  · rintro ⟨noCall, shallow, room⟩
    dsimp only at shallow
    exact ⟨by omega, noCall, by dsimp only; omega, room⟩
  · rintro ⟨deeper, noCall, shallow, room⟩
    dsimp only at shallow
    exact ⟨noCall, by dsimp only; omega, room⟩

theorem fits_deeper_iff :
    context.Fits nesting needs.deeper ↔
      nesting < Input.nestingLimit ∧ context.Fits (nesting + 1) needs := by
  rw [Needs.deeper, Nat.add_comm needs.height, ← Nat.zero_add 1]
  exact fits_below_iff

section Existence

variable {step : Option (α × Context)} {next : α × Context → Option (β × Context)}

/-- What always gives something and leaves the function alone adds no condition. -/
theorem exists_given_iff {inOrder : Prop}
    (stepIff : (∃ value after, step = some (value, after)) ↔ inOrder)
    (gives : ∀ value middle, ∃ tree, next (value, middle) = some (tree, middle)) :
    (∃ tree after, step.bind next = some (tree, after)) ↔ inOrder := by
  rw [← stepIff]
  constructor
  · rintro ⟨_, _, built⟩
    obtain ⟨⟨value, middle⟩, stepBuilt, _⟩ := Option.bind_eq_some_iff.mp built
    exact ⟨value, middle, stepBuilt⟩
  · rintro ⟨value, middle, stepBuilt⟩
    obtain ⟨tree, given⟩ := gives value middle
    exact ⟨tree, middle, bind_of_some stepBuilt given⟩

theorem exists_found_iff {name} {next : Slot → Option (β × Context)} {inOrder}
    (nextIff : ∀ slot, (∃ tree after, next slot = some (tree, after)) ↔ inOrder) :
    (∃ tree after, (context.scopes.lookup? name).bind next = some (tree, after)) ↔
      (context.scopes.lookup? name).isSome = true ∧ inOrder := by
  cases context.scopes.lookup? name with
  | none => simp
  | some slot => simp [nextIff]

theorem exists_shallow_iff :
    (∃ value after, (if nesting < Input.nestingLimit then step else none) = some (value, after)) ↔
      nesting < Input.nestingLimit ∧ ∃ value after, step = some (value, after) := by
  simp only [Option.ite_none_right_eq_some, exists_and_left]

theorem exists_both_iff {first second : Needs} {firstInOrder secondInOrder : Prop} {declared}
    (gains : ∀ {value middle}, step = some (value, middle) →
      context.Gains declared first.slots middle)
    (firstIff : (∃ value middle, step = some (value, middle)) ↔
      firstInOrder ∧ context.Fits nesting first)
    (secondIff : ∀ {value middle}, step = some (value, middle) →
      ((∃ other after, next (value, middle) = some (other, after)) ↔
        secondInOrder ∧ middle.Fits nesting second)) :
    (∃ other after, step.bind next = some (other, after)) ↔
      (firstInOrder ∧ secondInOrder) ∧ context.Fits nesting (first.and second) := by
  constructor
  · rintro ⟨other, after, built⟩
    obtain ⟨⟨value, middle⟩, stepBuilt, nextBuilt⟩ := Option.bind_eq_some_iff.mp built
    obtain ⟨isFirst, firstFits⟩ := firstIff.mp ⟨value, middle, stepBuilt⟩
    obtain ⟨isSecond, secondFits⟩ := (secondIff stepBuilt).mp ⟨other, after, nextBuilt⟩
    exact ⟨⟨isFirst, isSecond⟩,
      (gains stepBuilt).grown.hasRoom_append_iff.mpr ⟨firstFits, secondFits⟩⟩
  · rintro ⟨⟨isFirst, isSecond⟩, fits⟩
    obtain ⟨value, middle, stepBuilt⟩ := firstIff.mpr ⟨isFirst, fits.first⟩
    obtain ⟨_, secondFits⟩ := (gains stepBuilt).grown.hasRoom_append_iff.mp fits
    obtain ⟨other, after, nextBuilt⟩ := (secondIff stepBuilt).mpr ⟨isSecond, secondFits⟩
    exact ⟨other, after, bind_of_some stepBuilt nextBuilt⟩

end Existence

theorem exists_enclosed_iff {locks inOrder} {inside : Nat → Context → Option (α × Context)}
    (insideIff : (∃ value inner, inside (nesting + 1)
        (context.withScopes (context.scopes.enter locks)) = some (value, inner)) ↔
      inOrder ∧ (context.withScopes (context.scopes.enter locks)).Fits (nesting + 1) needs) :
    (∃ value after, context.enclosed? nesting locks inside = some (value, after)) ↔
      inOrder ∧ context.Fits nesting needs.deeper := by
  simp only [enclosed?_eq_some_iff]
  rw [fits_deeper_iff]
  constructor
  · rintro ⟨value, after, deeper, inner, built, _⟩
    obtain ⟨isScoped, noCall, shallow, room⟩ := insideIff.mp ⟨value, inner, built⟩
    exact ⟨isScoped, deeper, noCall, shallow, room⟩
  · rintro ⟨isScoped, deeper, noCall, shallow, room⟩
    obtain ⟨value, inner, built⟩ := insideIff.mpr ⟨isScoped, noCall, shallow, room⟩
    exact ⟨value, _, deeper, inner, built, rfl⟩

theorem exists_temporary_iff_fits (context : Context) (nesting : Nat) :
    (∃ slot after, context.temporary? = some (slot, after)) ↔
      True ∧ context.Fits nesting (.room 1) := by
  rw [exists_temporary_iff, true_and]
  refine ⟨fun room => ⟨List.not_mem_nil, .inl rfl, .inr room⟩, ?_⟩
  rintro ⟨_, _, room⟩
  simp only [Needs.room] at room
  omega

theorem exists_declare_iff {inner outer} (names : context.Names inner outer) (name : String)
    (isMutable : Bool) (nesting : Nat) :
    (∃ slot after, context.declare? name isMutable = some (slot, after)) ↔
      name ∉ inner ∧ context.Fits nesting (.room 1) := by
  rw [← names.taken name]
  constructor
  · rintro ⟨slot, after, declared⟩
    obtain ⟨isFresh, frame, _, added, _⟩ := declare?_eq_some_iff.mp declared
    have takes := Variables.add_takes added
    have sizeLe := takes.size_le
    rw [takes.size_eq] at sizeLe
    exact ⟨by simp [isFresh], List.not_mem_nil, .inl rfl, .inr sizeLe⟩
  · rintro ⟨isFresh, _, _, room⟩
    have hasRoom : context.frame.size < Variables.capacity := by
      simp only [Needs.room] at room
      omega
    have added : context.frame.add name isMutable none =
        (some (UInt16.ofNat context.frame.size), _) := if_pos hasRoom
    have declared : context.scopes.declare? name (UInt16.ofNat context.frame.size) = some _ :=
      if_neg isFresh
    exact ⟨_, _, declare?_eq_some_iff.mpr
      ⟨Bool.eq_false_of_not_eq_true isFresh, _, _, added, declared, rfl⟩⟩

end Context

/-! ### Expressions -/

theorem temporary?_gains {context after : Context} {slot}
    (added : context.temporary? = some (slot, after)) : context.Gains [] 1 after := by
  obtain ⟨sameScopes, grown⟩ := temporary?_extends added
  exact gains_of_scopes_eq sameScopes grown

theorem exists_membersTree_iff {members nesting} {context : Context} :
    (∃ steps after, membersTree? members context = some (steps, after)) ↔
      True ∧ context.Fits nesting (.room members.length) := by
  induction members generalizing context with
  | nil => exact iff_of_true ⟨_, _, rfl⟩ ⟨trivial, context.fits_nothing nesting⟩
  | cons member rest ih =>
    rw [List.length_cons, Nat.add_comm, ← true_and True]
    show _ ↔ _ ∧ context.Fits nesting ((Needs.room 1).and (.room rest.length))
    exact exists_both_iff temporary?_gains (context.exists_temporary_iff_fits nesting)
      fun _ => exists_given_iff ih fun _ _ => ⟨_, rfl⟩

theorem exists_called_iff {name arguments position nesting context}
    {next : List Operand × Context → Option (β × Context)}
    (argumentsIff : (∃ trees after, argumentsTree? arguments nesting context =
        some (trees, after)) ↔
      context.scopes.Sees (argumentsNames arguments) ∧
        context.Fits nesting (WrittenPart.arguments arguments).needs)
    (gives : ∀ values middle, ∃ tree, next (values, middle) =
      (middle.record? name).bind fun after => some (tree, after)) :
    (∃ tree after, (argumentsTree? arguments nesting context).bind next = some (tree, after)) ↔
      context.scopes.Sees (argumentsNames arguments) ∧
        context.Fits nesting (Expression.call name arguments position).needs := by
  constructor
  · rintro ⟨_, _, built⟩
    obtain ⟨⟨values, middle⟩, argumentsBuilt, built⟩ := Option.bind_eq_some_iff.mp built
    obtain ⟨_, nextEq⟩ := gives values middle
    obtain ⟨_, recorded, _⟩ := Option.bind_eq_some_iff.mp (nextEq.symm.trans built)
    obtain ⟨sees, noCall, shallow, room⟩ := argumentsIff.mp ⟨_, _, argumentsBuilt⟩
    have notSelf := exists_record_iff.mp ⟨_, recorded⟩
    rw [(argumentsTree?_builds arguments argumentsBuilt).gains.grown.function_eq] at notSelf
    exact ⟨sees, (List.mem_cons.not.trans not_or).mpr ⟨notSelf, noCall⟩, shallow, room⟩
  · rintro ⟨sees, noCall, shallow, room⟩
    obtain ⟨notSelf, noInnerCall⟩ := (List.mem_cons.not.trans not_or).mp noCall
    obtain ⟨values, middle, argumentsBuilt⟩ := argumentsIff.mpr ⟨sees, noInnerCall, shallow, room⟩
    rw [← (argumentsTree?_builds arguments argumentsBuilt).gains.grown.function_eq] at notSelf
    obtain ⟨_, nextEq⟩ := gives values middle
    obtain ⟨after, recorded⟩ := exists_record_iff.mpr notSelf
    exact ⟨_, after, bind_of_some argumentsBuilt (nextEq.trans (bind_of_some recorded rfl))⟩

mutual

/-- An expression has a tree exactly when its names are visible and there is
room for it. -/
theorem Expression.exists_tree_iff (value : Expression) {nesting context} :
    (∃ tree after, value.tree? nesting context = some (tree, after)) ↔
      context.scopes.Sees value.names ∧ context.Fits nesting value.needs := by
  match value with
  | .literal _ | .string _ =>
    refine iff_of_true ⟨_, _, rfl⟩ ⟨?_, context.fits_nothing nesting⟩
    exact fun _ member => absurd member List.not_mem_nil
  | .named name =>
    rw [Expression.names, ScopeChain.Sees, List.forall_mem_singleton]
    exact exists_found_iff fun _ => iff_of_true ⟨_, _, rfl⟩ (context.fits_nothing nesting)
  | .access name members position =>
    rw [Expression.names, ScopeChain.Sees, List.forall_mem_singleton]
    refine exists_found_iff fun source => exists_given_iff ?_ fun _ _ => ⟨_, rfl⟩
    exact exists_membersTree_iff.trans (iff_of_eq (true_and _))
  | .call name arguments position =>
    exact exists_called_iff (exists_argumentsTree_iff arguments) fun _ _ => ⟨_, rfl⟩
  | .group inner =>
    refine exists_shallow_iff.trans ?_
    rw [inner.exists_tree_iff, and_left_comm]
    exact and_congr_right fun _ => (@fits_deeper_iff inner.needs context nesting).symm
  | .binary operator lhs rhs position =>
    rw [Expression.names, ScopeChain.sees_append_iff]
    show _ ↔ _ ∧ context.Fits nesting
      (lhs.needs.and ⟨rhs.needs.calls, lhs.spine + 1 + rhs.needs.height, rhs.needs.slots + 1⟩)
    refine exists_both_iff (fun built => (lhs.builds built).gains) lhs.exists_tree_iff
      fun {_ middle} built => ?_
    rw [← (lhs.builds built).reads.scopes_eq rfl]
    rw [fits_below_iff, and_left_comm]
    refine exists_shallow_iff.trans (and_congr_right fun _ => ?_)
    rw [← and_true (middle.scopes.Sees _), ← rhs.needs.and_room 1]
    exact exists_both_iff (fun built => (rhs.builds built).gains) rhs.exists_tree_iff
      fun {_ late} _ => exists_given_iff (late.exists_temporary_iff_fits _) fun _ _ => ⟨_, rfl⟩

theorem exists_argumentsTree_iff (values : List Expression) {nesting context} :
    (∃ trees after, argumentsTree? values nesting context = some (trees, after)) ↔
      context.scopes.Sees (argumentsNames values) ∧
        context.Fits nesting (WrittenPart.arguments values).needs := by
  match values with
  | [] =>
    refine iff_of_true ⟨_, _, rfl⟩ ⟨?_, context.fits_nothing nesting⟩
    exact fun _ member => absurd member List.not_mem_nil
  | value :: rest =>
    rw [argumentsNames, ScopeChain.sees_append_iff]
    show _ ↔ _ ∧ context.Fits nesting (value.needs.and (WrittenPart.arguments rest).needs)
    refine exists_both_iff (fun built => (value.builds built).gains) value.exists_tree_iff
      fun {_ middle} built => ?_
    rw [← (value.builds built).reads.scopes_eq rfl]
    exact exists_given_iff (exists_argumentsTree_iff rest) fun _ _ => ⟨_, rfl⟩

end

theorem Expression.exists_tree_iff_scoped (value : Expression) {nesting} {context : Context}
    {inner outer} (names : context.Names inner outer) :
    (∃ tree after, value.tree? nesting context = some (tree, after)) ↔
      value.names ⊆ inner ++ outer ∧ context.Fits nesting value.needs := by
  rw [value.exists_tree_iff, names.sees_iff]

/-! ### Locks -/

section Locks

variable {scopes : ScopeChain} {found : List Lock} {context : Context} {locks : List WrittenLock}

theorem locksTree?_length (built : locksTree? scopes locks = some found) :
    found.length = locks.length := by
  have lengthEq := congrArg List.length (locksTree?_names built).1
  rwa [List.length_map, List.length_map] at lengthEq

theorem exists_locksTree_iff :
    (∃ found, locksTree? scopes locks = some found) ↔ scopes.Sees (locks.map WrittenLock.name) := by
  induction locks with
  | nil => exact iff_of_true ⟨[], rfl⟩ fun _ member => absurd member List.not_mem_nil
  | cons lock rest ih =>
    simp only [ScopeChain.Sees, List.map_cons, List.forall_mem_cons,
      Option.isSome_iff_exists] at ih ⊢
    rw [← ih]
    constructor
    · rintro ⟨_, built⟩
      obtain ⟨slot, isVisible, built⟩ := Option.bind_eq_some_iff.mp built
      obtain ⟨others, othersBuilt, _⟩ := Option.bind_eq_some_iff.mp built
      exact ⟨⟨slot, isVisible⟩, others, othersBuilt⟩
    · rintro ⟨⟨slot, isVisible⟩, others, othersBuilt⟩
      exact ⟨_, bind_of_some isVisible (bind_of_some othersBuilt rfl)⟩

theorem nodup_slots_iff {inner outer} (names : context.Names inner outer)
    (built : locksTree? context.scopes locks = some found) :
    (found.map Lock.slot).Nodup ↔ (locks.map WrittenLock.name).Nodup := by
  obtain ⟨namesEq, areVisible⟩ := locksTree?_names built
  rw [← namesEq]
  unfold List.Nodup
  rw [List.pairwise_map, List.pairwise_map]
  refine List.Pairwise.iff_of_mem fun {first second} isFirst isSecond => ?_
  have firstVisible := areVisible first isFirst
  have secondVisible := areVisible second isSecond
  refine not_congr ⟨fun sameSlot => ?_, fun sameName => ?_⟩
  · rw [sameSlot] at firstVisible
    exact names.distinct firstVisible secondVisible
  · rw [sameName, secondVisible] at firstVisible
    exact (Option.some.inj firstVisible).symm

end Locks

/-! ### Statements -/

theorem Context.guarded?_gains {condition body nesting test nodes} {context after : Context}
    (built : context.guarded? nesting condition (statementsTree? body) =
      some ((test, nodes), after)) :
    context.Gains [] (condition.needs.and (statementsNeeds body).deeper).slots after := by
  obtain ⟨_, tests, enters⟩ := guarded?_builds built (statementsTree?_builds body)
  exact tests.gains.trans enters.gains

theorem exists_guarded_iff {condition : Expression} {body : List Statement} {nesting : Nat}
    {context : Context} {inner outer : List String} (names : context.Names inner outer)
    (bodyIff : ∀ {opened : Context}, opened.Names [] (inner ++ outer) →
      ((∃ nodes after, statementsTree? body (nesting + 1) opened = some (nodes, after)) ↔
        StatementsScoped [] (inner ++ outer) body ∧
          opened.Fits (nesting + 1) (statementsNeeds body))) :
    (∃ trees after, context.guarded? nesting condition (statementsTree? body) =
        some (trees, after)) ↔
      (condition.names ⊆ inner ++ outer ∧ StatementsScoped [] (inner ++ outer) body) ∧
        context.Fits nesting (condition.needs.and (statementsNeeds body).deeper) :=
  exists_both_iff (fun built => (condition.builds built).gains)
    (condition.exists_tree_iff_scoped names) fun built =>
      exists_given_iff (exists_enclosed_iff
        (bodyIff (((condition.builds built).gains.names names).enter 0))) fun _ _ => ⟨_, rfl⟩

mutual

/-- A statement has a tree exactly when its names are in order and its needs are
met. -/
theorem Statement.exists_tree_iff (written : Statement) {nesting : Nat} {context : Context}
    {inner outer : List String} (names : context.Names inner outer) :
    (∃ node after, written.tree? nesting context = some (node, after)) ↔
      written.Scoped inner outer ∧ context.Fits nesting written.needs := by
  match written with
  | .declaration isMutable name declared? value position =>
    exact exists_both_iff (fun built => (value.builds built).gains)
      (value.exists_tree_iff_scoped names) fun built =>
        exists_given_iff (exists_declare_iff ((value.builds built).gains.names names) name
          isMutable nesting) fun _ _ => ⟨_, rfl⟩
  | .assignment name value position =>
    simp only [Statement.Scoped]
    rw [← names.visible, and_assoc]
    exact exists_found_iff fun slot =>
      exists_given_iff (value.exists_tree_iff_scoped names) fun _ _ => ⟨_, rfl⟩
  | .memberAssignment name members member value position =>
    simp only [Statement.Scoped]
    rw [← names.visible, and_assoc, ← true_and (value.names ⊆ _)]
    exact exists_found_iff fun slot =>
      exists_both_iff (fun built => (@membersTree?_builds _ 0 _ _ _ built).gains)
        exists_membersTree_iff fun built => exists_given_iff (value.exists_tree_iff_scoped
          ((@membersTree?_builds _ 0 _ _ _ built).gains.names names)) fun _ _ => ⟨_, rfl⟩
  | .ret none position => exact iff_of_true ⟨_, _, rfl⟩ ⟨trivial, context.fits_nothing nesting⟩
  | .ret (some value) position =>
    exact exists_given_iff (value.exists_tree_iff_scoped names) fun _ _ => ⟨_, rfl⟩
  | .call name arguments position =>
    simp only [Statement.Scoped]
    rw [← names.sees_iff]
    exact exists_called_iff (exists_argumentsTree_iff arguments) fun _ _ => ⟨_, rfl⟩
  | .conditional arms position =>
    exact exists_given_iff (arms.exists_tree_iff names) fun _ _ => ⟨_, rfl⟩
  | .loop condition body position =>
    exact exists_given_iff (exists_guarded_iff names (exists_statementsTree_iff body))
      fun _ _ => ⟨_, rfl⟩
  | .sync locks body position =>
    have blockIff (count : Nat) : (∃ nodes after,
        blockTree? body count nesting context = some (nodes, after)) ↔
          StatementsScoped [] (inner ++ outer) body ∧
            context.Fits nesting (statementsNeeds body).deeper :=
      exists_enclosed_iff (exists_statementsTree_iff body (names.enter count))
    simp only [Statement.Scoped]
    rw [← names.sees_iff, ← exists_locksTree_iff]
    constructor
    · rintro ⟨_, _, built⟩
      obtain ⟨found, locksBuilt, built⟩ := Option.bind_eq_some_iff.mp built
      obtain ⟨⟨nodup, few⟩, built⟩ := Option.ite_none_right_eq_some.mp built
      obtain ⟨_, bodyBuilt, _⟩ := Option.bind_eq_some_iff.mp built
      rw [locksTree?_length locksBuilt] at few
      obtain ⟨bodyScoped, fits⟩ := (blockIff _).mp ⟨_, _, bodyBuilt⟩
      have namesDistinct := (nodup_slots_iff names locksBuilt).mp nodup
      exact ⟨⟨⟨⟨⟨found, locksBuilt⟩, namesDistinct⟩, few⟩, bodyScoped⟩, fits⟩
    · rintro ⟨⟨⟨⟨⟨found, locksBuilt⟩, nodup⟩, few⟩, bodyScoped⟩, fits⟩
      rw [← locksTree?_length locksBuilt] at few
      obtain ⟨_, after, bodyBuilt⟩ := (blockIff found.length).mpr ⟨bodyScoped, fits⟩
      have inOrder := And.intro ((nodup_slots_iff names locksBuilt).mpr nodup) few
      exact ⟨_, after, bind_of_some locksBuilt
        (Option.ite_none_right_eq_some.mpr ⟨inOrder, bind_of_some bodyBuilt rfl⟩)⟩

theorem Arms.exists_tree_iff (written : Arms) {nesting : Nat} {context : Context}
    {inner outer : List String} (names : context.Names inner outer) :
    (∃ trees after, written.tree? nesting context = some (trees, after)) ↔
      written.Scoped (inner ++ outer) ∧ context.Fits nesting written.needs := by
  match written with
  | .last condition body =>
    exact exists_given_iff (exists_guarded_iff names (exists_statementsTree_iff body))
      fun _ _ => ⟨_, rfl⟩
  | .otherwise condition body alternative =>
    exact exists_both_iff guarded?_gains (exists_guarded_iff names (exists_statementsTree_iff body))
      fun built => exists_given_iff (exists_enclosed_iff (exists_statementsTree_iff alternative
        (((guarded?_gains built).names names).enter 0))) fun _ _ => ⟨_, rfl⟩
  | .more condition body rest =>
    exact exists_both_iff guarded?_gains (exists_guarded_iff names (exists_statementsTree_iff body))
      fun built => exists_given_iff (rest.exists_tree_iff ((guarded?_gains built).names names))
        fun _ _ => ⟨_, rfl⟩

theorem exists_statementsTree_iff (body : List Statement) {nesting : Nat} {context : Context}
    {inner outer : List String} (names : context.Names inner outer) :
    (∃ nodes after, statementsTree? body nesting context = some (nodes, after)) ↔
      StatementsScoped inner outer body ∧ context.Fits nesting (statementsNeeds body) := by
  match body with
  | [] => exact iff_of_true ⟨_, _, rfl⟩ ⟨trivial, context.fits_nothing nesting⟩
  | written :: rest =>
    exact exists_both_iff (fun built => (written.builds built).gains)
      (written.exists_tree_iff names) fun built => exists_given_iff
        (exists_statementsTree_iff rest ((written.builds built).gains.names names))
        fun _ _ => ⟨_, rfl⟩

end

end SlotCompiler
