import SlotCompiler.Proofs.Parse.Reading

/-!
Contract: what reading a part of a body leaves in the frame and in the scopes.
-/

namespace SlotCompiler

variable {frame later : Variables} {slot : Slot} {name : String} {isMutable : Bool}
  {before after : Context} {locks : Nat} {part : TreePart} {parameters : List Parameter}

/-! ## Frames -/

namespace Variables

variable {entry : Variable}

/-- A frame with one more variable, of unknown type, in the next slot. -/
structure Takes (frame : Variables) (slot : Slot) (later : Variables) : Prop where
  slot_eq : slot.toNat = frame.size
  size_eq : later.size = frame.size + 1
  size_le : later.size ≤ capacity
  typeOf?_eq : ∀ other, later.typeOf? other = frame.typeOf? other

theorem append_eq_some (appended : frame.append entry = (some slot, later)) :
    frame.size < capacity ∧ slot.toNat = frame.size ∧ later.entries = frame.entries.push entry := by
  unfold append at appended
  by_cases hasRoom : frame.size < capacity
  · rw [if_pos hasRoom] at appended
    cases appended
    exact ⟨hasRoom, UInt16.toNat_ofNat_of_lt' hasRoom, rfl⟩
  · rw [if_neg hasRoom] at appended
    cases appended

theorem append_takes (unknown : entry.type? = none)
    (appended : frame.append entry = (some slot, later)) : frame.Takes slot later := by
  obtain ⟨hasRoom, slotEq, entriesEq⟩ := append_eq_some appended
  have sizeEq : later.size = frame.size + 1 :=
    (congrArg Array.size entriesEq).trans (Array.size_push _)
  refine ⟨slotEq, sizeEq, sizeEq.trans_le hasRoom, ?_⟩
  intro other
  unfold typeOf? get?
  rw [entriesEq, Array.getElem?_push]
  by_cases isNew : other.toNat = frame.entries.size
  · rw [if_pos isNew, isNew, Array.getElem?_size]
    exact unknown
  · rw [if_neg isNew]

theorem addTemporary_takes (added : frame.addTemporary = (some slot, later)) :
    frame.Takes slot later :=
  append_takes rfl added

theorem add_takes (added : frame.add name isMutable none = (some slot, later)) :
    frame.Takes slot later :=
  append_takes rfl added

end Variables

theorem Variables.Takes.slot_lt (takes : frame.Takes slot later) : slot.toNat < later.size := by
  rw [takes.slot_eq, takes.size_eq]
  exact Nat.lt_succ_self _

/-- A frame after some variables, all of unknown type, were added. -/
structure Variables.Grows (frame later : Variables) : Prop where
  size_le : frame.size ≤ later.size
  within : frame.size ≤ capacity → later.size ≤ capacity
  typeOf?_eq : ∀ slot, later.typeOf? slot = frame.typeOf? slot

theorem Variables.Grows.refl (frame : Variables) : frame.Grows frame :=
  ⟨le_refl _, id, fun _ => rfl⟩

theorem Variables.Grows.trans {first second third : Variables} (early : first.Grows second)
    (late : second.Grows third) : first.Grows third :=
  ⟨early.size_le.trans late.size_le, late.within ∘ early.within,
    fun slot => (late.typeOf?_eq slot).trans (early.typeOf?_eq slot)⟩

theorem Variables.Takes.grows (takes : frame.Takes slot later) : frame.Grows later :=
  ⟨by rw [takes.size_eq]; omega, fun _ => takes.size_le, takes.typeOf?_eq⟩

theorem Context.Adds.takes (adds : before.Adds slot after) :
    before.frame.Takes slot after.frame := by
  obtain ⟨frame, added, rfl⟩ := adds
  exact Variables.addTemporary_takes added

theorem Context.Adds.scopes_eq (adds : before.Adds slot after) : after.scopes = before.scopes := by
  obtain ⟨frame, _, rfl⟩ := adds
  rfl

theorem Context.Declares.takes (declares : before.Declares name isMutable slot after) :
    before.frame.Takes slot after.frame := by
  obtain ⟨_, frame, scopes, added, _, rfl⟩ := declares
  exact Variables.add_takes added

theorem Context.Records.frame_eq (records : before.Records name after) :
    after.frame = before.frame := by
  obtain ⟨callees, isNew, _, rfl⟩ := records
  rfl

theorem Context.Records.scopes_eq (records : before.Records name after) :
    after.scopes = before.scopes := by
  obtain ⟨callees, isNew, _, rfl⟩ := records
  rfl

/-! ## Scopes -/

namespace ScopeChain

variable {chain : ScopeChain}

variable {inner : ScopeChain}

/-- Some open block declares a name for the slot, perhaps one that an inner
block hides. -/
def Holds (chain : ScopeChain) (slot : Slot) : Prop :=
  ∃ scope ∈ chain.scopes, ∃ entry ∈ scope.names, entry.2 = slot

theorem holds_of_lookup? (found : chain.lookup? name = some slot) : chain.Holds slot := by
  obtain ⟨scope, member, inScope⟩ := List.exists_of_findSome?_eq_some found
  obtain ⟨entry, entryFound, slotEq⟩ := Option.map_eq_some_iff.mp inScope
  exact ⟨scope, member, entry, List.mem_of_find?_eq_some entryFound, slotEq⟩

/-- The same blocks are open, and the innermost one holds the same locks. -/
structure SameBlocks (before after : ScopeChain) : Prop where
  outer : after.outer = before.outer
  locks : after.innermost.locks = before.innermost.locks

theorem SameBlocks.refl (chain : ScopeChain) : SameBlocks chain chain := ⟨rfl, rfl⟩

theorem SameBlocks.trans {first second third} (early : SameBlocks first second)
    (late : SameBlocks second third) : SameBlocks first third :=
  ⟨late.outer.trans early.outer, late.locks.trans early.locks⟩

theorem SameBlocks.lockDepth_eq {before after} (same : SameBlocks before after) :
    after.lockDepth = before.lockDepth := by
  simp only [lockDepth, scopes, List.foldr_cons, same.outer, same.locks]

theorem SameBlocks.leave_eq (same : SameBlocks (chain.enter locks) inner) :
    inner.leave = chain := by
  have outerEq : inner.outer = chain.innermost :: chain.outer := same.outer
  unfold leave
  rw [outerEq]

theorem lockDepth_enter (chain : ScopeChain) (locks : Nat) :
    (chain.enter locks).lockDepth = locks + chain.lockDepth := rfl

theorem holds_enter_iff : (chain.enter locks).Holds slot ↔ chain.Holds slot := by
  constructor
  · rintro ⟨scope, member, entry, inNames, slotEq⟩
    rcases List.mem_cons.mp member with rfl | outer
    · exact absurd inNames List.not_mem_nil
    · exact ⟨scope, outer, entry, inNames, slotEq⟩
  · rintro ⟨scope, member, entry, inNames, slotEq⟩
    exact ⟨scope, List.mem_cons_of_mem _ member, entry, inNames, slotEq⟩

theorem SameBlocks.holds (same : SameBlocks (chain.enter locks) inner) (held : chain.Holds slot) :
    inner.Holds slot := by
  obtain ⟨scope, member, found⟩ := held
  refine ⟨scope, ?_, found⟩
  have outerEq : inner.outer = chain.scopes := same.outer
  unfold scopes
  rw [outerEq]
  exact List.mem_cons_of_mem _ member

theorem sameBlocks_declare? {chain later : ScopeChain} {name slot}
    (declared : chain.declare? name slot = some later) : SameBlocks chain later := by
  unfold declare? at declared
  split at declared
  · cases declared
  · cases declared
    exact ⟨rfl, rfl⟩

theorem holds_declare?_iff {later other} (declared : chain.declare? name slot = some later) :
    later.Holds other ↔ other = slot ∨ chain.Holds other := by
  unfold declare? at declared
  split at declared
  · cases declared
  · cases declared
    simp only [Holds, scopes, List.mem_cons, exists_eq_or_imp, or_assoc, eq_comm]

end ScopeChain

theorem Context.Declares.sameBlocks (declares : before.Declares name isMutable slot after) :
    before.scopes.SameBlocks after.scopes := by
  obtain ⟨_, frame, scopes, _, declared, rfl⟩ := declares
  exact ScopeChain.sameBlocks_declare? declared

theorem Context.Declares.holds_iff {other} (declares : before.Declares name isMutable slot after) :
    after.scopes.Holds other ↔ other = slot ∨ before.scopes.Holds other := by
  obtain ⟨_, frame, scopes, _, declared, rfl⟩ := declares
  exact ScopeChain.holds_declare?_iff declared

/-- Every name in an open block has a slot of the frame. -/
def Context.Bounded (context : Context) : Prop :=
  ∀ slot, context.scopes.Holds slot → slot.toNat < context.frame.size

theorem Context.Bounded.slot_lt {context : Context} (bounded : context.Bounded)
    (found : context.scopes.lookup? name = some slot) : slot.toNat < context.frame.size :=
  bounded slot (ScopeChain.holds_of_lookup? found)

theorem Context.Bounded.of_scopes_eq (bounded : before.Bounded)
    (grows : before.frame.Grows after.frame) (same : after.scopes = before.scopes) :
    after.Bounded := by
  intro slot held
  rw [same] at held
  exact (bounded slot held).trans_le grows.size_le

theorem Context.Bounded.declares (bounded : before.Bounded)
    (declares : before.Declares name isMutable slot after) : after.Bounded := by
  intro other held
  rcases declares.holds_iff.mp held with rfl | earlier
  · exact declares.takes.slot_lt
  · exact (bounded other earlier).trans_le declares.takes.grows.size_le

theorem Context.Bounded.enter {context : Context} (bounded : context.Bounded) (locks : Nat) :
    (context.withScopes (context.scopes.enter locks)).Bounded := by
  intro slot held
  exact bounded slot (ScopeChain.holds_enter_iff.mp held)

/-! ## Parts of a body -/

section Walks

variable (relation : Context → Context → Prop) (refl : ∀ context, relation context context)
  (trans : ∀ {first second third : Context}, relation first second → relation second third →
    relation first third)
  (declares : ∀ {before after : Context} {name : String} {isMutable : Bool} {slot : Slot},
    before.Declares name isMutable slot after → relation before after)

include refl trans declares

theorem Reads.relates
    (adds : ∀ {before after : Context} {slot}, before.Adds slot after → relation before after)
    (records : ∀ {before after : Context} {name}, before.Records name after →
      relation before after) (encloses : ∀ {before after : Context} {locks},
      relation (before.withScopes (before.scopes.enter locks)) after →
        relation before (after.withScopes after.scopes.leave)) (read : Reads part before after) :
    relation before after := by
  induction read with
  | visible | literal | string | noOperands | noSteps | ret | noNodes | noAlternative =>
    exact refl _
  | access _ _ inner | assignment _ _ inner | retValue _ inner | callStatement _ inner
  | conditional _ inner | sync _ _ _ _ inner | alternative _ inner => exact inner
  | moreOperands _ _ first second | memberAssignment _ _ _ first second
  | loop _ _ first second | moreNodes _ _ first second => exact trans first second
  | binary _ _ added left right => exact trans (trans left right) (adds added)
  | call _ recorded arguments => exact trans arguments (records recorded)
  | moreSteps added _ tail => exact trans (adds added) tail
  | declaration _ declared initial => exact trans initial (declares declared)
  | block _ inside => exact encloses inside
  | arm _ _ _ tested entered rest => exact trans (trans tested entered) rest

theorem ReadsParameters.relates (read : ReadsParameters parameters before after) :
    relation before after := by
  induction read with
  | nil => exact refl _
  | cons declared _ tail => exact trans (declares declared) tail

end Walks

/-- What reading leaves as it was: the variables, the open blocks with their locks and
names, and that every name has a slot of the frame. -/
structure Context.Keeps (before after : Context) : Prop where
  grows : before.frame.Grows after.frame
  sameBlocks : before.scopes.SameBlocks after.scopes
  holds : ∀ {slot}, before.scopes.Holds slot → after.scopes.Holds slot
  bounded : before.Bounded → after.Bounded

namespace Context.Keeps

theorem refl (context : Context) : context.Keeps context := ⟨.refl _, .refl _, id, id⟩

theorem trans {first second third : Context} (early : first.Keeps second)
    (late : second.Keeps third) : first.Keeps third :=
  ⟨early.grows.trans late.grows, early.sameBlocks.trans late.sameBlocks,
    fun held => late.holds (early.holds held), late.bounded ∘ early.bounded⟩

theorem of_scopes_eq {before after : Context} (grows : before.frame.Grows after.frame)
    (same : after.scopes = before.scopes) : before.Keeps after :=
  ⟨grows, same ▸ .refl _, fun held => same ▸ held, fun bounded => bounded.of_scopes_eq grows same⟩

theorem of_declares (declares : before.Declares name isMutable slot after) : before.Keeps after :=
  ⟨declares.takes.grows, declares.sameBlocks, fun held => declares.holds_iff.mpr (.inr held),
    fun bounded => bounded.declares declares⟩

theorem of_adds (adds : before.Adds slot after) : before.Keeps after :=
  of_scopes_eq adds.takes.grows adds.scopes_eq

theorem of_records (records : before.Records name after) : before.Keeps after :=
  of_scopes_eq (records.frame_eq ▸ .refl _) records.scopes_eq

theorem enclose (inside : (before.withScopes (before.scopes.enter locks)).Keeps after) :
    before.Keeps (after.withScopes after.scopes.leave) :=
  of_scopes_eq inside.grows inside.sameBlocks.leave_eq

end Context.Keeps

theorem Reads.keeps (read : Reads part before after) : before.Keeps after :=
  read.relates Context.Keeps .refl .trans .of_declares .of_adds .of_records .enclose

theorem Reads.grows (read : Reads part before after) : before.frame.Grows after.frame :=
  read.keeps.grows

theorem Reads.sameBlocks (read : Reads part before after) : before.scopes.SameBlocks after.scopes :=
  read.keeps.sameBlocks

theorem Reads.bounded (read : Reads part before after) (bounded : before.Bounded) : after.Bounded :=
  read.keeps.bounded bounded

def TreePart.declares : TreePart → Bool
  | .node _ => true
  | .nodes _ => true
  | _ => false

theorem Reads.scopes_eq (read : Reads part before after) (silent : part.declares = false) :
    after.scopes = before.scopes := by
  induction read with
  | visible | literal | string | noOperands | noSteps | noAlternative => rfl
  | access _ _ projected => exact projected rfl
  | binary _ _ added left right => rw [added.scopes_eq, right rfl, left rfl]
  | call _ recorded arguments => rw [recorded.scopes_eq, arguments rfl]
  | moreOperands _ _ head tail => rw [tail rfl, head rfl]
  | moreSteps added _ tail => rw [tail rfl, added.scopes_eq]
  | @block locks nodes before after inside _ =>
    have same : (before.scopes.enter locks).SameBlocks after.scopes := inside.sameBlocks
    exact same.leave_eq
  | arm _ _ _ tested entered rest => rw [rest rfl, entered rfl, tested rfl]
  | alternative _ entered => exact entered rfl
  | _ => contradiction

/-! ## Whole functions -/

theorem ReadsParameters.keeps (read : ReadsParameters parameters before after) :
    before.Keeps after :=
  read.relates Context.Keeps .refl .trans .of_declares

theorem ReadsParameters.size_eq (read : ReadsParameters parameters before after) :
    after.frame.size = before.frame.size + parameters.length := by
  induction read with
  | nil => rfl
  | cons declared _ tail =>
    rw [tail, declared.takes.size_eq, List.length_cons]
    omega

theorem ReadsParameters.slot_eq (read : ReadsParameters parameters before after) {number parameter}
    (found : parameters[number]? = some parameter) :
    parameter.slot.toNat = before.frame.size + number := by
  induction read generalizing number with
  | nil => cases found
  | cons declared _ tail =>
    cases number with
    | zero =>
      cases found
      exact declared.takes.slot_eq
    | succ number =>
      rw [tail found, declared.takes.size_eq]
      omega

namespace FunctionItem.WasRead

variable {item : FunctionItem} {entered left : Context}

section

variable (read : item.WasRead entered left)

include read

theorem entered_bounded : entered.Bounded := by
  apply read.parameters.keeps.bounded
  rintro slot ⟨scope, member, entry, inNames, _⟩
  rw [show (Context.initial item.name).scopes.scopes = [Scope.holding 0] from rfl,
    List.mem_singleton] at member
  rw [member] at inNames
  exact absurd inNames List.not_mem_nil

theorem lockDepth_eq_zero : entered.scopes.lockDepth = 0 :=
  read.parameters.keeps.sameBlocks.lockDepth_eq

theorem parameter_slot {number : Nat} {parameter : Parameter}
    (found : item.parameters[number]? = some parameter) : parameter.slot.toNat = number := by
  rw [read.parameters.slot_eq found]
  exact Nat.zero_add number

theorem entered_size : entered.frame.size = item.parameters.length := by
  rw [read.parameters.size_eq]
  exact Nat.zero_add _

private theorem frame_grows : Variables.empty.Grows item.frame := by
  rw [read.frame]
  exact read.parameters.keeps.grows.trans read.body.grows

theorem frame_size_le : item.frame.size ≤ Variables.capacity :=
  read.frame_grows.within (Nat.zero_le _)

theorem typeOf?_eq_none (slot : Slot) : item.frame.typeOf? slot = none :=
  read.frame_grows.typeOf?_eq slot

end

end FunctionItem.WasRead

end SlotCompiler
