import SlotCompiler.Proofs.Tree.Trace

/-!
Contract: which declaration a name stands for.
-/

namespace SlotCompiler

/-! ## The rule -/

section Events

variable {ρ σ : Type}

namespace BodyEvent

def isOpening : BodyEvent ρ σ → Bool
  | .opens _ => true
  | _ => false

def isClosing : BodyEvent ρ σ → Bool
  | .closes => true
  | _ => false

def isDeclaring : BodyEvent ρ σ → Bool
  | .declares _ _ _ => true
  | _ => false

end BodyEvent

def openings (events : List (BodyEvent ρ σ)) : Nat := events.countP BodyEvent.isOpening

def closings (events : List (BodyEvent ρ σ)) : Nat := events.countP BodyEvent.isClosing

def openBlocks (events : List (BodyEvent ρ σ)) : Nat := openings events - closings events

/-- The events close no block that was open before them. -/
def StaysOpen (events : List (BodyEvent ρ σ)) : Prop :=
  ∀ front, front <+: events → closings front ≤ openings front

/-- A declaration of the name is complete and its block is still open.  There are
`depth` blocks around it. -/
def Visible (before : List (BodyEvent ρ σ)) (name : String) (given : σ) (depth : Nat) : Prop :=
  ∃ early isMutable late, before = early ++ .declares name isMutable given :: late ∧
    StaysOpen late ∧ openBlocks early = depth

/-- The declaration that a name stands for after some events: of those that are
visible, the one in the innermost block. -/
def Selects (before : List (BodyEvent ρ σ)) (name : String) (given : σ) : Prop :=
  ∃ depth, Visible before name given depth ∧
    ∀ other otherDepth, Visible before name other otherDepth →
      otherDepth < depth ∨ otherDepth = depth ∧ other = given

end Events

/-- An event of what is written, where variables are known by their names. -/
abbrev WrittenEvent := BodyEvent String Unit

/-- What is written becomes this event, after the events before it: a name that is
used has the slot of the declaration that it stands for. -/
inductive ResolvesEvent (before : List SlotEvent) : WrittenEvent → SlotEvent → Prop where
  | opens (locks : Nat) : ResolvesEvent before (.opens locks) (.opens locks)
  | closes : ResolvesEvent before .closes .closes
  | declares (name : String) (isMutable : Bool) (slot : Slot) :
      ResolvesEvent before (.declares name isMutable ()) (.declares name isMutable slot)
  | computes (slot : Slot) : ResolvesEvent before (.computes ()) (.computes slot)
  | uses {name slot} (selected : Selects before name slot) :
      ResolvesEvent before (.uses name) (.uses slot)
  | calls (name : String) : ResolvesEvent before (.calls name) (.calls name)

/-- After some events, a row of what is written becomes a row of events, each after
all those before it. -/
inductive Resolves : List SlotEvent → List WrittenEvent → List SlotEvent → Prop where
  | nil {before} : Resolves before [] []
  | cons {before written event others events} (first : ResolvesEvent before written event)
      (rest : Resolves (before ++ [event]) others events) :
      Resolves before (written :: others) (event :: events)

/-! ## One more event -/

section Events

variable {ρ σ : Type} {before events : List (BodyEvent ρ σ)} {event : BodyEvent ρ σ}
  {name : String} {given : σ} {depth : Nat}

theorem openings_concat (events : List (BodyEvent ρ σ)) (event : BodyEvent ρ σ) :
    openings (events ++ [event]) = openings events + if event.isOpening then 1 else 0 := by
  simp [openings, List.countP_append, List.countP_singleton]

theorem closings_concat (events : List (BodyEvent ρ σ)) (event : BodyEvent ρ σ) :
    closings (events ++ [event]) = closings events + if event.isClosing then 1 else 0 := by
  simp [closings, List.countP_append, List.countP_singleton]

theorem staysOpen_nil : StaysOpen ([] : List (BodyEvent ρ σ)) := by
  intro front isFront
  rw [List.prefix_nil.mp isFront]
  exact Nat.le_refl _

theorem staysOpen_concat_iff : StaysOpen (events ++ [event]) ↔
    StaysOpen events ∧ closings (events ++ [event]) ≤ openings (events ++ [event]) := by
  constructor
  · intro stays
    exact ⟨fun front isFront => stays front (isFront.trans (List.prefix_append _ _)),
      stays _ (List.prefix_refl _)⟩
  · rintro ⟨stays, last⟩ front isFront
    rcases List.prefix_concat_iff.mp isFront with rfl | shorter
    · exact last
    · exact stays front shorter

theorem staysOpen_concat_of_not_closing (notClosing : event.isClosing = false) :
    StaysOpen (events ++ [event]) ↔ StaysOpen events := by
  rw [staysOpen_concat_iff, and_iff_left_iff_imp]
  intro stays
  have all := stays events (List.prefix_refl _)
  rw [closings_concat, openings_concat, notClosing]
  simp only [Bool.false_eq_true, if_false]
  omega

theorem visible_concat_iff : Visible (before ++ [event]) name given depth ↔
    (∃ early isMutable late, before = early ++ .declares name isMutable given :: late ∧
      StaysOpen (late ++ [event]) ∧ openBlocks early = depth) ∨
    ∃ isMutable, event = .declares name isMutable given ∧ openBlocks before = depth := by
  constructor
  · rintro ⟨early, isMutable, late, split, stays, level⟩
    rcases List.eq_nil_or_concat late with rfl | ⟨front, last, rfl⟩
    · obtain ⟨rfl, sameEvent⟩ := List.append_inj' split rfl
      exact .inr ⟨isMutable, List.head_eq_of_cons_eq sameEvent, level⟩
    · rw [List.concat_eq_append, ← List.cons_append, ← List.append_assoc] at split
      obtain ⟨sameFront, sameLast⟩ := List.append_inj' split rfl
      rw [List.concat_eq_append, ← sameLast] at stays
      exact .inl ⟨early, isMutable, front, sameFront, stays, level⟩
  · rintro (⟨early, isMutable, late, rfl, stays, level⟩ | ⟨isMutable, rfl, level⟩)
    · exact ⟨early, isMutable, late ++ [event], by simp, stays, level⟩
    · exact ⟨before, isMutable, [], rfl, staysOpen_nil, level⟩

theorem visible_concat_of_neutral (notClosing : event.isClosing = false)
    (notDeclaring : event.isDeclaring = false) :
    Visible (before ++ [event]) name given depth ↔ Visible before name given depth := by
  rw [visible_concat_iff]
  constructor
  · rintro (⟨early, isMutable, late, split, stays, level⟩ | ⟨isMutable, rfl, _⟩)
    · exact ⟨early, isMutable, late, split, (staysOpen_concat_of_not_closing notClosing).mp stays,
        level⟩
    · exact absurd notDeclaring Bool.true_eq_false_eq_False
  · rintro ⟨early, isMutable, late, split, stays, level⟩
    exact .inl ⟨early, isMutable, late, split,
      (staysOpen_concat_of_not_closing notClosing).mpr stays, level⟩

theorem visible_concat_declares {declared isMutable place} :
    Visible (before ++ [.declares declared isMutable place]) name given depth ↔
      Visible before name given depth ∨
        name = declared ∧ given = place ∧ depth = openBlocks before := by
  rw [visible_concat_iff]
  constructor
  · rintro (⟨early, wasMutable, late, split, stays, level⟩ | ⟨wasMutable, same, level⟩)
    · exact .inl ⟨early, wasMutable, late, split, (staysOpen_concat_of_not_closing rfl).mp stays,
        level⟩
    · cases same
      exact .inr ⟨rfl, rfl, level.symm⟩
  · rintro (⟨early, wasMutable, late, split, stays, level⟩ | ⟨rfl, rfl, level⟩)
    · exact .inl ⟨early, wasMutable, late, split, (staysOpen_concat_of_not_closing rfl).mpr stays,
        level⟩
    · exact .inr ⟨isMutable, rfl, level.symm⟩

theorem visible_concat_closes (balanced : StaysOpen before) :
    Visible (before ++ [.closes]) name given depth ↔
      Visible before name given depth ∧ depth < openBlocks before := by
  -- The block of a declaration is open as long as more blocks were opened than closed since.
  have openIff {early late : List (BodyEvent ρ σ)} {isMutable : Bool}
      (split : before = early ++ .declares name isMutable given :: late) (stays : StaysOpen late) :
      StaysOpen (late ++ [.closes]) ↔ openBlocks early < openBlocks before := by
    have earlyBalanced := balanced early (split ▸ List.prefix_append _ _)
    have lateBalanced := stays late (List.prefix_refl _)
    have openingsEq : openings before = openings early + openings late := by
      rw [split]
      simp [openings, BodyEvent.isOpening]
    have closingsEq : closings before = closings early + closings late := by
      rw [split]
      simp [closings, BodyEvent.isClosing]
    rw [staysOpen_concat_iff, and_iff_right stays, closings_concat, openings_concat]
    simp only [BodyEvent.isClosing, BodyEvent.isOpening, Bool.false_eq_true, if_true, if_false,
      openBlocks]
    omega
  rw [visible_concat_iff]
  constructor
  · rintro (⟨early, isMutable, late, split, stays, rfl⟩ | ⟨isMutable, impossible, _⟩)
    · have lateStays := (staysOpen_concat_iff.mp stays).1
      exact ⟨⟨early, isMutable, late, split, lateStays, rfl⟩, (openIff split lateStays).mp stays⟩
    · contradiction
  · rintro ⟨⟨early, isMutable, late, split, stays, rfl⟩, inner⟩
    exact .inl ⟨early, isMutable, late, split, (openIff split stays).mpr inner, rfl⟩

end Events

/-! ## The chain of scopes -/

theorem Scope.mem_of_find? {scope : Scope} {name slot}
    (found : scope.find? name = some slot) : (name, slot) ∈ scope.names := by
  obtain ⟨⟨other, given⟩, isEntry, rfl⟩ := Option.map_eq_some_iff.mp found
  have sameName := List.find?_some isEntry
  cases eq_of_beq sameName
  exact List.mem_of_find?_eq_some isEntry

theorem Scope.exists_find? {scope : Scope} {name slot}
    (member : (name, slot) ∈ scope.names) : ∃ given, scope.find? name = some given := by
  have isFound : (scope.names.find? fun entry => entry.1 == name).isSome = true :=
    List.find?_isSome.mpr ⟨(name, slot), member, beq_self_eq_true name⟩
  obtain ⟨entry, found⟩ := Option.isSome_iff_exists.mp isFound
  exact ⟨entry.2, Option.map_eq_some_iff.mpr ⟨entry, found, rfl⟩⟩

namespace ScopeChain

def DeclaresAt (chain : ScopeChain) (depth : Nat) (name : String) (slot : Slot) : Prop :=
  ∃ front scope back, chain.scopes = front ++ scope :: back ∧ back.length = depth ∧
    (name, slot) ∈ scope.names

/-- The chain is what the events have left: it has a scope for each open block, and
the names that are visible, each once in its scope. -/
structure Describes (chain : ScopeChain) (events : List SlotEvent) : Prop where
  balanced : StaysOpen events
  depth_eq : chain.outer.length = openBlocks events
  declared_iff : ∀ {name slot depth},
    chain.DeclaresAt depth name slot ↔ Visible events name slot depth
  distinct : ∀ scope ∈ chain.scopes, (scope.names.map Prod.fst).Nodup

variable {chain later : ScopeChain} {events : List SlotEvent} {name : String} {slot : Slot}
  {depth : Nat}

theorem declaresAt_iff : chain.DeclaresAt depth name slot ↔
    (chain.outer.length = depth ∧ (name, slot) ∈ chain.innermost.names) ∨
      ∃ front scope back, chain.outer = front ++ scope :: back ∧ back.length = depth ∧
        (name, slot) ∈ scope.names := by
  constructor
  · rintro ⟨front, scope, back, split, level, member⟩
    cases front with
    | nil =>
      obtain ⟨rfl, rfl⟩ := List.cons.inj split
      exact .inl ⟨level, member⟩
    | cons first front =>
      obtain ⟨_, outerEq⟩ := List.cons.inj split
      exact .inr ⟨front, scope, back, outerEq, level, member⟩
  · rintro (⟨level, member⟩ | ⟨front, scope, back, outerEq, level, member⟩)
    · exact ⟨[], chain.innermost, chain.outer, rfl, level, member⟩
    · refine ⟨chain.innermost :: front, scope, back, ?_, level, member⟩
      rw [scopes, outerEq, List.cons_append]

theorem DeclaresAt.depth_le (declared : chain.DeclaresAt depth name slot) :
    depth ≤ chain.outer.length := by
  rcases declaresAt_iff.mp declared with ⟨level, _⟩ | ⟨front, scope, back, outerEq, level, _⟩
  · exact level.ge
  · rw [outerEq, List.length_append, List.length_cons]
    omega

theorem declaresAt_enter_iff (locks : Nat) :
    (chain.enter locks).DeclaresAt depth name slot ↔ chain.DeclaresAt depth name slot := by
  rw [declaresAt_iff]
  exact or_iff_right fun inside => absurd inside.2 List.not_mem_nil

theorem length_leave (chain : ScopeChain) : chain.leave.outer.length = chain.outer.length - 1 := by
  obtain ⟨innermost, outer⟩ := chain
  cases outer with
  | nil | cons => rfl

theorem declaresAt_leave_iff (isInner : chain.outer ≠ []) :
    chain.leave.DeclaresAt depth name slot ↔
      chain.DeclaresAt depth name slot ∧ depth < chain.outer.length := by
  obtain ⟨innermost, outer⟩ := chain
  cases outer with
  | nil => contradiction
  | cons scope outer =>
    have leaveIff : (ScopeChain.mk scope outer).DeclaresAt depth name slot →
        depth < (scope :: outer).length := by
      intro declared
      exact Nat.lt_succ_of_le declared.depth_le
    rw [@declaresAt_iff ⟨innermost, scope :: outer⟩]
    constructor
    · intro declared
      exact ⟨.inr declared, leaveIff declared⟩
    · rintro ⟨⟨level, _⟩ | declared, inner⟩
      · exact absurd level inner.ne'
      · exact declared

theorem declaresAt_declare?_iff {declared place}
    (ran : chain.declare? declared place = some later) :
    later.DeclaresAt depth name slot ↔ chain.DeclaresAt depth name slot ∨
      name = declared ∧ slot = place ∧ depth = chain.outer.length := by
  unfold declare? at ran
  split at ran
  · contradiction
  · cases ran
    rw [declaresAt_iff, declaresAt_iff, List.mem_cons, Prod.mk.injEq]
    constructor
    · rintro (⟨level, ⟨rfl, rfl⟩ | member⟩ | outside)
      · exact .inr ⟨rfl, rfl, level.symm⟩
      · exact .inl (.inl ⟨level, member⟩)
      · exact .inl (.inr outside)
    · rintro ((⟨level, member⟩ | outside) | ⟨rfl, rfl, level⟩)
      · exact .inl ⟨level, .inr member⟩
      · exact .inr outside
      · exact .inl ⟨level.symm, .inl ⟨rfl, rfl⟩⟩

/-! ### Events -/

theorem describes_initial : initial.Describes [] where
  balanced := staysOpen_nil
  depth_eq := rfl
  declared_iff := by
    intro name slot depth
    constructor
    · intro declared
      rcases declaresAt_iff.mp declared with ⟨_, member⟩ | ⟨front, scope, back, outerEq, _⟩
      · exact absurd member List.not_mem_nil
      · exact absurd outerEq.symm (List.append_ne_nil_of_right_ne_nil _ (List.cons_ne_nil _ _))
    · rintro ⟨early, isMutable, late, split, _⟩
      exact absurd split.symm (List.append_ne_nil_of_right_ne_nil _ (List.cons_ne_nil _ _))
  distinct := by
    intro scope member
    rw [List.mem_singleton.mp member]
    exact List.nodup_nil

namespace Describes

variable (describes : chain.Describes events)

include describes

theorem other {event : SlotEvent} (notOpening : event.isOpening = false)
    (notClosing : event.isClosing = false) (notDeclaring : event.isDeclaring = false) :
    chain.Describes (events ++ [event]) where
  balanced := (staysOpen_concat_of_not_closing notClosing).mpr describes.balanced
  depth_eq := by
    rw [describes.depth_eq, openBlocks, openBlocks, openings_concat, closings_concat, notOpening,
      notClosing]
    rfl
  declared_iff := describes.declared_iff.trans
    (visible_concat_of_neutral notClosing notDeclaring).symm
  distinct := describes.distinct

theorem enter (locks : Nat) : (chain.enter locks).Describes (events ++ [.opens locks]) where
  balanced := (staysOpen_concat_of_not_closing rfl).mpr describes.balanced
  depth_eq := by
    have balanced := describes.balanced events (List.prefix_refl _)
    have lengthEq := describes.depth_eq
    rw [openBlocks] at lengthEq
    rw [openBlocks, openings_concat, closings_concat]
    simp only [BodyEvent.isOpening, BodyEvent.isClosing, Bool.false_eq_true, if_true, if_false]
    show chain.outer.length + 1 = _
    omega
  declared_iff := (declaresAt_enter_iff locks).trans
    (describes.declared_iff.trans (visible_concat_of_neutral rfl rfl).symm)
  distinct := List.forall_mem_cons.mpr ⟨List.nodup_nil, describes.distinct⟩

theorem leave (isInner : chain.outer ≠ []) : chain.leave.Describes (events ++ [.closes]) := by
  have lengthEq := describes.depth_eq
  have positive := List.length_pos_of_ne_nil isInner
  refine ⟨?_, ?_, ?_, ?_⟩
  · rw [staysOpen_concat_iff, closings_concat, openings_concat]
    simp only [BodyEvent.isOpening, BodyEvent.isClosing, Bool.false_eq_true, if_true, if_false]
    rw [openBlocks] at lengthEq
    exact ⟨describes.balanced, by omega⟩
  · rw [openBlocks] at lengthEq
    rw [length_leave, openBlocks, openings_concat, closings_concat]
    simp only [BodyEvent.isOpening, BodyEvent.isClosing, Bool.false_eq_true, if_true, if_false]
    omega
  · intro name slot depth
    rw [declaresAt_leave_iff isInner, visible_concat_closes describes.balanced,
      describes.declared_iff, lengthEq]
  · intro scope member
    apply describes.distinct
    obtain ⟨innermost, outer⟩ := chain
    cases outer with
    | nil => contradiction
    | cons first outer => exact List.mem_cons_of_mem _ member

theorem declare {isMutable} (ran : chain.declare? name slot = some later) :
    later.Describes (events ++ [.declares name isMutable slot]) where
  balanced := (staysOpen_concat_of_not_closing rfl).mpr describes.balanced
  depth_eq := by
    rw [(sameBlocks_declare? ran).outer, describes.depth_eq, openBlocks, openBlocks,
      openings_concat, closings_concat]
    rfl
  declared_iff := by
    intro other place depth
    rw [declaresAt_declare?_iff ran, visible_concat_declares, describes.declared_iff,
      describes.depth_eq]
  distinct := by
    unfold declare? at ran
    split at ran
    · contradiction
    · rename_i isFree
      cases ran
      obtain ⟨innermostDistinct, outerDistinct⟩ := List.forall_mem_cons.mp describes.distinct
      refine List.forall_mem_cons.mpr ⟨?_, outerDistinct⟩
      rw [List.map_cons, List.nodup_cons]
      refine ⟨?_, innermostDistinct⟩
      intro isTwice
      obtain ⟨⟨_, earlier⟩, member, rfl⟩ := List.mem_map.mp isTwice
      obtain ⟨given, found⟩ := Scope.exists_find? member
      exact isFree (Option.isSome_iff_exists.mpr ⟨given, found⟩)

theorem selects (found : chain.lookup? name = some slot) : Selects events name slot := by
  obtain ⟨front, scope, back, split, isHere, notBefore⟩ := List.findSome?_eq_some_iff.mp found
  have isDeclared : chain.DeclaresAt back.length name slot :=
    ⟨front, scope, back, split, rfl, Scope.mem_of_find? isHere⟩
  refine ⟨back.length, describes.declared_iff.mp isDeclared, ?_⟩
  intro other otherDepth isVisible
  obtain ⟨first, around, last, otherSplit, rfl, member⟩ := describes.declared_iff.mpr isVisible
  rw [split] at otherSplit
  have namesDistinct := describes.distinct scope (by simp [split])
  have isSame (inside : (name, other) ∈ scope.names) : other = slot :=
    congrArg Prod.snd
      (List.inj_on_of_nodup_map namesDistinct inside (Scope.mem_of_find? isHere) rfl)
  -- The other scope is further out, the same one, or further in and then without the name.
  rcases List.append_eq_append_iff.mp otherSplit with
    ⟨between, rfl, restEq⟩ | ⟨between, rfl, restEq⟩
  · cases between with
    | nil =>
      obtain ⟨rfl, rfl⟩ := List.cons.inj restEq
      exact .inr ⟨rfl, isSame member⟩
    | cons _ between =>
      have backEq : back = between ++ around :: last := List.tail_eq_of_cons_eq restEq
      refine .inl ?_
      rw [backEq, List.length_append, List.length_cons]
      omega
  · cases between with
    | nil =>
      obtain ⟨rfl, rfl⟩ := List.cons.inj restEq
      exact .inr ⟨rfl, isSame member⟩
    | cons inner between =>
      obtain ⟨rfl, _⟩ := List.cons.inj restEq
      obtain ⟨given, isFound⟩ := Scope.exists_find? member
      rw [notBefore around (by simp)] at isFound
      contradiction

theorem lookup?_eq_none_iff :
    chain.lookup? name = none ↔ ∀ slot depth, ¬ Visible events name slot depth := by
  constructor
  · intro isUnknown slot depth isVisible
    obtain ⟨front, scope, back, split, _, member⟩ := describes.declared_iff.mpr isVisible
    obtain ⟨given, found⟩ := Scope.exists_find? member
    have notHere := List.findSome?_eq_none_iff.mp isUnknown scope (by simp [split])
    rw [found] at notHere
    contradiction
  · intro isUnknown
    apply Option.eq_none_iff_forall_ne_some.mpr
    intro slot found
    obtain ⟨depth, isVisible, _⟩ := describes.selects found
    exact isUnknown slot depth isVisible

end Describes

end ScopeChain

end SlotCompiler
