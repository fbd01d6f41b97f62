import SlotCompiler.Proofs.Tree.Mutability
import SlotCompiler.Proofs.Tree.Resolution
import SlotCompiler.Proofs.Tree.Typing

/-!
Contract: resolution decides the type system.

The table before a part permits many typings.  Resolution succeeds exactly when
one of them accepts the part, and then the table after it permits exactly those
that do.
-/

namespace SlotCompiler

open TreePart

variable {slot : Slot} {type : TypeId}

def Cause.isInternal : Cause → Bool
  | .unresolvedType _ => true
  | .unsupportedConstruct construct => construct == statementConstruct
  | _ => false

theorem Cause.isInternal_call : (unsupportedConstruct callConstruct).isInternal = false := by decide

/-! ## Typings and tables -/

namespace Variables

variable {frame later : Variables}

def Permits (frame : Variables) (slots : Slot → TypeId) : Prop :=
  ∀ slot type, frame.typeOf? slot = some type → slots slot = type

theorem Retypes.isMutable_iff (retypes : frame.Retypes later) (slot : Slot) :
    later.IsMutable slot ↔ frame.IsMutable slot := by
  have same := retypes slot
  unfold IsMutable
  cases found : frame.get? slot with
  | none =>
    rw [found, Option.map_none, Option.map_eq_none_iff] at same
    simp [same]
  | some entry =>
    rw [found, Option.map_some, Option.map_eq_some_iff] at same
    obtain ⟨other, otherFound, sameEntry⟩ := same
    simp [otherFound, Variable.isMutable_eq_of_untyped sameEntry]

def typing (frame : Variables) (slot : Slot) : TypeId := (frame.typeOf? slot).getD default

theorem permits_typing (frame : Variables) : frame.Permits frame.typing := by
  intro slot type known
  simp [typing, known]

theorem Refines.permits (refines : frame.Refines later) {slots : Slot → TypeId}
    (permits : later.Permits slots) : frame.Permits slots :=
  fun slot type known => permits slot type (refines.keeps known)

theorem permits_setType_iff (inFrame : slot.toNat < frame.size)
    (unknown : frame.typeOf? slot = none) (type : TypeId) (slots : Slot → TypeId) :
    (frame.setType slot type).Permits slots ↔ frame.Permits slots ∧ slots slot = type := by
  constructor
  · intro permits
    refine ⟨fun other otherType known => permits other otherType ?_, permits slot type ?_⟩
    · have apart : other ≠ slot := by
        rintro rfl
        rw [unknown] at known
        contradiction
      rw [typeOf?_setType inFrame, if_neg apart, known]
    · rw [typeOf?_setType inFrame, if_pos rfl]
  · rintro ⟨permits, held⟩ other otherType known
    rw [typeOf?_setType inFrame] at known
    by_cases same : other = slot
    · rw [if_pos same] at known
      cases known
      rw [same, held]
    · rw [if_neg same] at known
      exact permits other otherType known

end Variables

/-! ## Decisions -/

/-- A table in which the names of the open blocks have types, with room for
slots that have none. -/
structure Ready (base : Variables) (scopes : ScopeChain) (targets : List Slot)
    (frame : Variables) : Prop where
  nodup : targets.Nodup
  lacks : frame.Lacks (· ∈ targets)
  room : ∀ slot ∈ targets, slot.toNat < frame.size
  known : ∀ slot, scopes.Holds slot → ∃ type, frame.typeOf? slot = some type
  retypes : base.Retypes frame

/-- A resolution that succeeded: of the typings permitted before, those accepted
are the ones permitted after. -/
structure Finds {α β : Type} (frame : Variables) (targets : List Slot)
    (accepted : (Slot → TypeId) → β → Prop) (numbered : (Slot → TypeId) → α) (tree : α)
    (later : Variables) (value : β) : Prop where
  fills : frame.Fills (· ∈ targets) later
  refines : frame.Refines later
  retypes : frame.Retypes later
  exact : ∀ slots, frame.Permits slots → ∀ other,
    accepted slots other ↔ later.Permits slots ∧ value = other
  tree_eq : ∀ slots, later.Permits slots → numbered slots = tree

/-- A resolution that finds the accepted typings, or refuses because there are
none. -/
inductive Decided {α β : Type} (frame : Variables) (targets : List Slot)
    (accepted : (Slot → TypeId) → β → Prop) (numbered : (Slot → TypeId) → α) :
    Resolution α β → Prop where
  | found {tree later value} (finds : Finds frame targets accepted numbered tree later value) :
      Decided frame targets accepted numbered ⟨tree, later, .ok value⟩
  | refused {tree later} {fault : Diagnostic} (proper : fault.cause.isInternal = false)
      (never : ∀ slots, frame.Permits slots → ∀ value, ¬ accepted slots value) :
      Decided frame targets accepted numbered ⟨tree, later, .error fault⟩

/-- A check that passes exactly when a condition holds, and otherwise gives a
reason of the program. -/
inductive Checks (holds : Prop) : Except Diagnostic Unit → Prop where
  | passed (held : holds) : Checks holds (.ok ())
  | refused {fault : Diagnostic} (proper : fault.cause.isInternal = false) (fails : ¬ holds) :
      Checks holds (.error fault)

section Checks

variable {env : TypeEnv} {frame : Variables} {position : Position}

theorem TypeEnv.requireType_checks (expected found : TypeId) :
    Checks (expected = found) (env.requireType expected found position) := by
  unfold requireType
  by_cases same : expected = found
  · rw [if_pos same]
    exact .passed same
  · rw [if_neg same]
    exact .refused rfl same

theorem checkReturn_checks (found? : Option TypeId) :
    Checks (found? = env.returnType?) (checkReturn env found? position) := by
  unfold checkReturn
  by_cases same : found? = env.returnType?
  · rw [if_pos same]
    exact .passed same
  · rw [if_neg same]
    exact .refused rfl same

theorem checkDeclared_checks (declared? : Option TypeRef) (type : TypeId) :
    Checks (∀ declared ∈ declared?, env.types.lookup? declared.name = some type)
      (checkDeclared env declared? type position) := by
  cases declared? with
  | none => exact .passed (by simp)
  | some declared =>
    simp only [checkDeclared, TypeEnv.findType, Option.mem_some_iff, forall_eq']
    cases env.types.lookup? declared.name with
    | none => exact .refused rfl (by simp)
    | some expected =>
      simp only [Option.some.injEq]
      exact TypeEnv.requireType_checks expected type

theorem Variables.requireMutable_checks (known : frame.typeOf? slot = some type) :
    Checks (frame.IsMutable slot) (frame.requireMutable slot position) := by
  obtain ⟨entry, found, _⟩ := Option.bind_eq_some_iff.mp known
  unfold requireMutable IsMutable
  simp only [found, Option.some.injEq, exists_eq_left']
  by_cases mutable : entry.isMutable = true
  · rw [if_pos mutable]
    exact .passed mutable
  · rw [if_neg mutable]
    exact .refused rfl mutable

theorem Variables.resolvedType_of_known (known : frame.typeOf? slot = some type) :
    frame.resolvedType slot position = .ok type := by
  simp only [resolvedType, known]

theorem TypeEnv.findField_cases (type : TypeId) (member : String) (position : Position) :
    (∃ number fieldType, env.findField type member position = .ok (number, fieldType) ∧
      env.types.field? type member = some (number, fieldType)) ∨
    ∃ fault, env.findField type member position = .error fault ∧
      fault.cause.isInternal = false ∧ env.types.field? type member = none := by
  unfold findField
  by_cases isStruct : env.types.isStruct type = true
  · rw [if_pos isStruct]
    cases env.types.field? type member with
    | none => exact .inr ⟨_, rfl, rfl, rfl⟩
    | some found => exact .inl ⟨found.1, found.2, rfl, rfl⟩
  · rw [if_neg isStruct]
    have noFields : env.types.fields? type = none := by
      simpa [TypeTable.isStruct] using isStruct
    refine .inr ⟨_, rfl, rfl, ?_⟩
    unfold TypeTable.field?
    rw [noFields]
    rfl

end Checks

section Sequence

variable {α β γ δ : Type} {base frame later : Variables} {scopes inner : ScopeChain}
  {heads tails : List Slot}

variable {tree : α} {value : β}

theorem Ready.first (ready : Ready base scopes (heads ++ tails) frame) :
    Ready base scopes heads frame where
  nodup := (List.nodup_append.mp ready.nodup).1
  lacks := ready.lacks.mono fun _ => List.mem_append_left tails
  room slot member := ready.room slot (List.mem_append_left tails member)
  known := ready.known
  retypes := ready.retypes

theorem Ready.second (ready : Ready base scopes (heads ++ tails) frame)
    (fills : frame.Fills (· ∈ heads) later) (retypes : frame.Retypes later)
    (named : ∀ slot, inner.Holds slot → scopes.Holds slot ∨ slot ∈ heads) :
    Ready base inner tails later where
  nodup := (List.nodup_append.mp ready.nodup).2.1
  lacks := by
    apply (ready.lacks.mono fun _ => List.mem_append_right heads).after fills
    intro slot isTail isHead
    exact (List.nodup_append.mp ready.nodup).2.2 slot isHead slot isTail rfl
  room slot member := by
    rw [fills.size_eq]
    exact ready.room slot (List.mem_append_right heads member)
  known slot held := by
    by_cases isHead : slot ∈ heads
    · exact fills.typed slot isHead
    · rw [fills.others slot isHead]
      exact ready.known slot ((named slot held).resolve_right isHead)
  retypes := ready.retypes.trans retypes

theorem Ready.perm (ready : Ready base scopes heads frame) (same : heads.Perm tails) :
    Ready base scopes tails frame where
  nodup := same.nodup_iff.mp ready.nodup
  lacks := ready.lacks.mono fun _ => same.mem_iff.mpr
  room slot member := ready.room slot (same.mem_iff.mpr member)
  known := ready.known
  retypes := ready.retypes

theorem Ready.enter (ready : Ready base scopes heads frame) (locks : Nat) :
    Ready base (scopes.enter locks) heads frame where
  nodup := ready.nodup
  lacks := ready.lacks
  room := ready.room
  known slot held := ready.known slot (ScopeChain.holds_enter_iff.mp held)
  retypes := ready.retypes

variable {first : Resolution α β} {accepted : (Slot → TypeId) → β → Prop}
  {numbered : (Slot → TypeId) → α} {whole : (Slot → TypeId) → δ → Prop}
  {numberedWhole : (Slot → TypeId) → γ}

theorem Finds.andThen {middle last} (finds : Finds frame heads accepted numbered tree middle value)
    (needs : ∀ slots, frame.Permits slots → ∀ other, whole slots other →
      ∃ value, accepted slots value) (rest : Decided middle tails whole numberedWhole last) :
    Decided frame (heads ++ tails) whole numberedWhole last := by
  have permitted : ∀ slots, frame.Permits slots → ∀ other, whole slots other →
      middle.Permits slots := by
    intro slots permits other isWhole
    obtain ⟨value, isAccepted⟩ := needs slots permits other isWhole
    exact ((finds.exact slots permits value).mp isAccepted).1
  cases rest with
  | refused proper never =>
    refine .refused proper fun slots permits other isWhole => ?_
    exact never slots (permitted slots permits other isWhole) other isWhole
  | found more =>
    refine .found ⟨?_, finds.refines.trans more.refines, finds.retypes.trans more.retypes, ?_,
      more.tree_eq⟩
    · exact (finds.fills.trans more.fills).congr fun _ => List.mem_append
    · intro slots permits other
      constructor
      · intro isWhole
        have inMiddle := permitted slots permits other isWhole
        exact (more.exact slots inMiddle other).mp isWhole
      · intro isFound
        have inMiddle := more.refines.permits isFound.1
        exact (more.exact slots inMiddle other).mpr isFound

theorem Decided.andThen {stopped : α → γ} {next : α → β → Variables → Resolution γ δ}
    (head : Decided frame heads accepted numbered first)
    (needs : ∀ slots, frame.Permits slots → ∀ other, whole slots other →
      ∃ value, accepted slots value)
    (tail : ∀ {tree middle value}, Finds frame heads accepted numbered tree middle value →
      Decided middle tails whole numberedWhole (next tree value middle)) :
    Decided frame (heads ++ tails) whole numberedWhole (first.andThen stopped next) := by
  cases head with
  | refused proper never =>
    refine .refused proper fun slots permits other isWhole => ?_
    obtain ⟨value, isAccepted⟩ := needs slots permits other isWhole
    exact never slots permits value isAccepted
  | found finds => exact finds.andThen needs (tail finds)

theorem Decided.map {whole : (Slot → TypeId) → β → Prop} {change : α → γ}
    (decided : Decided frame heads accepted numbered first)
    (same : ∀ slots, frame.Permits slots → ∀ value, whole slots value ↔ accepted slots value)
    (trees : ∀ slots, frame.Permits slots → numberedWhole slots = change (numbered slots)) :
    Decided frame heads whole numberedWhole (first.map change) := by
  cases decided with
  | refused proper never =>
    refine .refused proper fun slots permits value isWhole => ?_
    exact never slots permits value ((same slots permits value).mp isWhole)
  | found finds =>
    refine .found ⟨finds.fills, finds.refines, finds.retypes, ?_, ?_⟩
    · intro slots permits value
      rw [same slots permits value]
      exact finds.exact slots permits value
    · intro slots permits
      rw [trees slots (finds.refines.permits permits), finds.tree_eq slots permits]

/-- A part is accepted when both of its halves are, the second with the types
that the first one leaves. -/
theorem Decided.both {α β : Type} {early late whole : (Slot → TypeId) → Prop}
    {numberedHead : (Slot → TypeId) → α} {numberedTail : (Slot → TypeId) → β}
    {first : Resolution α Unit} {second : Variables → Resolution β Unit} {stopped : α → γ}
    {join : α → β → γ} (ready : Ready base scopes (heads ++ tails) frame)
    (head : Decided frame heads (fun slots _ => early slots) numberedHead first)
    (named : ∀ slot, inner.Holds slot → scopes.Holds slot ∨ slot ∈ heads)
    (tail : ∀ later, Ready base inner tails later →
      Decided later tails (fun slots _ => late slots) numberedTail (second later))
    (halves : ∀ slots, whole slots ↔ early slots ∧ late slots)
    (trees : ∀ slots, numberedWhole slots = join (numberedHead slots) (numberedTail slots)) :
    Decided frame (heads ++ tails) (fun slots (_ : Unit) => whole slots) numberedWhole
      (first.andThen stopped fun tree _ later => (second later).map (join tree)) := by
  apply head.andThen
  · intro slots _ _ isWhole
    exact ⟨(), ((halves slots).mp isWhole).1⟩
  · intro tree later _ finds
    apply (tail later (ready.second finds.fills finds.retypes named)).map
    · intro slots permits _
      have isEarly := (finds.exact slots (finds.refines.permits permits) ()).mpr ⟨permits, rfl⟩
      rw [halves, and_iff_right isEarly]
    · intro slots permits
      rw [trees, finds.tree_eq slots permits]

theorem decided_nothing
    (exact : ∀ slots, frame.Permits slots → ∀ other, accepted slots other ↔ value = other)
    (trees : ∀ slots, frame.Permits slots → numbered slots = tree) :
    Decided frame [] accepted numbered ⟨tree, frame, .ok value⟩ := by
  refine .found ⟨?_, ⟨id⟩, .refl frame, ?_, trees⟩
  · exact (Variables.Fills.none frame).congr fun _ => by simp
  · intro slots permits other
    simp [exact slots permits other, permits]

theorem finds_setType (ready : Ready base scopes [slot] frame)
    (exact : ∀ slots, frame.Permits slots → ∀ other,
      accepted slots other ↔ slots slot = type ∧ value = other)
    (trees : ∀ slots, frame.Permits slots → numbered slots = tree) :
    Finds frame [slot] accepted numbered tree (frame.setType slot type) value := by
  have inFrame := ready.room slot List.mem_cons_self
  have unknown := ready.lacks slot List.mem_cons_self
  have fills : frame.Fills (· ∈ [slot]) (frame.setType slot type) :=
    (Variables.fills_setType inFrame type).congr fun _ => List.mem_singleton
  have permitted := Variables.permits_setType_iff inFrame unknown type
  refine ⟨fills, fills.refines ready.lacks, frame.retypes_setType slot type, ?_, ?_⟩
  · intro slots permits other
    simp [exact slots permits other, permitted slots, permits]
  · intro slots permits
    exact trees slots ((permitted slots).mp permits).1

theorem Decided.perm (decided : Decided frame heads accepted numbered first)
    (same : heads.Perm tails) : Decided frame tails accepted numbered first := by
  cases decided with
  | refused proper never => exact .refused proper never
  | found finds => exact .found { finds with fills := finds.fills.congr fun _ => same.mem_iff.symm }

theorem Checks.decided {holds outcome} {accepted : (Slot → TypeId) → Unit → Prop}
    (checks : Checks holds outcome)
    (same : ∀ slots, frame.Permits slots → (accepted slots () ↔ holds))
    (trees : ∀ slots, frame.Permits slots → numbered slots = tree) :
    Decided frame [] accepted numbered ⟨tree, frame, outcome⟩ := by
  cases checks with
  | passed held =>
    refine decided_nothing (fun slots permits other => ?_) trees
    simp [same slots permits, held]
  | refused proper fails =>
    refine .refused proper fun slots permits value isAccepted => ?_
    exact fails ((same slots permits).mp isAccepted)

theorem Decided.check {test : β → Except Diagnostic Unit} {holds : β → Prop}
    {whole : (Slot → TypeId) → Unit → Prop} (decided : Decided frame heads accepted numbered first)
    (checks : ∀ value, Checks (holds value) (test value)) (same : ∀ slots, frame.Permits slots →
      (whole slots () ↔ ∃ value, accepted slots value ∧ holds value)) :
    Decided frame heads whole numbered (first.check test) := by
  rw [Resolution.check_eq_andThen, ← List.append_nil heads]
  apply decided.andThen
  · intro slots permits _ isWhole
    obtain ⟨value, isAccepted, _⟩ := (same slots permits).mp isWhole
    exact ⟨value, isAccepted⟩
  · intro tree middle value finds
    refine (checks value).decided (fun slots permits => ?_) finds.tree_eq
    have before := finds.refines.permits permits
    simp [same slots before, finds.exact slots before, permits]

end Sequence

/-! ## Parts of a body -/

theorem Reads.holds_node {statement before after} (read : Reads (.node statement) before after)
    (held : after.scopes.Holds slot) : before.scopes.Holds slot ∨ slot ∈ statement.targets := by
  cases read with
  | declaration initial declared =>
    rcases declared.holds_iff.mp held with rfl | earlier
    · exact .inr (by simp)
    · exact .inl (initial.scopes_eq rfl ▸ earlier)
  | assignment _ assigned => exact .inl (assigned.scopes_eq rfl ▸ held)
  | memberAssignment _ projected assigned =>
    exact .inl (projected.scopes_eq rfl ▸ assigned.scopes_eq rfl ▸ held)
  | ret => exact .inl held
  | retValue returned => exact .inl (returned.scopes_eq rfl ▸ held)
  | callStatement called => exact .inl (called.scopes_eq rfl ▸ held)
  | conditional chained => exact .inl (chained.scopes_eq rfl ▸ held)
  | loop tested repeated => exact .inl (tested.scopes_eq rfl ▸ repeated.scopes_eq rfl ▸ held)
  | sync _ _ _ guarded => exact .inl (guarded.scopes_eq rfl ▸ held)

def ConditionsDecide (env : TypeEnv) (base : Variables) (scopes : ScopeChain)
    (conditions : List Operand) : Prop :=
  ∀ (position : Position) (frame : Variables),
    Ready base scopes (operandsTargets conditions).flatten frame →
    Decided frame (operandsTargets conditions).flatten
      (fun slots (_ : Unit) => ConditionsAccepted env.types slots conditions)
      (fun slots => operandsNumbered env.types slots conditions)
      (resolveConditions env position [] conditions frame)

def BlocksDecide (env : TypeEnv) (base : Variables) (scopes : ScopeChain)
    (blocks : List (List Node)) : Prop :=
  ∀ frame : Variables, Ready base scopes (blocksTargets blocks).flatten frame →
    Decided frame (blocksTargets blocks).flatten
      (fun slots (_ : Unit) => BlocksAccepted env base.IsMutable slots blocks)
      (fun slots => blocksNumbered env.types slots blocks) (resolveBlocks env [] blocks frame)

def TreePart.Decides (env : TypeEnv) (base : Variables) (scopes : ScopeChain) : TreePart → Prop
  | .operand value => ∀ (position : Position) (frame : Variables),
      Ready base scopes value.targets frame →
      Decided frame value.targets (fun slots type => value.Accepted env.types slots type)
        (fun slots => value.numbered env.types slots) (value.resolve env position frame)
  | .operands _ => True
  | .steps members => ∀ (object : Slot) (type : TypeId) (frame : Variables),
      frame.typeOf? object = some type → Ready base scopes (stepsTargets members) frame →
      Decided frame (stepsTargets members)
        (fun slots (_ : Unit) => ∃ final, Leads env.types slots type members final)
        (fun slots => numberSteps env.types slots object members)
        (resolveSteps env type members frame)
  | .node statement => ∀ frame : Variables, Ready base scopes statement.targets frame →
      Decided frame statement.targets
        (fun slots (_ : Unit) => statement.Accepted env base.IsMutable slots)
        (fun slots => statement.numbered env.types slots) (statement.resolve env frame)
  | .nodes statements | .block _ statements => ∀ frame : Variables,
      Ready base scopes (nodesTargets statements) frame →
      Decided frame (nodesTargets statements)
        (fun slots (_ : Unit) => BlockAccepted env base.IsMutable slots statements)
        (fun slots => blockNumbered env.types slots statements)
        (resolveNodes env [] statements frame)
  | .arms conditions blocks =>
    ConditionsDecide env base scopes conditions ∧ BlocksDecide env base scopes blocks

section Operands

variable {env : TypeEnv} {base frame : Variables} {scopes : ScopeChain} {position : Position}

variable {chain : MemberChain}

theorem Decided.held {inner targets} (slot : Slot) (decided : Decided frame targets
      (fun slots (_ : Unit) => ∃ type, (Operand.node inner).Accepted env.types slots type)
      (fun slots => inner.numbered env.types slots) (inner.resolve env frame))
    (isHeld : ∀ slots, (inner.numbered env.types slots).valueSlot? = some slot)
    (known : ∀ later, frame.Fills (· ∈ targets) later → frame.Refines later →
      ∃ type, later.typeOf? slot = some type)
    (typeEq : ∀ slots type, (Operand.node inner).Accepted env.types slots type →
      slots slot = type) :
    Decided frame targets
      (fun slots type => (Operand.node inner).Accepted env.types slots type)
      (fun slots => (Operand.node inner).numbered env.types slots)
      ((Operand.node inner).resolve env position frame) := by
  rw [Operand.resolve_node, ← List.append_nil targets]
  apply decided.andThen
  · intro slots _ type isAccepted
    exact ⟨(), type, isAccepted⟩
  · intro tree later _ finds
    obtain ⟨type, isKnown⟩ := known later finds.fills finds.refines
    have treeHolds : tree.valueSlot? = some slot := by
      rw [← finds.tree_eq later.typing later.permits_typing]
      exact isHeld later.typing
    have heldOk : tree.heldType later = .ok type := by
      rw [Node.heldType, treeHolds]
      exact Variables.resolvedType_of_known isKnown
    rw [heldOk]
    refine decided_nothing (fun slots permits other => ?_) (fun slots permits => ?_)
    · have slotEq := permits slot type isKnown
      constructor
      · intro isAccepted
        rw [← slotEq, typeEq slots other isAccepted]
      · rintro rfl
        obtain ⟨found, isAccepted⟩ :=
          (finds.exact slots (finds.refines.permits permits) ()).mpr ⟨permits, rfl⟩
        rwa [← typeEq slots found isAccepted, slotEq] at isAccepted
    · simp only [Operand.numbered, finds.tree_eq slots permits]

theorem decided_binary {operator lhs rhs destination} (left : (operand lhs).Decides env base scopes)
    (right : (operand rhs).Decides env base scopes) :
    (operand (.node (.binary operator lhs rhs destination position))).Decides env base
      scopes := by
  intro place frame ready
  simp only [Operand.targets, Node.targets, List.append_assoc] at ready ⊢
  apply Decided.held destination
  · rw [Node.resolve_binary]
    apply (left position frame ready.first).andThen
    · rintro slots _ _ ⟨type, isAccepted⟩
      obtain ⟨leftType, _, isLeft, _⟩ := accepted_binary_iff.mp isAccepted
      exact ⟨leftType, isLeft⟩
    · intro leftTree middle leftType leftFinds
      have rightReady := ready.second leftFinds.fills leftFinds.retypes fun _ => .inl
      apply (right position middle rightReady.first).andThen
      · rintro slots _ _ ⟨type, isAccepted⟩
        obtain ⟨_, rightType, _, isRight, _⟩ := accepted_binary_iff.mp isAccepted
        exact ⟨rightType, isRight⟩
      · intro rightTree late rightType rightFinds
        -- Both operands have the types found, so the operator decides.
        have acceptedIff : ∀ slots, late.Permits slots → ∀ type,
            (Operand.node (.binary operator lhs rhs destination position)).Accepted env.types
                slots type ↔
              operator.resultType? leftType rightType = some type ∧ slots destination = type := by
          intro slots permits type
          have inMiddle := rightFinds.refines.permits permits
          have inFrame := leftFinds.refines.permits inMiddle
          simp [accepted_binary_iff, leftFinds.exact slots inFrame, rightFinds.exact slots inMiddle,
            permits, inMiddle]
        unfold Node.binaryResult
        cases result : operator.resultType? leftType rightType with
        | none =>
          refine .refused rfl ?_
          rintro slots permits _ ⟨type, isAccepted⟩
          rw [acceptedIff slots permits, result] at isAccepted
          exact absurd isAccepted.1 (by simp)
        | some type =>
          have resultReady := rightReady.second rightFinds.fills rightFinds.retypes fun _ => .inl
          refine .found (finds_setType resultReady ?_ ?_)
          · intro slots permits _
            simp [acceptedIff slots permits, result, eq_comm]
          · intro slots permits
            have inMiddle := rightFinds.refines.permits permits
            simp only [Node.numbered, leftFinds.tree_eq slots inMiddle,
              rightFinds.tree_eq slots permits]
  · intro slots
    rfl
  · intro later fills _
    exact fills.typed destination (by simp)
  · intro slots type isAccepted
    obtain ⟨_, _, _, _, _, held⟩ := accepted_binary_iff.mp isAccepted
    exact held

theorem decided_chain {chain : MemberChain}
    (projected : (steps chain.steps).Decides env base scopes) (held : scopes.Holds chain.source)
    (ready : Ready base scopes (stepsTargets chain.steps) frame) :
    Decided frame (stepsTargets chain.steps)
      (fun slots (_ : Unit) =>
        ∃ final, Leads env.types slots (slots chain.source) chain.steps final)
      (fun slots => chain.numbered env.types slots) (chain.resolve env frame) := by
  obtain ⟨type, known⟩ := ready.known chain.source held
  rw [MemberChain.resolve_eq, Variables.resolvedType_of_known known, Resolution.andThen_ok]
  apply (projected chain.source type frame known ready).map
  · intro slots permits _
    rw [permits chain.source type known]
  · intro slots _
    rfl

theorem Ready.valueSlot_known {later} (ready : Ready base scopes (stepsTargets chain.steps) frame)
    (held : scopes.Holds chain.source) (fills : frame.Fills (· ∈ stepsTargets chain.steps) later)
    (refines : frame.Refines later) : ∃ type, later.typeOf? chain.valueSlot = some type := by
  rcases chain.mem_stepsTargets_or_eq with isTarget | isSource
  · exact fills.typed _ isTarget
  · obtain ⟨type, known⟩ := ready.known chain.source held
    rw [isSource]
    exact ⟨type, refines.keeps known⟩

theorem decided_access (projected : (steps chain.steps).Decides env base scopes)
    (held : scopes.Holds chain.source) :
    (operand (.node (.access chain))).Decides env base scopes := by
  intro place frame ready
  apply Decided.held chain.valueSlot
  · simp only [accepted_access_iff]
    rw [Node.resolve_access]
    apply (decided_chain projected held ready).map
    · intro slots _ _
      rfl
    · intro slots _
      simp only [Node.numbered]
  · intro slots
    simp only [Node.numbered, Node.valueSlot?, MemberChain.valueSlot_numbered]
  · intro later fills refines
    exact ready.valueSlot_known held fills refines
  · intro slots type isAccepted
    exact (accepted_access_iff.mp isAccepted).type_eq chain.position rfl

theorem decided_moreSteps {step rest} (tail : (steps rest).Decides env base scopes) :
    (steps (step :: rest)).Decides env base scopes := by
  intro object type frame known ready
  have ready : Ready base scopes ([step.destination] ++ stepsTargets rest) frame := ready
  show Decided frame ([step.destination] ++ stepsTargets rest) _ _ _
  rw [resolveSteps_cons]
  rcases env.findField_cases type step.member step.position with
    ⟨number, fieldType, ok, found⟩ | ⟨fault, refused, proper, missing⟩
  · rw [ok, Resolution.andThen_ok]
    have leadsIff : ∀ slots final, Leads env.types slots type (step :: rest) final ↔
        slots step.destination = fieldType ∧ Leads env.types slots fieldType rest final := by
      intro slots final
      rw [leads_cons_iff, found]
      constructor
      · rintro ⟨_, _, same, held, leads⟩
        cases same
        exact ⟨held, leads⟩
      · rintro ⟨held, leads⟩
        exact ⟨number, fieldType, rfl, held, leads⟩
    have typed : Finds frame [step.destination]
        (fun slots (_ : Unit) => slots step.destination = fieldType) (fun _ => ()) ()
        (frame.setType step.destination fieldType) () :=
      finds_setType ready.first (by simp) (by simp)
    have destinationKnown : (frame.setType step.destination fieldType).typeOf? step.destination =
        some fieldType := by
      rw [Variables.typeOf?_setType (ready.first.room _ List.mem_cons_self), if_pos rfl]
    apply typed.andThen
    · rintro slots _ _ ⟨final, leads⟩
      exact ⟨(), ((leadsIff slots final).mp leads).1⟩
    · have restReady := ready.second typed.fills typed.retypes fun _ => .inl
      apply (tail step.destination fieldType _ destinationKnown restReady).map
      · intro slots permits _
        have held := permits step.destination fieldType destinationKnown
        simp [leadsIff, held]
      · intro slots permits
        have objectEq := typed.refines.permits permits object type known
        simp [numberSteps, TypeTable.fieldNumber?, objectEq, found]
  · rw [refused]
    refine .refused proper fun slots _ _ => ?_
    rintro ⟨final, leads⟩
    obtain ⟨_, _, found, _⟩ := leads_cons_iff.mp leads
    rw [missing] at found
    contradiction

end Operands

section Statements

variable {env : TypeEnv} {base frame : Variables} {scopes : ScopeChain} {position : Position}

variable {value condition : Operand} {target : MemberChain} {member : String}

theorem Decided.requireType {targets expected}
    (decided : Decided frame targets (fun slots type => value.Accepted env.types slots type)
      (fun slots => value.numbered env.types slots) (value.resolve env position frame)) :
    Decided frame targets (fun slots (_ : Unit) => value.Accepted env.types slots expected)
      (fun slots => value.numbered env.types slots)
      ((value.resolve env position frame).check fun found =>
        env.requireType expected found position) := by
  apply decided.check fun found => TypeEnv.requireType_checks expected found
  intro slots _
  simp

theorem decided_declaration {name isMutable declared?}
    (initial : (operand value).Decides env base scopes) :
    (node (.declaration name slot isMutable declared? value position)).Decides env base
      scopes := by
  intro frame ready
  rw [Node.resolve_declaration]
  apply (initial position frame ready.first).andThen
  · intro slots _ _ isAccepted
    obtain ⟨type, isValue, _⟩ := accepted_declaration_iff.mp isAccepted
    exact ⟨type, isValue⟩
  · intro tree later type finds
    have slotReady := ready.second finds.fills finds.retypes fun _ => .inl
    have acceptedIff : ∀ slots, later.Permits slots →
        ((Node.declaration name slot isMutable declared? value position).Accepted env
            base.IsMutable slots ↔
          (∀ declared ∈ declared?, env.types.lookup? declared.name = some type) ∧
            slots slot = type) := by
      intro slots permits
      have exact := finds.exact slots (finds.refines.permits permits)
      rw [accepted_declaration_iff]
      constructor
      · rintro ⟨found, isValue, declared, held⟩
        obtain ⟨_, rfl⟩ := (exact found).mp isValue
        exact ⟨declared, held⟩
      · rintro ⟨declared, held⟩
        exact ⟨type, (exact type).mpr ⟨permits, rfl⟩, declared, held⟩
    have treeEq : ∀ slots, later.Permits slots →
        (Node.declaration name slot isMutable declared? value position).numbered env.types slots =
          .declaration name slot isMutable declared? tree position := by
      intro slots permits
      simp only [Node.numbered, finds.tree_eq slots permits]
    have checked : Checks _ (checkDeclared env declared? type position) :=
      checkDeclared_checks declared? type
    generalize checkDeclared env declared? type position = outcome at checked ⊢
    cases checked with
    | refused proper fails =>
      refine .refused proper fun slots permits _ isAccepted => ?_
      exact fails ((acceptedIff slots permits).mp isAccepted).1
    | passed held =>
      refine .found (finds_setType slotReady (fun slots permits _ => ?_) treeEq)
      simp only [acceptedIff slots permits, and_iff_right held, and_true]

theorem decided_assignment (held : scopes.Holds slot)
    (assigned : (operand value).Decides env base scopes) :
    (node (.assignment slot value position)).Decides env base scopes := by
  intro frame ready
  obtain ⟨type, known⟩ := ready.known slot held
  rw [Node.resolve_assignment]
  have checked : Checks _ (frame.requireMutable slot position) :=
    Variables.requireMutable_checks known
  rw [ready.retypes.isMutable_iff] at checked
  generalize frame.requireMutable slot position = outcome at checked ⊢
  cases checked with
  | refused proper fails =>
    refine .refused proper fun slots _ _ isAccepted => ?_
    exact fails (accepted_assignment_iff.mp isAccepted).1
  | passed mutable =>
    rw [Resolution.andThen_ok, Variables.resolvedType_of_known known, Resolution.andThen_ok]
    apply (assigned position frame ready).requireType.map
    · intro slots permits _
      simp [accepted_assignment_iff, mutable, permits slot type known]
    · intro slots _
      simp only [Node.numbered]

theorem decided_field (held : scopes.Holds target.source)
    (projected : (steps target.steps).Decides env base scopes)
    (ready : Ready base scopes (stepsTargets target.steps) frame) :
    Decided frame (stepsTargets target.steps)
      (fun slots found => ∃ objectType,
        Leads env.types slots (slots target.source) target.steps objectType ∧
          env.types.field? objectType member = some found)
      (fun slots => target.numbered env.types slots)
      ((target.resolve env frame).andThen id fun object _ frame =>
        ⟨object, frame, (frame.resolvedType object.valueSlot position).bind fun type =>
          env.findField type member position⟩) := by
  rw [← List.append_nil (stepsTargets target.steps)]
  apply (decided_chain projected held ready).andThen
  · rintro slots _ _ ⟨objectType, leads, _⟩
    exact ⟨(), objectType, leads⟩
  · intro tree later _ finds
    obtain ⟨type, known⟩ := ready.valueSlot_known held finds.fills finds.refines
    have slotEq : tree.valueSlot = target.valueSlot := by
      rw [← finds.tree_eq later.typing later.permits_typing, MemberChain.valueSlot_numbered]
    rw [slotEq, Variables.resolvedType_of_known known]
    -- Every typing that is left gives the object the type found.
    have leadsIff : ∀ slots, later.Permits slots → ∀ final,
        Leads env.types slots (slots target.source) target.steps final ↔ type = final := by
      intro slots permits final
      have typeEq := permits target.valueSlot type known
      constructor
      · intro leads
        rw [← typeEq]
        exact leads.type_eq target.position rfl
      · rintro rfl
        obtain ⟨final, leads⟩ :=
          (finds.exact slots (finds.refines.permits permits) ()).mpr ⟨permits, rfl⟩
        have finalEq := leads.type_eq target.position rfl
        rwa [← finalEq, typeEq] at leads
    rcases env.findField_cases type member position with
      ⟨number, fieldType, ok, found⟩ | ⟨fault, refused, proper, missing⟩
    · simp only [Except.bind, ok]
      refine decided_nothing (fun slots permits other => ?_) finds.tree_eq
      simp [leadsIff slots permits, found]
    · simp only [Except.bind, refused]
      refine .refused proper fun slots permits other => ?_
      simp [leadsIff slots permits, missing]

theorem decided_memberAssignment {field?} (held : scopes.Holds target.source)
    (projected : (steps target.steps).Decides env base scopes)
    (assigned : (operand value).Decides env base scopes) :
    (node (.memberAssignment target member field? value position)).Decides env base
      scopes := by
  intro frame ready
  obtain ⟨sourceType, known⟩ := ready.known target.source held
  rw [Node.resolve_memberAssignment]
  have checked : Checks _ (frame.requireMutable target.source position) :=
    Variables.requireMutable_checks known
  rw [ready.retypes.isMutable_iff] at checked
  generalize frame.requireMutable target.source position = outcome at checked ⊢
  cases checked with
  | refused proper fails =>
    refine .refused proper fun slots _ _ isAccepted => ?_
    exact fails (accepted_memberAssignment_iff.mp isAccepted).1
  | passed mutable =>
    rw [Resolution.andThen_ok]
    apply (decided_field held projected ready.first).andThen
    · intro slots _ _ isAccepted
      obtain ⟨_, objectType, number, fieldType, leads, found, _⟩ :=
        accepted_memberAssignment_iff.mp isAccepted
      exact ⟨(number, fieldType), objectType, leads, found⟩
    · intro tree later found finds
      have valueReady := ready.second finds.fills finds.retypes fun _ => .inl
      apply (assigned position later valueReady).requireType.map
      · intro slots permits _
        have exact := finds.exact slots (finds.refines.permits permits)
        rw [accepted_memberAssignment_iff, and_iff_right mutable]
        constructor
        · rintro ⟨objectType, number, fieldType, leads, isField, isValue⟩
          obtain ⟨_, rfl⟩ := (exact (number, fieldType)).mp ⟨objectType, leads, isField⟩
          exact isValue
        · intro isValue
          obtain ⟨objectType, leads, isField⟩ := (exact found).mpr ⟨permits, rfl⟩
          exact ⟨objectType, found.1, found.2, leads, isField, isValue⟩
      · intro slots permits
        obtain ⟨objectType, leads, isField⟩ :=
          (finds.exact slots (finds.refines.permits permits) found).mpr ⟨permits, rfl⟩
        have typeEq := leads.type_eq target.position rfl
        simp [finds.tree_eq slots permits, TypeTable.fieldNumber?, typeEq, isField]

theorem decided_retValue {value locks} (returned : (operand value).Decides env base scopes) :
    (node (.ret (some value) locks position)).Decides env base scopes := by
  intro frame ready
  rw [Node.resolve_retValue]
  have checked : Decided frame value.targets
      (fun slots (_ : Unit) => ∃ type, value.Accepted env.types slots type ∧
        some type = env.returnType?)
      (fun slots => value.numbered env.types slots)
      ((value.resolve env position frame).check fun found =>
        checkReturn env (some found) position) := by
    apply (returned position frame ready).check fun found => checkReturn_checks (some found)
    intro slots _
    rfl
  apply checked.map
  · intro slots _ _
    exact accepted_retValue_iff
  · intro slots _
    simp only [Node.numbered]

theorem decided_loop {body} (tested : (operand condition).Decides env base scopes)
    (repeated : (block 0 body).Decides env base scopes) :
    (node (.loop condition body position)).Decides env base scopes := by
  intro frame ready
  rw [Node.resolve_loop]
  exact (tested position frame ready.first).requireType.both ready (fun _ => .inl) repeated
    (fun _ => accepted_loop_iff) fun _ => by simp only [Node.numbered]

theorem decided_conditional {conditions blocks}
    (chained : (arms conditions blocks).Decides env base scopes) :
    (node (.conditional conditions blocks position)).Decides env base scopes := by
  intro frame ready
  -- Conditions come before blocks here, while their slots alternate.
  have order := interleave_perm (operandsTargets conditions) (blocksTargets blocks)
  have ready := ready.perm order
  refine Decided.perm ?_ order.symm
  rw [Node.resolve_conditional]
  exact (chained.1 position frame ready.first).both ready (fun _ => .inl) chained.2
    (fun _ => accepted_conditional_iff) fun _ => by simp only [Node.numbered]

theorem decided_moreNodes {node rest inner} (head : (TreePart.node node).Decides env base scopes)
    (tail : (TreePart.nodes rest).Decides env base inner)
    (named : ∀ slot, inner.Holds slot → scopes.Holds slot ∨ slot ∈ node.targets) :
    (TreePart.nodes (node :: rest)).Decides env base scopes := by
  intro frame ready
  rw [resolveNodes_cons]
  exact (head frame ready.first).both ready named tail (fun _ => blockAccepted_cons_iff)
    fun _ => by simp only [blockNumbered]

theorem conditionsDecide_nil : ConditionsDecide env base scopes [] := by
  intro position frame ready
  refine decided_nothing (fun slots _ _ => ?_) (fun slots _ => ?_)
  · simp [conditionsAccepted_nil]
  · simp

theorem conditionsDecide_cons {rest} (head : (operand condition).Decides env base scopes)
    (tail : ConditionsDecide env base scopes rest) :
    ConditionsDecide env base scopes (condition :: rest) := by
  intro position frame ready
  rw [resolveConditions_cons]
  exact (head position frame ready.first).requireType.both ready (fun _ => .inl) (tail position)
    (fun _ => conditionsAccepted_cons_iff) fun _ => by simp only [operandsNumbered]

theorem blocksDecide_nil : BlocksDecide env base scopes [] := by
  intro frame ready
  refine decided_nothing (fun slots _ _ => ?_) (fun slots _ => ?_)
  · simp [blocksAccepted_nil]
  · simp

theorem blocksDecide_cons {block rest} (head : (TreePart.block 0 block).Decides env base scopes)
    (tail : BlocksDecide env base scopes rest) : BlocksDecide env base scopes (block :: rest) := by
  intro frame ready
  rw [resolveBlocks_cons]
  exact (head frame ready.first).both ready (fun _ => .inl) tail
    (fun _ => blocksAccepted_cons_iff) fun _ => by simp only [blocksNumbered]

end Statements

theorem Reads.decides (env : TypeEnv) (base : Variables) {part before after}
    (read : Reads part before after) : part.Decides env base before.scopes := by
  induction read with
  | @visible name slot context found =>
    intro position frame ready
    obtain ⟨type, known⟩ := ready.known slot (ScopeChain.holds_of_lookup? found)
    simp only [Operand.targets, Operand.resolve, Variables.resolvedType_of_known known]
    refine decided_nothing (fun slots permits other => ?_) (fun slots _ => ?_)
    · rw [accepted_variable_iff, permits slot type known]
    · simp only [Operand.numbered]
  | literal =>
    intro position frame ready
    refine decided_nothing (fun slots _ other => accepted_literal_iff) (fun slots _ => ?_)
    simp only [Operand.numbered]
  | string =>
    intro position frame ready
    refine decided_nothing (fun slots _ other => accepted_string_iff) (fun slots _ => ?_)
    simp only [Operand.numbered]
  | access found _ projected => exact decided_access projected (ScopeChain.holds_of_lookup? found)
  | binary leftRead _ _ left right =>
    rw [leftRead.scopes_eq rfl] at right
    exact decided_binary left right
  | call =>
    intro position frame ready
    exact .refused Cause.isInternal_call fun _ _ _ => not_accepted_call
  | noOperands | moreOperands => trivial
  | noSteps =>
    intro object type frame _ ready
    refine decided_nothing (fun slots _ _ => ?_) (fun slots _ => rfl)
    simp [leads_nil_iff]
  | moreSteps added _ tail =>
    rw [added.scopes_eq] at tail
    exact decided_moreSteps tail
  | declaration _ _ initial => exact decided_declaration initial
  | assignment found _ assigned =>
    exact decided_assignment (ScopeChain.holds_of_lookup? found) assigned
  | memberAssignment found projectedRead _ projected assigned =>
    rw [projectedRead.scopes_eq rfl] at assigned
    exact decided_memberAssignment (ScopeChain.holds_of_lookup? found) projected assigned
  | ret =>
    intro frame ready
    refine (checkReturn_checks none).decided (fun slots _ => accepted_ret_iff) (fun slots _ => ?_)
    simp only [Node.numbered]
  | retValue _ returned => exact decided_retValue returned
  | callStatement =>
    intro frame ready
    exact .refused Cause.isInternal_call fun _ _ _ => not_accepted_callStatement
  | conditional _ chained => exact decided_conditional chained
  | loop testedRead _ tested repeated =>
    rw [testedRead.scopes_eq rfl] at repeated
    exact decided_loop tested repeated
  | sync _ _ _ _ guarded =>
    intro frame ready
    rw [Node.resolve_sync]
    apply (guarded frame ready).map
    · intro slots _ _
      exact accepted_sync_iff
    · intro slots _
      simp only [Node.numbered]
  | noNodes =>
    intro frame ready
    refine decided_nothing (fun slots _ _ => ?_) (fun slots _ => ?_)
    · simp [blockAccepted_nil]
    · simp
  | moreNodes headRead _ head tail => exact decided_moreNodes head tail fun _ => headRead.holds_node
  | block _ inside =>
    intro frame ready
    exact inside frame (ready.enter _)
  | arm testedRead enteredRead _ tested entered rest =>
    rw [enteredRead.scopes_eq rfl, testedRead.scopes_eq rfl] at rest
    rw [testedRead.scopes_eq rfl] at entered
    exact ⟨conditionsDecide_cons tested rest.1, blocksDecide_cons entered rest.2⟩
  | alternative _ entered => exact ⟨conditionsDecide_nil, blocksDecide_cons entered blocksDecide_nil⟩
  | noAlternative => exact ⟨conditionsDecide_nil, blocksDecide_nil⟩

end SlotCompiler
