import SlotCompiler.Proofs.Tree.Placement
import SlotCompiler.Proofs.Tree.Resolution

/-!
Contract: types do not depend on places.
-/

namespace SlotCompiler

variable {place : Position → Position}

/-! ## Checks -/

section Checks

variable (position : Position)

theorem Variables.resolvedType_moved (frame : Variables) (slot : Slot) :
    frame.resolvedType slot (place position) =
      (frame.resolvedType slot position).mapError (Diagnostic.moved place) := by
  unfold resolvedType
  cases frame.typeOf? slot <;> rfl

theorem Variables.requireMutable_moved (frame : Variables) (slot : Slot) :
    frame.requireMutable slot (place position) =
      (frame.requireMutable slot position).mapError (Diagnostic.moved place) := by
  unfold requireMutable
  cases frame.get? slot with
  | none => rfl
  | some entry =>
    dsimp only
    split <;> rfl

variable (env : TypeEnv)

theorem TypeEnv.findType_moved (type : TypeRef) :
    env.findType (type.moved place) = (env.findType type).mapError (Diagnostic.moved place) := by
  rw [findType, findType, TypeRef.moved]
  cases env.types.lookup? type.name <;> rfl

theorem TypeEnv.requireType_moved (expected found : TypeId) :
    env.requireType expected found (place position) =
      (env.requireType expected found position).mapError (Diagnostic.moved place) := by
  unfold requireType
  split <;> rfl

theorem TypeEnv.findField_moved (type : TypeId) (member : String) :
    env.findField type member (place position) =
      (env.findField type member position).mapError (Diagnostic.moved place) := by
  unfold findField
  split
  · cases env.types.field? type member <;> rfl
  · rfl

theorem checkDeclared_moved (declared? : Option TypeRef) (type : TypeId) :
    checkDeclared env (declared?.map (TypeRef.moved place)) type (place position) =
      (checkDeclared env declared? type position).mapError (Diagnostic.moved place) := by
  cases declared? with
  | none => rfl
  | some declared =>
    simp only [checkDeclared, Option.map_some, env.findType_moved declared]
    cases env.findType declared with
    | error fault => rfl
    | ok expected => exact env.requireType_moved position expected type

theorem checkReturn_moved (found? : Option TypeId) :
    checkReturn env found? (place position) =
      (checkReturn env found? position).mapError (Diagnostic.moved place) := by
  unfold checkReturn
  split <;> rfl

end Checks

theorem Node.heldType_moved (tree : Node) (frame : Variables) :
    (tree.moved place).heldType frame = (tree.heldType frame).mapError (Diagnostic.moved place) := by
  rw [heldType, heldType, tree.valueSlot?_moved, tree.position_moved]
  cases tree.valueSlot? with
  | none => rfl
  | some slot => exact frame.resolvedType_moved _ slot

/-! ## Sequences -/

namespace Resolution

variable {α β γ δ : Type}

def moved (place : Position → Position) (move : α → α) (resolved : Resolution α β) : Resolution α β :=
  ⟨move resolved.tree, resolved.frame, resolved.outcome.mapError (Diagnostic.moved place)⟩

variable {move : α → α} {moveAll : γ → γ}

theorem mk_moved (move : α → α) (tree : α) (frame : Variables)
    {outcome outcomeAlike : Except Diagnostic β}
    (alike : outcomeAlike = outcome.mapError (Diagnostic.moved place)) :
    (⟨move tree, frame, outcomeAlike⟩ : Resolution α β) =
      (⟨tree, frame, outcome⟩ : Resolution α β).moved place move := by
  rw [alike]
  rfl

variable {resolved resolvedAlike : Resolution α β}
  (first : resolvedAlike = resolved.moved place move)
include first

theorem map_moved {change changeAlike : α → γ}
    (alike : ∀ tree, changeAlike (move tree) = moveAll (change tree)) :
    resolvedAlike.map changeAlike = (resolved.map change).moved place moveAll := by
  rw [first, map, map, moved, moved, alike]

theorem check_moved {test testAlike : β → Except Diagnostic δ}
    (alike : ∀ value, testAlike value = (test value).mapError (Diagnostic.moved place)) :
    resolvedAlike.check testAlike = (resolved.check test).moved place move := by
  rw [first]
  rcases resolved with ⟨tree, frame, _ | value⟩
  · rfl
  · exact congrArg (Resolution.mk (move tree) frame) (alike value)

theorem andThen_moved {stopped stoppedAlike : α → γ}
    {next nextAlike : α → β → Variables → Resolution γ δ}
    (stops : ∀ tree, stoppedAlike (move tree) = moveAll (stopped tree))
    (goesOn : ∀ tree value frame,
      nextAlike (move tree) value frame = (next tree value frame).moved place moveAll) :
    resolvedAlike.andThen stoppedAlike nextAlike =
      (resolved.andThen stopped next).moved place moveAll := by
  rw [first]
  rcases resolved with ⟨tree, frame, fault | value⟩
  · exact congrArg (Resolution.mk · frame (.error (fault.moved place))) (stops tree)
  · exact goesOn tree value frame

end Resolution

/-! ## Members -/

open Resolution

variable {env : TypeEnv}

theorem resolveSteps_moved (type : TypeId) (steps : List MemberStep) (frame : Variables) :
    resolveSteps env type (steps.map (MemberStep.moved place)) frame =
      (resolveSteps env type steps frame).moved place (List.map (MemberStep.moved place)) := by
  induction steps generalizing type frame with
  | nil => rfl
  | cons step rest ih =>
    rw [List.map_cons, resolveSteps_cons, resolveSteps_cons]
    apply andThen_moved (mk_moved (MemberStep.moved place) step frame
      (env.findField_moved step.position type step.member))
    · intro tree
      rfl
    · intro tree found frame
      exact map_moved (ih _ _) fun _ => rfl

theorem MemberChain.resolve_moved (chain : MemberChain) (frame : Variables) :
    (chain.moved place).resolve env frame =
      (chain.resolve env frame).moved place (MemberChain.moved place) := by
  rw [resolve_eq, resolve_eq]
  apply andThen_moved (mk_moved (MemberChain.moved place) chain frame
    (frame.resolvedType_moved chain.position chain.source))
  · intro tree
    rfl
  · intro tree type frame
    exact map_moved (resolveSteps_moved type tree.steps frame) fun _ => rfl

theorem MemberChain.findMember_moved (target : MemberChain) (member : String)
    (position : Position) (frame : Variables) :
    (((target.moved place).resolve env frame).andThen id fun object _ frame =>
      ⟨object, frame, (frame.resolvedType object.valueSlot (place position)).bind fun type =>
        env.findField type member (place position)⟩) =
      ((target.resolve env frame).andThen id fun object _ frame =>
        (⟨object, frame, (frame.resolvedType object.valueSlot position).bind fun type =>
          env.findField type member position⟩ : Resolution MemberChain (UInt16 × TypeId))).moved place
        (MemberChain.moved place) := by
  apply andThen_moved (target.resolve_moved frame)
  · intro tree
    rfl
  · intro object _ frame
    apply mk_moved (MemberChain.moved place) object frame
    rw [object.valueSlot_moved, frame.resolvedType_moved position]
    cases frame.resolvedType object.valueSlot position with
    | error fault => rfl
    | ok type => exact env.findField_moved position type member

/-! ## Statements -/

theorem Node.binaryResult_moved (operator : Operator) (tree : Node) (destination : Slot)
    (position : Position) (leftType rightType : TypeId) (frame : Variables) :
    binaryResult env operator (tree.moved place) destination (place position) leftType rightType
        frame =
      (binaryResult env operator tree destination position leftType rightType frame).moved place
        (Node.moved place) := by
  unfold binaryResult
  cases operator.resultType? leftType rightType <;> rfl

attribute [local simp] Operand.resolve Node.resolve resolveConditions resolveNodes resolveBlocks

mutual

theorem Operand.resolve_moved (position : Position) (operand : Operand) (frame : Variables) :
    (operand.moved place).resolve env (place position) frame =
      (operand.resolve env position frame).moved place (Operand.moved place) := by
  cases operand with
  | «variable» slot =>
    exact mk_moved (Operand.moved place) (.variable slot) frame
      (frame.resolvedType_moved position slot)
  | literal value => rfl
  | string value => rfl
  | node inner =>
    rw [Operand.moved, Operand.resolve_node, Operand.resolve_node]
    apply andThen_moved (inner.resolve_moved frame)
    · intro tree
      rfl
    · intro tree _ frame
      exact mk_moved (Operand.moved place) (.node tree) frame (tree.heldType_moved frame)
  | call invoked =>
    simp only [Operand.moved, Operand.resolve, Call.position_moved]
    rfl

theorem Node.resolve_moved (node : Node) (frame : Variables) :
    (node.moved place).resolve env frame =
      (node.resolve env frame).moved place (Node.moved place) := by
  cases node with
  | declaration name slot isMutable declared? value position =>
    rw [Node.moved, Node.resolve_declaration, Node.resolve_declaration]
    apply andThen_moved (value.resolve_moved position frame)
    · intro tree
      rfl
    · intro tree type frame
      apply andThen_moved (mk_moved (Node.moved place)
        (.declaration name slot isMutable declared? tree position) frame
        (checkDeclared_moved position env declared? type))
      · intro tree
        rfl
      · intro tree _ frame
        rfl
  | assignment slot value position =>
    rw [Node.moved, Node.resolve_assignment, Node.resolve_assignment]
    apply andThen_moved (mk_moved (Node.moved place)
      (.assignment slot value position) frame (frame.requireMutable_moved position slot))
    · intro tree
      rfl
    · intro tree _ frame
      apply andThen_moved (mk_moved (Node.moved place) tree frame
        (frame.resolvedType_moved position slot))
      · intro tree
        rfl
      · intro _ expected frame
        apply map_moved (check_moved
          (value.resolve_moved position frame) (env.requireType_moved position expected))
        intro tree
        rfl
  | access chain =>
    rw [Node.moved, Node.resolve_access, Node.resolve_access]
    exact map_moved (chain.resolve_moved frame) fun _ => rfl
  | memberAssignment target member field? value position =>
    rw [Node.moved, Node.resolve_memberAssignment, Node.resolve_memberAssignment]
    apply andThen_moved (mk_moved (Node.moved place)
      (.memberAssignment target member field? value position) frame
      (frame.requireMutable_moved position target.source))
    · intro tree
      rfl
    · intro tree _ frame
      apply andThen_moved (target.findMember_moved member position frame)
      · intro tree
        rfl
      · intro object found frame
        apply map_moved (check_moved
          (value.resolve_moved position frame) (env.requireType_moved position found.2))
        intro tree
        rfl
  | ret value? locks position =>
    cases value? with
    | none =>
      exact mk_moved (Node.moved place) (.ret none locks position) frame
        (checkReturn_moved position env none)
    | some value =>
      rw [Node.moved, Node.resolve_retValue, Node.resolve_retValue]
      apply map_moved (check_moved
        (value.resolve_moved position frame) fun found =>
          checkReturn_moved position env (some found))
      intro tree
      rfl
  | binary operator lhs rhs destination position =>
    rw [Node.moved, Node.resolve_binary, Node.resolve_binary]
    apply andThen_moved (lhs.resolve_moved position frame)
    · intro tree
      rfl
    · intro left leftType frame
      apply andThen_moved (rhs.resolve_moved position frame)
      · intro tree
        rfl
      · intro right rightType frame
        exact Node.binaryResult_moved operator
          (.binary operator left right destination position) destination position leftType
          rightType frame
  | call invoked =>
    simp only [Node.moved, Node.resolve, Call.position_moved]
    rfl
  | conditional conditions blocks position =>
    rw [Node.moved, Node.resolve_conditional, Node.resolve_conditional]
    apply andThen_moved (resolveConditions_moved position conditions frame)
    · intro tree
      rfl
    · intro tested _ frame
      exact map_moved (resolveBlocks_moved blocks frame) fun _ => rfl
  | loop condition body position =>
    rw [Node.moved, Node.resolve_loop, Node.resolve_loop]
    apply andThen_moved (check_moved
      (condition.resolve_moved position frame) (env.requireType_moved position .bool))
    · intro tree
      rfl
    · intro tested _ frame
      exact map_moved (resolveNodes_moved body frame) fun _ => rfl
  | sync locks body position =>
    rw [Node.moved, Node.resolve_sync, Node.resolve_sync]
    exact map_moved (resolveNodes_moved body frame) fun _ => rfl

theorem resolveConditions_moved (position : Position) (conditions : List Operand)
    (frame : Variables) :
    resolveConditions env (place position) [] (operandsMoved place conditions) frame =
      (resolveConditions env position [] conditions frame).moved place (operandsMoved place) := by
  cases conditions with
  | nil => rfl
  | cons condition rest =>
    rw [operandsMoved, resolveConditions_cons, resolveConditions_cons]
    apply andThen_moved (check_moved
      (condition.resolve_moved position frame) (env.requireType_moved position .bool))
    · intro tree
      rfl
    · intro tree _ frame
      exact map_moved (resolveConditions_moved position rest frame) fun _ => rfl

theorem resolveNodes_moved (nodes : List Node) (frame : Variables) :
    resolveNodes env [] (blockMoved place nodes) frame =
      (resolveNodes env [] nodes frame).moved place (blockMoved place) := by
  cases nodes with
  | nil => rfl
  | cons node rest =>
    rw [blockMoved, resolveNodes_cons, resolveNodes_cons]
    apply andThen_moved (node.resolve_moved frame)
    · intro tree
      rfl
    · intro tree _ frame
      exact map_moved (resolveNodes_moved rest frame) fun _ => rfl

theorem resolveBlocks_moved (blocks : List (List Node)) (frame : Variables) :
    resolveBlocks env [] (blocksMoved place blocks) frame =
      (resolveBlocks env [] blocks frame).moved place (blocksMoved place) := by
  cases blocks with
  | nil => rfl
  | cons block rest =>
    rw [blocksMoved, resolveBlocks_cons, resolveBlocks_cons]
    apply andThen_moved (resolveNodes_moved block frame)
    · intro tree
      rfl
    · intro tree _ frame
      exact map_moved (resolveBlocks_moved rest frame) fun _ => rfl

end

end SlotCompiler
