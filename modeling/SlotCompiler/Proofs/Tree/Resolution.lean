import Mathlib
import SlotCompiler.Tree.Typing

/-!
Contract: how a resolution is made of the resolutions of its parts.
-/

namespace SlotCompiler

namespace Resolution

variable {α β γ δ : Type}

def map (change : α → γ) (resolved : Resolution α β) : Resolution γ β :=
  ⟨change resolved.tree, resolved.frame, resolved.outcome⟩

def andThen (stopped : α → γ) (next : α → β → Variables → Resolution γ δ) :
    Resolution α β → Resolution γ δ
  | ⟨tree, frame, .ok value⟩ => next tree value frame
  | ⟨tree, frame, .error fault⟩ => ⟨stopped tree, frame, .error fault⟩

@[simp] theorem andThen_ok (stopped : α → γ) (next : α → β → Variables → Resolution γ δ)
    (tree : α) (frame : Variables) (value : β) :
    andThen stopped next ⟨tree, frame, .ok value⟩ = next tree value frame := rfl

def check (test : β → Except Diagnostic δ) (resolved : Resolution α β) : Resolution α δ :=
  ⟨resolved.tree, resolved.frame, resolved.outcome.bind test⟩

theorem check_eq_andThen (test : β → Except Diagnostic δ) (first : Resolution α β) :
    first.check test = first.andThen id fun tree value frame => ⟨tree, frame, test value⟩ := by
  obtain ⟨tree, frame, outcome⟩ := first
  cases outcome <;> rfl

end Resolution

variable {env : TypeEnv} {position : Position} {frame : Variables}

attribute [local simp] Operand.resolve Node.resolve resolveConditions resolveNodes resolveBlocks

/-! ## Operands -/

def Node.heldType (tree : Node) (frame : Variables) : Except Diagnostic TypeId :=
  tree.valueSlot?.elim (.error ⟨.unsupportedConstruct statementConstruct, tree.position⟩)
    fun slot => frame.resolvedType slot tree.position

theorem MemberChain.resolve_eq (chain : MemberChain) :
    chain.resolve env frame =
      (⟨chain, frame, frame.resolvedType chain.source chain.position⟩ :
        Resolution MemberChain TypeId).andThen id fun chain type frame =>
          (resolveSteps env type chain.steps frame).map fun steps =>
            { chain with steps := steps } := by
  unfold MemberChain.resolve
  cases frame.resolvedType chain.source chain.position <;> rfl

theorem resolveSteps_cons (type : TypeId) (step : MemberStep) (rest : List MemberStep) :
    resolveSteps env type (step :: rest) frame =
      (⟨step, frame, env.findField type step.member step.position⟩ :
        Resolution MemberStep (UInt16 × TypeId)).andThen (· :: rest) fun step found frame =>
          (resolveSteps env found.2 rest (frame.setType step.destination found.2)).map
            ({ step with field? := some found.1 } :: ·) := by
  simp only [resolveSteps]
  cases env.findField type step.member step.position <;> rfl

theorem Operand.resolve_node (inner : Node) :
    resolve env position (.node inner) frame =
      (inner.resolve env frame).andThen .node fun tree _ frame =>
        ⟨.node tree, frame, tree.heldType frame⟩ := by
  simp only [resolve, Node.heldType]
  generalize inner.resolve env frame = resolved
  obtain ⟨tree, later, outcome⟩ := resolved
  cases outcome with
  | error fault => rfl
  | ok _ =>
    simp only [Resolution.andThen]
    cases tree.valueSlot? <;> rfl

/-! ## Lists

The resolved part of a list is kept in reverse; from here on it is empty. -/

structure Resolution.Walks {α β : Type} (one : α → Variables → Resolution α β)
    (walk : List α → List α → Variables → Resolution (List α) Unit) : Prop where
  nil : ∀ done frame, walk done [] frame = ⟨done.reverse, frame, .ok ()⟩
  cons : ∀ done item rest frame, walk done (item :: rest) frame =
    (one item frame).andThen (fun tree => done.reverse ++ tree :: rest) fun tree _ frame =>
      walk (tree :: done) rest frame

namespace Resolution.Walks

variable {α β : Type} {one : α → Variables → Resolution α β}
  {walk : List α → List α → Variables → Resolution (List α) Unit}

theorem done_eq (walks : Walks one walk) (done items : List α) (frame : Variables) :
    walk done items frame = (walk [] items frame).map (done.reverse ++ ·) := by
  induction items generalizing done frame with
  | nil => simp [walks.nil, map]
  | cons item rest ih =>
    rw [walks.cons, walks.cons]
    obtain ⟨tree, later, outcome⟩ := one item frame
    cases outcome with
    | error fault => rfl
    | ok _ =>
      rw [andThen_ok, andThen_ok, ih (tree :: done), ih [tree]]
      simp [map]

theorem cons_eq (walks : Walks one walk) (item : α) (rest : List α) (frame : Variables) :
    walk [] (item :: rest) frame = (one item frame).andThen (· :: rest) fun head _ frame =>
      (walk [] rest frame).map (head :: ·) := by
  rw [walks.cons]
  exact congrArg (andThen _ · _) (funext₃ fun tree _ frame => walks.done_eq [tree] rest frame)

end Resolution.Walks

theorem resolveConditions_cons (condition : Operand) (rest : List Operand) :
    resolveConditions env position [] (condition :: rest) frame =
      ((condition.resolve env position frame).check fun found =>
        env.requireType .bool found position).andThen (· :: rest) fun head _ frame =>
          (resolveConditions env position [] rest frame).map (head :: ·) := by
  have walks : Resolution.Walks (fun condition frame =>
      (condition.resolve env position frame).check fun found =>
        env.requireType .bool found position) (resolveConditions env position) := by
    refine ⟨fun _ _ => by rw [resolveConditions], fun done condition rest frame => ?_⟩
    simp only [resolveConditions, Resolution.check]
    cases (condition.resolve env position frame).outcome.bind fun found =>
      env.requireType .bool found position <;> rfl
  exact walks.cons_eq condition rest frame

theorem resolveNodes_cons (node : Node) (rest : List Node) :
    resolveNodes env [] (node :: rest) frame =
      (node.resolve env frame).andThen (· :: rest) fun head _ frame =>
        (resolveNodes env [] rest frame).map (head :: ·) := by
  have walks : Resolution.Walks (Node.resolve env) (resolveNodes env) := by
    refine ⟨fun _ _ => by rw [resolveNodes], fun done node rest frame => ?_⟩
    rw [resolveNodes]
    obtain ⟨tree, later, outcome⟩ := node.resolve env frame
    cases outcome <;> rfl
  exact walks.cons_eq node rest frame

theorem resolveBlocks_cons (block : List Node) (rest : List (List Node)) :
    resolveBlocks env [] (block :: rest) frame =
      (resolveNodes env [] block frame).andThen (· :: rest) fun head _ frame =>
        (resolveBlocks env [] rest frame).map (head :: ·) := by
  have walks : Resolution.Walks (resolveNodes env []) (resolveBlocks env) := by
    refine ⟨fun _ _ => by rw [resolveBlocks], fun done block rest frame => ?_⟩
    rw [resolveBlocks]
    obtain ⟨tree, later, outcome⟩ := resolveNodes env [] block frame
    cases outcome <;> rfl
  exact walks.cons_eq block rest frame

/-! ## Statements -/

namespace Node

theorem resolve_declaration (name : String) (slot : Slot) (isMutable : Bool)
    (declared? : Option TypeRef) (value : Operand) :
    resolve env (.declaration name slot isMutable declared? value position) frame =
      (value.resolve env position frame).andThen
        (.declaration name slot isMutable declared? · position) fun tree type frame =>
          (⟨.declaration name slot isMutable declared? tree position, frame,
            checkDeclared env declared? type position⟩ : Resolution Node Unit).andThen id
            fun tree _ frame => ⟨tree, frame.setType slot type, .ok ()⟩ := by
  simp only [resolve]
  generalize value.resolve env position frame = given
  obtain ⟨tree, later, outcome⟩ := given
  cases outcome with
  | error fault => rfl
  | ok type =>
    simp only [Resolution.andThen]
    cases checkDeclared env declared? type position <;> rfl

theorem resolve_assignment (slot : Slot) (value : Operand) :
    resolve env (.assignment slot value position) frame =
      (⟨.assignment slot value position, frame, frame.requireMutable slot position⟩ :
        Resolution Node Unit).andThen id fun tree _ frame =>
          (⟨tree, frame, frame.resolvedType slot position⟩ : Resolution Node TypeId).andThen id
            fun _ expected frame =>
              ((value.resolve env position frame).check fun found =>
                env.requireType expected found position).map (.assignment slot · position) := by
  simp only [resolve]
  cases frame.requireMutable slot position with
  | error fault => rfl
  | ok _ =>
    simp only [Resolution.andThen]
    cases frame.resolvedType slot position <;> rfl

theorem resolve_memberAssignment (target : MemberChain) (member : String) (field? : Option UInt16)
    (value : Operand) :
    resolve env (.memberAssignment target member field? value position) frame =
      (⟨.memberAssignment target member field? value position, frame,
        frame.requireMutable target.source position⟩ : Resolution Node Unit).andThen id
        fun _ _ frame =>
          ((target.resolve env frame).andThen id fun object _ frame =>
            ⟨object, frame, (frame.resolvedType object.valueSlot position).bind fun type =>
              env.findField type member position⟩).andThen
            (.memberAssignment · member field? value position) fun object found frame =>
              ((value.resolve env position frame).check fun valueType =>
                env.requireType found.2 valueType position).map
                (.memberAssignment object member (some found.1) · position) := by
  simp only [resolve]
  cases frame.requireMutable target.source position with
  | error fault => rfl
  | ok _ =>
    simp only [Resolution.andThen]
    generalize target.resolve env frame = object
    obtain ⟨tree, later, outcome⟩ := object
    cases outcome with
    | error fault => rfl
    | ok _ =>
      simp only [Except.bind]
      cases later.resolvedType tree.valueSlot position with
      | error fault => rfl
      | ok type =>
        dsimp only
        cases env.findField type member position <;> rfl

theorem resolve_access (chain : MemberChain) :
    resolve env (.access chain) frame = (chain.resolve env frame).map .access := by
  rfl

theorem resolve_retValue (value : Operand) (locks : Nat) :
    resolve env (.ret (some value) locks position) frame =
      ((value.resolve env position frame).check fun found =>
        checkReturn env (some found) position).map fun tree => .ret (some tree) locks position := by
  rfl

def binaryResult (env : TypeEnv) (operator : Operator) (tree : Node) (destination : Slot)
    (position : Position) (leftType rightType : TypeId) (frame : Variables) :
    Resolution Node Unit :=
  (operator.resultType? leftType rightType).elim
    ⟨tree, frame, .error ⟨.invalidOperands operator.symbol (env.typeText (some leftType))
      (env.typeText (some rightType)), position⟩⟩
    fun type => ⟨tree, frame.setType destination type, .ok ()⟩

theorem resolve_binary (operator : Operator) (lhs rhs : Operand) (destination : Slot) :
    resolve env (.binary operator lhs rhs destination position) frame =
      (lhs.resolve env position frame).andThen (.binary operator · rhs destination position)
        fun left leftType frame =>
          (rhs.resolve env position frame).andThen (.binary operator left · destination position)
            fun right rightType frame =>
              binaryResult env operator (.binary operator left right destination position)
                destination position leftType rightType frame := by
  simp only [resolve]
  generalize lhs.resolve env position frame = left
  obtain ⟨leftTree, middle, leftOutcome⟩ := left
  cases leftOutcome with
  | error fault => rfl
  | ok leftType =>
    simp only [Resolution.andThen]
    generalize rhs.resolve env position middle = right
    obtain ⟨rightTree, late, rightOutcome⟩ := right
    cases rightOutcome with
    | error fault => rfl
    | ok rightType =>
      simp only [binaryResult]
      cases operator.resultType? leftType rightType <;> rfl

theorem resolve_conditional (conditions : List Operand) (blocks : List (List Node)) :
    resolve env (.conditional conditions blocks position) frame =
      (resolveConditions env position [] conditions frame).andThen (.conditional · blocks position)
        fun tested _ frame =>
          (resolveBlocks env [] blocks frame).map (.conditional tested · position) := by
  simp only [resolve]
  generalize resolveConditions env position [] conditions frame = checked
  obtain ⟨tree, later, outcome⟩ := checked
  cases outcome <;> rfl

theorem resolve_loop (condition : Operand) (body : List Node) :
    resolve env (.loop condition body position) frame =
      ((condition.resolve env position frame).check fun found =>
        env.requireType .bool found position).andThen (.loop · body position)
          fun tested _ frame => (resolveNodes env [] body frame).map (.loop tested · position) := by
  simp only [resolve, Resolution.check]
  cases (condition.resolve env position frame).outcome.bind fun found =>
      env.requireType .bool found position <;> rfl

theorem resolve_sync (locks : List Lock) (body : List Node) :
    resolve env (.sync locks body position) frame =
      (resolveNodes env [] body frame).map (.sync locks · position) := by
  rfl

end Node

end SlotCompiler
