import SlotCompiler.Proofs.Parse.Reading

/-!
Contract: the grammar of expressions.
-/

namespace SlotCompiler

/-- An expression as it is written. -/
inductive Expression where
  | literal (value : Immediate)
  /-- A string with its escapes left as written. -/
  | string (raw : String)
  | named (name : String)
  /-- A variable followed by members. -/
  | access (name : String) (members : List (String × Position)) (position : Position)
  | call (name : String) (arguments : List Expression) (position : Position)
  /-- An expression in parentheses. -/
  | group (inner : Expression)
  | binary (operator : Operator) (lhs rhs : Expression) (position : Position)

variable {value : Expression} {tokens : List Token} {calls : List String} {height slots : Nat}

/-! ## Tokens -/

/-- The value of a literal other than a string. -/
def Content.literal? : Content → Option Immediate
  | .int value => some (.int value)
  | .float value => some (.float value)
  | .plain kind =>
    if kind = .trueKw then some (.bool true)
    else if kind = .falseKw then some (.bool false)
    else none
  | _ => none

/-- A part of an expression. -/
inductive ExpressionPart where
  /-- An expression of a tier: operators bind at least as tightly as the tier
  tells, and those of tier 11 are primary. -/
  | tier (level : Nat) (value : Expression)
  /-- Members after a variable, each with its point. -/
  | members (names : List (String × Position))
  /-- Arguments with commas between them, at least one. -/
  | arguments (values : List Expression)

def primaryTier : Nat := 11

/-- The tokens are written for the part. -/
inductive Derives : ExpressionPart → List Token → Prop where
  | operation {operator lhs rhs} {token : Token} {left right}
      (binds : token.kind.operator? = some operator)
      (lhsDerives : Derives (.tier operator.precedence lhs) left)
      (rhsDerives : Derives (.tier (operator.precedence + 1) rhs) right) :
      Derives (.tier operator.precedence (.binary operator lhs rhs token.position))
        (left ++ token :: right)
  | tighter {level value tokens} (positive : 1 ≤ level) (loose : level < primaryTier)
      (inner : Derives (.tier (level + 1) value) tokens) : Derives (.tier level value) tokens
  | literal {token : Token} {value} (isLiteral : token.content.literal? = some value) :
      Derives (.tier primaryTier (.literal value)) [token]
  | string {token : Token} {raw} (isString : token.content = .string raw) :
      Derives (.tier primaryTier (.string raw)) [token]
  | named {token : Token} {name} (isName : token.content = .identifier name) :
      Derives (.tier primaryTier (.named name)) [token]
  | access {token : Token} {name names tokens} (isName : token.content = .identifier name)
      (atLeastOne : names ≠ []) (members : Derives (.members names) tokens) :
      Derives (.tier primaryTier (.access name names token.position)) (token :: tokens)
  | callWithout {token opening closing : Token} {name} (isName : token.content = .identifier name)
      (opens : opening.kind = .leftParen) (closes : closing.kind = .rightParen) :
      Derives (.tier primaryTier (.call name [] token.position)) [token, opening, closing]
  | call {token opening closing : Token} {name values tokens}
      (isName : token.content = .identifier name) (opens : opening.kind = .leftParen)
      (arguments : Derives (.arguments values) tokens) (closes : closing.kind = .rightParen) :
      Derives (.tier primaryTier (.call name values token.position))
        (token :: opening :: tokens ++ [closing])
  | group {opening closing : Token} {value tokens} (opens : opening.kind = .leftParen)
      (inner : Derives (.tier 1 value) tokens) (closes : closing.kind = .rightParen) :
      Derives (.tier primaryTier (.group value)) (opening :: tokens ++ [closing])
  | noMembers : Derives (.members []) []
  | moreMembers {point token : Token} {name names tokens} (isPoint : point.kind = .dot)
      (isName : token.content = .identifier name) (rest : Derives (.members names) tokens) :
      Derives (.members ((name, token.position) :: names)) (point :: token :: tokens)
  | lastArgument {value : Expression} {tokens : List Token}
      (inner : Derives (.tier 1 value) tokens) : Derives (.arguments [value]) tokens
  | moreArguments {value values} {comma : Token} {tokens others}
      (inner : Derives (.tier 1 value) tokens) (isComma : comma.kind = .comma)
      (rest : Derives (.arguments values) others) :
      Derives (.arguments (value :: values)) (tokens ++ comma :: others)

theorem Derives.le_primaryTier {level} (derives : Derives (.tier level value) tokens) :
    level ≤ primaryTier := by
  cases derives with
  | @operation operator => exact Nat.le_succ_of_le operator.precedence_le
  | tighter _ loose => exact loose.le
  | literal | string | named | access | callWithout | call | group => exact le_refl _

theorem Derives.loosen {level looser} (derives : Derives (.tier level value) tokens)
    (positive : 1 ≤ looser) (le : looser ≤ level) : Derives (.tier looser value) tokens := by
  induction level with
  | zero => omega
  | succ level ih =>
    by_cases same : looser = level + 1
    · rw [same]
      exact derives
    · have loose := derives.le_primaryTier
      exact ih (.tighter (by omega) loose derives) (by omega)

theorem Derives.call_tokens {name values position}
    (called : Derives (.tier primaryTier (.call name values position)) tokens) :
    ∃ token opening closing others, token.content = .identifier name ∧
      token.position = position ∧ opening.kind = .leftParen ∧ closing.kind = .rightParen ∧
      tokens = token :: opening :: (others ++ [closing]) ∧
      (values = [] ∧ others = [] ∨ Derives (.arguments values) others) := by
  generalize levelEq : primaryTier = level at called
  cases called with
  | tighter _ loose => exact absurd loose (levelEq ▸ Nat.lt_irrefl _)
  | callWithout isName opens closes =>
    exact ⟨_, _, _, [], isName, rfl, opens, closes, rfl, .inl ⟨rfl, rfl⟩⟩
  | call isName opens arguments closes =>
    exact ⟨_, _, _, _, isName, rfl, opens, closes, rfl, .inr arguments⟩

/-! ## Shape -/

namespace Expression

/-- The operators on the way down the left operands.  All of them are met in
one row, so each one is nested in those before it. -/
def spine : Expression → Nat
  | .binary _ lhs _ _ => lhs.spine + 1
  | _ => 0

/-- The last token is a name that stands for a variable. -/
def endsInName : Expression → Bool
  | .named _ => true
  | .binary _ _ rhs _ => rhs.endsInName
  | _ => false

/-- The last token is the name of a member. -/
def endsInMember : Expression → Bool
  | .access _ _ _ => true
  | .binary _ _ rhs _ => rhs.endsInMember
  | _ => false

end Expression

mutual

/-- How much deeper than the expression its parts are nested. -/
def Expression.height : Expression → Nat
  | .call _ arguments _ => argumentsHeight arguments
  | .group inner => inner.height + 1
  | .binary _ lhs rhs _ => max lhs.height (lhs.spine + 1 + rhs.height)
  | _ => 0

def argumentsHeight : List Expression → Nat
  | [] => 0
  | value :: rest => max value.height (argumentsHeight rest)

end

mutual

/-- The temporaries of an expression: one for each operator and each member. -/
def Expression.slots : Expression → Nat
  | .access _ members _ => members.length
  | .call _ arguments _ => argumentsSlots arguments
  | .group inner => inner.slots
  | .binary _ lhs rhs _ => lhs.slots + rhs.slots + 1
  | _ => 0

def argumentsSlots : List Expression → Nat
  | [] => 0
  | value :: rest => value.slots + argumentsSlots rest

end

mutual

def Expression.names : Expression → List String
  | .named name => [name]
  | .access name _ _ => [name]
  | .call _ arguments _ => argumentsNames arguments
  | .group inner => inner.names
  | .binary _ lhs rhs _ => lhs.names ++ rhs.names
  | _ => []

def argumentsNames : List Expression → List String
  | [] => []
  | value :: rest => value.names ++ argumentsNames rest

end

mutual

def Expression.calls : Expression → List String
  | .call name arguments _ => name :: argumentsCalls arguments
  | .group inner => inner.calls
  | .binary _ lhs rhs _ => lhs.calls ++ rhs.calls
  | _ => []

def argumentsCalls : List Expression → List String
  | [] => []
  | value :: rest => value.calls ++ argumentsCalls rest

end

/-! ## Trees -/

theorem bind_of_some {α β : Type} {step : Option α} {next : α → Option β} {value result}
    (first : step = some value) (second : next value = some result) :
    step.bind next = some result :=
  Option.bind_eq_some_iff.mpr ⟨value, first, second⟩

namespace Context

variable {context after : Context}

/-- Add a temporary, if there is room for it. -/
def temporary? (context : Context) : Option (Slot × Context) :=
  match context.frame.addTemporary with
  | (some slot, frame) => some (slot, context.withFrame frame)
  | (none, _) => none

/-- Record a call, unless the function calls itself. -/
def record? (context : Context) (name : String) : Option Context :=
  match context.callees.record name with
  | .ok (callees, _) => some (context.withCallees callees)
  | .error _ => none

theorem temporary?_eq_some_iff {slot} :
    context.temporary? = some (slot, after) ↔ context.Adds slot after := by
  unfold temporary? Adds
  constructor
  · intro added
    split at added
    · rename_i given frame found
      cases added
      exact ⟨frame, found, rfl⟩
    · contradiction
  · rintro ⟨frame, added, rfl⟩
    simp only [added]

theorem record?_eq_some_iff {name} :
    context.record? name = some after ↔ context.Records name after := by
  unfold record? Records
  constructor
  · intro recorded
    split at recorded
    · rename_i callees isNew found
      cases recorded
      exact ⟨callees, isNew, found, rfl⟩
    · contradiction
  · rintro ⟨callees, isNew, recorded, rfl⟩
    simp only [recorded]

end Context

def membersTree? : List (String × Position) → Context → Option (List MemberStep × Context)
  | [], context => some ([], context)
  | (member, position) :: rest, context => do
      let (destination, context) ← context.temporary?
      let (steps, context) ← membersTree? rest context
      some ({ member, destination, field? := none, position } :: steps, context)

mutual

/-- The tree of an expression that stands at some nesting in a function, with
what the function has collected after it.  There is none if a name is not
visible, the function calls itself, or a limit is reached. -/
def Expression.tree? : Expression → Nat → Context → Option (Operand × Context)
  | .literal value, _, context => some (.literal value, context)
  | .string raw, _, context =>
    some (.string (String.ofList (BodyParser.decodeEscapes raw.toList)), context)
  | .named name, _, context => do
      let slot ← context.scopes.lookup? name
      some (.variable slot, context)
  | .access name members position, _, context => do
      let source ← context.scopes.lookup? name
      let (steps, context) ← membersTree? members context
      some (.node (.access { source, steps, position }), context)
  | .call name arguments position, nesting, context => do
      let (arguments, context) ← argumentsTree? arguments nesting context
      let context ← context.record? name
      some (.call { name, arguments, position }, context)
  | .group inner, nesting, context =>
    if nesting < Input.nestingLimit then inner.tree? (nesting + 1) context else none
  | .binary operator lhs rhs position, nesting, context => do
      let (left, context) ← lhs.tree? nesting context
      if nesting + lhs.spine < Input.nestingLimit then
        let (right, context) ← rhs.tree? (nesting + lhs.spine + 1) context
        let (destination, context) ← context.temporary?
        some (.node (.binary operator left right destination position), context)
      else
        none

def argumentsTree? : List Expression → Nat → Context → Option (List Operand × Context)
  | [], _, context => some ([], context)
  | value :: rest, nesting, context => do
      let (first, context) ← value.tree? nesting context
      let (others, context) ← argumentsTree? rest nesting context
      some (first :: others, context)

end

/-! ## Conditions -/

/-- All names stand for visible variables. -/
def ScopeChain.Sees (scopes : ScopeChain) (names : List String) : Prop :=
  ∀ name ∈ names, (scopes.lookup? name).isSome

theorem ScopeChain.sees_append_iff {scopes : ScopeChain} {first second} :
    scopes.Sees (first ++ second) ↔ scopes.Sees first ∧ scopes.Sees second :=
  List.forall_mem_append

namespace Context

variable {name : String} {nesting otherHeight otherSlots : Nat} {otherCalls : List String}

/-- At some nesting, calls of these functions are allowed, and neither the
nesting nor the variables of the function exceed their limits. -/
structure HasRoom (context : Context) (nesting : Nat) (calls : List String)
    (height slots : Nat) : Prop where
  calls : context.callees.function ∉ calls
  nesting : height = 0 ∨ nesting + height ≤ Input.nestingLimit
  slots : slots = 0 ∨ context.frame.size + slots ≤ Variables.capacity

/-- What reading adds to a function besides names: variables, and callees. -/
structure Extends (context : Context) (slots : Nat) (after : Context) : Prop where
  function_eq : after.callees.function = context.callees.function
  size_eq : after.frame.size = context.frame.size + slots

variable {context middle after : Context}

theorem Extends.refl (context : Context) : context.Extends 0 context := ⟨rfl, rfl⟩

theorem Extends.trans {first second} (early : context.Extends first middle)
    (late : middle.Extends second after) : context.Extends (first + second) after where
  function_eq := late.function_eq.trans early.function_eq
  size_eq := by rw [late.size_eq, early.size_eq, Nat.add_assoc]

theorem hasRoom_nothing (context : Context) (nesting : Nat) : context.HasRoom nesting [] 0 0 :=
  ⟨List.not_mem_nil, .inl rfl, .inl rfl⟩

theorem HasRoom.first (room : context.HasRoom nesting (calls ++ otherCalls) (max height otherHeight)
      (slots + otherSlots)) : context.HasRoom nesting calls height slots := by
  obtain ⟨noCall, shallow, fits⟩ := room
  rw [List.mem_append, not_or] at noCall
  exact ⟨noCall.1, by omega, by omega⟩

theorem Extends.hasRoom_append_iff (grown : context.Extends slots middle) :
    context.HasRoom nesting (calls ++ otherCalls) (max height otherHeight) (slots + otherSlots) ↔
      context.HasRoom nesting calls height slots ∧
        middle.HasRoom nesting otherCalls otherHeight otherSlots := by
  have sizeEq := grown.size_eq
  have functionEq := grown.function_eq
  constructor
  · intro whole
    refine ⟨whole.first, ?_⟩
    obtain ⟨noCall, shallow, room⟩ := whole
    rw [List.mem_append, not_or] at noCall
    refine ⟨?_, by omega, by omega⟩
    rw [functionEq]
    exact noCall.2
  · rintro ⟨⟨noCall, shallow, room⟩, ⟨noOtherCall, otherShallow, otherRoom⟩⟩
    rw [functionEq] at noOtherCall
    refine ⟨?_, by omega, by omega⟩
    rw [List.mem_append, not_or]
    exact ⟨noCall, noOtherCall⟩

theorem temporary?_extends {slot} (added : context.temporary? = some (slot, after)) :
    after.scopes = context.scopes ∧ context.Extends 1 after := by
  unfold temporary? Variables.addTemporary Variables.append at added
  split at added
  · rename_i given frame found
    split at found
    · cases found
      cases added
      refine ⟨rfl, rfl, ?_⟩
      exact Array.size_push _
    · cases found
  · contradiction

theorem exists_temporary_iff :
    (∃ slot after, context.temporary? = some (slot, after)) ↔
      context.frame.size < Variables.capacity := by
  unfold temporary? Variables.addTemporary Variables.append
  by_cases room : context.frame.size < Variables.capacity
  · simp [room]
  · simp [room]

theorem record?_extends (recorded : context.record? name = some after) :
    after.scopes = context.scopes ∧ context.Extends 0 after := by
  unfold record? Callees.record at recorded
  grind [withCallees, Extends]

theorem exists_record_iff :
    (∃ after, context.record? name = some after) ↔ context.callees.function ≠ name := by
  unfold record? Callees.record
  by_cases isSelf : name = context.callees.function
  · simp [isSelf]
  · rw [if_neg isSelf]
    by_cases known : context.callees.calls name = true
    · simp [known, Ne.symm isSelf]
    · simp [known, Ne.symm isSelf]

end Context

end SlotCompiler
