import SlotCompiler.Proofs.Grammar.Expression

/-!
Contract: the grammar of statements.
-/

namespace SlotCompiler

variable {isMutable : Bool}

/-- A variable in a list of locks, as it is written. -/
structure WrittenLock where
  name : String
  exclusive : Bool

mutual

/-- A statement as it is written. -/
inductive Statement where
  | declaration (isMutable : Bool) (name : String) (declared? : Option TypeRef)
      (value : Expression) (position : Position)
  | assignment (name : String) (value : Expression) (position : Position)
  /-- An assignment to the last of some members. -/
  | memberAssignment (name : String) (members : List (String × Position)) (member : String)
      (value : Expression) (position : Position)
  | ret (value? : Option Expression) (position : Position)
  | call (name : String) (arguments : List Expression) (position : Position)
  | conditional (arms : Arms) (position : Position)
  | loop (condition : Expression) (body : List Statement) (position : Position)
  | sync (locks : List WrittenLock) (body : List Statement) (position : Position)

/-- The arms of a conditional as they are written. -/
inductive Arms where
  | last (condition : Expression) (body : List Statement)
  | otherwise (condition : Expression) (body alternative : List Statement)
  | more (condition : Expression) (body : List Statement) (rest : Arms)

end

/-! ## Tokens -/

/-- The tokens are written for a name, with or without `mut` before it. -/
inductive DerivesName : Bool → String → List Token → Prop where
  | plain {token : Token} {name} (isName : token.content = .identifier name) :
      DerivesName false name [token]
  | mutable {keyword token : Token} {name} (isMut : keyword.kind = .mutKw)
      (isName : token.content = .identifier name) : DerivesName true name [keyword, token]

theorem DerivesName.length_pos {name tokens}
    (derives : DerivesName isMutable name tokens) : 0 < tokens.length := by
  cases derives with
  | plain | mutable => exact Nat.succ_pos _

/-- The tokens are written for a type after a mark, or for none. -/
inductive DerivesType (mark : TokenKind) : Option TypeRef → List Token → Prop where
  | absent : DerivesType mark none []
  | present {sign token : Token} {name} (isMark : sign.kind = mark)
      (isType : Parser.typeName? token.content = some name) :
      DerivesType mark (some ⟨name, token.position⟩) [sign, token]

/-- The tokens are written for an assigned value up to its semicolon. -/
inductive DerivesAssigned : Expression → List Token → Prop where
  | mk {assign semicolon : Token} {value tokens} (assigns : assign.kind = .assign)
      (derives : Derives (.tier 1 value) tokens) (ends : semicolon.kind = .semicolon) :
      DerivesAssigned value (assign :: tokens ++ [semicolon])

/-- The tokens are written for locks with commas between them, at least one. -/
inductive DerivesLocks : List WrittenLock → List Token → Prop where
  | last {name exclusive tokens} (locked : DerivesName exclusive name tokens) :
      DerivesLocks [⟨name, exclusive⟩] tokens
  | more {name exclusive locks} {comma : Token} {tokens others}
      (locked : DerivesName exclusive name tokens) (isComma : comma.kind = .comma)
      (rest : DerivesLocks locks others) :
      DerivesLocks (⟨name, exclusive⟩ :: locks) (tokens ++ comma :: others)

/-- A part of a function body. -/
inductive StatementPart where
  | single (written : Statement)
  /-- Statements one after the other, without braces. -/
  | sequence (body : List Statement)
  /-- Statements in braces. -/
  | block (body : List Statement)
  /-- A condition in parentheses and the block that it guards. -/
  | guarded (condition : Expression) (body : List Statement)
  /-- What stands after the first `if` of a conditional. -/
  | arms (written : Arms)

/-- The tokens are written for the part. -/
inductive DerivesStatement : StatementPart → List Token → Prop where
  | declaration {keyword token : Token} {name declared? value typeTokens tokens}
      (declares : keyword.kind = .constKw ∨ keyword.kind = .mutKw)
      (isName : token.content = .identifier name) (typed : DerivesType .colon declared? typeTokens)
      (assigned : DerivesAssigned value tokens) :
      DerivesStatement
        (.single (.declaration (keyword.kind == .mutKw) name declared? value keyword.position))
        (keyword :: token :: (typeTokens ++ tokens))
  | assignment {token : Token} {name value tokens} (isName : token.content = .identifier name)
      (assigned : DerivesAssigned value tokens) :
      DerivesStatement (.single (.assignment name value token.position)) (token :: tokens)
  | memberAssignment {token : Token} {name member place members value chain tokens}
      (isName : token.content = .identifier name)
      (chained : Derives (.members (members ++ [(member, place)])) chain)
      (assigned : DerivesAssigned value tokens) :
      DerivesStatement (.single (.memberAssignment name members member value token.position))
        (token :: (chain ++ tokens))
  | returnNothing {keyword semicolon : Token} (returns : keyword.kind = .returnKw)
      (ends : semicolon.kind = .semicolon) :
      DerivesStatement (.single (.ret none keyword.position)) [keyword, semicolon]
  | returnValue {keyword semicolon : Token} {value tokens} (returns : keyword.kind = .returnKw)
      (derives : Derives (.tier 1 value) tokens) (ends : semicolon.kind = .semicolon) :
      DerivesStatement (.single (.ret (some value) keyword.position))
        (keyword :: tokens ++ [semicolon])
  | call {name arguments position} {semicolon : Token} {tokens}
      (called : Derives (.tier primaryTier (.call name arguments position)) tokens)
      (ends : semicolon.kind = .semicolon) :
      DerivesStatement (.single (.call name arguments position)) (tokens ++ [semicolon])
  | conditional {keyword : Token} {arms tokens} (tests : keyword.kind = .ifKw)
      (chained : DerivesStatement (.arms arms) tokens) :
      DerivesStatement (.single (.conditional arms keyword.position)) (keyword :: tokens)
  | loop {keyword : Token} {condition body tokens} (repeats : keyword.kind = .whileKw)
      (repeated : DerivesStatement (.guarded condition body) tokens) :
      DerivesStatement (.single (.loop condition body keyword.position)) (keyword :: tokens)
  | sync {keyword : Token} {locks body locked tokens} (guards : keyword.kind = .syncKw)
      (listed : DerivesLocks locks locked) (guarded : DerivesStatement (.block body) tokens) :
      DerivesStatement (.single (.sync locks body keyword.position)) (keyword :: (locked ++ tokens))
  | noStatements : DerivesStatement (.sequence []) []
  | moreStatements {written rest tokens others} (first : DerivesStatement (.single written) tokens)
      (following : DerivesStatement (.sequence rest) others) :
      DerivesStatement (.sequence (written :: rest)) (tokens ++ others)
  | block {opening closing : Token} {body tokens} (opens : opening.kind = .leftBrace)
      (inside : DerivesStatement (.sequence body) tokens) (closes : closing.kind = .rightBrace) :
      DerivesStatement (.block body) (opening :: tokens ++ [closing])
  | guarded {opening closing : Token} {condition body tokens taken}
      (opens : opening.kind = .leftParen) (test : Derives (.tier 1 condition) tokens)
      (closes : closing.kind = .rightParen) (arm : DerivesStatement (.block body) taken) :
      DerivesStatement (.guarded condition body) (opening :: (tokens ++ closing :: taken))
  | lastArm {condition body tokens} (arm : DerivesStatement (.guarded condition body) tokens) :
      DerivesStatement (.arms (.last condition body)) tokens
  | otherwise {keyword : Token} {condition body alternative tokens others}
      (arm : DerivesStatement (.guarded condition body) tokens) (isElse : keyword.kind = .elseKw)
      (other : DerivesStatement (.block alternative) others) :
      DerivesStatement (.arms (.otherwise condition body alternative))
        (tokens ++ keyword :: others)
  | moreArms {keyword another : Token} {condition body arms tokens others}
      (arm : DerivesStatement (.guarded condition body) tokens) (isElse : keyword.kind = .elseKw)
      (isIf : another.kind = .ifKw) (following : DerivesStatement (.arms arms) others) :
      DerivesStatement (.arms (.more condition body arms))
        (tokens ++ keyword :: another :: others)

theorem DerivesStatement.length_pos {written tokens}
    (derives : DerivesStatement (.single written) tokens) : 0 < tokens.length := by
  cases derives with
  | call => simp
  | _ => exact Nat.succ_pos _

/-! ## Trees -/

namespace Context

variable {context after : Context}

variable {α : Type} {nesting : Nat} {inside : Nat → Context → Option (α × Context)} {value : α}

/-- Declare a variable, if its name is free in the innermost block and there is
room for it. -/
def declare? (context : Context) (name : String) (isMutable : Bool) : Option (Slot × Context) :=
  match context.frame.add name isMutable none with
  | (some slot, frame) => do
      let scopes ← context.scopes.declare? name slot
      some (slot, (context.withFrame frame).withScopes scopes)
  | (none, _) => none

theorem declare?_eq_some_iff {name slot} :
    context.declare? name isMutable = some (slot, after) ↔
      context.Declares name isMutable slot after := by
  unfold declare? Declares
  constructor
  · intro declared
    split at declared
    · rename_i given frame added
      obtain ⟨scopes, found, last⟩ := Option.bind_eq_some_iff.mp declared
      cases last
      refine ⟨?_, frame, scopes, added, found, rfl⟩
      unfold ScopeChain.declare? at found
      split at found
      · contradiction
      · rename_i isFree
        exact Bool.eq_false_of_not_eq_true isFree
    · contradiction
  · rintro ⟨_, frame, scopes, added, found, rfl⟩
    simp only [added, found]
    rfl

/-- What a step gives in a block of its own that holds some locks, one level
deeper. -/
def enclosed? {α : Type} (context : Context) (nesting locks : Nat)
    (inside : Nat → Context → Option (α × Context)) : Option (α × Context) :=
  if nesting < Input.nestingLimit then do
    let (value, inner) ← inside (nesting + 1) (context.withScopes (context.scopes.enter locks))
    some (value, inner.withScopes inner.scopes.leave)
  else
    none

theorem enclosed?_eq_some_iff {locks} :
    context.enclosed? nesting locks inside = some (value, after) ↔
      nesting < Input.nestingLimit ∧ ∃ inner,
        inside (nesting + 1) (context.withScopes (context.scopes.enter locks)) =
          some (value, inner) ∧ after = inner.withScopes inner.scopes.leave := by
  rw [enclosed?]
  simp only [Option.bind_eq_bind, Option.bind_eq_some_iff, Option.ite_none_right_eq_some,
    Prod.exists]
  grind

def guarded? {α : Type} (context : Context) (nesting : Nat) (condition : Expression)
    (inside : Nat → Context → Option (α × Context)) : Option ((Operand × α) × Context) := do
  let (test, context) ← condition.tree? nesting context
  let (value, context) ← context.enclosed? nesting 0 inside
  some ((test, value), context)

end Context

def locksTree? (scopes : ScopeChain) : List WrittenLock → Option (List Lock)
  | [] => some []
  | ⟨name, exclusive⟩ :: rest => do
      let slot ← scopes.lookup? name
      let others ← locksTree? scopes rest
      some (⟨name, slot, exclusive⟩ :: others)

mutual

def Statement.tree? : Statement → Nat → Context → Option (Node × Context)
  | .declaration isMutable name declared? value position, nesting, context => do
      let (value, context) ← value.tree? nesting context
      let (slot, context) ← context.declare? name isMutable
      some (.declaration name slot isMutable declared? value position, context)
  | .assignment name value position, nesting, context => do
      let slot ← context.scopes.lookup? name
      let (value, context) ← value.tree? nesting context
      some (.assignment slot value position, context)
  | .memberAssignment name members member value position, nesting, context => do
      let source ← context.scopes.lookup? name
      let (steps, context) ← membersTree? members context
      let (value, context) ← value.tree? nesting context
      some (.memberAssignment { source, steps, position } member none value position, context)
  | .ret none position, _, context => some (.ret none context.scopes.lockDepth position, context)
  | .ret (some value) position, nesting, context => do
      let (value, context) ← value.tree? nesting context
      some (.ret (some value) context.scopes.lockDepth position, context)
  | .call name arguments position, nesting, context => do
      let (arguments, context) ← argumentsTree? arguments nesting context
      let context ← context.record? name
      some (.call { name, arguments, position }, context)
  | .conditional arms position, nesting, context => do
      let ((conditions, blocks), context) ← arms.tree? nesting context
      some (.conditional conditions blocks position, context)
  | .loop condition body position, nesting, context => do
      let ((condition, body), context) ← context.guarded? nesting condition (statementsTree? body)
      some (.loop condition body position, context)
  | .sync locks body position, nesting, context => do
      let locks ← locksTree? context.scopes locks
      if (locks.map Lock.slot).Nodup ∧ locks.length < 0x10000 then
        let (body, context) ← context.enclosed? nesting locks.length (statementsTree? body)
        some (.sync locks body position, context)
      else
        none

def Arms.tree? : Arms → Nat → Context → Option ((List Operand × List Block) × Context)
  | .last condition body, nesting, context => do
      let ((condition, body), context) ← context.guarded? nesting condition (statementsTree? body)
      some (([condition], [body]), context)
  | .otherwise condition body alternative, nesting, context => do
      let ((condition, body), context) ← context.guarded? nesting condition (statementsTree? body)
      let (alternative, context) ← context.enclosed? nesting 0 (statementsTree? alternative)
      some (([condition], [body, alternative]), context)
  | .more condition body rest, nesting, context => do
      let ((condition, body), context) ← context.guarded? nesting condition (statementsTree? body)
      let ((conditions, blocks), context) ← rest.tree? nesting context
      some ((condition :: conditions, body :: blocks), context)

def statementsTree? : List Statement → Nat → Context → Option (List Node × Context)
  | [], _, context => some ([], context)
  | written :: rest, nesting, context => do
      let (node, context) ← written.tree? nesting context
      let (nodes, context) ← statementsTree? rest nesting context
      some (node :: nodes, context)

end

def blockTree? (body : List Statement) (locks nesting : Nat) (context : Context) :
    Option (List Node × Context) :=
  context.enclosed? nesting locks (statementsTree? body)

def guardedTree? (condition : Expression) (body : List Statement) (nesting : Nat)
    (context : Context) : Option ((Operand × List Node) × Context) :=
  context.guarded? nesting condition (statementsTree? body)

end SlotCompiler
