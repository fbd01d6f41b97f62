import SlotCompiler.Proofs.Parse.FileSoundness
import SlotCompiler.Proofs.Parse.Restoration

/-!
Contract: parsers only go forward.
-/

namespace SlotCompiler

/-- A place further on, or the same one, at the same nesting. -/
structure Ahead.Precedes (start later : Ahead) : Prop where
  nesting_eq : later.nesting = start.nesting
  tokens : later.tokens <:+ start.tokens

namespace Ahead.Precedes

theorem refl (start : Ahead) : start.Precedes start := ⟨rfl, List.suffix_refl _⟩

theorem trans {start middle later : Ahead} (early : start.Precedes middle)
    (late : middle.Precedes later) : start.Precedes later :=
  ⟨late.nesting_eq.trans early.nesting_eq, late.tokens.trans early.tokens⟩

end Ahead.Precedes

def BodyInput.ahead (body : BodyInput) : Ahead := body.input.ahead

theorem endState_bind_of_ok {ε σ α β : Type} {step} {next : α → EStateM ε σ β} {start middle value}
    (ran : step start = .ok value middle) :
    endState ((step >>= next) start) = endState (next value middle) := by
  show endState (EStateM.bind step next start) = _
  unfold EStateM.bind
  rw [ran]

def Advances {ε σ α : Type} (view : σ → Ahead) (step : EStateM ε σ α) : Prop :=
  ∀ state, (view state).Precedes (view (endState (step state)))

namespace Advances

variable {ε σ α β : Type} {view : σ → Ahead}

theorem pure (value : α) : Advances view (Pure.pure value : EStateM ε σ α) :=
  fun state => .refl (view state)

theorem throw (fault : ε) : Advances view (throw fault : EStateM ε σ α) :=
  fun state => .refl (view state)

theorem bind {step} {next : β → EStateM ε σ α} (first : Advances view step)
    (rest : ∀ value, Advances view (next value)) : Advances view (step >>= next) := by
  intro state
  have firstPrecedes := first state
  show (view state).Precedes (view (endState (EStateM.bind step next state)))
  unfold EStateM.bind
  cases ran : step state with
  | ok value middle =>
    rw [ran] at firstPrecedes
    exact firstPrecedes.trans (rest value middle)
  | error fault middle =>
    rw [ran] at firstPrecedes
    exact firstPrecedes

theorem ite {condition : Prop} [Decidable condition] {yes no : EStateM ε σ α}
    (ifTrue : Advances view yes) (ifFalse : Advances view no) :
    Advances view (if condition then yes else no) := by
  split
  · exact ifTrue
  · exact ifFalse

end Advances

/-! ## Tokens -/

namespace Parser

theorem advances_peek : Advances Input.ahead peek :=
  fun input => .refl input.ahead

theorem advances_next : Advances Input.ahead next := by
  intro input
  rcases input with ⟨⟨name, stream, pending, consumed, inspected, finished⟩, depth, nesting⟩
  cases pending with
  | nil => exact ⟨rfl, List.suffix_refl _⟩
  | cons token rest => exact ⟨rfl, List.suffix_cons token rest⟩

theorem advances_accept (kind : TokenKind) : Advances Input.ahead (accept kind) := by
  apply (advances_peek.bind fun _ => .pure _).bind
  intro found
  exact .ite (advances_next.bind fun _ => .pure true) (.pure false)

theorem advances_expect (kind : TokenKind) : Advances Input.ahead (expect kind) := by
  apply advances_peek.bind
  intro token
  exact .ite advances_next (.throw _)

theorem advances_identifier : Advances Input.ahead identifier := by
  apply (advances_expect .identifier).bind
  intro token
  split
  · exact .pure _
  · exact .throw _

theorem advances_typeName : Advances Input.ahead typeName := by
  apply advances_peek.bind
  intro token
  split
  · exact advances_next.bind fun _ => .pure _
  · exact .throw _

theorem advances_typeAfter (kind : TokenKind) : Advances Input.ahead (typeAfter kind) := by
  apply (advances_accept kind).bind
  intro found
  exact .ite (advances_typeName.bind fun _ => .pure _) (.pure none)

def StartsWith {α : Type} (kind : TokenKind) (step : Parser α) : Prop :=
  ∃ next : Token → Parser α, step = expect kind >>= next ∧ ∀ token, Advances Input.ahead (next token)

namespace StartsWith

variable {α β : Type} {kind : TokenKind} {step : Parser α}

theorem advances (starts : StartsWith kind step) : Advances Input.ahead step := by
  obtain ⟨next, rfl, nextAdvances⟩ := starts
  exact (advances_expect kind).bind nextAdvances

theorem bind {following : α → Parser β} (starts : StartsWith kind step)
    (rest : ∀ value, Advances Input.ahead (following value)) :
    StartsWith kind (step >>= following) := by
  obtain ⟨next, rfl, nextAdvances⟩ := starts
  exact ⟨fun token => next token >>= following, bind_assoc _ _ _,
    fun token => (nextAdvances token).bind rest⟩

theorem precedes (starts : StartsWith kind step) {input : Input} {token rest}
    (tokensEq : input.ahead.tokens = token :: rest) (isKind : token.kind = kind) :
    Ahead.Precedes ⟨rest, input.nesting⟩ (endState (step input)).ahead := by
  obtain ⟨next, rfl, nextAdvances⟩ := starts
  have isBefore : input.ahead = ⟨token :: rest, input.nesting⟩ := tokensEq ▸ rfl
  obtain ⟨later, ran, isAfter⟩ := takes_expect isKind rest input.nesting input isBefore
  have precedes := nextAdvances token later
  rw [isAfter] at precedes
  rw [endState_bind_of_ok ran]
  exact precedes

end StartsWith

/-! ## Structs -/

theorem advances_structFields (fuel : Nat) (fields : Array FieldDeclaration)
    (seen : Std.HashSet String) : Advances Input.ahead (structFields fuel fields seen) := by
  induction fuel generalizing fields seen with
  | zero => exact .pure fields
  | succ fuel ih =>
    apply (advances_accept .rightBrace).bind
    intro closed
    apply Advances.ite (.pure fields)
    apply advances_identifier.bind
    intro named
    apply Advances.ite (.throw _)
    apply (advances_expect .colon).bind
    intro _
    apply advances_typeName.bind
    intro type
    apply (advances_accept .comma).bind
    intro goesOn
    exact .ite (ih _ _) ((advances_expect .rightBrace).bind fun _ => .pure _)

theorem structItem_startsWith (fuel : Nat) : StartsWith .structKw (structItem fuel) := by
  refine ⟨_, rfl, ?_⟩
  intro keyword
  apply advances_identifier.bind
  intro named
  apply (advances_expect .leftBrace).bind
  intro _
  exact (advances_structFields fuel _ _).bind fun _ => .pure _

end Parser

/-! ## Functions -/

namespace BodyParser

variable {α : Type}

theorem advances_lift {step : Parser α} (advances : Advances Input.ahead step) :
    Advances BodyInput.ahead (liftM step : BodyParser α) := by
  intro body
  rcases body with ⟨input, context⟩
  have precedes := advances input
  show input.ahead.Precedes (endState (ofParser step ⟨input, context⟩)).input.ahead
  unfold ofParser
  cases ran : step input with
  | ok value later =>
    rw [ran] at precedes
    simp only [ran]
    exact precedes
  | error fault later =>
    rw [ran] at precedes
    simp only [ran]
    exact precedes

theorem Runs.precedes {step start} {done : α → BodyInput → Prop} {failed : BodyInput → Prop}
    (runs : Runs step start done failed)
    (ifDone : ∀ value later, done value later → start.ahead.Precedes later.ahead)
    (ifFailed : ∀ later, failed later → start.ahead.Precedes later.ahead) :
    start.ahead.Precedes (endState (step start)).ahead := by
  cases ran : step start with
  | ok value later => exact ifDone value later (runs.of_ok ran)
  | error fault later => exact ifFailed later (runs.of_error ran)

theorem Steady.advances {step : BodyParser α} (steady : Steady step) :
    Advances BodyInput.ahead step := by
  intro start
  apply (steady start).precedes
  · intro _ later quiet
    exact ⟨quiet.nesting_eq, quiet.tokens⟩
  · intro later faulted
    exact ⟨faulted.nesting_eq, faulted.tokens⟩

theorem advances_declare (name : String) (isMutable : Bool) (position : Position) :
    Advances BodyInput.ahead (declare name isMutable position) := by
  intro start
  apply (declare_runs name isMutable position start).precedes
  · rintro slot later ⟨nestingEq, _, tokens, _⟩
    exact ⟨nestingEq, tokens⟩
  · intro later faulted
    exact ⟨faulted.nesting_eq, faulted.tokens⟩

theorem advances_statements (fuel : Nat) (given : Array Node) :
    Advances BodyInput.ahead (statements fuel given) := by
  intro start
  apply ((restoringStatements fuel).statements given start).precedes
  · intro _ later leave
    exact ⟨leave.nesting_eq, leave.tokens⟩
  · intro later faulted
    exact ⟨faulted.nesting_eq, faulted.tokens⟩

theorem advances_parameterList (fuel : Nat) (parameters : Array Parameter) :
    Advances BodyInput.ahead (parameterList fuel parameters) := by
  induction fuel generalizing parameters with
  | zero => exact steady_exhausted.advances
  | succ fuel ih =>
    apply (advances_lift (Parser.advances_accept .mutKw)).bind
    intro isMutable
    apply (advances_lift Parser.advances_identifier).bind
    intro named
    apply (advances_lift (Parser.advances_expect .colon)).bind
    intro _
    apply (advances_lift Parser.advances_typeName).bind
    intro type
    apply (advances_declare named.1 isMutable named.2).bind
    intro slot
    apply (advances_lift (Parser.advances_accept .comma)).bind
    intro goesOn
    exact .ite (ih _)
      ((advances_lift (Parser.advances_expect .rightParen)).bind fun _ => .pure _)

theorem advances_signatureAfter (fuel : Nat) (name : String) (position : Position) :
    Advances BodyInput.ahead (signatureAfter fuel name position) := by
  apply (advances_lift (Parser.advances_expect .leftParen)).bind
  intro _
  apply (advances_lift (Parser.advances_accept .rightParen)).bind
  intro isEmpty
  have returned (parameters : Array Parameter) :
      Advances BodyInput.ahead (do
        let returnType? ← (Parser.typeAfter .arrow : Parser _)
        let _ ← (Parser.expect .leftBrace : Parser _)
        return ({ name, position, parameters := parameters.toList, returnType? } : Signature) :
          BodyParser Signature) := by
    apply (advances_lift (Parser.advances_typeAfter .arrow)).bind
    intro returnType?
    exact (advances_lift (Parser.advances_expect .leftBrace)).bind fun _ => .pure _
  exact .ite ((Advances.pure #[]).bind returned) ((advances_parameterList fuel #[]).bind returned)

end BodyParser

namespace Input

theorem precedes_skipOutOf (depth : Nat) (input : Input) :
    input.ahead.Precedes (input.skipOutOf depth).ahead := by
  unfold skipOutOf
  generalize input.cursor.pending.length + 1 = fuel
  induction fuel generalizing input with
  | zero => exact .refl _
  | succ fuel ih =>
    unfold skipOutOfWithin
    dsimp only
    split
    · exact .refl _
    split
    · exact .refl _
    · exact (Parser.advances_next input.peek.2).trans (ih _)

theorem precedes_skipToNextItem (input : Input) :
    input.ahead.Precedes input.skipToNextItem.ahead := by
  unfold skipToNextItem
  generalize input.cursor.pending.length + 1 = fuel
  induction fuel generalizing input with
  | zero => exact .refl _
  | succ fuel ih =>
    unfold skipToNextItemWithin
    dsimp only
    split
    · exact .refl _
    · exact (Parser.advances_next input.peek.2).trans (ih _)

end Input

namespace Parser

theorem signature_startsWith (fuel : Nat) : StartsWith .fnKw (signature fuel) := by
  refine ⟨_, rfl, ?_⟩
  intro keyword
  apply advances_identifier.bind
  intro named input
  have precedes := BodyParser.advances_signatureAfter fuel named.1 keyword.position
    ⟨input, .initial named.1⟩
  dsimp only
  split
  · rename_i ran
    rw [ran] at precedes
    exact precedes
  · rename_i ran
    rw [ran] at precedes
    exact precedes

theorem precedes_functionBody (fuel : Nat) (signature : Signature) (context : Context)
    (input : Input) : input.ahead.Precedes (functionBody fuel signature context input).2.ahead := by
  have precedes := BodyParser.advances_statements fuel #[] ⟨input, context⟩
  unfold functionBody
  split
  · rename_i ran
    rw [ran] at precedes
    exact precedes
  · rename_i ran
    rw [ran] at precedes
    exact precedes.trans (Input.precedes_skipOutOf _ _)

theorem function_startsWith (fuel : Nat) : StartsWith .fnKw (function fuel) := by
  apply (signature_startsWith fuel).bind
  intro headed input
  exact precedes_functionBody fuel headed.1 headed.2 input

end Parser

/-! ## Files -/

namespace Input

theorem advances_strayToken : Advances Input.ahead strayToken :=
  Parser.advances_next.bind fun _ => .throw _

theorem precedes_itemOrRecover {α : Type} {step} {start : Ahead} {input}
    (precedes : start.Precedes (endState (step input)).ahead) (add : ParsedFile → α → ParsedFile)
    (parsed : ParsedFile) : start.Precedes (itemOrRecover step add parsed input).2.ahead := by
  unfold itemOrRecover
  split
  · rename_i ran
    rw [ran] at precedes
    exact precedes
  · rename_i ran
    rw [ran] at precedes
    exact precedes.trans (precedes_skipToNextItem _)

theorem precedes_oneItem (budget : Nat) (kind : TokenKind) (parsed : ParsedFile) (input : Input) :
    input.ahead.Precedes (oneItem budget kind parsed input).2.ahead := by
  unfold oneItem
  split
  · exact precedes_itemOrRecover ((Parser.structItem_startsWith budget).advances input) _ parsed
  split
  · exact precedes_itemOrRecover ((Parser.function_startsWith budget).advances input) _ parsed
  · exact precedes_itemOrRecover (advances_strayToken input) _ parsed

theorem precedes_oneItem_of_cons {input : Input} {token rest}
    (tokensEq : input.ahead.tokens = token :: rest) (budget : Nat) (parsed : ParsedFile) :
    Ahead.Precedes ⟨rest, input.nesting⟩ (oneItem budget token.kind parsed input).2.ahead := by
  unfold oneItem
  split
  · rename_i isStruct
    exact precedes_itemOrRecover
      ((Parser.structItem_startsWith budget).precedes tokensEq isStruct) _ parsed
  split
  · rename_i isFunction
    exact precedes_itemOrRecover
      ((Parser.function_startsWith budget).precedes tokensEq isFunction) _ parsed
  · refine precedes_itemOrRecover ?_ _ parsed
    have isBefore : input.ahead = ⟨token :: rest, input.nesting⟩ := tokensEq ▸ rfl
    obtain ⟨later, ran, isAfter⟩ := Parser.takes_next token rest input.nesting input isBefore
    rw [strayToken, endState_bind_of_ok ran]
    show Ahead.Precedes _ later.ahead
    rw [isAfter]
    exact .refl _

end Input

end SlotCompiler
