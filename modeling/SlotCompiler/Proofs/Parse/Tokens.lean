import SlotCompiler.Proofs.Grammar.Expression
import SlotCompiler.Proofs.Parse.Actions

/-!
Contract: the steps shared by all parsers, seen through the tokens they consume.
-/

namespace SlotCompiler

/-! ## What is ahead -/

/-- What the first of some tokens stands for; after the last one, the end of
file. -/
def nextContent (tokens : List Token) : Content :=
  (tokens.head?.map Token.content).getD (.plain .endOfFile)

def nextKind (tokens : List Token) : TokenKind := (nextContent tokens).kind

@[simp] theorem nextKind_cons (token : Token) (rest : List Token) :
    nextKind (token :: rest) = token.kind := rfl

/-- The tokens left and the nesting of the tree being built. -/
structure Ahead where
  tokens : List Token
  nesting : Nat

namespace Ahead

def content (ahead : Ahead) : Content := nextContent ahead.tokens

def kind (ahead : Ahead) : TokenKind := nextKind ahead.tokens

theorem kind_eq (ahead : Ahead) : ahead.kind = ahead.content.kind := rfl

end Ahead

def Input.ahead (input : Input) : Ahead := ⟨input.cursor.pending, input.nesting⟩

def BodyInput.view (body : BodyInput) : Ahead × Context := (body.input.ahead, body.context)

/-- Some tokens are consumed, and the nesting is as before. -/
structure Input.Consumes (input : Input) (tokens : List Token) (later : Input) : Prop where
  tokens_eq : input.ahead.tokens = tokens ++ later.ahead.tokens
  nesting_eq : later.nesting = input.nesting

theorem Input.Consumes.refl (input : Input) : input.Consumes [] input := ⟨rfl, rfl⟩

theorem Input.consumes_nothing {input later : Input} (aheadEq : later.ahead = input.ahead) :
    input.Consumes [] later := by
  refine ⟨?_, congrArg Ahead.nesting aheadEq⟩
  rw [aheadEq, List.nil_append]

theorem Input.Consumes.trans {input middle later : Input} {first second}
    (early : input.Consumes first middle) (late : middle.Consumes second later) :
    input.Consumes (first ++ second) later where
  tokens_eq := by rw [early.tokens_eq, late.tokens_eq, List.append_assoc]
  nesting_eq := late.nesting_eq.trans early.nesting_eq

theorem Input.Consumes.length_eq {input later : Input} {tokens}
    (consumes : input.Consumes tokens later) :
    input.ahead.tokens.length = tokens.length + later.ahead.tokens.length := by
  rw [consumes.tokens_eq, List.length_append]

theorem Input.Consumes.length_le {input later : Input} {tokens}
    (consumes : input.Consumes tokens later) :
    later.ahead.tokens.length ≤ input.ahead.tokens.length := by
  rw [consumes.length_eq]
  exact Nat.le_add_left _ _

theorem Input.Consumes.length_lt {input later : Input} {token tokens}
    (consumes : input.Consumes (token :: tokens) later) :
    later.ahead.tokens.length < input.ahead.tokens.length := by
  rw [consumes.length_eq, List.length_cons]
  omega

/-- Some tokens are consumed, and the function's context is as before. -/
structure BodyInput.Passes (body : BodyInput) (tokens : List Token) (after : BodyInput) :
    Prop where
  consumes : body.input.Consumes tokens after.input
  context_eq : after.context = body.context

namespace BodyInput.Passes

variable {body middle after : BodyInput} {front tokens : List Token}

theorem refl (body : BodyInput) : body.Passes [] body := ⟨.refl _, rfl⟩

theorem trans (early : body.Passes front middle) (late : middle.Passes tokens after) :
    body.Passes (front ++ tokens) after :=
  ⟨early.consumes.trans late.consumes, late.context_eq.trans early.context_eq⟩

theorem before {α : Type} {tree? : Nat → Context → Option (α × Context)} {value left}
    (passes : body.Passes front middle)
    (built : tree? middle.input.nesting middle.context = some (value, left)) :
    tree? body.input.nesting body.context = some (value, left) := by
  rwa [passes.consumes.nesting_eq, passes.context_eq] at built

end BodyInput.Passes

theorem toList_push_append {α : Type} (given : Array α) (value : α) (rest : List α) :
    (given.push value).toList ++ rest = given.toList ++ value :: rest := by
  rw [Array.toList_push, List.append_assoc, List.singleton_append]

/-! ## Success by view -/

section Takes

variable {ε σ ω α β : Type} {view : σ → ω}

def Takes (view : σ → ω) (step : EStateM ε σ α) (before : ω) (value : α) (after : ω) : Prop :=
  ∀ state, view state = before → ∃ later, step state = .ok value later ∧ view later = after

theorem takes_pure (value : α) (before : ω) :
    Takes view (pure value : EStateM ε σ α) before value before :=
  fun state isBefore => ⟨state, rfl, isBefore⟩

theorem Takes.bind {step} {next : α → EStateM ε σ β} {before middle after given value}
    (first : Takes view step before given middle)
    (rest : Takes view (next given) middle value after) :
    Takes view (step >>= next) before value after := by
  intro state isBefore
  obtain ⟨between, firstRan, isMiddle⟩ := first state isBefore
  obtain ⟨later, restRan, isAfter⟩ := rest between isMiddle
  exact ⟨later, bind_eq_ok_iff.mpr ⟨given, between, firstRan, restRan⟩, isAfter⟩

end Takes

/-! ## Steps on tokens -/

namespace Parser

variable {input later : Input}

theorem peek_ok {token} (ran : peek input = .ok token later) :
    token.content = input.ahead.content ∧ later.ahead = input.ahead ∧
      (input.ahead.kind ≠ .endOfFile → ∃ rest, input.ahead.tokens = token :: rest) := by
  rcases input with ⟨⟨name, stream, pending, consumed, inspected, finished⟩, depth, nesting⟩
  cases ran
  cases pending with
  | nil => exact ⟨rfl, rfl, fun proper => absurd rfl proper⟩
  | cons token rest => exact ⟨rfl, rfl, fun _ => ⟨rest, rfl⟩⟩

theorem peekKind_ok {kind} (ran : peekKind input = .ok kind later) :
    kind = input.ahead.kind ∧ later.ahead = input.ahead := by
  obtain ⟨token, middle, peekRan, ran⟩ := bind_eq_ok_iff.mp ran
  cases ran
  obtain ⟨contentEq, aheadEq, _⟩ := peek_ok peekRan
  exact ⟨congrArg Content.kind contentEq, aheadEq⟩

theorem next_ok {token} (proper : input.ahead.kind ≠ .endOfFile)
    (ran : next input = .ok token later) :
    token.content = input.ahead.content ∧ input.Consumes [token] later := by
  rcases input with ⟨⟨name, stream, pending, consumed, inspected, finished⟩, depth, nesting⟩
  cases ran
  cases pending with
  | nil => exact absurd rfl proper
  | cons token rest => exact ⟨rfl, rfl, rfl⟩

theorem takes_peek (token : Token) (rest : List Token) (nesting : Nat) :
    Takes Input.ahead peek ⟨token :: rest, nesting⟩ token ⟨token :: rest, nesting⟩ := by
  rintro ⟨⟨name, stream, pending, consumed, inspected, finished⟩, depth, level⟩ isBefore
  cases isBefore
  exact ⟨_, rfl, rfl⟩

theorem takes_peekKind (tokens : List Token) (nesting : Nat) :
    Takes Input.ahead peekKind ⟨tokens, nesting⟩ (nextKind tokens) ⟨tokens, nesting⟩ := by
  rintro ⟨⟨name, stream, pending, consumed, inspected, finished⟩, depth, level⟩ isBefore
  cases isBefore
  cases pending with
  | nil => exact ⟨_, rfl, rfl⟩
  | cons token rest => exact ⟨_, rfl, rfl⟩

theorem takes_next (token : Token) (rest : List Token) (nesting : Nat) :
    Takes Input.ahead next ⟨token :: rest, nesting⟩ token ⟨rest, nesting⟩ := by
  rintro ⟨⟨name, stream, pending, consumed, inspected, finished⟩, depth, level⟩ isBefore
  cases isBefore
  exact ⟨_, rfl, rfl⟩

theorem accept_true {kind} (proper : kind ≠ .endOfFile) (ran : accept kind input = .ok true later) :
    ∃ token, token.kind = kind ∧ input.Consumes [token] later := by
  obtain ⟨found, middle, kindRan, ran⟩ := bind_eq_ok_iff.mp ran
  obtain ⟨rfl, aheadEq⟩ := peekKind_ok kindRan
  split at ran
  · rename_i isKind
    obtain ⟨token, last, nextRan, ran⟩ := bind_eq_ok_iff.mp ran
    cases ran
    have same : middle.ahead.kind = kind := by rw [aheadEq, isKind]
    obtain ⟨contentEq, consumes⟩ := next_ok (by rw [same]; exact proper) nextRan
    refine ⟨token, (congrArg Content.kind contentEq).trans same, ?_, ?_⟩
    · rw [← aheadEq, consumes.tokens_eq]
    · exact consumes.nesting_eq.trans (congrArg Ahead.nesting aheadEq)
  · obtain ⟨impossible, _⟩ := pure_eq_ok_iff.mp ran
    contradiction

theorem accept_false {kind} (ran : accept kind input = .ok false later) :
    input.ahead.kind ≠ kind ∧ later.ahead = input.ahead := by
  obtain ⟨found, middle, kindRan, ran⟩ := bind_eq_ok_iff.mp ran
  obtain ⟨rfl, aheadEq⟩ := peekKind_ok kindRan
  split at ran
  · obtain ⟨_, _, _, ran⟩ := bind_eq_ok_iff.mp ran
    obtain ⟨impossible, _⟩ := pure_eq_ok_iff.mp ran
    contradiction
  · rename_i isOther
    cases ran
    exact ⟨isOther, aheadEq⟩

theorem takes_accept {kind} {token : Token} (isKind : token.kind = kind) (rest : List Token)
    (nesting : Nat) :
    Takes Input.ahead (accept kind) ⟨token :: rest, nesting⟩ true ⟨rest, nesting⟩ := by
  refine (takes_peekKind _ nesting).bind ?_
  rw [nextKind_cons, if_pos isKind]
  exact (takes_next token rest nesting).bind (takes_pure _ _)

theorem takes_accept_other {kind tokens} (isOther : nextKind tokens ≠ kind) (nesting : Nat) :
    Takes Input.ahead (accept kind) ⟨tokens, nesting⟩ false ⟨tokens, nesting⟩ := by
  refine (takes_peekKind _ nesting).bind ?_
  rw [if_neg isOther]
  exact takes_pure _ _

theorem expect_ok {kind token} (proper : kind ≠ .endOfFile)
    (ran : expect kind input = .ok token later) :
    token.kind = kind ∧ input.Consumes [token] later := by
  obtain ⟨seen, middle, peekRan, ran⟩ := bind_eq_ok_iff.mp ran
  obtain ⟨seenEq, aheadEq, _⟩ := peek_ok peekRan
  split at ran
  · rename_i isKind
    have same : middle.ahead.kind = kind := by
      rw [aheadEq, ← isKind]
      exact congrArg Content.kind seenEq.symm
    obtain ⟨contentEq, consumes⟩ := next_ok (by rw [same]; exact proper) ran
    refine ⟨(congrArg Content.kind contentEq).trans same, ?_, ?_⟩
    · rw [← aheadEq, consumes.tokens_eq]
    · exact consumes.nesting_eq.trans (congrArg Ahead.nesting aheadEq)
  · contradiction

theorem takes_expect {kind} {token : Token} (isKind : token.kind = kind) (rest : List Token)
    (nesting : Nat) :
    Takes Input.ahead (expect kind) ⟨token :: rest, nesting⟩ token ⟨rest, nesting⟩ := by
  refine (takes_peek token rest nesting).bind ?_
  rw [if_pos isKind]
  exact takes_next token rest nesting

theorem identifier_ok {name position} (ran : identifier input = .ok (name, position) later) :
    ∃ token, token.content = .identifier name ∧ token.position = position ∧
      input.Consumes [token] later := by
  obtain ⟨token, middle, expectRan, ran⟩ := bind_eq_ok_iff.mp ran
  obtain ⟨_, consumes⟩ := expect_ok (by decide) expectRan
  cases isName : token.content with
  | identifier found =>
    simp only [isName] at ran
    obtain ⟨same, rfl⟩ := pure_eq_ok_iff.mp ran
    cases same
    exact ⟨token, isName, rfl, consumes⟩
  | _ =>
    simp only [isName] at ran
    contradiction

theorem takes_identifier {name} {token : Token} (isName : token.content = .identifier name)
    (rest : List Token) (nesting : Nat) :
    Takes Input.ahead identifier ⟨token :: rest, nesting⟩ (name, token.position)
      ⟨rest, nesting⟩ := by
  have isKind : token.kind = .identifier := congrArg Content.kind isName
  refine (takes_expect isKind rest nesting).bind ?_
  rw [isName]
  exact takes_pure _ _

theorem descend_ok {position} (ran : descend position input = .ok () later) :
    input.nesting < Input.nestingLimit ∧ later.ahead = ⟨input.ahead.tokens, input.nesting + 1⟩ := by
  obtain ⟨state, middle, got, ran⟩ := bind_eq_ok_iff.mp ran
  cases got
  split at ran
  · rename_i isShallow
    cases ran
    exact ⟨isShallow, rfl⟩
  · contradiction

theorem takes_descend {nesting} (isShallow : nesting < Input.nestingLimit) (tokens : List Token)
    (position : Position) :
    Takes Input.ahead (descend position) ⟨tokens, nesting⟩ () ⟨tokens, nesting + 1⟩ := by
  intro input isBefore
  have nestingEq : input.nesting = nesting := congrArg Ahead.nesting isBefore
  have tokensEq : input.cursor.pending = tokens := congrArg Ahead.tokens isBefore
  refine ⟨{ input with nesting := input.nesting + 1 }, ?_, ?_⟩
  · refine bind_eq_ok_iff.mpr ⟨input, input, rfl, ?_⟩
    rw [if_pos (nestingEq ▸ isShallow)]
    rfl
  · show Ahead.mk input.cursor.pending (input.nesting + 1) = _
    rw [nestingEq, tokensEq]

end Parser

/-! ## Steps inside a function -/

namespace BodyParser

variable {body after : BodyInput} {ahead : Ahead} {context later : Context}

theorem takes_lift {α : Type} {step : Parser α} {before left : Ahead} {value : α}
    (takes : Takes Input.ahead step before value left) (context : Context) :
    Takes BodyInput.view (liftM step : BodyParser α) (before, context) value (left, context) := by
  rintro ⟨input, given⟩ isBefore
  obtain ⟨aheadEq, rfl⟩ := Prod.mk.inj isBefore
  obtain ⟨later, stepRan, isAfter⟩ := takes input aheadEq
  refine ⟨⟨later, given⟩, ?_, congrArg (·, given) isAfter⟩
  show ofParser step ⟨input, given⟩ = _
  simp only [ofParser, stepRan]

section Then

variable {α : Type} {value : α}

theorem peek_then {next : Token → BodyParser α}
    (ran : ((liftM Parser.peek : BodyParser Token) >>= next) body = .ok value after) :
    ∃ token state, token.content = body.input.ahead.content ∧ body.Passes [] state ∧
      state.input.ahead = body.input.ahead ∧ next token state = .ok value after := by
  obtain ⟨token, state, peekRan, ran⟩ := bind_eq_ok_iff.mp ran
  obtain ⟨peekRan, sameContext⟩ := lift_eq_ok peekRan
  obtain ⟨contentEq, aheadEq, _⟩ := Parser.peek_ok peekRan
  exact ⟨token, state, contentEq, ⟨Input.consumes_nothing aheadEq, sameContext⟩, aheadEq, ran⟩

theorem peekKind_then {next : TokenKind → BodyParser α}
    (ran : ((liftM Parser.peekKind : BodyParser TokenKind) >>= next) body = .ok value after) :
    ∃ state, body.Passes [] state ∧ state.input.ahead = body.input.ahead ∧
      next body.input.ahead.kind state = .ok value after := by
  obtain ⟨kind, state, kindRan, ran⟩ := bind_eq_ok_iff.mp ran
  obtain ⟨kindRan, sameContext⟩ := lift_eq_ok kindRan
  obtain ⟨rfl, aheadEq⟩ := Parser.peekKind_ok kindRan
  exact ⟨state, ⟨Input.consumes_nothing aheadEq, sameContext⟩, aheadEq, ran⟩

theorem next_then {next : Token → BodyParser α} (proper : body.input.ahead.kind ≠ .endOfFile)
    (ran : ((liftM Parser.next : BodyParser Token) >>= next) body = .ok value after) :
    ∃ token state, token.content = body.input.ahead.content ∧ body.Passes [token] state ∧
      next token state = .ok value after := by
  obtain ⟨token, state, nextRan, ran⟩ := bind_eq_ok_iff.mp ran
  obtain ⟨nextRan, sameContext⟩ := lift_eq_ok nextRan
  obtain ⟨contentEq, consumes⟩ := Parser.next_ok proper nextRan
  exact ⟨token, state, contentEq, ⟨consumes, sameContext⟩, ran⟩

theorem descend_then {position} {next : Unit → BodyParser α}
    (ran : ((liftM (Parser.descend position) : BodyParser Unit) >>= next) body =
      .ok value after) :
    ∃ state, body.input.nesting < Input.nestingLimit ∧ state.context = body.context ∧
      state.input.ahead = ⟨body.input.ahead.tokens, body.input.nesting + 1⟩ ∧
      next () state = .ok value after := by
  obtain ⟨_, state, descendRan, ran⟩ := bind_eq_ok_iff.mp ran
  obtain ⟨descendRan, sameContext⟩ := lift_eq_ok descendRan
  obtain ⟨isShallow, aheadEq⟩ := Parser.descend_ok descendRan
  exact ⟨state, isShallow, sameContext, aheadEq, ran⟩

theorem expect_then {kind : TokenKind} {next : Token → BodyParser α} (proper : kind ≠ .endOfFile)
    (ran : ((liftM (Parser.expect kind) : BodyParser Token) >>= next) body = .ok value after) :
    ∃ token state, token.kind = kind ∧ body.Passes [token] state ∧
      next token state = .ok value after := by
  obtain ⟨token, state, expectRan, ran⟩ := bind_eq_ok_iff.mp ran
  obtain ⟨expectRan, sameContext⟩ := lift_eq_ok expectRan
  obtain ⟨isKind, consumes⟩ := Parser.expect_ok proper expectRan
  exact ⟨token, state, isKind, ⟨consumes, sameContext⟩, ran⟩

theorem identifier_then {next : String × Position → BodyParser α}
    (ran : ((liftM Parser.identifier : BodyParser (String × Position)) >>= next) body =
      .ok value after) :
    ∃ token name state, token.content = .identifier name ∧ body.Passes [token] state ∧
      next (name, token.position) state = .ok value after := by
  obtain ⟨⟨name, position⟩, state, nameRan, ran⟩ := bind_eq_ok_iff.mp ran
  obtain ⟨nameRan, sameContext⟩ := lift_eq_ok nameRan
  obtain ⟨token, isName, rfl, consumes⟩ := Parser.identifier_ok nameRan
  exact ⟨token, name, state, isName, ⟨consumes, sameContext⟩, ran⟩

theorem accept_then {kind : TokenKind} {next : Bool → BodyParser α} (proper : kind ≠ .endOfFile)
    (ran : ((liftM (Parser.accept kind) : BodyParser Bool) >>= next) body = .ok value after) :
    (∃ token state, token.kind = kind ∧ body.Passes [token] state ∧
      next true state = .ok value after) ∨
    ∃ state, body.Passes [] state ∧ next false state = .ok value after := by
  obtain ⟨isKind, state, acceptRan, ran⟩ := bind_eq_ok_iff.mp ran
  obtain ⟨acceptRan, sameContext⟩ := lift_eq_ok acceptRan
  cases isKind with
  | true =>
    obtain ⟨token, isKind, consumes⟩ := Parser.accept_true proper acceptRan
    exact .inl ⟨token, state, isKind, ⟨consumes, sameContext⟩, ran⟩
  | false =>
    obtain ⟨_, aheadEq⟩ := Parser.accept_false acceptRan
    exact .inr ⟨state, ⟨Input.consumes_nothing aheadEq, sameContext⟩, ran⟩

end Then

theorem restoringNesting_view {α : Type} {step : BodyParser α} {value : α}
    (ran : restoringNesting step body = .ok value after) :
    ∃ state, step body = .ok value state ∧ after.context = state.context ∧
      after.input.ahead = ⟨state.input.ahead.tokens, body.input.nesting⟩ := by
  unfold restoringNesting at ran
  cases stepRan : step body with
  | ok found state =>
    simp only [stepRan] at ran
    cases ran
    exact ⟨state, rfl, rfl, rfl⟩
  | error fault state =>
    simp only [stepRan] at ran
    contradiction

theorem recordCall_record {name position} (ran : recordCall name position body = .ok () after) :
    body.context.record? name = some after.context ∧ after.input = body.input := by
  refine ⟨Context.record?_eq_some_iff.mpr (recordCall_ok ran), ?_⟩
  unfold recordCall at ran
  split at ran
  · cases ran
    rfl
  · contradiction

end BodyParser

end SlotCompiler
