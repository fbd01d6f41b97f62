import SlotCompiler.Proofs.Parse.Recovery
import SlotCompiler.Proofs.Parse.Rounds

/-!
Contract: every round of a file starts outside all braces, and the last one at its
end.
-/

namespace SlotCompiler

namespace Input

/-- Outside all braces, or at the end of the file. -/
def Settled (input : Input) : Prop := input.depth = 0 ∨ input.peek.1.kind = .endOfFile

theorem pending_next_lt {input : Input} (goesOn : input.peek.1.kind ≠ .endOfFile) :
    input.peek.2.next.2.cursor.pending.length < input.cursor.pending.length := by
  rcases input with ⟨⟨name, stream, pending, consumed, inspected, finished⟩, depth, nesting⟩
  cases pending with
  | nil => exact absurd rfl goesOn
  | cons token rest => exact Nat.lt_succ_self _

theorem skipOutOf_leaves (depth : Nat) (input : Input) :
    (input.skipOutOf depth).depth < depth ∨
      (input.skipOutOf depth).peek.1.kind = .endOfFile := by
  unfold skipOutOf
  generalize enough : input.cursor.pending.length + 1 = fuel
  replace enough := enough.le
  induction fuel generalizing input with
  | zero => exact absurd enough (Nat.not_succ_le_zero _)
  | succ fuel ih =>
    unfold skipOutOfWithin
    dsimp only
    split
    next isOut => exact .inl isOut
    split
    next isEnd => exact .inr ((peek_kind _).trans ((peek_kind input).symm.trans isEnd))
    next goesOn =>
      exact ih _ (Nat.le_trans (pending_next_lt goesOn) (Nat.le_of_succ_le_succ enough))

theorem settled_skipToNextItem (input : Input) : input.skipToNextItem.Settled := by
  unfold skipToNextItem
  generalize enough : input.cursor.pending.length + 1 = fuel
  replace enough := enough.le
  induction fuel generalizing input with
  | zero => exact absurd enough (Nat.not_succ_le_zero _)
  | succ fuel ih =>
    unfold skipToNextItemWithin
    dsimp only
    split
    next stops =>
      rcases stops with isEnd | ⟨_, isOutside⟩
      · exact .inr ((peek_kind _).trans ((peek_kind input).symm.trans isEnd))
      · exact .inl isOutside
    next goesOn =>
      have proper : input.peek.1.kind ≠ .endOfFile := fun isEnd => goesOn (.inl isEnd)
      exact ih _ (Nat.le_trans (pending_next_lt proper) (Nat.le_of_succ_le_succ enough))

end Input

open Input

/-- The statements of a body take its closing brace; after a fault it is skipped. -/
theorem Parser.settled_functionBody {input : Input} (isInside : input.depth = 1) (fuel : Nat)
    (signature : Signature) (context : Context) :
    (functionBody fuel signature context input).2.Settled := by
  unfold functionBody
  split
  next nodes later _ ran =>
    have leaves := ((BodyParser.restoringStatements fuel).statements #[] ⟨input, context⟩).of_ok ran
    exact .inl (leaves.depth_eq.trans (congrArg (· - 1) isInside))
  next fault later _ _ =>
    rw [isInside]
    exact (skipOutOf_leaves 1 later).imp_left Nat.lt_one_iff.mp

namespace Input

theorem settled_itemOrRecover {α : Type} {step input}
    (settled : ∀ value later, step input = .ok value later → later.Settled)
    (add : ParsedFile → α → ParsedFile) (parsed : ParsedFile) :
    (itemOrRecover step add parsed input).2.Settled := by
  unfold itemOrRecover
  split
  next value later ran => exact settled value later ran
  next => exact settled_skipToNextItem _

theorem settled_oneItem {input : Input} {budget} (isOutside : input.depth = 0)
    (proper : ∀ token ∈ input.ahead.tokens, token.kind ≠ .endOfFile)
    (enough : input.ahead.tokens.length < budget) (kind : TokenKind) (parsed : ParsedFile) :
    (oneItem budget kind parsed input).2.Settled := by
  unfold oneItem
  split
  · apply settled_itemOrRecover
    intro item later ran
    exact .inl ((Parser.structItem_depth proper enough ran).trans isOutside)
  split
  · apply settled_itemOrRecover
    intro result later ran
    obtain ⟨headed, middle, headRan, bodyRan⟩ := bind_eq_ok_iff.mp ran
    have isInside : middle.depth = 1 := by
      rw [Parser.signature_depth proper enough headRan, isOutside]
    cases bodyRan
    exact Parser.settled_functionBody isInside budget headed.1 headed.2
  · apply settled_itemOrRecover
    intro _ later ran
    obtain ⟨token, middle, _, refused⟩ := bind_eq_ok_iff.mp ran
    cases refused

end Input

namespace Source.Round

variable {source : Source} {parsed : ParsedFile} {input : Input}

theorem tokens_ne_nil_iff (round : source.Round parsed input) :
    input.ahead.tokens ≠ [] ↔ input.peek.1.kind ≠ .endOfFile := by
  have proper := round.proper
  rw [Input.peek_kind, Ahead.kind]
  cases tokensEq : input.ahead.tokens with
  | nil => exact iff_of_false (absurd rfl) (absurd rfl)
  | cons token rest =>
    exact iff_of_true (List.cons_ne_nil _ _) (proper token (tokensEq ▸ List.mem_cons_self))

theorem settled (round : source.Round parsed input) : input.Settled := by
  induction round with
  | first => exact .inl rfl
  | @next parsed input round goesOn ih =>
    have isOutside : input.depth = 0 := ih.resolve_right (round.tokens_ne_nil_iff.mp goesOn)
    have enough : input.ahead.tokens.length < (Input.ofSource source).budget := by
      have room := round.le_budget
      omega
    exact @settled_oneItem input.peek.2 _ isOutside round.proper enough _ parsed

theorem exists_last (round : source.Round parsed input) :
    ∃ parsed input, source.Round parsed input ∧ input.peek.1.kind = .endOfFile ∧
      parseSource source = (parsed, input.peek.2) := by
  induction remaining : input.ahead.tokens.length using Nat.strong_induction_on
    generalizing parsed input with
  | _ remaining ih =>
    by_cases isEnd : input.peek.1.kind = .endOfFile
    · obtain ⟨fuel, enough, finishes⟩ := round.goes_on
      obtain _ | fuel := fuel
      · omega
      rw [Input.itemsWithin_succ, if_pos isEnd] at finishes
      exact ⟨parsed, input, round, isEnd, finishes.symm⟩
    · have goesOn := round.tokens_ne_nil_iff.mpr isEnd
      obtain ⟨token, rest, tokensEq⟩ := List.exists_cons_of_ne_nil goesOn
      have shorter := (afterRound_precedes tokensEq source parsed).tokens.length_le
      rw [tokensEq, List.length_cons] at remaining
      exact ih _ (by dsimp only at shorter; omega) (round.next goesOn) rfl

end Source.Round

end SlotCompiler
