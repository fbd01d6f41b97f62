import SlotCompiler.Proofs.Parse.ExpressionCompleteness
import SlotCompiler.Proofs.Parse.ExpressionSoundness

/-!
Contract: expressions are parsed exactly by the precedence grammar.
-/

namespace SlotCompiler

namespace BodyParser

/-- With enough fuel for the tokens left, an expression is parsed exactly by the
grammar.  Whatever is parsed was written by its loosest tier, and its value is
the tree of that derivation.  Conversely, whatever that tier writes is parsed up
to its last token, if its names are visible, the function does not call itself,
the limits are kept, and the token after it neither is an operator nor goes on
with a name or member at its end. -/
theorem expression_follows_grammar {fuel : Nat} {body : BodyInput}
    (enough : 4 * body.input.cursor.pending.length + 2 ≤ fuel) :
    (∀ value after, expression fuel body = .ok value after →
      ∃ written tokens, body.input.Consumes tokens after.input ∧
        Derives (.tier 1 written) tokens ∧
        written.tree? body.input.nesting body.context = some (value, after.context)) ∧
    ∀ written tokens rest, body.input.cursor.pending = tokens ++ rest →
      Derives (.tier 1 written) tokens → body.context.scopes.Sees written.names →
      body.context.HasRoom body.input.nesting written.calls written.height written.slots →
      (nextKind rest).operator? = none → written.Ends (nextKind rest) →
      ∃ value after, expression fuel body = .ok value after ∧
        after.input.cursor.pending = rest ∧
        written.tree? body.input.nesting body.context = some (value, after.context) := by
  constructor
  · intro value after ran
    obtain ⟨written, tokens, consumes, derives, built, _⟩ :=
      (writesExpressions fuel).binary (le_refl 1) (by decide) enough ran
    exact ⟨written, tokens, consumes, derives, built⟩
  · intro written tokens rest pendingEq derives sees room noOperator ends
    obtain ⟨value, later, built⟩ := written.exists_tree_iff.mpr ⟨sees, room⟩
    have stops : ∀ operator, (nextKind rest).operator? = some operator →
        operator.precedence < 1 := by
      intro operator isNext
      rw [noOperator] at isNext
      contradiction
    rw [pendingEq] at enough
    have viewEq : body.view = (⟨tokens ++ rest, body.input.nesting⟩, body.context) := by
      rw [← pendingEq]
      rfl
    obtain ⟨after, ran, isAfter⟩ :=
      (gives_binary_of_isRead derives.isRead derives stops ends enough).takes
        (written.builds built).gives body viewEq
    obtain ⟨aheadEq, contextEq⟩ := Prod.mk.inj isAfter
    refine ⟨value, after, ran, congrArg Ahead.tokens aheadEq, ?_⟩
    rw [contextEq]
    exact built

private def differenceTokens : List Token :=
  [⟨.int 7, .start, "7"⟩, ⟨.plain .subtract, .start, "-"⟩, ⟨.identifier "x", .start, "x"⟩,
    ⟨.plain .multiply, .start, "*"⟩, ⟨.identifier "y", .start, "y"⟩, ⟨.plain .dot, .start, "."⟩,
    ⟨.identifier "z", .start, "z"⟩, ⟨.plain .subtract, .start, "-"⟩,
    ⟨.identifier "f", .start, "f"⟩, ⟨.plain .leftParen, .start, "("⟩,
    ⟨.identifier "x", .start, "x"⟩, ⟨.plain .rightParen, .start, ")"⟩,
    ⟨.plain .semicolon, .start, ";"⟩]

private def differenceBody : BodyInput where
  input :=
    { cursor :=
        { sourceName := "main", stream := ⟨differenceTokens, .start⟩, pending := differenceTokens,
          consumed := 0, inspected := 0, finished := false },
      depth := 0, nesting := 0 }
  context :=
    { function := "main", frame := (Variables.empty.add "x" false none).2.add "y" false none |>.2,
      scopes := ⟨⟨[("y", 1), ("x", 0)], 0⟩, []⟩, callees := .none "main" }

private def difference : Expression :=
  .binary .subtract
    (.binary .subtract (.literal (.int 7))
      (.binary .multiply (.named "x") (.access "y" [("z", .start)] .start) .start) .start)
    (.call "f" [.named "x"] .start) .start

private theorem derives_difference : Derives (.tier 1 difference) (differenceTokens.take 12) := by
  have variableX : Derives (.tier primaryTier (.named "x")) [⟨.identifier "x", .start, "x"⟩] :=
    .named rfl
  have members := @Derives.moreMembers ⟨.plain .dot, .start, "."⟩ ⟨.identifier "z", .start, "z"⟩
    "z" _ _ rfl rfl .noMembers
  have access := @Derives.access ⟨.identifier "y", .start, "y"⟩ "y" _ _ rfl
    (List.cons_ne_nil _ _) members
  have product := @Derives.operation .multiply _ _ ⟨.plain .multiply, .start, "*"⟩ _ _ rfl
    (variableX.loosen (by decide) (by decide)) access
  have seven : Derives (.tier primaryTier (.literal (.int 7))) [⟨.int 7, .start, "7"⟩] :=
    .literal rfl
  have minuend := @Derives.operation .subtract _ _ ⟨.plain .subtract, .start, "-"⟩ _ _ rfl
    (seven.loosen (by decide) (by decide)) product
  have call := @Derives.call ⟨.identifier "f", .start, "f"⟩ ⟨.plain .leftParen, .start, "("⟩
    ⟨.plain .rightParen, .start, ")"⟩ "f" _ _ rfl rfl
    (.lastArgument (variableX.loosen (by decide) (by decide))) rfl
  have whole := @Derives.operation .subtract _ _ ⟨.plain .subtract, .start, "-"⟩ _ _ rfl minuend
    (call.loosen (by decide) (by decide))
  exact whole.loosen (by decide) (by decide)

theorem expression_follows_grammar_difference :
    4 * differenceBody.input.cursor.pending.length + 2 ≤ 64 ∧
      ∃ value after, expression 64 differenceBody = .ok value after ∧
        after.input.cursor.pending = differenceTokens.drop 12 ∧
        difference.tree? 0 differenceBody.context = some (value, after.context) := by
  refine ⟨by decide, ?_⟩
  refine (expression_follows_grammar (by decide)).2 difference _ _ rfl derives_difference ?_ ?_ rfl
    ⟨fun isName => by contradiction, fun isMember => by contradiction⟩
  · show ∀ name ∈ difference.names, (differenceBody.context.scopes.lookup? name).isSome
    decide
  · exact ⟨by decide, by decide, by decide⟩

end BodyParser

end SlotCompiler
