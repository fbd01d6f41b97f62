import SlotCompiler.Proofs.Grammar.Tokens
import SlotCompiler.Proofs.Parse.FileCompleteness
import SlotCompiler.Proofs.Token.Stream

/-!
Contract: source files are parsed exactly by the grammar.
-/

namespace SlotCompiler

theorem Input.le_budget (input : Input) : 4 * input.ahead.tokens.length + 3 ≤ input.budget := by
  show 4 * input.cursor.pending.length + 3 ≤ 8 * (input.cursor.pending.length + 1)
  omega

theorem parseSource_written {source} (clean : (parseSource source).1.faults = #[]) :
    ∃ items, DerivesItems items (TokenStream.ofText source.text).tokens ∧
      fileTree? items = some (parseSource source).1.file := by
  have proper : ∀ token ∈ (Input.ofSource source).ahead.tokens, token.kind ≠ .endOfFile :=
    TokenStream.ofText_kind_ne source.text
  exact Input.itemsWithin_written proper rfl (Input.ofSource source).le_budget
    (Nat.lt_succ_self _) clean

theorem parseSource_of_derives {source : Source} {items file}
    (derives : DerivesItems items (TokenStream.ofText source.text).tokens)
    (built : fileTree? items = some file) : (parseSource source).1 = ⟨file, #[]⟩ := by
  have isBefore : (Input.ofSource source).ahead = ⟨(TokenStream.ofText source.text).tokens, 0⟩ :=
    rfl
  exact Input.itemsWithin_of_derives derives isBefore built (Input.ofSource source).le_budget
    (Nat.lt_succ_self _)

/-- A source is parsed without faults exactly when its tokens, up to the end of
the file, are those of some items that keep their conditions.  The file is then
the tree of these items, in their order.  So a source with an invalid token is
never parsed without faults. -/
theorem parseSource_follows_grammar (source : Source) :
    ((parseSource source).1.faults = #[] ↔
      ∃ items, DerivesItems items (TokenStream.ofText source.text).tokens ∧
        ∀ item ∈ items, item.Valid) ∧
    (∀ items, DerivesItems items (TokenStream.ofText source.text).tokens →
      (∀ item ∈ items, item.Valid) → fileTree? items = some (parseSource source).1.file) ∧
    ((∃ token ∈ (TokenStream.ofText source.text).tokens, token.kind = .invalid) →
      (parseSource source).1.faults ≠ #[]) := by
  refine ⟨⟨?_, ?_⟩, ?_, ?_⟩
  · intro clean
    obtain ⟨items, derives, built⟩ := parseSource_written clean
    exact ⟨items, derives, (exists_fileTree_iff items).mp ⟨_, built⟩⟩
  · rintro ⟨items, derives, valid⟩
    obtain ⟨file, built⟩ := (exists_fileTree_iff items).mpr valid
    rw [parseSource_of_derives derives built]
  · intro items derives valid
    obtain ⟨file, built⟩ := (exists_fileTree_iff items).mpr valid
    rw [parseSource_of_derives derives built]
    exact built
  · rintro ⟨token, member, isInvalid⟩ clean
    obtain ⟨items, derives, _⟩ := parseSource_written clean
    exact derives.kind_ne_invalid token member isInvalid

private def drainText : String :=
  "fn drain(mut t: Tank, low: int) \x7b
    while (t.v > low) \x7b sync mut t \x7b t.v = t.v - 1; \x7d \x7d
  \x7d"

theorem parseSource_follows_grammar_drain :
    (∃ items, DerivesItems items (TokenStream.ofText drainText).tokens ∧
      ∀ item ∈ items, item.Valid) ∧
    (parseSource ⟨"drain", "fn drain() \x7b return 1..2; \x7d"⟩).1.faults ≠ #[] := by
  constructor
  · refine (parseSource_follows_grammar ⟨"drain", drainText⟩).1.mp ?_
    apply Array.eq_empty_of_size_eq_zero
    decide +kernel
  · apply (parseSource_follows_grammar _).2.2
    decide +kernel

end SlotCompiler
