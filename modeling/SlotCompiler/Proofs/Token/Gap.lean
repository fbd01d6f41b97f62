import Mathlib
import SlotCompiler.Token.Scan

/-!
Contract: what stands between tokens.
-/

namespace SlotCompiler

/-- A text between tokens, with the text after it.  A line comment goes up to a
line feed or the end of all text.  A block comment goes up to the first asterisk
and slash, or without one to the end of all text. -/
inductive IsGap : List Char → List Char → Prop where
  | nothing {rest} : IsGap [] rest
  | blank {character gap rest} (isBlank : character ∈ [' ', '\t', '\r', '\n'])
      (more : IsGap gap rest) : IsGap (character :: gap) rest
  | lineComment {comment gap rest} (oneLine : '\n' ∉ comment)
      (stops : ∀ character ∈ (gap ++ rest).head?, character = '\n') (more : IsGap gap rest) :
      IsGap ('/' :: '/' :: (comment ++ gap)) rest
  | blockComment {comment gap rest : List Char} (staysOpen : ¬ ['*', '/'] <:+: comment)
      (more : IsGap gap rest) : IsGap ('/' :: '*' :: (comment ++ '*' :: '/' :: gap)) rest
  | unclosed {comment} (staysOpen : ¬ ['*', '/'] <:+: comment) : IsGap ('/' :: '*' :: comment) []

theorem mem_blanks_of_isBlank {character} (blank : isBlank character = true) :
    character ∈ [' ', '\t', '\r', '\n'] := by
  simp only [isBlank, Bool.or_eq_true, beq_iff_eq] at blank
  simp only [List.mem_cons, List.not_mem_nil, or_false]
  tauto

theorem staysOpen_cons {character comment tail whole} (wholeEq : whole = comment ++ tail)
    (staysOpen : ¬ ['*', '/'] <:+: comment)
    (notClosing : ∀ rest, character = '*' → whole = '/' :: rest → False) :
    ¬ ['*', '/'] <:+: character :: comment := by
  intro closes
  rcases List.infix_cons_iff.mp closes with ⟨rest, closing⟩ | later
  · obtain ⟨rfl, rfl⟩ := List.cons.inj closing
    exact notClosing (rest ++ tail) rfl wholeEq
  · exact staysOpen later

namespace Gap

/-- What is left of a text between tokens, with the text after it, once its start
has been read. -/
inductive Leaves : Gap → List Char → List Char → Prop where
  | blank {gap rest} (isGap : IsGap gap rest) : Leaves .blank gap rest
  | lineComment {comment gap rest} (oneLine : '\n' ∉ comment)
      (stops : ∀ character ∈ (gap ++ rest).head?, character = '\n') (more : IsGap gap rest) :
      Leaves .lineComment (comment ++ gap) rest
  | blockComment {comment gap rest : List Char} (staysOpen : ¬ ['*', '/'] <:+: comment)
      (more : IsGap gap rest) : Leaves .blockComment (comment ++ '*' :: '/' :: gap) rest
  | unclosed {comment} (staysOpen : ¬ ['*', '/'] <:+: comment) : Leaves .blockComment comment []

def Skips (gap : Gap) (position : Position) (characters : List Char)
    (after : Position × List Char) : Prop :=
  ∃ skipped, characters = skipped ++ after.2 ∧ after.1 = position.advance skipped ∧
    gap.Leaves skipped after.2

theorem Skips.prepend {gap later : Gap} {position : Position} (front : List Char) {characters after}
    (skips : later.Skips (position.advance front) characters after)
    (belongs : ∀ {skipped rest}, characters = skipped ++ rest → later.Leaves skipped rest →
      gap.Leaves (front ++ skipped) rest) : gap.Skips position (front ++ characters) after := by
  obtain ⟨skipped, charactersEq, placeEq, leaves⟩ := skips
  refine ⟨front ++ skipped, ?_, ?_, belongs charactersEq leaves⟩
  · rw [List.append_assoc, ← charactersEq]
  · rw [Position.advance_append, placeEq]

end Gap

theorem skipGap_skips (gap : Gap) (position : Position) (characters : List Char) :
    gap.Skips position characters (skipGap gap position characters) := by
  fun_induction skipGap gap position characters with
  | case1 gap position =>
    refine ⟨[], rfl, rfl, ?_⟩
    cases gap with
    | blank => exact .blank .nothing
    | lineComment => exact @Gap.Leaves.lineComment [] [] [] List.not_mem_nil nofun .nothing
    | blockComment => exact .unclosed (by decide)
  | case2 position rest ih =>
    refine .prepend ['/', '/'] ih fun _ leaves => ?_
    cases leaves with
    | @lineComment comment _ _ oneLine stops more =>
      exact .blank (@IsGap.lineComment comment _ _ oneLine stops more)
  | case3 position rest ih =>
    refine .prepend ['/', '*'] ih fun _ leaves => ?_
    cases leaves with
    | @blockComment comment _ _ staysOpen more =>
      exact .blank (@IsGap.blockComment comment _ _ staysOpen more)
    | unclosed staysOpen => exact .blank (.unclosed staysOpen)
  | case4 position character rest _ _ blank ih =>
    refine .prepend [character] ih fun _ leaves => ?_
    have .blank isGap := leaves
    exact .blank (.blank (mem_blanks_of_isBlank blank) isGap)
  | case5 position character rest => exact ⟨[], rfl, rfl, .blank .nothing⟩
  | case6 position rest ih =>
    refine .prepend ['\n'] ih fun _ leaves => ?_
    have .blank isGap := leaves
    have lineFeed := @IsGap.blank '\n' _ _ (by decide) isGap
    exact @Gap.Leaves.lineComment [] _ _ List.not_mem_nil (by simp) lineFeed
  | case7 position character rest notLineFeed ih =>
    refine .prepend [character] ih fun _ leaves => ?_
    cases leaves with
    | @lineComment comment _ _ oneLine stops more =>
      refine @Gap.Leaves.lineComment (character :: comment) _ _ ?_ stops more
      exact List.not_mem_cons_of_ne_of_not_mem (Ne.symm notLineFeed) oneLine
  | case8 position rest ih =>
    refine .prepend ['*', '/'] ih fun _ leaves => ?_
    have .blank isGap := leaves
    exact @Gap.Leaves.blockComment [] _ _ (by decide) isGap
  | case9 position character rest notClosing ih =>
    refine .prepend [character] ih fun restEq leaves => ?_
    cases leaves with
    | @blockComment comment _ _ staysOpen more =>
      rw [List.append_assoc] at restEq
      exact @Gap.Leaves.blockComment (character :: comment) _ _
        (staysOpen_cons restEq staysOpen notClosing) more
    | unclosed staysOpen => exact .unclosed (staysOpen_cons restEq staysOpen notClosing)

theorem skipGap_isGap (position : Position) (characters : List Char) :
    ∃ gap, characters = gap ++ (skipGap .blank position characters).2 ∧
      (skipGap .blank position characters).1 = position.advance gap ∧
      IsGap gap (skipGap .blank position characters).2 := by
  obtain ⟨gap, charactersEq, placeEq, leaves⟩ := skipGap_skips .blank position characters
  have .blank isGap := leaves
  exact ⟨gap, charactersEq, placeEq, isGap⟩

end SlotCompiler
