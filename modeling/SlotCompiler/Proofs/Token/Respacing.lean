import SlotCompiler.Proofs.Token.Recognition

/-!
Contract: which blanks stand between tokens does not matter.
-/

namespace SlotCompiler

variable {characters lead : List Char}

/-! ## Gaps -/

/-- A text that starts with no gap: with no blank and no comment. -/
structure StartsToken (characters : List Char) : Prop where
  notBlank : ∀ character ∈ characters.head?, isBlank character = false
  notLineComment : ¬ ['/', '/'] <+: characters
  notBlockComment : ¬ ['/', '*'] <+: characters

theorem startsToken_nil : StartsToken [] := ⟨nofun, by simp, by simp⟩

theorem skipGap_startsToken (gap : Gap) (position : Position) (characters : List Char) :
    StartsToken (skipGap gap position characters).2 := by
  fun_induction skipGap gap position characters with
  | case1 => exact startsToken_nil
  | case5 position character rest notLine notBlock notBlank =>
    refine ⟨?_, ?_, ?_⟩
    · rintro _ ⟨⟩
      exact Bool.eq_false_iff.mpr notBlank
    · rintro ⟨after, whole⟩
      obtain ⟨isSlash, isRest⟩ := List.cons.inj whole
      exact notLine after isSlash.symm isRest.symm
    · rintro ⟨after, whole⟩
      obtain ⟨isSlash, isRest⟩ := List.cons.inj whole
      exact notBlock after isSlash.symm isRest.symm
  | _ => assumption

theorem skipGap_cons {character rest} (notLineComment : ¬ ['/', '/'] <+: character :: rest)
    (notBlockComment : ¬ ['/', '*'] <+: character :: rest) (position : Position) :
    skipGap .blank position (character :: rest) =
      if isBlank character then skipGap .blank (position.step character) rest
      else (position, character :: rest) := by
  rw [skipGap]
  · rintro after rfl rfl
    exact notLineComment (List.prefix_append ['/', '/'] after)
  · rintro after rfl rfl
    exact notBlockComment (List.prefix_append ['/', '*'] after)

theorem StartsToken.skipGap_eq (starts : StartsToken characters) (position : Position) :
    skipGap .blank position characters = (position, characters) := by
  cases characters with
  | nil => rfl
  | cons character rest =>
    rw [skipGap_cons starts.notLineComment starts.notBlockComment,
      starts.notBlank character rfl, if_neg Bool.false_ne_true]

theorem StartsToken.append {text rest other} (starts : StartsToken (text ++ rest))
    (nonempty : text ≠ []) (blank : StartsBlank other) : StartsToken (text ++ other) := by
  have sameHead : (text ++ other).head? = (text ++ rest).head? := by
    rw [List.head?_append_of_ne_nil _ nonempty, List.head?_append_of_ne_nil _ nonempty]
  refine ⟨sameHead ▸ starts.notBlank, fun isComment => ?_, fun isComment => ?_⟩
  · have inText := blank.prefix_of_prefix_append (by simp [isBlank]) isComment
    exact starts.notLineComment (inText.trans (List.prefix_append _ _))
  · have inText := blank.prefix_of_prefix_append (by simp [isBlank]) isComment
    exact starts.notBlockComment (inText.trans (List.prefix_append _ _))

theorem skipGap_append_blanks (blank : ∀ character ∈ lead, isBlank character = true)
    (position : Position) (characters : List Char) :
    skipGap .blank position (lead ++ characters) =
      skipGap .blank (position.advance lead) characters := by
  induction lead generalizing position with
  | nil => rfl
  | cons character rest ih =>
    rw [List.forall_mem_cons] at blank
    have notSlash : character ≠ '/' := by
      rintro rfl
      exact absurd blank.1 (by decide)
    have notComment {next : Char} : ¬ ['/', next] <+: character :: (rest ++ characters) :=
      fun isComment => notSlash (List.cons_prefix_cons.mp isComment).1.symm
    rw [List.cons_append, skipGap_cons notComment notComment, if_pos blank.1, ih blank.2]
    rfl

theorem skipGap_rest_eq (gap : Gap) (position other : Position) (characters : List Char) :
    (skipGap gap position characters).2 = (skipGap gap other characters).2 := by
  fun_induction skipGap gap position characters generalizing other with
  | case1 gap => cases gap <;> rfl
  | case2 _ _ ih => exact ih _
  | case3 _ _ ih => exact ih _
  | case4 _ _ _ notLine notBlock blank ih =>
    rw [skipGap, if_pos blank]
    · exact ih _
    · exact notLine
    · exact notBlock
  | case5 _ _ _ notLine notBlock notBlank =>
    rw [skipGap, if_neg notBlank]
    · exact notLine
    · exact notBlock
  | case6 _ _ ih => exact ih _
  | case7 _ _ _ notLineFeed ih =>
    rw [skipGap, if_neg notLineFeed]
    exact ih _
  | case8 _ _ ih => exact ih _
  | case9 _ _ _ notClosing ih =>
    rw [skipGap]
    · exact ih _
    · exact notClosing

/-! ## The tokens of a text -/

def afterGap (characters : List Char) : List Char := (skipGap .blank .start characters).2

theorem StartsToken.afterGap_append {text} (starts : StartsToken text)
    (blank : ∀ character ∈ lead, isBlank character = true) : afterGap (lead ++ text) = text := by
  rw [afterGap, skipGap_append_blanks blank, starts.skipGap_eq]

/-- The tokens of a text that follows a token of the kind given, without their
places. -/
inductive Tokenises : Option TokenKind → List Char → List (Content × List Char) → Prop where
  | finish {previous? characters} (ended : nextScan? previous? (afterGap characters) = none) :
      Tokenises previous? characters []
  | token {previous? characters scan others}
      (found : nextScan? previous? (afterGap characters) = some scan)
      (following : Tokenises (some scan.content.kind) scan.rest others) :
      Tokenises previous? characters ((scan.content, scan.text) :: others)

theorem Tokenises.unique {previous? first second} (tokenises : Tokenises previous? characters first)
    (other : Tokenises previous? characters second) : first = second := by
  induction tokenises generalizing second with
  | finish ended =>
    cases other with
    | finish => rfl
    | token found =>
      rw [ended] at found
      contradiction
  | token found _ ih =>
    cases other with
    | finish ended =>
      rw [found] at ended
      contradiction
    | token foundAgain following =>
      rw [found] at foundAgain
      cases foundAgain
      rw [ih following]

def Token.lexeme (token : Token) : Content × List Char := (token.content, token.text.toList)

namespace TokenStream

theorem collect_tokenises {fuel previous? position} {characters : List Char} {given}
    (enough : characters.length < fuel) :
    ∃ tokens, (collect fuel previous? position characters given).tokens = given.toList ++ tokens ∧
      Tokenises previous? characters (tokens.map Token.lexeme) := by
  induction fuel generalizing previous? position characters given with
  | zero => contradiction
  | succ fuel ih =>
    obtain ⟨gap, charactersEq, _, _⟩ := skipGap_isGap position characters
    have leftEq : (skipGap .blank position characters).2 = afterGap characters :=
      skipGap_rest_eq .blank position .start characters
    rw [leftEq] at charactersEq
    cases found : nextScan? previous? (afterGap characters) with
    | none =>
      refine ⟨[], ?_, .finish found⟩
      simp only [collect, leftEq, found, List.append_nil]
    | some scan =>
      let token : Token :=
        ⟨scan.content, (skipGap .blank position characters).1, String.ofList scan.text⟩
      have lexemeEq : token.lexeme = (scan.content, scan.text) :=
        congrArg (scan.content, ·) String.toList_ofList
      have shorter := nextScan?_rest_lt (charactersEq ▸ enough) found
      obtain ⟨tokens, tokensEq, following⟩ := @ih (some token.kind)
        ((skipGap .blank position characters).1.advance scan.text) scan.rest
        (given.push token) shorter
      refine ⟨token :: tokens, ?_, ?_⟩
      · simp only [collect, leftEq, found]
        rw [tokensEq, Array.toList_push, List.append_assoc, List.singleton_append]
      · rw [List.map_cons, lexemeEq]
        exact .token found following

theorem ofText_tokenises (text : String) :
    Tokenises none text.toList ((ofText text).tokens.map Token.lexeme) := by
  obtain ⟨tokens, tokensEq, tokenises⟩ :=
    @collect_tokenises (text.toList.length + 1) none .start text.toList #[] (Nat.lt_succ_self _)
  rw [List.nil_append] at tokensEq
  rw [← tokensEq] at tokenises
  exact tokenises

end TokenStream

/-! ## Other blanks -/

/-- Blanks that can stand after the tokens of a text, one after each: between two
tokens there is at least one character. -/
structure Separates (gaps : List (List Char)) : Prop where
  blank : ∀ gap ∈ gaps, ∀ character ∈ gap, isBlank character = true
  nonempty : ∀ gap ∈ gaps.dropLast, gap ≠ []

def spaced (lexemes : List (Content × List Char)) (gaps : List (List Char)) : List Char :=
  (List.zipWith (fun lexeme gap => lexeme.2 ++ gap) lexemes gaps).flatten

section Separates

variable {gap : List Char} {gaps : List (List Char)}

theorem Separates.tail (separates : Separates (gap :: gaps)) : Separates gaps where
  blank := (List.forall_mem_cons.mp separates.blank).2
  nonempty := by
    intro other member
    apply separates.nonempty
    cases gaps with
    | nil => exact absurd member List.not_mem_nil
    | cons => exact List.mem_cons_of_mem _ member

theorem Separates.startsBlank (separates : Separates (gap :: gaps))
    (lexemes : List (Content × List Char)) : StartsBlank (gap ++ spaced lexemes gaps) := by
  have isBlank := (List.forall_mem_cons.mp separates.blank).1
  cases gap with
  | nil =>
    cases gaps with
    | nil =>
      rw [spaced, List.zipWith_nil_right]
      exact nofun
    | cons => exact absurd rfl (separates.nonempty [] List.mem_cons_self)
  | cons character rest =>
    rintro _ ⟨⟩
    exact isBlank character List.mem_cons_self

theorem separates_of_blanks {gaps : List String}
    (blank : ∀ gap ∈ gaps, ∀ character ∈ gap.toList, character ∈ [' ', '\t', '\r', '\n'])
    (apart : ∀ gap ∈ gaps.dropLast, gap ≠ "") : Separates (gaps.map String.toList) where
  blank := by
    intro characters member character isIn
    obtain ⟨gap, inGaps, rfl⟩ := List.mem_map.mp member
    exact isBlank_of_mem_blanks (blank gap inGaps character isIn)
  nonempty := by
    intro characters member
    rw [← List.map_dropLast] at member
    obtain ⟨gap, inGaps, rfl⟩ := List.mem_map.mp member
    simpa using apart gap inGaps

theorem toList_join_spaced (tokens : List Token) (gaps : List String) :
    (String.join (List.zipWith (fun token gap => token.text ++ gap) tokens gaps)).toList =
      spaced (tokens.map Token.lexeme) (gaps.map String.toList) := by
  rw [String.toList_join, spaced, List.zipWith_map, List.flatMap_def, List.map_zipWith]
  simp only [String.toList_append, Token.lexeme]

end Separates

theorem Tokenises.respaced {previous? lexemes} (tokenises : Tokenises previous? characters lexemes)
    (valid : ∀ lexeme ∈ lexemes, lexeme.1.kind ≠ .invalid) {gaps}
    (blank : ∀ character ∈ lead, isBlank character = true) (separates : Separates gaps)
    (count : gaps.length = lexemes.length) :
    Tokenises previous? (lead ++ spaced lexemes gaps) lexemes := by
  induction tokenises generalizing lead gaps with
  | finish =>
    apply Tokenises.finish
    rw [spaced, List.zipWith_nil_left, List.flatten_nil, startsToken_nil.afterGap_append blank]
    rfl
  | @token _ characters scan others found following ih =>
    obtain ⟨gap, gaps, rfl⟩ := List.exists_cons_of_length_eq_add_one count
    rw [List.forall_mem_cons] at valid
    have spacedEq : spaced ((scan.content, scan.text) :: others) (gap :: gaps) =
        scan.text ++ (gap ++ spaced others gaps) := by
      simp [spaced]
    have startsBlank := separates.startsBlank others
    obtain ⟨whole, nonempty⟩ := nextScan?_splits found
    have starts : StartsToken (scan.text ++ scan.rest) :=
      whole ▸ skipGap_startsToken .blank .start characters
    have again := (nextScan?_eq_some_iff.mp found).again valid.1 startsBlank
    rw [← nextScan?_eq_some_iff, ← (starts.append nonempty startsBlank).afterGap_append blank]
      at again
    have gapBlank := (List.forall_mem_cons.mp separates.blank).1
    have step := Tokenises.token again (ih valid.2 gapBlank separates.tail (Nat.succ.inj count))
    rw [spacedEq]
    exact step

theorem Token.report?_eq_none {token : Token} (valid : token.kind ≠ .invalid) :
    token.report? = none := by
  unfold Token.report?
  split
  · rename_i fault isInvalid
    exact absurd (congrArg Content.kind isInvalid) valid
  · rfl

theorem TokenCursor.reports_eq_nil (cursor : TokenCursor)
    (valid : ∀ token ∈ cursor.stream.tokens, token.kind ≠ .invalid) : cursor.reports = [] := by
  apply List.filterMap_eq_nil_iff.mpr
  intro token member
  apply Token.report?_eq_none
  rcases List.mem_append.mp member with inTokens | isFinish
  · exact valid token (List.mem_of_mem_take inTokens)
  · rw [List.eq_of_mem_replicate isFinish]
    exact nofun

/-- Which blanks stand around tokens does not matter.  The texts of the tokens of a
source without invalid tokens, with at least one blank after each but the last, are
cut into the same tokens again, and nothing is reported. -/
theorem ofText_respaced {text lead : String} {gaps : List String}
    (valid : ∀ token ∈ (TokenStream.ofText text).tokens, token.kind ≠ .invalid)
    (blank : ∀ gap ∈ lead :: gaps, ∀ character ∈ gap.toList, character ∈ [' ', '\t', '\r', '\n'])
    (apart : ∀ gap ∈ gaps.dropLast, gap ≠ "")
    (count : gaps.length = (TokenStream.ofText text).tokens.length) :
    let tokens := (TokenStream.ofText text).tokens
    let respaced := TokenStream.ofText
      (lead ++ String.join (List.zipWith (fun token gap => token.text ++ gap) tokens gaps))
    respaced.tokens.map Token.content = tokens.map Token.content ∧
      respaced.tokens.map Token.text = tokens.map Token.text ∧
      ∀ cursor : TokenCursor, cursor.stream = respaced → cursor.reports = [] := by
  intro tokens respaced
  have lexemesValid : ∀ lexeme ∈ tokens.map Token.lexeme, lexeme.1.kind ≠ .invalid := by
    intro lexeme member
    obtain ⟨token, inTokens, rfl⟩ := List.mem_map.mp member
    exact valid token inTokens
  rw [List.forall_mem_cons] at blank
  have tokenises := (TokenStream.ofText_tokenises text).respaced lexemesValid
    (fun character member => isBlank_of_mem_blanks (blank.1 character member))
    (separates_of_blanks blank.2 apart) (by rw [List.length_map, List.length_map, count])
  rw [← toList_join_spaced, ← String.toList_append] at tokenises
  have same : respaced.tokens.map Token.lexeme = tokens.map Token.lexeme :=
    (TokenStream.ofText_tokenises _).unique tokenises
  have sameContents := congrArg (List.map Prod.fst) same
  have sameTexts := congrArg (List.map fun lexeme => String.ofList lexeme.2) same
  simp only [List.map_map, Function.comp_def, Token.lexeme, String.ofList_toList]
    at sameContents sameTexts
  refine ⟨sameContents, sameTexts, ?_⟩
  intro cursor streamEq
  have validAgain := kind_ne_of_contents_eq sameContents.symm valid
  exact cursor.reports_eq_nil (streamEq ▸ validAgain)

/-- Signs, points, marks that start like others, and blanks inside a literal. -/
def denseSigns : String := "x-1*-.5&&=\"a b\"/'c'"

/-- Blanks for the ten tokens of that text. -/
def signGaps : List String := ["\n", " ", "\t", " ", "\r\n", " ", "  ", " ", "\n", ""]

theorem ofText_respaced_signs :
    (∀ token ∈ (TokenStream.ofText denseSigns).tokens, token.kind ≠ .invalid) ∧
    (∀ gap ∈ " " :: signGaps, ∀ character ∈ gap.toList, character ∈ [' ', '\t', '\r', '\n']) ∧
    (∀ gap ∈ signGaps.dropLast, gap ≠ "") ∧
    signGaps.length = (TokenStream.ofText denseSigns).tokens.length ∧
    (TokenStream.ofText " x\n- 1\t* -.5\r\n&& =  \"a b\" /\n'c'").tokens.map Token.content =
      (TokenStream.ofText denseSigns).tokens.map Token.content := by
  have valid : ∀ token ∈ (TokenStream.ofText denseSigns).tokens, token.kind ≠ .invalid := by
    decide +kernel
  have blank : ∀ gap ∈ " " :: signGaps,
      ∀ character ∈ gap.toList, character ∈ [' ', '\t', '\r', '\n'] := by
    have allBlank : (" " :: signGaps).all (·.toList.all isBlank) = true := by decide +kernel
    intro gap isGap character isIn
    exact mem_blanks_of_isBlank
      (List.all_eq_true.mp (List.all_eq_true.mp allBlank gap isGap) character isIn)
  have apart : ∀ gap ∈ signGaps.dropLast, gap ≠ "" := by decide
  have count : signGaps.length = (TokenStream.ofText denseSigns).tokens.length := by
    decide +kernel
  have textEq : " " ++ String.join (List.zipWith (fun token gap => token.text ++ gap)
      (TokenStream.ofText denseSigns).tokens signGaps) =
      " x\n- 1\t* -.5\r\n&& =  \"a b\" /\n'c'" := by
    decide +kernel
  have respaced := (ofText_respaced valid blank apart count).1
  rw [textEq] at respaced
  exact ⟨valid, blank, apart, count, respaced⟩

end SlotCompiler
