import SlotCompiler.Proofs.Token.Tiling

/-!
Contract: a token is recognised by its own text.
-/

namespace SlotCompiler

variable {character : Char}

/-! ## What follows a token -/

def StartsBlank (characters : List Char) : Prop :=
  ∀ character ∈ characters.head?, isBlank character = true

theorem isBlank_of_mem_blanks (member : character ∈ [' ', '\t', '\r', '\n']) :
    isBlank character = true := by
  simp only [List.mem_cons, List.not_mem_nil, or_false] at member
  rcases member with rfl | rfl | rfl | rfl <;> rfl

theorem isNumberPart_of_isBlank (blank : isBlank character = true) :
    isNumberPart character = false := by
  have isOne := mem_blanks_of_isBlank blank
  simp only [List.mem_cons, List.not_mem_nil, or_false] at isOne
  rcases isOne with rfl | rfl | rfl | rfl <;> rfl

theorem isWordPart_of_isBlank (blank : isBlank character = true) : isWordPart character = false :=
  (Bool.or_eq_false_iff.mp (isNumberPart_of_isBlank blank)).1

theorem span_append_of_head? {accepts : Char → Bool} {taken rest : List Char}
    (accepted : ∀ character ∈ taken, accepts character = true)
    (refused : ∀ character ∈ rest.head?, accepts character = false) :
    (taken ++ rest).span accepts = (taken, rest) := by
  rw [List.span_eq_takeWhile_dropWhile, List.takeWhile_append_of_pos accepted,
    List.dropWhile_append_of_pos accepted]
  cases rest with
  | nil => simp
  | cons character others =>
    have isRefused := refused character rfl
    simp [isRefused]

namespace StartsBlank

variable {rest : List Char}

theorem span_append (blank : StartsBlank rest) {accepts : Char → Bool}
    (refuses : ∀ {character}, isBlank character = true → accepts character = false) {taken}
    (accepted : ∀ character ∈ taken, accepts character = true) :
    (taken ++ rest).span accepts = (taken, rest) :=
  span_append_of_head? accepted fun character isNext => refuses (blank character isNext)

theorem startsWithOneOf_eq_false (blank : StartsBlank rest) {choices : List Char}
    (proper : choices.any isBlank = false) : startsWithOneOf choices rest = false := by
  cases rest with
  | nil => rfl
  | cons character others =>
    apply Bool.eq_false_iff.mpr
    intro isChoice
    have isMember := List.contains_iff_mem.mp isChoice
    exact List.any_eq_false.mp proper character isMember (blank character rfl)

theorem startsNumber_eq_false (blank : StartsBlank rest) : startsNumber rest = false := by
  cases rest with
  | nil => rfl
  | cons character others =>
    have isRefused := isNumberPart_of_isBlank (blank character rfl)
    simp only [isNumberPart, isWordPart, Char.isAlphanum, Bool.or_eq_false_iff] at isRefused
    simp only [startsNumber, isRefused, Bool.or_false]

theorem prefix_of_prefix_append (blank : StartsBlank rest) {spelling text}
    (proper : ∀ character ∈ spelling, isBlank character = false)
    (starts : spelling <+: text ++ rest) : spelling <+: text := by
  induction text generalizing spelling with
  | nil =>
    cases spelling with
    | nil => exact List.nil_prefix
    | cons character others =>
      obtain ⟨after, whole⟩ := starts
      have isFirst : character ∈ rest.head? := by
        rw [show rest = character :: (others ++ after) from whole.symm]
        rfl
      have notBlank := proper character List.mem_cons_self
      rw [blank character isFirst] at notBlank
      contradiction
  | cons first text ih =>
    cases spelling with
    | nil => exact List.nil_prefix
    | cons character others =>
      rw [List.cons_append, List.cons_prefix_cons] at starts
      rw [List.cons_prefix_cons]
      refine ⟨starts.1, ih ?_ starts.2⟩
      exact fun other member => proper other (List.mem_cons_of_mem _ member)

end StartsBlank

/-! ## One token again -/

section Again

variable {rest : List Char}

variable {characters other : List Char}

theorem wordScan_again (characters : List Char) (blank : StartsBlank other) :
    wordScan ((wordScan characters).text ++ other) =
      { wordScan characters with rest := other } := by
  have textEq : (wordScan characters).text = characters.takeWhile isWordPart := by
    simp only [wordScan, List.span_eq_takeWhile_dropWhile]
  have spanEq := blank.span_append isWordPart_of_isBlank
    fun _ member => List.mem_takeWhile_imp (l := characters) member
  rw [textEq]
  simp only [wordScan, spanEq, List.span_eq_takeWhile_dropWhile]

theorem numberScan_again (sign characters : List Char) (blank : StartsBlank other) :
    numberScan sign (characters.takeWhile isNumberPart ++ other) =
      { numberScan sign characters with rest := other } := by
  have spanEq := blank.span_append isNumberPart_of_isBlank
    fun _ member => List.mem_takeWhile_imp (l := characters) member
  simp only [numberScan, spanEq, List.span_eq_takeWhile_dropWhile]

theorem stringContents_again {reversed contents}
    (closed : stringContents reversed characters = some (contents, rest)) (other : List Char) :
    ∃ more, contents = reversed.reverse ++ more ∧
      stringContents reversed (more ++ '\x22' :: other) = some (contents, other) := by
  fun_induction stringContents reversed characters with
  | case1 => contradiction
  | case2 reversed =>
    cases closed
    exact ⟨[], (List.append_nil _).symm, rfl⟩
  | case3 reversed character rest ih =>
    obtain ⟨more, contentsEq, again⟩ := ih closed
    exact ⟨'\\' :: character :: more, by simp [contentsEq], again⟩
  | case4 reversed character rest notQuote notEscape ih =>
    obtain ⟨more, contentsEq, again⟩ := ih closed
    -- A backslash here would be the last character, and the literal not closed.
    have notBackslash : character ≠ '\\' := by
      intro isBackslash
      cases rest with
      | nil => contradiction
      | cons next others => exact notEscape next others isBackslash rfl
    refine ⟨character :: more, by simp [contentsEq], ?_⟩
    rw [List.cons_append, stringContents]
    · exact again
    · exact notQuote
    · exact fun _ _ isBackslash _ => notBackslash isBackslash

theorem stringScan_again (valid : (stringScan characters).content.kind ≠ .invalid)
    (other : List Char) :
    ∃ more, (stringScan characters).text = '\x22' :: more ∧
      stringScan (more ++ other) = { stringScan characters with rest := other } := by
  unfold stringScan at valid ⊢
  cases closed : stringContents [] characters with
  | none =>
    simp only [closed] at valid
    contradiction
  | some found =>
    obtain ⟨contents, rest⟩ := found
    obtain ⟨more, contentsEq, again⟩ := stringContents_again closed other
    cases (show contents = more from contentsEq)
    refine ⟨contents ++ ['\x22'], rfl, ?_⟩
    rw [List.append_assoc, List.singleton_append]
    simp only [again]

theorem closeChar_of_valid {value text}
    (valid : (closeChar value text rest).content.kind ≠ .invalid) :
    ∃ after, closeChar value text rest = ⟨.char value, text ++ ['\x27'], after⟩ := by
  unfold closeChar at valid ⊢
  split at valid
  · rename_i after
    exact ⟨after, rfl⟩
  · contradiction

theorem charScan_cons (rest : List Char) (notEscape : character ≠ '\\')
    (notQuote : character ≠ '\x27') (notLineFeed : character ≠ '\n') :
    charScan (character :: rest) = closeChar character ['\x27', character] rest := by
  rw [charScan]
  · exact fun isEscape _ => notEscape isEscape
  · exact fun _ _ isEscape _ => notEscape isEscape
  · exact notQuote
  · exact notLineFeed

theorem charScan_again (valid : (charScan characters).content.kind ≠ .invalid) (other : List Char) :
    ∃ more, (charScan characters).text = '\x27' :: more ∧
      charScan (more ++ other) = { charScan characters with rest := other } := by
  fun_cases charScan characters with
  | case1 => contradiction
  | case2 => contradiction
  | case3 character rest =>
    obtain ⟨after, closed⟩ := closeChar_of_valid valid
    rw [closed]
    exact ⟨['\\', character, '\x27'], rfl, rfl⟩
  | case4 => contradiction
  | case5 => contradiction
  | case6 character rest notLast notEscaped notQuote notLineFeed =>
    have notEscape : character ≠ '\\' := by
      intro isEscape
      cases rest with
      | nil => exact notLast isEscape rfl
      | cons next others => exact notEscaped next others isEscape rfl
    rw [charScan_cons rest notEscape notQuote notLineFeed] at valid
    obtain ⟨after, closed⟩ := closeChar_of_valid valid
    rw [closed]
    refine ⟨[character, '\x27'], rfl, ?_⟩
    rw [List.cons_append, charScan_cons _ notEscape notQuote notLineFeed]
    rfl

theorem find?_marks_again {entry}
    (found : TokenKind.marks.find? (fun entry => entry.1.isPrefixOf characters) = some entry)
    (blank : StartsBlank other) :
    TokenKind.marks.find? (fun mark => mark.1.isPrefixOf (entry.1 ++ other)) = some entry := by
  have proper : ∀ mark ∈ TokenKind.marks, ∀ character ∈ mark.1, isBlank character = false := by
    have noBlanks : TokenKind.marks.all (fun mark => mark.1.all (!isBlank ·)) = true := by
      decide +kernel
    simpa only [List.all_eq_true, Bool.not_eq_true'] using noBlanks
  obtain ⟨starts, before, after, tableEq, notEarlier⟩ := List.find?_eq_some_iff_append.mp found
  refine List.find?_eq_some_iff_append.mpr ⟨?_, before, after, tableEq, ?_⟩
  · exact List.isPrefixOf_iff_prefix.mpr (List.prefix_append _ _)
  · intro mark isBefore
    have isMark : mark ∈ TokenKind.marks := tableEq ▸ List.mem_append_left _ isBefore
    have notStart := notEarlier mark isBefore
    rw [Bool.not_eq_true', ← Bool.not_eq_true, List.isPrefixOf_iff_prefix] at notStart ⊢
    intro startsAgain
    apply notStart
    exact (blank.prefix_of_prefix_append (proper mark isMark) startsAgain).trans
      (List.isPrefixOf_iff_prefix.mp starts)

theorem markScan_again (valid : (markScan character rest).content.kind ≠ .invalid) :
    ∃ more after, rest = more ++ after ∧ (markScan character rest).text = character :: more ∧
      (∃ kind, (character :: more, kind) ∈ TokenKind.marks) ∧
      ∀ {other}, StartsBlank other →
        markScan character (more ++ other) = { markScan character rest with rest := other } := by
  cases found : TokenKind.marks.find? fun entry => entry.1.isPrefixOf (character :: rest) with
  | none =>
    simp only [markScan, found] at valid
    contradiction
  | some entry =>
    obtain ⟨spelling, kind⟩ := entry
    have isMark := List.mem_of_find?_eq_some found
    have spelled : ∀ entry ∈ TokenKind.marks, entry.1 ≠ [] := by decide
    obtain ⟨first, more, rfl⟩ := List.exists_cons_of_ne_nil (spelled _ isMark)
    have starts := List.find?_some found
    obtain ⟨after, whole⟩ := List.isPrefixOf_iff_prefix.mp starts
    rw [List.cons_append] at whole
    obtain ⟨rfl, rfl⟩ := List.cons.inj whole
    have scanEq : markScan first (more ++ after) = ⟨.plain kind, first :: more, after⟩ := by
      simp [markScan, found]
    rw [scanEq]
    refine ⟨more, after, rfl, rfl, ⟨kind, isMark⟩, fun blank => ?_⟩
    have again := find?_marks_again found blank
    rw [List.cons_append] at again
    simp [markScan, again]

end Again

/-! ## The next token again -/

/-- Which scanner takes the next token of a text. -/
inductive Recognises (previous? : Option TokenKind) : List Char → Scan → Prop where
  | word {character rest} (starts : isWordStart character = true) :
      Recognises previous? (character :: rest) (wordScan (character :: rest))
  | number {character rest} (notWord : isWordStart character = false)
      (isDigit : character.isDigit = true) :
      Recognises previous? (character :: rest) (numberScan [] (character :: rest))
  | string {rest} : Recognises previous? ('\x22' :: rest) (stringScan rest)
  | char {rest} : Recognises previous? ('\x27' :: rest) (charScan rest)
  | ampersand {rest} (isAlone : startsWithOneOf ['&', '='] rest = false) :
      Recognises previous? ('&' :: rest)
        ⟨.plain (if previous?.any TokenKind.closesBitOperand then .bitAnd else .reference), ['&'],
          rest⟩
  | asterisk {rest} (isAlone : startsWithOneOf ['='] rest = false) :
      Recognises previous? ('*' :: rest)
        ⟨.plain (if previous?.any TokenKind.closesOperand then .multiply else .pointer), ['*'],
          rest⟩
  | hyphen {rest} (isAlone : startsWithOneOf ['=', '>'] rest = false)
      (isOperator : previous?.any TokenKind.closesOperand = true ∨ startsNumber rest = false) :
      Recognises previous? ('-' :: rest) ⟨.plain .subtract, ['-'], rest⟩
  | negative {rest} (noValue : previous?.any TokenKind.closesOperand = false)
      (isSign : startsNumber rest = true) :
      Recognises previous? ('-' :: rest) (numberScan ['-'] rest)
  | mark {character rest} (notWord : isWordStart character = false)
      (notDigit : character.isDigit = false) (notQuote : character ≠ '\x22')
      (notTick : character ≠ '\x27')
      (ampersand : character = '&' → startsWithOneOf ['&', '='] rest = true)
      (asterisk : character = '*' → startsWithOneOf ['='] rest = true)
      (hyphen : character = '-' → startsWithOneOf ['=', '>'] rest = true) :
      Recognises previous? (character :: rest) (markScan character rest)

theorem startsWithOneOf_of_startsNumber {rest} (isSign : startsNumber rest = true) :
    startsWithOneOf ['=', '>'] rest = false := by
  cases rest with
  | nil => rfl
  | cons character others =>
    apply Bool.eq_false_iff.mpr
    intro isMark
    simp only [startsWithOneOf, List.contains_iff_mem, List.mem_cons, List.not_mem_nil,
      or_false] at isMark
    rcases isMark with rfl | rfl <;> contradiction

theorem startsNumber_takeWhile {rest} (isSign : startsNumber rest = true)
    (other : List Char) : startsNumber (rest.takeWhile isNumberPart ++ other) = true := by
  cases rest with
  | nil => contradiction
  | cons character others =>
    have isPart : isNumberPart character = true := by
      simp only [startsNumber, Bool.or_eq_true] at isSign
      rcases isSign with isDigit | isPoint
      · exact isNumberPart_of_isDigit isDigit
      · simp [isNumberPart, isPoint]
    rw [List.takeWhile_cons_of_pos isPart]
    exact isSign

theorem nextScan?_eq_some_iff {previous? characters scan} :
    nextScan? previous? characters = some scan ↔ Recognises previous? characters scan := by
  constructor
  · intro found
    cases characters with
    | nil => contradiction
    | cons character rest =>
      obtain rfl := Option.some.inj found
      split
      · exact .word ‹_›
      rename_i notWord
      rw [Bool.not_eq_true] at notWord
      split
      · exact .number notWord ‹_›
      rename_i notDigit
      rw [Bool.not_eq_true] at notDigit
      split
      · rename_i isQuote
        exact isQuote ▸ .string
      split
      · rename_i isTick
        exact isTick ▸ .char
      split
      · rename_i isAlone
        obtain ⟨rfl, isAlone⟩ := isAlone
        exact .ampersand (by simpa using isAlone)
      split
      · rename_i isAlone
        obtain ⟨rfl, isAlone⟩ := isAlone
        exact .asterisk (by simpa using isAlone)
      split
      · rename_i isAlone
        obtain ⟨rfl, isAlone⟩ := isAlone
        split
        · rename_i isOperator
          exact .hyphen (by simpa using isAlone) (by simpa using isOperator)
        · rename_i isSign
          rw [Bool.not_eq_true, Bool.or_eq_false_iff] at isSign
          exact .negative isSign.1 (by simpa using isSign.2)
      · exact .mark notWord notDigit ‹_› ‹_› (by simp_all) (by simp_all) (by simp_all)
  · intro recognised
    cases recognised with
    | word starts => simp [nextScan?, starts]
    | number notWord isDigit => simp [nextScan?, notWord, isDigit]
    | string => rfl
    | char => rfl
    | ampersand isAlone =>
      have notWord : isWordStart '&' = false := rfl
      simp [nextScan?, notWord, isAlone]
    | asterisk isAlone =>
      have notWord : isWordStart '*' = false := rfl
      simp [nextScan?, notWord, isAlone]
    | hyphen isAlone isOperator =>
      have notWord : isWordStart '-' = false := rfl
      simp [nextScan?, notWord, isAlone, isOperator]
    | negative noValue isSign =>
      have notWord : isWordStart '-' = false := rfl
      simp [nextScan?, notWord, noValue, isSign, startsWithOneOf_of_startsNumber isSign]
    | @mark character rest notWord notDigit notQuote notTick ampersand asterisk hyphen =>
      have isLonger {first : Char} {choices : List Char}
          (follows : character = first → startsWithOneOf choices rest = true) :
          ¬ (character = first ∧ startsWithOneOf choices rest = false) := by
        rintro ⟨isFirst, isAlone⟩
        rw [follows isFirst] at isAlone
        contradiction
      simp [nextScan?, notWord, notDigit, notQuote, notTick, isLonger ampersand,
        isLonger asterisk, isLonger hyphen]

/-- A valid token is found again at the start of its own text, if a blank or the end
of the text follows. -/
theorem Recognises.again {previous? characters scan}
    (recognised : Recognises previous? characters scan) (valid : scan.content.kind ≠ .invalid)
    {other} (blank : StartsBlank other) :
    Recognises previous? (scan.text ++ other) { scan with rest := other } := by
  cases recognised with
  | @word character rest starts =>
    have isPart : isWordPart character = true := isWordPart_of_isWordStart starts
    have textEq : (wordScan (character :: rest)).text =
        character :: rest.takeWhile isWordPart := by
      simp [wordScan, List.span_eq_takeWhile_dropWhile, isPart]
    rw [← wordScan_again _ blank, textEq]
    exact .word starts
  | @number character rest notWord isDigit =>
    have isPart : isNumberPart character = true := isNumberPart_of_isDigit isDigit
    have textEq : (numberScan [] (character :: rest)).text =
        (character :: rest).takeWhile isNumberPart := by
      simp [numberScan, List.span_eq_takeWhile_dropWhile]
    rw [← numberScan_again [] _ blank, textEq, List.takeWhile_cons_of_pos isPart]
    exact .number notWord isDigit
  | string =>
    obtain ⟨more, textEq, again⟩ := stringScan_again valid other
    rw [← again, textEq]
    exact .string
  | char =>
    obtain ⟨more, textEq, again⟩ := charScan_again valid other
    rw [← again, textEq]
    exact .char
  | ampersand => exact .ampersand (blank.startsWithOneOf_eq_false rfl)
  | asterisk => exact .asterisk (blank.startsWithOneOf_eq_false rfl)
  | hyphen => exact .hyphen (blank.startsWithOneOf_eq_false rfl) (.inr blank.startsNumber_eq_false)
  | @negative rest noValue isSign =>
    have textEq : (numberScan ['-'] rest).text = '-' :: rest.takeWhile isNumberPart := by
      simp [numberScan, List.span_eq_takeWhile_dropWhile]
    rw [← numberScan_again ['-'] rest blank, textEq]
    exact .negative noValue (startsNumber_takeWhile isSign other)
  | @mark character rest notWord notDigit notQuote notTick ampersand asterisk hyphen =>
    obtain ⟨more, after, rfl, textEq, ⟨kind, isMark⟩, again⟩ := markScan_again valid
    rw [← again blank, textEq]
    have longerAgain {first : Char} {choices : List Char}
        (noMark : ∀ entry ∈ TokenKind.marks, entry.1 ≠ [first])
        (follows : character = first → startsWithOneOf choices (more ++ after) = true) :
        character = first → startsWithOneOf choices (more ++ other) = true := by
      rintro rfl
      rw [← follows rfl]
      cases more with
      | nil => exact absurd rfl (noMark _ isMark)
      | cons next others => rfl
    exact .mark notWord notDigit notQuote notTick (longerAgain (by decide) ampersand)
      (longerAgain (by decide) asterisk) (longerAgain (by decide) hyphen)

end SlotCompiler
