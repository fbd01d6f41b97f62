import SlotCompiler.Proofs.Source.Excerpt
import SlotCompiler.Proofs.Token.Gap
import SlotCompiler.Proofs.Token.Stream

/-!
Contract: the tokens of a text and the gaps between them make up the text.
-/

namespace SlotCompiler

variable {character : Char}

/-! ## One token -/

/-- A token takes characters from the front of a text, at least one. -/
structure Scan.Splits (scan : Scan) (characters : List Char) : Prop where
  whole : scan.text ++ scan.rest = characters
  nonempty : scan.text ≠ []

theorem span_append (accepts : Char → Bool) (characters : List Char) :
    (characters.span accepts).1 ++ (characters.span accepts).2 = characters := by
  rw [List.span_eq_takeWhile_dropWhile]
  exact List.takeWhile_append_dropWhile

theorem wordScan_splits (rest : List Char) (isPart : isWordPart character = true) :
    (wordScan (character :: rest)).Splits (character :: rest) where
  whole := span_append isWordPart (character :: rest)
  nonempty := by
    simp [wordScan, List.span_eq_takeWhile_dropWhile, isPart]

theorem numberScan_splits {sign characters : List Char}
    (starts : sign ≠ [] ∨ ∃ character ∈ characters.head?, isNumberPart character = true) :
    (numberScan sign characters).Splits (sign ++ characters) where
  whole := by
    apply (List.append_assoc _ _ _).trans
    exact congrArg (sign ++ ·) (span_append isNumberPart characters)
  nonempty := by
    rcases starts with signed | ⟨character, isFirst, isPart⟩
    · exact List.append_ne_nil_of_left_ne_nil signed _
    · obtain ⟨rest, rfl⟩ := List.head?_eq_some_iff.mp isFirst
      simp [numberScan, List.span_eq_takeWhile_dropWhile, isPart]

theorem stringContents_eq {reversed characters contents rest}
    (closed : stringContents reversed characters = some (contents, rest)) :
    contents ++ '\x22' :: rest = reversed.reverse ++ characters := by
  fun_induction stringContents reversed characters with
  | case1 => contradiction
  | case2 reversed rest =>
    cases closed
    rfl
  | case3 reversed character rest ih =>
    rw [ih closed]
    simp
  | case4 reversed character rest _ _ ih =>
    rw [ih closed]
    simp

theorem stringScan_splits (characters : List Char) :
    (stringScan characters).Splits ('\x22' :: characters) := by
  unfold stringScan
  split
  · rename_i contents rest closed
    refine ⟨?_, List.cons_ne_nil _ _⟩
    have contentsEq := stringContents_eq closed
    simpa using contentsEq
  · exact ⟨List.append_nil _, List.cons_ne_nil _ _⟩

theorem closeChar_splits (value : Char) {text} (rest : List Char)
    (nonempty : text ≠ []) : (closeChar value text rest).Splits (text ++ rest) := by
  unfold closeChar
  split
  · exact ⟨List.append_assoc _ _ _, List.append_ne_nil_of_left_ne_nil nonempty _⟩
  · exact ⟨rfl, nonempty⟩

theorem charScan_splits (characters : List Char) :
    (charScan characters).Splits ('\x27' :: characters) := by
  unfold charScan
  split
  · exact ⟨rfl, List.cons_ne_nil _ _⟩
  · exact ⟨rfl, List.cons_ne_nil _ _⟩
  · exact closeChar_splits _ _ (List.cons_ne_nil _ _)
  · exact ⟨rfl, List.cons_ne_nil _ _⟩
  · exact ⟨rfl, List.cons_ne_nil _ _⟩
  · exact closeChar_splits _ _ (List.cons_ne_nil _ _)

theorem markScan_splits (character : Char) (rest : List Char) :
    (markScan character rest).Splits (character :: rest) := by
  unfold markScan
  dsimp only
  split
  · rename_i spelling kind found
    have starts := List.find?_some found
    obtain ⟨others, whole⟩ := List.isPrefixOf_iff_prefix.mp starts
    have spelled : ∀ entry ∈ TokenKind.marks, entry.1 ≠ [] := by decide
    refine ⟨?_, spelled _ (List.mem_of_find?_eq_some found)⟩
    rw [← whole, List.drop_left]
  · exact ⟨rfl, List.cons_ne_nil _ _⟩

theorem isWordPart_of_isWordStart (starts : isWordStart character = true) :
    isWordPart character = true := by
  simp only [isWordStart, Bool.or_eq_true] at starts
  simp only [isWordPart, Char.isAlphanum, Bool.or_eq_true]
  tauto

theorem isNumberPart_of_isDigit (digit : character.isDigit = true) :
    isNumberPart character = true := by
  simp [isNumberPart, isWordPart, Char.isAlphanum, digit]

theorem nextScan?_splits {previous? characters scan}
    (found : nextScan? previous? characters = some scan) : scan.Splits characters := by
  unfold nextScan? at found
  split at found
  · contradiction
  rename_i character rest
  have single (content : Content) : (Scan.mk content [character] rest).Splits (character :: rest) :=
    ⟨rfl, List.cons_ne_nil _ _⟩
  cases found
  by_cases isWord : isWordStart character = true
  · rw [if_pos isWord]
    exact wordScan_splits rest (isWordPart_of_isWordStart isWord)
  rw [if_neg isWord]
  by_cases isDigit : character.isDigit = true
  · rw [if_pos isDigit]
    exact numberScan_splits (.inr ⟨character, rfl, isNumberPart_of_isDigit isDigit⟩)
  rw [if_neg isDigit]
  by_cases isQuote : character = '\x22'
  · rw [if_pos isQuote, isQuote]
    exact stringScan_splits rest
  rw [if_neg isQuote]
  by_cases isTick : character = '\x27'
  · rw [if_pos isTick, isTick]
    exact charScan_splits rest
  rw [if_neg isTick]
  split
  · exact single _
  split
  · exact single _
  split
  · split
    · exact single _
    · exact numberScan_splits (.inl (List.cons_ne_nil _ _))
  · exact markScan_splits character rest

theorem eq_nil_of_nextScan? {previous? characters}
    (ended : nextScan? previous? characters = none) : characters = [] := by
  unfold nextScan? at ended
  split at ended
  · rfl
  · contradiction

theorem nextScan?_rest_lt {previous? gap left scan fuel}
    (enough : (gap ++ left).length < fuel + 1) (found : nextScan? previous? left = some scan) :
    scan.rest.length < fuel := by
  obtain ⟨whole, nonempty⟩ := nextScan?_splits found
  have positive := List.length_pos_iff.mpr nonempty
  rw [← whole, List.length_append, List.length_append] at enough
  omega

/-! ## The stream -/

/-- After the characters `before` of a text, gaps and tokens take turns.  Every
token stands right after a gap, takes at least one character and knows its
place.  The last gap reaches the end of the text. -/
inductive Tiles : List Char → List Char → List Token → Position → Prop where
  | finish {before gap} (isGap : IsGap gap []) :
      Tiles before gap [] (Position.start.advance (before ++ gap))
  | token {before gap rest} {token : Token} {tokens finish}
      (isGap : IsGap gap (token.text.toList ++ rest)) (nonempty : token.text.toList ≠ [])
      (placed : token.position = Position.start.advance (before ++ gap))
      (following : Tiles (before ++ gap ++ token.text.toList) rest tokens finish) :
      Tiles before (gap ++ (token.text.toList ++ rest)) (token :: tokens) finish

namespace TokenStream

theorem collect_tiles {fuel previous?} {before characters : List Char} {given}
    (enough : characters.length < fuel) :
    let stream := collect fuel previous? (Position.start.advance before) characters given
    ∃ tokens, stream.tokens = given.toList ++ tokens ∧
      Tiles before characters tokens stream.finishPosition := by
  induction fuel generalizing previous? before characters given with
  | zero => contradiction
  | succ fuel ih =>
    intro stream
    obtain ⟨gap, charactersEq, placeEq, isGap⟩ :=
      skipGap_isGap (Position.start.advance before) characters
    rw [← Position.advance_append] at placeEq
    generalize skipEq : skipGap .blank (Position.start.advance before) characters = skipped
      at charactersEq placeEq isGap
    obtain ⟨place, left⟩ := skipped
    dsimp only at charactersEq placeEq isGap
    cases found : nextScan? previous? left with
    | none =>
      have streamEq : stream = ⟨given.toList, place⟩ := by
        simp only [stream, collect, skipEq, found]
      rw [streamEq, charactersEq, placeEq]
      rw [eq_nil_of_nextScan? found] at isGap ⊢
      rw [List.append_nil]
      exact ⟨[], (List.append_nil _).symm, .finish isGap⟩
    | some scan =>
      obtain ⟨whole, nonempty⟩ := nextScan?_splits found
      let token : Token := ⟨scan.content, place, String.ofList scan.text⟩
      have textEq : token.text.toList = scan.text := String.toList_ofList
      have streamEq : stream = collect fuel (some token.kind)
          (Position.start.advance (before ++ gap ++ scan.text)) scan.rest
          (given.push token) := by
        rw [Position.advance_append, ← placeEq]
        simp only [stream, collect, skipEq, found, token]
      have shorter := nextScan?_rest_lt (charactersEq ▸ enough) found
      obtain ⟨tokens, tokensEq, tiles⟩ := @ih (some token.kind)
        (before ++ gap ++ scan.text) scan.rest (given.push token) shorter
      rw [streamEq]
      rw [← whole] at charactersEq isGap
      rw [← textEq] at charactersEq isGap nonempty tiles tokensEq ⊢
      refine ⟨token :: tokens, ?_, charactersEq ▸ .token isGap nonempty placeEq tiles⟩
      rw [tokensEq, Array.toList_push, List.append_assoc, List.singleton_append]

theorem ofText_tiles (text : String) :
    Tiles [] text.toList (ofText text).tokens (ofText text).finishPosition := by
  obtain ⟨tokens, tokensEq, tiles⟩ :=
    @collect_tiles (text.toList.length + 1) none [] text.toList #[] (Nat.lt_succ_self _)
  rw [List.nil_append] at tokensEq
  rw [← tokensEq] at tiles
  exact tiles

end TokenStream

namespace Tiles

variable {before characters : List Char} {tokens : List Token} {finish : Position}

theorem finish_eq (tiles : Tiles before characters tokens finish) :
    finish = Position.start.advance (before ++ characters) := by
  induction tiles with
  | finish => rfl
  | token _ _ _ _ ih => simpa using ih

theorem size_pos (tiles : Tiles before characters tokens finish) {token}
    (member : token ∈ tokens) : 0 < token.size := by
  induction tiles with
  | finish => exact absurd member List.not_mem_nil
  | token _ nonempty _ _ ih =>
    rcases List.mem_cons.mp member with rfl | later
    · exact utf8Length_pos nonempty
    · exact ih later

end Tiles

/-! ## Places in the text -/

def Token.stop (token : Token) : Nat := token.position.index + token.size

/-- The byte index after the last of some tokens, or without any a given one. -/
def lastStop : Nat → List Token → Nat
  | start, [] => start
  | _, token :: rest => lastStop token.stop rest

/-- A token stands in a text where the bytes before `previous` belong to earlier
tokens and gaps. -/
structure Token.StandsIn (token : Token) (text : String) (previous : Nat) : Prop where
  /-- It starts at or after the end of what is before it. -/
  starts : previous ≤ token.position.index
  /-- It starts and ends between characters. -/
  startValid : (String.Pos.Raw.mk token.position.index).IsValid text
  stopValid : (String.Pos.Raw.mk token.stop).IsValid text
  /-- Its text is what the source has there. -/
  text_eq : token.text = (Span.mk token.position.index token.size).excerpt text
  /-- Its line and column are those after all characters before it. -/
  position_eq : token.position =
    Position.start.advance ((Span.mk 0 token.position.index).excerpt text).toList
  /-- Only blanks and comments stand between it and what is before it. -/
  gap : IsGap ((Span.mk previous (token.position.index - previous)).excerpt text).toList
    ((Span.mk token.position.index (text.utf8ByteSize - token.position.index)).excerpt
      text).toList

theorem standsIn_of_toList {token : Token} {text : String} {front gap rest}
    (textEq : text.toList = front ++ (gap ++ (token.text.toList ++ rest)))
    (isGap : IsGap gap (token.text.toList ++ rest))
    (placed : token.position = Position.start.advance (front ++ gap)) :
    token.StandsIn text (utf8Length front) := by
  have indexEq : token.position.index = utf8Length (front ++ gap) := by
    rw [placed, Position.index_advance_start]
  have stopEq : token.stop = utf8Length (front ++ gap ++ token.text.toList) := by
    rw [Token.stop, indexEq, Token.size, ← utf8Length_append]
  have leftEq : text.utf8ByteSize - utf8Length (front ++ gap) =
      utf8Length (token.text.toList ++ rest) := by
    rw [← utf8Length_toList, textEq]
    simp only [utf8Length_append]
    omega
  have gapSize : utf8Length (front ++ gap) - utf8Length front = utf8Length gap := by
    rw [utf8Length_append, Nat.add_sub_cancel_left]
  have gapEq := Span.excerpt_of_toList textEq
  have beforeEq := @Span.excerpt_of_toList text [] (front ++ gap) (token.text.toList ++ rest)
    (by simpa using textEq)
  rw [utf8Length_nil] at beforeEq
  have tokenEq := @Span.excerpt_of_toList text (front ++ gap) token.text.toList rest
    (by simpa using textEq)
  have afterEq := @Span.excerpt_of_toList text (front ++ gap) (token.text.toList ++ rest) []
    (by simpa using textEq)
  constructor
  · rw [indexEq, utf8Length_append]
    exact Nat.le_add_right _ _
  · rw [indexEq]
    exact isValid_of_toList (by simpa using textEq)
  · rw [stopEq]
    exact isValid_of_toList (by simpa using textEq)
  · rw [indexEq, Token.size, tokenEq, String.ofList_toList]
  · rw [indexEq, beforeEq, String.toList_ofList, placed]
  · rw [indexEq, leftEq, gapSize, gapEq, afterEq, String.toList_ofList, String.toList_ofList]
    exact isGap

theorem Tiles.standsIn {before characters tokens finish}
    (tiles : Tiles before characters tokens finish) {text : String}
    (textEq : text.toList = before ++ characters) {earlier later token}
    (split : tokens ++ [⟨.plain .endOfFile, finish, ""⟩] = earlier ++ token :: later) :
    token.StandsIn text (lastStop (utf8Length before) earlier) := by
  induction tiles generalizing earlier with
  | @finish before gap isGap =>
    cases earlier with
    | nil =>
      obtain ⟨rfl, _⟩ := List.cons.inj split
      exact @standsIn_of_toList _ text before gap [] (by simpa using textEq) isGap rfl
    | cons first others => simp at split
  | @token before gap rest first tokens finish isGap nonempty placed following
      ih =>
      cases earlier with
      | nil =>
        obtain ⟨rfl, _⟩ := List.cons.inj split
        exact standsIn_of_toList textEq isGap placed
      | cons other others =>
        obtain ⟨rfl, splitRest⟩ := List.cons.inj split
        have stopEq : first.stop = utf8Length (before ++ gap ++ first.text.toList) := by
          rw [utf8Length_append, ← Position.index_advance_start, ← placed]
          rfl
        rw [lastStop, stopEq]
        exact ih (by simpa using textEq) splitRest

/-! ## Iteration -/

namespace TokenCursor

variable {cursor : TokenCursor}

/-- The tokens that so many rounds of an iteration yield. -/
def yielded : Nat → TokenCursor → List Token
  | 0, _ => []
  | rounds + 1, cursor =>
    match cursor.iterate with
    | (none, _) => []
    | (some token, cursor) => token :: cursor.yielded rounds

theorem yielded_of_finished (finished : cursor.finished = true) (rounds : Nat) :
    cursor.yielded rounds = [] := by
  cases rounds with
  | zero => rfl
  | succ rounds => simp [yielded, iterate, finished]

theorem yielded_eq (isOpen : cursor.finished = false)
    (proper : ∀ token ∈ cursor.pending, token.kind ≠ .endOfFile) (rounds : Nat) :
    cursor.yielded rounds = (cursor.pending ++ [cursor.stream.finish]).take rounds := by
  induction rounds generalizing cursor with
  | zero => rfl
  | succ rounds ih =>
    obtain ⟨name, stream, pending, consumed, inspected, finished⟩ := cursor
    cases isOpen
    cases pending with
    | nil =>
      apply congrArg (stream.finish :: ·)
      exact (yielded_of_finished rfl rounds).trans List.take_nil.symm
    | cons token rest =>
      have isProper : (token.kind == .endOfFile) = false :=
        beq_eq_false_iff_ne.mpr (proper token List.mem_cons_self)
      apply congrArg (token :: ·)
      apply ih
      · exact isProper
      · exact fun later member => proper later (List.mem_cons_of_mem _ member)

end TokenCursor

end SlotCompiler
