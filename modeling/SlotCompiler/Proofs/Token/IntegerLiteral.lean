import SlotCompiler.Proofs.Token.Cursor

/-!
Contract: literals of digits have the value that they write.
-/

namespace SlotCompiler

variable {digits : List Char} {negative : Bool}

/-! ## Digits -/

def decimalValue (digits : List Char) : Nat :=
  Nat.ofDigits 10 (digits.reverse.map fun digit => digit.toNat - '0'.toNat)

theorem digitsValue_eq (digits : List Char) : digitsValue digits = decimalValue digits := by
  induction digits using List.reverseRecOn with
  | nil => rfl
  | append_singleton digits digit ih =>
    have foldEq : digitsValue (digits ++ [digit]) =
        digitsValue digits * 10 + (digit.toNat - '0'.toNat) := by
      simp [digitsValue]
    have valueEq : decimalValue (digits ++ [digit]) =
        (digit.toNat - '0'.toNat) + 10 * decimalValue digits := by
      simp [decimalValue, Nat.ofDigits_cons]
    rw [foldEq, valueEq, ih]
    omega

theorem isLetter_of_isDigit {character : Char} (isDigit : character.isDigit = true) :
    Token.isLetter character = false := by
  have value : 48 ≤ character.toNat ∧ character.toNat ≤ 57 := by
    simpa [Char.isDigit, UInt32.le_iff_toNat_le] using isDigit
  apply Bool.eq_false_iff.mpr
  intro isLetter
  simp only [Token.isLetter, Char.isAlpha, Char.isUpper, Char.isLower, Bool.or_eq_true,
    Bool.and_eq_true, decide_eq_true_eq, UInt32.le_iff_toNat_le, ge_iff_le, beq_iff_eq] at isLetter
  change (65 ≤ character.toNat ∧ character.toNat ≤ 90 ∨
    97 ≤ character.toNat ∧ character.toNat ≤ 122) ∨ character = '_' at isLetter
  rcases isLetter with (upper | lower) | rfl
  · omega
  · omega
  · contradiction

theorem numberContent_of_digits (decimal : ∀ digit ∈ digits, digit.isDigit = true)
    (nonempty : digits ≠ []) (negative : Bool) :
    numberContent negative digits = wholeNumber negative digits := by
  have noLetter : digits.any Token.isLetter = false := by
    rw [List.any_eq_false]
    intro digit member
    rw [isLetter_of_isDigit (decimal digit member)]
    exact Bool.false_ne_true
  have someDigit : digits.any Char.isDigit = true := by
    obtain ⟨first, member⟩ := List.exists_mem_of_ne_nil digits nonempty
    exact List.any_eq_true.mpr ⟨first, member, decimal first member⟩
  have noPoint : digits.count '.' = 0 := by
    rw [List.count_eq_zero]
    intro member
    exact absurd (decimal '.' member) (by decide)
  simp [numberContent, noLetter, someDigit, noPoint]

theorem numberScan_of_digits {rest : List Char} (decimal : ∀ digit ∈ digits, digit.isDigit = true)
    (nonempty : digits ≠ []) (sign : List Char)
    (ends : ∀ character ∈ rest.head?, isNumberPart character = false) :
    numberScan sign (digits ++ rest) =
      ⟨wholeNumber (!sign.isEmpty) digits, sign ++ digits, rest⟩ := by
  have body : (digits ++ rest).span isNumberPart = (digits, rest) :=
    span_append_of_head? (fun digit member => isNumberPart_of_isDigit (decimal digit member)) ends
  simp only [numberScan, body, numberContent_of_digits decimal nonempty]

/-! ## Literals -/

def literalSign (negative : Bool) : List Char := if negative then ['-'] else []

def literalValue (negative : Bool) (digits : List Char) : Int :=
  if negative then -(decimalValue digits : Int) else decimalValue digits

theorem nextScan?_literal {rest : List Char} {previous? : Option TokenKind}
    (decimal : ∀ digit ∈ digits, digit.isDigit = true) (nonempty : digits ≠ [])
    (ends : ∀ character ∈ rest.head?, isNumberPart character = false)
    (signs : negative = true → previous?.any TokenKind.closesOperand = false) :
    nextScan? previous? (literalSign negative ++ digits ++ rest) =
      some ⟨wholeNumber negative digits, literalSign negative ++ digits, rest⟩ := by
  obtain ⟨first, others, rfl⟩ := List.exists_cons_of_ne_nil nonempty
  have firstDigit : first.isDigit = true := decimal first List.mem_cons_self
  rw [nextScan?_eq_some_iff]
  cases negative with
  | false =>
    have scanned := numberScan_of_digits decimal nonempty [] ends
    have recognised : Recognises previous? (first :: (others ++ rest)) _ :=
      .number (isLetter_of_isDigit firstDigit) firstDigit
    rw [← List.cons_append, scanned] at recognised
    exact recognised
  | true =>
    have scanned := numberScan_of_digits decimal nonempty ['-'] ends
    have goesOn : startsNumber (first :: others ++ rest) = true := by
      simp [startsNumber, firstDigit]
    have recognised : Recognises previous? ('-' :: (first :: others ++ rest)) _ :=
      .negative (signs rfl) goesOn
    rw [scanned] at recognised
    exact recognised

def FitsInt64 (value : Int) : Prop := -0x8000000000000000 ≤ value ∧ value ≤ 0x7fffffffffffffff

theorem wholeNumber_of_fits (fits : FitsInt64 (literalValue negative digits)) :
    wholeNumber negative digits = .int (Int64.ofInt (literalValue negative digits)) := by
  obtain ⟨lower, upper⟩ := fits
  unfold literalValue at lower upper ⊢
  simp only [wholeNumber, digitsValue_eq]
  rw [if_pos ⟨lower, by omega⟩]

theorem toInt_ofInt_of_fits {value} (fits : FitsInt64 value) :
    (Int64.ofInt value).toInt = value := by
  obtain ⟨lower, upper⟩ := fits
  apply Int64.toInt_ofInt_of_le
  · exact lower
  · omega

theorem Binary64.ofDecimal_zero (negative : Bool) (value : Nat) :
    ofDecimal negative value 0 = ofRatio negative value 1 := by
  simp [ofDecimal]

theorem wholeNumber_of_not_fits (overflows : ¬ FitsInt64 (literalValue negative digits)) :
    wholeNumber negative digits = .float (Binary64.ofInt (literalValue negative digits)) := by
  unfold FitsInt64 literalValue at overflows
  unfold literalValue
  simp only [wholeNumber, digitsValue_eq]
  rw [if_neg (by omega), Binary64.ofDecimal_zero, Binary64.ofInt]
  cases negative with
  | false =>
    have notNegative : ¬ (decimalValue digits : Int) < 0 := by omega
    simp [notNegative]
  | true =>
    have positive : 0 < decimalValue digits := by
      by_contra zero
      apply overflows
      omega
    simp [positive]

/-! ## Tokens of a text -/

theorem append_inj_of_utf8Length_eq {first second front back}
    (whole : first ++ second = front ++ back) (same : utf8Length first = utf8Length front) :
    first = front ∧ second = back := by
  have noMore {more longer : List Char} (equal : utf8Length (longer ++ more) = utf8Length longer) :
      more = [] := by
    by_contra nonempty
    have positive := utf8Length_pos nonempty
    rw [utf8Length_append] at equal
    omega
  rcases List.append_eq_append_iff.mp whole with ⟨more, rfl, rfl⟩ | ⟨more, rfl, rfl⟩
  · obtain rfl := noMore same.symm
    simp
  · obtain rfl := noMore same
    simp

def lastKind? (previous? : Option TokenKind) (tokens : List Token) : Option TokenKind :=
  (tokens.getLast?.map Token.kind).or previous?

theorem lastKind?_cons (previous? : Option TokenKind) (token : Token) (rest : List Token) :
    lastKind? previous? (token :: rest) = lastKind? (some token.kind) rest := by
  unfold lastKind?
  rw [List.getLast?_cons]
  cases rest.getLast? <;> rfl

namespace TokenStream

theorem collect_scanned {fuel previous?} {before characters : List Char} {given}
    (enough : characters.length < fuel) :
    ∃ tokens, (collect fuel previous? (Position.start.advance before) characters given).tokens =
        given.toList ++ tokens ∧
      ∀ earlier token later, tokens = earlier ++ token :: later →
        ∃ front left scan, before ++ characters = front ++ left ∧
          nextScan? (lastKind? previous? earlier) left = some scan ∧
          token = ⟨scan.content, Position.start.advance front, String.ofList scan.text⟩ := by
  induction fuel generalizing previous? before characters given with
  | zero => contradiction
  | succ fuel ih =>
    obtain ⟨gap, charactersEq, placeEq, _⟩ :=
      skipGap_isGap (Position.start.advance before) characters
    rw [← Position.advance_append] at placeEq
    generalize skipEq : skipGap .blank (Position.start.advance before) characters = skipped
      at charactersEq placeEq
    obtain ⟨place, left⟩ := skipped
    cases found : nextScan? previous? left with
    | none =>
      refine ⟨[], ?_, ?_⟩
      · simp only [collect, skipEq, found, List.append_nil]
      · intro earlier token later split
        exact absurd split.symm (by simp)
    | some scan =>
      have whole := (nextScan?_splits found).1
      let first : Token := ⟨scan.content, place, String.ofList scan.text⟩
      have shorter := nextScan?_rest_lt (charactersEq ▸ enough) found
      obtain ⟨tokens, tokensEq, others⟩ := @ih (some first.kind)
        (before ++ gap ++ scan.text) scan.rest (given.push first) shorter
      refine ⟨first :: tokens, ?_, ?_⟩
      · rw [Position.advance_append, ← placeEq] at tokensEq
        simp only [collect, skipEq, found]
        rw [tokensEq, Array.toList_push, List.append_assoc, List.singleton_append]
      · intro earlier token later split
        cases earlier with
        | nil =>
          obtain ⟨rfl, _⟩ := List.cons.inj split
          refine ⟨before ++ gap, left, scan, ?_, found, ?_⟩
          · rw [charactersEq, List.append_assoc]
          · rw [← placeEq]
        | cons other rest =>
          obtain ⟨rfl, rfl⟩ := List.cons.inj split
          obtain ⟨front, remaining, scanned, frontEq, foundLater, tokenEq⟩ :=
            others rest token later rfl
          refine ⟨front, remaining, scanned, ?_, ?_, tokenEq⟩
          · rw [← frontEq, charactersEq, ← whole]
            simp
          · rw [lastKind?_cons]
            exact foundLater

theorem ofText_scanned {text earlier later token}
    (split : (ofText text).tokens = earlier ++ token :: later) :
    ∃ front left scan, text.toList = front ++ left ∧
      nextScan? (earlier.getLast?.map Token.kind) left = some scan ∧
      token = ⟨scan.content, Position.start.advance front, String.ofList scan.text⟩ := by
  obtain ⟨tokens, tokensEq, scanned⟩ :=
    @collect_scanned (text.toList.length + 1) none [] text.toList #[] (Nat.lt_succ_self _)
  rw [List.nil_append] at tokensEq
  have found := scanned earlier token later (tokensEq.symm.trans split)
  rw [lastKind?, Option.or_none] at found
  exact found

end TokenStream

/-! ## Literals in a text -/

private def leastDigits : List Char :=
  ['0', '0', '9', '2', '2', '3', '3', '7', '2', '0', '3', '6', '8', '5', '4', '7', '7', '5', '8',
    '0', '8']

end SlotCompiler
