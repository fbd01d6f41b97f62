import SlotCompiler.Parse.Expression
import SlotCompiler.Proofs.Token.IntegerLiteral

/-!
Contract: string literals and the texts that they stand for.
-/

namespace SlotCompiler

open BodyParser (decodeEscapes)

/-! ## Writing -/

def controlLetters : List (Char × Char) :=
  [('\n', 'n'), ('\t', 't'), ('\r', 'r'), (Char.ofNat 0, '0')]

/-- A text and a way to write it between quotes.  Backslashes and quotes have a
backslash before them; a control character can be written with its letter. -/
inductive Escapes : List Char → List Char → Prop where
  | nil : Escapes [] []
  | plain {character text raw} (notQuote : character ≠ '\x22') (notBackslash : character ≠ '\\')
      (rest : Escapes text raw) : Escapes (character :: text) (character :: raw)
  | mark {character text raw} (isMark : character ∈ ['\x22', '\\']) (rest : Escapes text raw) :
      Escapes (character :: text) ('\\' :: character :: raw)
  | control {character letter text raw} (isControl : (character, letter) ∈ controlLetters)
      (rest : Escapes text raw) : Escapes (character :: text) ('\\' :: letter :: raw)

/-- Contents in which every backslash is paired with the character after it, and the
text that they stand for. -/
inductive Spells : List Char → List Char → Prop where
  | nil : Spells [] []
  | plain {character text raw} (notQuote : character ≠ '\x22') (notBackslash : character ≠ '\\')
      (rest : Spells text raw) : Spells (character :: text) (character :: raw)
  | escape (character : Char) {text raw} (rest : Spells text raw) :
      Spells (escapedChar character :: text) ('\\' :: character :: raw)

theorem Escapes.spells {text raw} (escapes : Escapes text raw) : Spells text raw := by
  induction escapes with
  | nil => exact .nil
  | plain notQuote notBackslash _ ih => exact .plain notQuote notBackslash ih
  | @mark character _ _ isMark _ ih =>
    have isItself : ∀ mark ∈ ['\x22', '\\'], escapedChar mark = mark := by simp [escapedChar]
    have spelled := Spells.escape character ih
    rwa [isItself character isMark] at spelled
  | @control character letter _ _ isControl _ ih =>
    have isMeant : ∀ entry ∈ controlLetters, escapedChar entry.2 = entry.1 := by decide
    have spelled := Spells.escape letter ih
    rwa [isMeant (character, letter) isControl] at spelled

namespace Spells

variable {text raw : List Char}

theorem decodeEscapes_eq (spells : Spells text raw) : decodeEscapes raw = text := by
  induction spells with
  | nil => rfl
  | plain _ notBackslash _ ih => simp [decodeEscapes, notBackslash, ih]
  | escape character _ ih => exact congrArg (escapedChar character :: ·) ih

theorem stringContents_eq_some (spells : Spells text raw) (reversed rest : List Char) :
    stringContents reversed (raw ++ '\x22' :: rest) = some (reversed.reverse ++ raw, rest) := by
  induction spells generalizing reversed with
  | nil => simp [stringContents]
  | plain _ notBackslash _ ih => simp [stringContents, notBackslash, ih]
  | escape _ _ ih => simp [stringContents, ih]

end Spells

theorem exists_spells {reversed characters contents rest}
    (closed : stringContents reversed characters = some (contents, rest)) :
    ∃ text raw, Spells text raw ∧ contents = reversed.reverse ++ raw ∧
      characters = raw ++ '\x22' :: rest := by
  fun_induction stringContents reversed characters with
  | case1 => contradiction
  | case2 reversed rest =>
    cases closed
    exact ⟨[], [], .nil, (List.append_nil _).symm, rfl⟩
  | case3 reversed character rest ih =>
    obtain ⟨text, raw, spells, rfl, rfl⟩ := ih closed
    exact ⟨_, _, .escape character spells, by simp, rfl⟩
  | case4 reversed character others notQuote notEscape ih =>
    obtain ⟨text, raw, spells, rfl, rfl⟩ := ih closed
    have notBackslash : character ≠ '\\' := by
      rintro rfl
      cases raw with
      | nil => exact notEscape _ _ rfl rfl
      | cons => exact notEscape _ _ rfl rfl
    exact ⟨_, _, .plain notQuote notBackslash spells, by simp, rfl⟩

def Content.isText : Content → Bool
  | .string _ | .identifier _ => true
  | _ => false

theorem numberContent_isText (negative : Bool) (body : List Char) :
    (numberContent negative body).isText = false := by
  unfold numberContent
  split
  · rfl
  split
  · rfl
  split
  · by_cases fits : FitsInt64 (literalValue negative body)
    · rw [wholeNumber_of_fits fits]
      rfl
    · rw [wholeNumber_of_not_fits fits]
      rfl
  · rfl
  · rfl

theorem nextScan?_text {previous? characters scan}
    (found : nextScan? previous? characters = some scan) (isText : scan.content.isText = true) :
    scan = wordScan characters ∨ ∃ rest, characters = '\x22' :: rest ∧ scan = stringScan rest := by
  cases nextScan?_eq_some_iff.mp found with
  | word => exact .inl rfl
  | string => exact .inr ⟨_, rfl, rfl⟩
  | number | negative =>
    rw [numberScan, numberContent_isText] at isText
    contradiction
  | char =>
    unfold charScan closeChar at isText
    repeat' split at isText
    all_goals contradiction
  | mark =>
    unfold markScan at isText
    dsimp only at isText
    split at isText <;> contradiction
  | ampersand | asterisk | hyphen => contradiction

theorem nextScan?_string {previous? characters scan contents}
    (found : nextScan? previous? characters = some scan)
    (isString : scan.content = .string contents) :
    ∃ text rest, Spells text contents.toList ∧
      characters = '\x22' :: (contents.toList ++ '\x22' :: rest) := by
  rcases nextScan?_text found (by rw [isString]; rfl) with rfl | ⟨rest, rfl, rfl⟩
  · unfold wordScan wordContent at isString
    dsimp only at isString
    split at isString <;> contradiction
  · unfold stringScan at isString
    split at isString
    · rename_i raw rest closed
      obtain ⟨text, _, spells, rfl, rfl⟩ := exists_spells closed
      cases isString
      refine ⟨text, rest, ?_, ?_⟩
      · simpa using spells
      · simp
    · contradiction

/-! ## Bytes -/

def IsOrdinary (byte : UInt8) : Prop := byte ≠ 0x22 ∧ byte ≠ 0x5C

theorem isOrdinary_of_mem {character} (notQuote : character ≠ '\x22')
    (notBackslash : character ≠ '\\') :
    ∀ byte ∈ String.utf8EncodeChar character, IsOrdinary byte := by
  intro byte member
  constructor
  · rintro rfl
    exact notQuote (@eq_of_mem_utf8EncodeChar _ '\x22' (by decide) member)
  · rintro rfl
    exact notBackslash (@eq_of_mem_utf8EncodeChar _ '\\' (by decide) member)

theorem isOrdinary_of_mem_tail (character : Char) :
    ∀ byte ∈ (String.utf8EncodeChar character).tail, IsOrdinary byte := by
  rcases utf8EncodeChar_low_or_high character with ⟨bytesEq, _⟩ | isHigh
  · simp [bytesEq]
  · intro byte member
    have high := isHigh byte (List.mem_of_mem_tail member)
    constructor <;> rintro rfl <;> exact absurd high (by decide)

/-! ## Escapes -/

/-- The places of the backslashes that a scan of bytes takes as escapes, each with the
byte after it, up to the first quote that is not taken so, and the place of that quote. -/
def scanBytes : Nat → List UInt8 → List Nat × Option Nat
  | _, [] => ([], none)
  | index, byte :: rest =>
    if byte = 0x22 then
      ([], some index)
    else if byte = 0x5C then
      let (escapes, quote?) := scanBytes (index + 2) rest.tail
      (index :: escapes, quote?)
    else
      scanBytes (index + 1) rest
termination_by _ bytes => bytes.length

/-- The places, in bytes, of the backslashes that decoding takes as escapes, each with
the character after it if there is one. -/
def decodedEscapes : Nat → List Char → List Nat
  | _, [] => []
  | index, '\\' :: [] => [index]
  | index, '\\' :: character :: rest =>
    index :: decodedEscapes (index + 1 + character.utf8Size) rest
  | index, character :: rest => decodedEscapes (index + character.utf8Size) rest

theorem scanBytes_append {bytes} (ordinary : ∀ byte ∈ bytes, IsOrdinary byte) (index : Nat)
    (rest : List UInt8) :
    scanBytes index (bytes ++ rest) = scanBytes (index + bytes.length) rest := by
  induction bytes generalizing index with
  | nil => rfl
  | cons byte others ih =>
    obtain ⟨⟨notQuote, notBackslash⟩, othersOrdinary⟩ := List.forall_mem_cons.mp ordinary
    rw [List.cons_append, scanBytes, if_neg notQuote, if_neg notBackslash, ih othersOrdinary,
      List.length_cons, Nat.add_assoc, Nat.add_comm 1]

theorem scanBytes_escape (index : Nat) (character : Char) (rest : List UInt8) :
    scanBytes index (0x5C :: (String.utf8EncodeChar character ++ rest)) =
      let (escapes, quote?) := scanBytes (index + 1 + character.utf8Size) rest
      (index :: escapes, quote?) := by
  obtain ⟨first, others, bytesEq⟩ :=
    List.exists_cons_of_ne_nil (l := String.utf8EncodeChar character) (by simp)
  have ordinary := isOrdinary_of_mem_tail character
  have size : others.length + 1 = character.utf8Size := by
    rw [← String.length_utf8EncodeChar, bytesEq, List.length_cons]
  rw [bytesEq, List.tail_cons] at ordinary
  rw [bytesEq, scanBytes, if_neg (by decide), if_pos rfl, List.cons_append, List.tail_cons,
    scanBytes_append ordinary, ← size]
  have placeEq : index + 2 + others.length = index + 1 + (others.length + 1) := by omega
  rw [placeEq]

theorem Spells.scanBytes_eq {text raw} (spells : Spells text raw) (index : Nat) (rest : List Char) :
    scanBytes index (utf8Bytes (raw ++ '\x22' :: rest)) =
      (decodedEscapes index raw, some (index + utf8Length raw)) := by
  induction spells generalizing index with
  | nil => 
    have quoteBytes : String.utf8EncodeChar '\x22' = [0x22] := by decide
    simp [utf8Bytes, quoteBytes, scanBytes, decodedEscapes]
  | @plain character _ raw notQuote notBackslash _ ih =>
    have bytesEq : utf8Bytes (character :: raw ++ '\x22' :: rest) =
      String.utf8EncodeChar character ++ utf8Bytes (raw ++ '\x22' :: rest) := rfl
    rw [bytesEq, scanBytes_append (isOrdinary_of_mem notQuote notBackslash),
      String.length_utf8EncodeChar, ih, utf8Length_cons, Nat.add_assoc]
    simp [decodedEscapes, notBackslash]
  | @escape character _ raw _ ih =>
    have bytesEq : utf8Bytes ('\\' :: character :: raw ++ '\x22' :: rest) =
      0x5C :: (String.utf8EncodeChar character ++ utf8Bytes (raw ++ '\x22' :: rest)) := rfl
    have sizeEq : utf8Length ('\\' :: character :: raw) = 1 + character.utf8Size + utf8Length raw := by
      rw [utf8Length_cons, utf8Length_cons, Nat.add_assoc]
      rfl
    rw [bytesEq, scanBytes_escape, ih, sizeEq, ← Nat.add_assoc, ← Nat.add_assoc]
    rfl

/-! ## Literals -/

theorem exists_escapes (text : List Char) : ∃ raw, Escapes text raw := by
  induction text with
  | nil => exact ⟨[], .nil⟩
  | cons character rest ih =>
    obtain ⟨raw, escapes⟩ := ih
    by_cases isMark : character ∈ ['\x22', '\\']
    · exact ⟨_, .mark isMark escapes⟩
    · simp only [List.mem_cons, List.not_mem_nil, or_false, not_or] at isMark
      exact ⟨_, .plain isMark.1 isMark.2 escapes⟩

theorem Spells.ofText_tokens {text raw} (spells : Spells text raw) (rest : List Char) : ∃ others,
      (TokenStream.ofText (String.ofList ('\x22' :: raw ++ '\x22' :: rest))).tokens =
        ⟨.string (String.ofList raw), .start, String.ofList ('\x22' :: raw ++ ['\x22'])⟩ ::
          others := by
  have found : nextScan? none ('\x22' :: raw ++ '\x22' :: rest) =
      some ⟨.string (String.ofList raw), '\x22' :: raw ++ ['\x22'], rest⟩ := by
    have recognised : Recognises none ('\x22' :: (raw ++ '\x22' :: rest)) _ := .string
    rw [stringScan, spells.stringContents_eq_some] at recognised
    exact nextScan?_eq_some_iff.mpr recognised
  have notGap : skipGap .blank .start ('\x22' :: raw ++ '\x22' :: rest) =
      (.start, '\x22' :: raw ++ '\x22' :: rest) := by
    rfl
  obtain ⟨others, tokensEq, _⟩ := @TokenStream.collect_scanned
    ('\x22' :: raw ++ '\x22' :: rest).length (some .stringLiteral) ('\x22' :: raw ++ ['\x22'])
    rest #[⟨.string (String.ofList raw), .start, String.ofList ('\x22' :: raw ++ ['\x22'])⟩]
    (by simp; omega)
  refine ⟨others, ?_⟩
  rw [TokenStream.ofText, String.toList_ofList, TokenStream.collect]
  simp only [notGap, found]
  exact tokensEq

/-- String literals round-trip.  Every text can be written between quotes, and however
it is written, what is written is the first token, whatever follows it, and decodes to
the text.  In a literal of any text, the backslashes that a scan of the bytes takes as
escapes are those that decoding takes, and each has its character before the quote
where the scan ends. -/
theorem string_literals_round_trip :
    (∀ text : String, ∃ raw : String, Escapes text.toList raw.toList) ∧
    (∀ text raw rest : String, Escapes text.toList raw.toList →
      let literal := "\x22" ++ raw ++ "\x22"
      (∃ others, (TokenStream.ofText (literal ++ rest)).tokens =
        ⟨.string raw, .start, literal⟩ :: others) ∧
      literal.utf8ByteSize = raw.utf8ByteSize + 2 ∧
      String.ofList (decodeEscapes raw.toList) = text) ∧
    ∀ (text raw : String), ∀ token ∈ (TokenStream.ofText text).tokens,
      token.content = .string raw →
      Spells (decodeEscapes raw.toList) raw.toList ∧
      scanBytes 0 (text.toUTF8.data.toList.drop (token.position.index + 1)) =
        (decodedEscapes 0 raw.toList, some raw.utf8ByteSize) := by
  refine ⟨?_, ?_, ?_⟩
  · intro text
    obtain ⟨raw, escapes⟩ := exists_escapes text.toList
    exact ⟨String.ofList raw, by rwa [String.toList_ofList]⟩
  · intro text raw rest escapes literal
    have spells := escapes.spells
    obtain ⟨others, tokensEq⟩ := spells.ofText_tokens rest.toList
    refine ⟨⟨others, ?_⟩, ?_, ?_⟩
    · convert tokensEq using 3
      · simp [literal, ← String.toList_inj]
      · simp
      · simp [literal, ← String.toList_inj]
    · have quoteSize : "\x22".utf8ByteSize = 1 := rfl
      rw [String.utf8ByteSize_append, String.utf8ByteSize_append, quoteSize]
      omega
    · rw [spells.decodeEscapes_eq, String.ofList_toList]
  · intro text raw token member isString
    obtain ⟨earlier, later, split⟩ := List.append_of_mem member
    obtain ⟨front, left, scan, textEq, found, rfl⟩ := TokenStream.ofText_scanned split
    obtain ⟨meant, rest, spells, rfl⟩ := nextScan?_string found isString
    refine ⟨by rwa [spells.decodeEscapes_eq], ?_⟩
    have scanned := spells.scanBytes_eq 0 rest
    rw [Nat.zero_add, utf8Length_toList] at scanned
    have bytesEq : utf8Bytes (front ++ '\x22' :: (raw.toList ++ '\x22' :: rest)) =
        utf8Bytes (front ++ ['\x22']) ++ utf8Bytes (raw.toList ++ '\x22' :: rest) := by
      rw [← utf8Bytes_append, List.append_assoc, List.singleton_append]
    have lengthEq : (utf8Bytes (front ++ ['\x22'])).length = utf8Length front + 1 := by
      rw [length_utf8Bytes, utf8Length_append]
      rfl
    rw [← scanned, toUTF8_data, textEq, Position.index_advance_start, bytesEq,
      List.drop_left' lengthEq]

theorem string_literals_round_trip_mixed :
    let raw := "é\\\x22\\\\\\n\\é"
    let literal := "\x22" ++ raw ++ "\x22"
    Escapes "é\x22\\\n".toList "é\\\x22\\\\\\n".toList ∧
      String.ofList (decodeEscapes "é\\\x22\\\\\\n".toList) = "é\x22\\\n" ∧
      ∃ token ∈ (TokenStream.ofText ("x=" ++ literal ++ ";")).tokens, token.content = .string raw ∧
        scanBytes 0 (("x=" ++ literal ++ ";").toUTF8.data.toList.drop (token.position.index + 1)) =
          ([2, 4, 6, 8], some 11) := by
  intro raw literal
  have escapes : Escapes "é\x22\\\n".toList "é\\\x22\\\\\\n".toList :=
    .plain (by decide) (by decide) (.mark (by decide) (.mark (by decide)
      (.control (by decide) .nil)))
  obtain ⟨_, writes, scans⟩ := string_literals_round_trip
  have isToken : ⟨.string raw, ⟨2, 1, 3⟩, literal⟩ ∈
      (TokenStream.ofText ("x=" ++ literal ++ ";")).tokens := by
    decide +kernel
  have placesEq : (decodedEscapes 0 raw.toList, some raw.utf8ByteSize) =
      ([2, 4, 6, 8], some 11) := by
    decide +kernel
  obtain ⟨_, scanned⟩ := scans _ raw _ isToken rfl
  exact ⟨escapes, (writes _ _ "" escapes).2.2, _, isToken, rfl, scanned.trans placesEq⟩

end SlotCompiler
