import Mathlib
import SlotCompiler.Source.Span

/-!
Contract: byte indices of places between the characters of a text.

A place is given by the characters in front of it, so nothing here speaks of
bytes inside a character.
-/

namespace SlotCompiler

/-! ## Sizes -/

theorem utf8Length_eq (characters : List Char) :
    utf8Length characters = String.utf8Len characters := by
  have fromTotal (total : Nat) :
      characters.foldl (fun total character => total + character.utf8Size) total =
        total + String.utf8Len characters := by
    induction characters generalizing total with
    | nil => rfl
    | cons character rest ih =>
      rw [List.foldl_cons, ih, String.utf8Len_cons]
      omega
  rw [utf8Length, fromTotal, Nat.zero_add]

@[simp] theorem utf8Length_nil : utf8Length [] = 0 := rfl

@[simp] theorem utf8Length_cons (character : Char) (rest : List Char) :
    utf8Length (character :: rest) = character.utf8Size + utf8Length rest := by
  rw [utf8Length_eq, utf8Length_eq, String.utf8Len_cons, Nat.add_comm]

@[simp] theorem utf8Length_append (first second : List Char) :
    utf8Length (first ++ second) = utf8Length first + utf8Length second := by
  rw [utf8Length_eq, utf8Length_eq, utf8Length_eq, String.utf8Len_append]

theorem utf8Length_toList (text : String) : utf8Length text.toList = text.utf8ByteSize := by
  rw [utf8Length_eq, String.utf8Len_toList]

theorem utf8Length_pos {characters} (nonempty : characters ≠ []) : 0 < utf8Length characters := by
  rw [utf8Length_eq, Nat.pos_iff_ne_zero, Ne, String.utf8Len_eq_zero]
  exact nonempty

namespace Position

theorem index_step (position : Position) (character : Char) :
    (position.step character).index = position.index + character.utf8Size := by
  unfold step
  split
  · rfl
  split
  · rfl
  split
  · rfl
  · rfl

theorem index_advance (position : Position) (characters : List Char) :
    (position.advance characters).index = position.index + utf8Length characters := by
  induction characters generalizing position with
  | nil => rfl
  | cons character rest ih => rw [advance_cons, ih, index_step, utf8Length_cons, Nat.add_assoc]

theorem index_advance_start (characters : List Char) :
    (start.advance characters).index = utf8Length characters := by
  rw [index_advance]
  exact Nat.zero_add _

end Position

/-! ## Excerpts -/

namespace Span

theorem exists_size_eq_succ (character : Char) (rest : List Char) :
    ∃ count, utf8Length (character :: rest) = count + 1 ∧ character.utf8Size ≤ count + 1 ∧
      count + 1 - character.utf8Size = utf8Length rest := by
  have positive := character.utf8Size_pos
  refine ⟨character.utf8Size - 1 + utf8Length rest, ?_, ?_, ?_⟩
  · rw [utf8Length_cons]
    omega
  · omega
  · omega

theorem dropBytes_append (front rest : List Char) :
    dropBytes (utf8Length front) (front ++ rest) = some rest := by
  induction front with
  | nil => exact dropBytes.eq_1 rest
  | cons character front ih =>
    obtain ⟨count, sizeEq, fits, leftEq⟩ := exists_size_eq_succ character front
    rw [sizeEq, List.cons_append, dropBytes, if_pos fits, leftEq, ih]

theorem takeBytes_append (taken middle rest : List Char) :
    takeBytes taken (utf8Length middle) (middle ++ rest) = some (taken.reverse ++ middle) := by
  induction middle generalizing taken with
  | nil => rw [utf8Length_nil, takeBytes, List.append_nil]
  | cons character middle ih =>
    obtain ⟨count, sizeEq, fits, leftEq⟩ := exists_size_eq_succ character middle
    rw [sizeEq, List.cons_append, takeBytes, if_pos fits, leftEq, ih,
      List.reverse_cons, List.append_assoc, List.singleton_append]

theorem excerpt_of_toList {text : String} {front middle back}
    (textEq : text.toList = front ++ (middle ++ back)) :
    (Span.mk (utf8Length front) (utf8Length middle)).excerpt text = String.ofList middle := by
  rw [excerpt, textEq, dropBytes_append, Option.bind_some, takeBytes_append]
  rfl

end Span

theorem isValid_of_toList {text : String} {front back} (textEq : text.toList = front ++ back) :
    (String.Pos.Raw.mk (utf8Length front)).IsValid text := by
  rw [String.Pos.Raw.isValid_iff_exists_append]
  refine ⟨String.ofList front, String.ofList back, ?_, ?_⟩
  · rw [← String.ofList_append, ← textEq, String.ofList_toList]
  · rw [String.rawEndPos_ofList, utf8Length_eq]

/-! ## Bytes -/

def utf8Bytes (characters : List Char) : List UInt8 := characters.flatMap String.utf8EncodeChar

@[simp] theorem utf8Bytes_append (first second : List Char) :
    utf8Bytes (first ++ second) = utf8Bytes first ++ utf8Bytes second :=
  List.flatMap_append

theorem length_utf8Bytes (characters : List Char) :
    (utf8Bytes characters).length = utf8Length characters := by
  induction characters with
  | nil => rfl
  | cons character rest ih =>
    rw [utf8Length_cons, ← ih, ← String.length_utf8EncodeChar]
    exact List.length_append

theorem toUTF8_data (text : String) : text.toUTF8.data.toList = utf8Bytes text.toList := by
  have bytesEq : text.toUTF8 = text.toList.utf8Encode := by
    rw [String.toUTF8_eq_toByteArray, ← String.toByteArray_ofList, String.ofList_toList]
  rw [bytesEq, List.utf8Encode, List.data_toByteArray, utf8Bytes]

theorem utf8EncodeChar_low_or_high (character : Char) :
    String.utf8EncodeChar character = [UInt8.ofNat character.toNat] ∧ character.toNat < 128 ∨
      ∀ byte ∈ String.utf8EncodeChar character, 128 ≤ byte.toNat := by
  have toNatEq : character.val.toNat = character.toNat := rfl
  unfold String.utf8EncodeChar
  simp only [toNatEq]
  split
  · exact .inl ⟨rfl, by omega⟩
  right
  intro byte member
  repeat' split at member
  all_goals
    simp only [List.mem_cons, List.not_mem_nil, or_false] at member
    rcases member with rfl | rfl | rfl | rfl
    all_goals
      rw [UInt8.toNat_ofNat']
      omega

/-- A byte below 128 stands for its own character only. -/
theorem eq_of_mem_utf8EncodeChar {character mark : Char} (isLow : mark.toNat < 128)
    (member : UInt8.ofNat mark.toNat ∈ String.utf8EncodeChar character) : character = mark := by
  rcases utf8EncodeChar_low_or_high character with ⟨bytesEq, _⟩ | isHigh
  · rw [bytesEq, List.mem_singleton, ← UInt8.toNat_inj, UInt8.toNat_ofNat',
      UInt8.toNat_ofNat'] at member
    apply Char.toNat_inj.mp
    omega
  · have high := isHigh _ member
    rw [UInt8.toNat_ofNat'] at high
    omega

end SlotCompiler
