import SlotCompiler.Proofs.Source.Excerpt

/-!
Contract: the line that contains a byte of a text.

Line feeds and carriage returns are single bytes below 128, which no other character
contains, so lines can be cut by bytes as well as by characters.
-/

namespace SlotCompiler

theorem not_mem_utf8Bytes {characters : List Char} (noFeed : '\n' ∉ characters) :
    0x0A ∉ utf8Bytes characters := by
  intro member
  obtain ⟨character, isCharacter, member⟩ := List.mem_flatMap.mp member
  exact noFeed (@eq_of_mem_utf8EncodeChar _ '\n' (by decide) member ▸ isCharacter)

/-! ## Lines -/

/-- A text cut at the line that contains a byte index. -/
structure LineAt (text : List Char) (index : Nat) (front line back : List Char) : Prop where
  whole : text = front ++ (line ++ back)
  opens : front = [] ∨ ∃ earlier, front = earlier ++ ['\n']
  noFeed : '\n' ∉ line
  closes : back = [] ∨ ∃ later, back = '\n' :: later
  starts : utf8Length front ≤ index
  stops : back = [] ∨ index ≤ utf8Length (front ++ line)

namespace Span

theorem exists_lineAt {index : Nat} {front line : List Char} (rest : List Char)
    (opens : front = [] ∨ ∃ earlier, front = earlier ++ ['\n']) (noFeed : '\n' ∉ line)
    (starts : utf8Length front ≤ index) :
    ∃ before found back, LineAt (front ++ (line ++ rest)) index before found back ∧
      lineAround index (utf8Length (front ++ line)) (utf8Length front) line.reverse rest =
        (utf8Length before, trimReturn found.reverse) := by
  induction rest generalizing front line with
  | nil =>
    refine ⟨front, line, [], ⟨rfl, opens, noFeed, .inl rfl, starts, .inl rfl⟩, ?_⟩
    rw [lineAround]
  | cons character rest ih =>
    rw [lineAround]
    split
    · rename_i isFeed
      subst isFeed
      split
      · rename_i reached
        exact ⟨front, line, _, ⟨rfl, opens, noFeed, .inr ⟨_, rfl⟩, starts, .inr reached⟩, rfl⟩
      · rename_i notReached
        have sizeEq : utf8Length (front ++ line ++ ['\n']) = utf8Length (front ++ line) + 1 :=
          utf8Length_append _ _
        have next := @ih (front ++ line ++ ['\n']) [] (.inr ⟨_, rfl⟩) List.not_mem_nil (by omega)
        rwa [List.append_nil, sizeEq, List.nil_append, List.append_assoc, List.append_assoc,
          List.singleton_append] at next
    · rename_i notFeed
      have next := @ih front (line ++ [character]) opens (by simp [noFeed, Ne.symm notFeed]) starts
      have sizeEq : utf8Length (front ++ (line ++ [character])) =
          utf8Length (front ++ line) + character.utf8Size := by
        simp [Nat.add_assoc]
      rwa [sizeEq, List.reverse_append, List.append_assoc line] at next

/-- The carriage return that a line may end in. -/
def lineReturn (line : List Char) : List Char := if line.getLast? = some '\r' then ['\r'] else []

theorem trimReturn_append (line : List Char) :
    trimReturn line.reverse ++ lineReturn line = line := by
  rcases List.eq_nil_or_concat' line with rfl | ⟨shown, last, rfl⟩
  · rfl
  · by_cases isReturn : last = '\r' <;> simp [trimReturn, lineReturn, isReturn]

end Span

namespace LineAt

variable {text : List Char} {index : Nat} {front line back : List Char}

theorem bytes_eq (lineAt : LineAt text index front line back) :
    utf8Bytes text = utf8Bytes front ++ (utf8Bytes line ++ utf8Bytes back) := by
  rw [lineAt.whole, utf8Bytes_append, utf8Bytes_append]

/-- The bytes before and after the index that are no line feeds are those of the line. -/
theorem runs (lineAt : LineAt text index front line back) :
    let bytes := utf8Bytes text
    let index := min index bytes.length
    index - ((bytes.take index).reverse.takeWhile (· ≠ 0x0A)).length = utf8Length front ∧
      index + ((bytes.drop index).takeWhile (· ≠ 0x0A)).length = utf8Length (front ++ line) := by
  intro bytes place
  have noFeed : ∀ byte ∈ utf8Bytes line, decide (byte ≠ 0x0A) = true := by
    intro byte member
    exact decide_eq_true fun isFeed => not_mem_utf8Bytes lineAt.noFeed (isFeed ▸ member)
  have before : (utf8Bytes front).reverse.takeWhile (· ≠ 0x0A) = [] := by
    rcases lineAt.opens with rfl | ⟨earlier, rfl⟩
    · rfl
    · rw [utf8Bytes_append, List.reverse_append]
      rfl
  have after : (utf8Bytes back).takeWhile (· ≠ 0x0A) = [] := by
    rcases lineAt.closes with rfl | ⟨later, rfl⟩ <;> rfl
  have bytesEq : bytes = _ := lineAt.bytes_eq
  have frontLength := length_utf8Bytes front
  have lineLength := length_utf8Bytes line
  have bytesLength : bytes.length = utf8Length front + utf8Length line + utf8Length back := by
    rw [bytesEq, ← utf8Bytes_append, ← utf8Bytes_append, length_utf8Bytes, utf8Length_append,
      utf8Length_append, Nat.add_assoc]
  have stops : utf8Length back = 0 ∨ index ≤ utf8Length front + utf8Length line := by
    rw [← utf8Length_append]
    exact lineAt.stops.imp_left fun isEnd => congrArg utf8Length isEnd
  have starts := lineAt.starts
  obtain ⟨passed, placeEq⟩ : ∃ passed, place = (utf8Bytes front).length + passed :=
    Nat.exists_eq_add_of_le (by omega)
  have inside : passed ≤ (utf8Bytes line).length := by omega
  rw [placeEq, bytesEq, List.take_length_add_append, List.drop_length_add_append,
    List.take_append_of_le_length inside, List.drop_append_of_le_length inside,
    List.reverse_append, List.takeWhile_append_of_pos, List.takeWhile_append_of_pos, before, after,
    List.append_nil, List.append_nil, List.length_reverse, List.length_take, List.length_drop,
    utf8Length_append]
  · omega
  · exact fun byte member => noFeed byte (List.mem_of_mem_drop member)
  · exact fun byte member => noFeed byte (List.mem_of_mem_take (List.mem_reverse.mp member))

/-- The last byte of the line is a carriage return just if its last character is one. -/
theorem return_iff (lineAt : LineAt text index front line back) :
    (utf8Length front < utf8Length (front ++ line) ∧
      (utf8Bytes text)[utf8Length (front ++ line) - 1]? = some 0x0D) ↔
      line.getLast? = some '\r' := by
  rcases List.eq_nil_or_concat' line with rfl | ⟨shown, last, rfl⟩
  · simp
  have positive := last.utf8Size_pos
  have lastAt : (utf8Bytes text)[utf8Length (front ++ (shown ++ [last])) - 1]? =
      (String.utf8EncodeChar last).getLast? := by
    have placeEq : utf8Length (front ++ (shown ++ [last])) - 1 =
        (utf8Bytes (front ++ shown)).length + (last.utf8Size - 1) := by
      rw [length_utf8Bytes]
      simp
      omega
    have bytesEq : utf8Bytes text =
        utf8Bytes (front ++ shown) ++ (String.utf8EncodeChar last ++ utf8Bytes back) := by
      rw [lineAt.bytes_eq]
      simp [utf8Bytes]
    rw [placeEq, bytesEq, List.getElem?_append_right (Nat.le_add_right _ _),
      Nat.add_sub_cancel_left, List.getElem?_append_left (by simp; omega),
      List.getLast?_eq_getElem?, String.length_utf8EncodeChar]
  rw [lastAt, List.getLast?_concat, Option.some_inj]
  constructor
  · rintro ⟨_, isReturn⟩
    exact @eq_of_mem_utf8EncodeChar _ '\r' (by decide) (List.mem_of_getLast? isReturn)
  · rintro rfl
    refine ⟨?_, rfl⟩
    simp only [utf8Length_append, utf8Length_cons]
    omega

end LineAt

namespace Span

/-- The line of a span is found exactly, wherever the span starts.  From that byte, or the end
of the text if that is before it, the line reaches back to the last line feed and on to the next
one, or to the ends of the text; a carriage return at its end is left out.  Both ends stand
between characters, and the text found is what stands between them, without a line feed. -/
theorem enclosingLine_exact (span : Span) (text : String) :
    let bytes := text.toUTF8.data.toList
    let index := min span.index bytes.length
    let start := index - ((bytes.take index).reverse.takeWhile (· ≠ 0x0A)).length
    let stop := index + ((bytes.drop index).takeWhile (· ≠ 0x0A)).length
    let found := span.enclosingLine text
    found.2.index = start ∧
      found.2.stop = (if start < stop ∧ bytes[stop - 1]? = some 0x0D then stop - 1 else stop) ∧
      (String.Pos.Raw.mk found.2.index).IsValid text ∧
      (String.Pos.Raw.mk found.2.stop).IsValid text ∧
      found.1.toUTF8.data.toList = (bytes.drop found.2.index).take found.2.size ∧
      found.2.excerpt text = found.1 ∧ found.1.utf8ByteSize = found.2.size ∧
      '\n' ∉ found.1.toList := by
  intro bytes index start stop found
  have bytesEq : bytes = utf8Bytes text.toList := toUTF8_data text
  obtain ⟨front, line, back, lineAt, walked⟩ :=
    @exists_lineAt span.index [] [] text.toList (.inl rfl) List.not_mem_nil (Nat.zero_le _)
  change LineAt text.toList span.index front line back at lineAt
  have foundEq : found = (String.ofList (trimReturn line.reverse),
      ⟨utf8Length front, utf8Length (trimReturn line.reverse)⟩) := by
    have walkedAll : lineAround span.index 0 0 [] text.toList = _ := walked
    simp only [found, enclosingLine, walkedAll]
  obtain ⟨startEq, stopEq⟩ : start = utf8Length front ∧ stop = utf8Length (front ++ line) := by
    simpa only [← bytesEq] using lineAt.runs
  have lineEq := trimReturn_append line
  generalize trimReturn line.reverse = shown at foundEq lineEq
  have textEq : text.toList = front ++ (shown ++ (lineReturn line ++ back)) := by
    rw [lineAt.whole, ← List.append_assoc shown, lineEq]
  have noFeed : '\n' ∉ shown := fun member => lineAt.noFeed (lineEq ▸ List.mem_append_left _ member)
  rw [foundEq, startEq, stopEq, bytesEq, if_congr lineAt.return_iff rfl rfl]
  refine ⟨rfl, ?_, isValid_of_toList textEq, ?_, ?_, excerpt_of_toList textEq, ?_, ?_⟩
  · have lineSize := congrArg utf8Length lineEq
    rw [utf8Length_append] at lineSize
    rw [utf8Length_append, ← lineSize, ← Nat.add_assoc, lineReturn]
    split <;> rfl
  · rw [Span.stop, ← utf8Length_append]
    exact isValid_of_toList ((List.append_assoc _ _ _).trans textEq.symm).symm
  · rw [toUTF8_data, String.toList_ofList, textEq, utf8Bytes_append, utf8Bytes_append,
      ← length_utf8Bytes, ← length_utf8Bytes, List.drop_left, List.take_left]
  · rw [← utf8Length_toList, String.toList_ofList]
  · rwa [String.toList_ofList]

end Span

end SlotCompiler
