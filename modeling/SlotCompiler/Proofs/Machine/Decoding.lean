import Mathlib
import SlotCompiler.Machine.Instruction

/-!
Contract: decoding of arbitrary words.
-/

namespace SlotCompiler

/-! ## One word -/

def DecodeFault.index : DecodeFault → Nat
  | .unknownOpcode index _ => index
  | .unknownImmediateKind index _ => index
  | .missingPayload index => index

section

variable {index width : Nat} {word : Word} {next? : Option Word} {instruction : Instruction}
  {fault : DecodeFault}

theorem decodeWord_width (decoded : decodeWord index word next? = .ok (instruction, width)) :
    width = 1 ∨ width = 2 ∧ next?.isSome = true := by
  unfold decodeWord at decoded
  repeat' split at decoded
  all_goals cases decoded
  all_goals first | exact .inl rfl | exact .inr ⟨rfl, rfl⟩

theorem decodeWord_fault (decoded : decodeWord index word next? = .error fault) :
    fault.index = index ∧ (fault = .missingPayload index → next? = none) := by
  unfold decodeWord at decoded
  repeat' split at decoded
  all_goals cases decoded
  all_goals exact ⟨rfl, by simp⟩

end

/-! ## Iteration -/

/-- The instruction at an index with its width, or the fault there; none past the last word. -/
def decodeAt? (code : List Word) (index : Nat) : Option (Except DecodeFault (Instruction × Nat)) :=
  code[index]?.map fun word => decodeWord index word code[index + 1]?

/-- What so many rounds of an iteration yield from an index on.  After a fault it goes on at
the end of the words. -/
def decodedFrom (code : List Word) : Nat → Nat → List (Except DecodeFault (Nat × Instruction))
  | 0, _ => []
  | rounds + 1, index =>
    match decodeAt? code index with
    | none => []
    | some (.ok (instruction, width)) =>
      .ok (index, instruction) :: decodedFrom code rounds (index + width)
    | some (.error fault) => .error fault :: decodedFrom code rounds code.length

def Decoding.yields (decoding : Decoding) : List (Except DecodeFault (Nat × Instruction)) :=
  decoding.items.toList.map .ok ++ decoding.fault?.toList.map .error

/-- Instructions are decoded from an index on, each of them where the one before it ends, and
take so many words each. -/
inductive Decodes (code : List Word) : Nat → List (Nat × Instruction) → List Nat → Prop where
  | nil (index : Nat) : Decodes code index [] []
  | cons {index instruction width items widths}
      (decoded : decodeAt? code index = some (.ok (instruction, width)))
      (rest : Decodes code (index + width) items widths) :
      Decodes code index ((index, instruction) :: items) (width :: widths)

/-- Why decoding stops at an index: there are no words left, or the one there is malformed. -/
inductive StopsAt (code : List Word) : Nat → Option DecodeFault → Prop where
  | finished {index} (isEnd : index = code.length) : StopsAt code index none
  | faulted {index fault} (malformed : decodeAt? code index = some (.error fault)) :
      StopsAt code index (some fault)

section

variable {code : List Word} {index : Nat} {items : List (Nat × Instruction)} {widths : List Nat}
  {fault? : Option DecodeFault}

theorem Decodes.width_eq (decodes : Decodes code index items widths) :
    ∀ width ∈ widths, width = 1 ∨ width = 2 := by
  induction decodes with
  | nil => simp
  | cons decoded _ ih =>
    obtain ⟨word, _, decoded⟩ := Option.map_eq_some_iff.mp decoded
    exact List.forall_mem_cons.mpr ⟨(decodeWord_width decoded).imp_right And.left, ih⟩

theorem StopsAt.of_fault {fault} (stops : StopsAt code index (some fault)) :
    fault.index = index ∧ index < code.length ∧
      (fault = .missingPayload index → index + 1 = code.length) := by
  cases stops with
  | faulted malformed =>
    obtain ⟨word, isWord, malformed⟩ := Option.map_eq_some_iff.mp malformed
    obtain ⟨inside, _⟩ := List.getElem?_eq_some_iff.mp isWord
    obtain ⟨indexEq, isLast⟩ := decodeWord_fault malformed
    refine ⟨indexEq, inside, fun isMissing => ?_⟩
    have ended := List.getElem?_eq_none_iff.mp (isLast isMissing)
    omega

theorem decodedFrom_length (code : List Word) (rounds : Nat) :
    decodedFrom code rounds code.length = [] := by
  cases rounds with
  | zero => rfl
  | succ rounds => simp [decodedFrom, decodeAt?]

theorem Decodes.decodedFrom_eq (decodes : Decodes code index items widths)
    (stops : StopsAt code (index + widths.sum) fault?) (rounds : Nat) :
    decodedFrom code rounds index =
      (items.map Except.ok ++ fault?.toList.map Except.error).take rounds := by
  induction decodes generalizing rounds with
  | nil index =>
    cases rounds with
    | zero => rfl
    | succ rounds =>
      rw [List.sum_nil, Nat.add_zero] at stops
      cases stops with
      | finished isEnd => simp [isEnd, decodedFrom_length]
      | faulted malformed => simp [decodedFrom, malformed, decodedFrom_length]
  | cons decoded _ ih =>
    cases rounds with
    | zero => rfl
    | succ rounds =>
      rw [List.sum_cons, ← Nat.add_assoc] at stops
      simp [decodedFrom, decoded, ih stops]

end

namespace Decoding

theorem decodeAt?_of_drop {code rest : List Word} {index : Nat} {word : Word}
    (cut : code.drop index = word :: rest) :
    decodeAt? code index = some (decodeWord index word rest.head?) := by
  have wordAt : code[index]? = some word := by
    rw [← List.head?_drop, cut, List.head?_cons]
  have nextAt : code[index + 1]? = rest.head? := by
    rw [← List.head?_drop, ← List.tail_drop, cut, List.tail_cons]
  rw [decodeAt?, wordAt, nextAt, Option.map_some]

/-- A result of decoding from an index on, after some items. -/
def Continues (decoding : Decoding) (code : List Word) (index : Nat)
    (items : List (Nat × Instruction)) : Prop :=
  ∃ later widths, decoding.items.toList = items ++ later ∧ Decodes code index later widths ∧
    StopsAt code (index + widths.sum) decoding.fault?

theorem Continues.cons {decoding : Decoding} {code index} {items : Array (Nat × Instruction)}
    {instruction width} (decoded : decodeAt? code index = some (.ok (instruction, width)))
    (rest : decoding.Continues code (index + width) (items.push (index, instruction)).toList) :
    decoding.Continues code index items.toList := by
  obtain ⟨later, widths, itemsEq, decodes, stops⟩ := rest
  refine ⟨(index, instruction) :: later, width :: widths, ?_, .cons decoded decodes, ?_⟩
  · rw [itemsEq, Array.toList_push, List.append_assoc, List.singleton_append]
  · rwa [List.sum_cons, ← Nat.add_assoc]

theorem extend_continues {code words : List Word} {index : Nat} (items : Array (Nat × Instruction))
    (inside : index ≤ code.length) (wordsEq : code.drop index = words) :
    (extend index items words).Continues code index items.toList := by
  fun_induction extend index items words with
  | case1 index items =>
    have ended : index = code.length := Nat.le_antisymm inside (List.drop_eq_nil_iff.mp wordsEq)
    exact ⟨[], [], (List.append_nil _).symm, .nil index, .finished ended⟩
  | case2 index items word rest fault malformed =>
    have faulted := (decodeAt?_of_drop wordsEq).trans (congrArg some malformed)
    exact ⟨[], [], (List.append_nil _).symm, .nil index, .faulted faulted⟩
  | case3 index items word instruction pushed payload rest decoded ih =>
    have short := congrArg List.length wordsEq
    rw [List.length_drop, List.length_cons, List.length_cons] at short
    apply Continues.cons ((decodeAt?_of_drop wordsEq).trans (congrArg some decoded))
    apply ih (by omega)
    rw [← List.drop_drop, wordsEq]
    rfl
  | case4 index items word instruction width pushed rest notPair decoded ih =>
    have short := congrArg List.length wordsEq
    rw [List.length_drop, List.length_cons] at short
    -- A width of two needs a payload, and then the pair of words was taken above.
    have widthEq : width = 1 := by
      rcases decodeWord_width decoded with isOne | ⟨rfl, hasNext⟩
      · exact isOne
      · obtain ⟨payload, isNext⟩ := Option.isSome_iff_exists.mp hasNext
        obtain ⟨others, restEq⟩ := List.head?_eq_some_iff.mp isNext
        exact (notPair payload others rfl restEq).elim
    subst widthEq
    apply Continues.cons ((decodeAt?_of_drop wordsEq).trans (congrArg some decoded))
    apply ih (by omega)
    rw [← List.tail_drop, wordsEq]
    rfl

end Decoding

/-- Decoding is robust on arbitrary words.  Iterating over them ends, and yields the decoded
instructions and then the fault, if there is one.  The instructions start at the first word and
each next one where the one before it ends, after one word or two.  Without a fault they take all
the words.  A fault names the index where they stop, and a payload is missing only for the last
word. -/
theorem decoding_tiles_words (code : List Word) :
    let decoding := Decoding.ofWords code
    (∀ rounds, decodedFrom code rounds 0 = decoding.yields.take rounds) ∧
      ∃ widths, Decodes code 0 decoding.items.toList widths ∧
        (∀ width ∈ widths, width = 1 ∨ width = 2) ∧
        (decoding.fault? = none ∧ widths.sum = code.length ∨
          ∃ fault, decoding.fault? = some fault ∧ fault.index = widths.sum ∧
            widths.sum < code.length ∧
            (fault = .missingPayload widths.sum → widths.sum + 1 = code.length)) := by
  intro decoding
  obtain ⟨items, widths, itemsEq, decodes, stops⟩ :=
    Decoding.extend_continues #[] (Nat.zero_le _) (List.drop_zero (l := code))
  rw [List.nil_append] at itemsEq
  rw [← itemsEq] at decodes
  refine ⟨decodes.decodedFrom_eq stops, widths, decodes, decodes.width_eq, ?_⟩
  rw [Nat.zero_add] at stops
  change StopsAt code widths.sum decoding.fault? at stops
  generalize decoding.fault? = fault? at stops
  cases fault? with
  | none =>
    obtain ⟨isEnd⟩ := stops
    exact .inl ⟨rfl, isEnd⟩
  | some fault => exact .inr ⟨fault, rfl, stops.of_fault⟩

end SlotCompiler
