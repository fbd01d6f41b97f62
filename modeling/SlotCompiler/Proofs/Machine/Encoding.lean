import Mathlib
import SlotCompiler.Machine.Instruction

/-!
Contract: words read back as the instructions they were made from.
-/

namespace SlotCompiler

/-! ## Fields of a word -/

namespace Word

section

variable (opcode : Opcode)

include opcode

private theorem toNat_bits_triple (a b c : UInt16) :
    (triple opcode a b c).bits.toNat =
      opcode.byte.toNat + a.toNat * 0x100 + (b.toNat + c.toNat * 0x10000) * 0x1000000 := by
  have byteLt := opcode.byte.toNat_lt
  have aLt := a.toNat_lt
  have bLt := b.toNat_lt
  have cLt := c.toNat_lt
  simp only [triple, UInt64.toNat_ofNat']
  omega

private theorem toNat_bits_offsetForm (a : UInt16) (offset : Int32) :
    (offsetForm opcode a offset).bits.toNat =
      opcode.byte.toNat + a.toNat * 0x100 + offset.toUInt32.toNat * 0x100 * 0x1000000 := by
  have byteLt := opcode.byte.toNat_lt
  have aLt := a.toNat_lt
  have offsetLt := offset.toUInt32.toNat_lt
  simp only [offsetForm, UInt64.toNat_ofNat']
  omega

private theorem toNat_bits_immediateForm (a : UInt16) (kind : ImmediateKind) (value : UInt32) :
    (immediateForm opcode a kind value).bits.toNat =
      opcode.byte.toNat + a.toNat * 0x100 +
        (kind.code.toNat + value.toNat * 0x100) * 0x1000000 := by
  have byteLt := opcode.byte.toNat_lt
  have aLt := a.toNat_lt
  have kindLt := kind.code.toNat_lt
  have valueLt := value.toNat_lt
  simp only [immediateForm, UInt64.toNat_ofNat']
  omega

variable {opcode} {word : Word} {a : UInt16} {upper : Nat}

-- The three forms differ above the lowest 24 bits only.
private theorem opcode?_of_bits
    (bits : word.bits.toNat = opcode.byte.toNat + a.toNat * 0x100 + upper * 0x1000000) :
    word.opcode? = some opcode := by
  have lowest : word.opByte = opcode.byte := by
    apply UInt8.toNat_inj.mp
    have byteLt := opcode.byte.toNat_lt
    simp only [opByte, bits, UInt8.toNat_ofNat']
    omega
  rw [opcode?, lowest, Opcode.ofByte?_byte]

private theorem a_of_bits
    (bits : word.bits.toNat = opcode.byte.toNat + a.toNat * 0x100 + upper * 0x1000000) :
    word.a = a := by
  apply UInt16.toNat_inj.mp
  have byteLt := opcode.byte.toNat_lt
  have aLt := a.toNat_lt
  simp only [Word.a, bits, UInt16.toNat_ofNat']
  omega

private theorem upper_of_bits
    (bits : word.bits.toNat = opcode.byte.toNat + a.toNat * 0x100 + upper * 0x1000000) :
    word.bits.toNat / 0x1000000 = upper := by
  have byteLt := opcode.byte.toNat_lt
  have aLt := a.toNat_lt
  omega

variable (opcode)

@[simp] theorem opcode?_triple (a b c : UInt16) : (triple opcode a b c).opcode? = some opcode :=
  opcode?_of_bits (toNat_bits_triple opcode a b c)

@[simp] theorem a_triple (a b c : UInt16) : (triple opcode a b c).a = a :=
  a_of_bits (toNat_bits_triple opcode a b c)

@[simp] theorem b_triple (a b c : UInt16) : (triple opcode a b c).b = b := by
  apply UInt16.toNat_inj.mp
  have upper := upper_of_bits (toNat_bits_triple opcode a b c)
  have bLt := b.toNat_lt
  simp only [Word.b, upper, UInt16.toNat_ofNat']
  omega

@[simp] theorem c_triple (a b c : UInt16) : (triple opcode a b c).c = c := by
  apply UInt16.toNat_inj.mp
  have upper := upper_of_bits (toNat_bits_triple opcode a b c)
  have bLt := b.toNat_lt
  have cLt := c.toNat_lt
  simp only [Word.c, UInt16.toNat_ofNat']
  omega

@[simp] theorem opcode?_offsetForm (a : UInt16) (offset : Int32) :
    (offsetForm opcode a offset).opcode? = some opcode :=
  opcode?_of_bits (toNat_bits_offsetForm opcode a offset)

@[simp] theorem a_offsetForm (a : UInt16) (offset : Int32) :
    (offsetForm opcode a offset).a = a :=
  a_of_bits (toNat_bits_offsetForm opcode a offset)

@[simp] theorem offset_offsetForm (a : UInt16) (offset : Int32) :
    (offsetForm opcode a offset).offset = offset := by
  have upper : (offsetForm opcode a offset).bits.toNat / 0x100000000 =
      offset.toUInt32.toNat := by
    have shifted := upper_of_bits (toNat_bits_offsetForm opcode a offset)
    omega
  rw [Word.offset, upper, UInt32.ofNat_toNat, Int32.toInt32_toUInt32]

@[simp] theorem opcode?_immediateForm (a : UInt16) (kind : ImmediateKind) (value : UInt32) :
    (immediateForm opcode a kind value).opcode? = some opcode :=
  opcode?_of_bits (toNat_bits_immediateForm opcode a kind value)

@[simp] theorem a_immediateForm (a : UInt16) (kind : ImmediateKind) (value : UInt32) :
    (immediateForm opcode a kind value).a = a :=
  a_of_bits (toNat_bits_immediateForm opcode a kind value)

@[simp] theorem kindCode_immediateForm (a : UInt16) (kind : ImmediateKind) (value : UInt32) :
    (immediateForm opcode a kind value).kindCode = kind.code := by
  apply UInt8.toNat_inj.mp
  have upper := upper_of_bits (toNat_bits_immediateForm opcode a kind value)
  have kindLt := kind.code.toNat_lt
  simp only [kindCode, upper, UInt8.toNat_ofNat']
  omega

@[simp] theorem offset_immediateForm (a : UInt16) (kind : ImmediateKind) (value : UInt32) :
    (immediateForm opcode a kind value).offset = value.toInt32 := by
  have upper : (immediateForm opcode a kind value).bits.toNat / 0x100000000 = value.toNat := by
    have shifted := upper_of_bits (toNat_bits_immediateForm opcode a kind value)
    have kindLt := kind.code.toNat_lt
    omega
  rw [Word.offset, upper, UInt32.ofNat_toNat]

theorem redirect_offsetForm (a : UInt16) (old new : Int32) :
    (offsetForm opcode a old).redirect new = offsetForm opcode a new := by
  have byteLt := opcode.byte.toNat_lt
  have aLt := a.toNat_lt
  have oldLt := old.toUInt32.toNat_lt
  have kept : (offsetForm opcode a old).bits.toNat % 0x100000000 =
      opcode.byte.toNat + a.toNat * 0x100 := by
    rw [toNat_bits_offsetForm]
    omega
  rw [redirect, kept]
  rfl

end

end Word

/-! ## One instruction -/

theorem Immediate.ofNarrow_of_narrow? {value : Immediate} {field}
    (narrowed : value.narrow? = some field) : Immediate.ofNarrow value.kind field = value := by
  cases value with
  | int value =>
    simp only [narrow?] at narrowed
    split at narrowed
    · rename_i fits
      have fieldEq := Option.some.inj narrowed
      have back : (Int32.ofInt value.toInt).toInt = value.toInt := by
        apply Int32.toInt_ofInt_of_le <;> omega
      subst fieldEq
      simp only [kind, ofNarrow, back, Int64.ofInt_toInt]
    · contradiction
  | float value => contradiction
  | bool value =>
    have fieldEq := Option.some.inj narrowed
    subst fieldEq
    cases value <;> rfl

namespace Instruction

def width (instruction : Instruction) : Nat := instruction.words.length

theorem width_eq_one_or_two (instruction : Instruction) :
    instruction.width = 1 ∨ instruction.width = 2 := by
  cases instruction with
  | loadImmediate dst value => cases narrowed : value.narrow? <;> simp [width, words, narrowed]
  | _ => simp [width, words]

@[simp] theorem width_jump (offset : Int32) : (jump offset).width = 1 := rfl

@[simp] theorem width_jumpIfFalse (condition : Slot) (offset : Int32) :
    (jumpIfFalse condition offset).width = 1 := rfl

theorem width_pos (instruction : Instruction) : 0 < instruction.width := by
  have cases := instruction.width_eq_one_or_two
  omega

theorem words_eq (instruction : Instruction) :
    ∃ first more, instruction.words = first :: more ∧ more.length ≤ 1 ∧
      ∀ (index : Nat) (rest : List Word),
        decodeWord index first (more ++ rest).head? = .ok (instruction, more.length + 1) := by
  cases instruction with
  | loadImmediate dst value =>
    cases narrowed : value.narrow? with
    | some field =>
      refine ⟨Word.loadImmediate dst value.kind field, [], by rw [words, narrowed], by simp, ?_⟩
      intro index rest
      have kindRead :
          ImmediateKind.ofCode? (Word.loadImmediate dst value.kind field).kindCode =
            some value.kind := by
        rw [Word.loadImmediate, Word.kindCode_immediateForm, ImmediateKind.ofCode?_code]
      rw [decodeWord]
      -- The kind goes first: simp would otherwise compute with the bits of the word.
      simp only [kindRead]
      simp [Word.loadImmediate, Immediate.ofNarrow_of_narrow? narrowed]
    | none =>
      refine ⟨Word.loadImmediateWide dst value.kind, [Word.payload value.bits],
        by rw [words, narrowed], by simp, ?_⟩
      intro index rest
      have kindRead :
          ImmediateKind.ofCode? (Word.loadImmediateWide dst value.kind).kindCode =
            some value.kind := by
        rw [Word.loadImmediateWide, Word.kindCode_immediateForm, ImmediateKind.ofCode?_code]
      rw [decodeWord]
      simp only [kindRead]
      simp [Word.loadImmediateWide, Word.payload, Immediate.ofBits_bits]
  | syncAcquire slot exclusive =>
    refine ⟨Word.syncAcquire slot exclusive, [], rfl, by simp, ?_⟩
    intro index rest
    rw [decodeWord]
    cases exclusive <;> simp [Word.syncAcquire]
  | _ =>
    refine ⟨_, [], rfl, by simp, ?_⟩
    intro index rest
    rw [decodeWord]
    simp [Word.nop, Word.loadConstant, Word.move, Word.jump, Word.jumpIfFalse, Word.ret,
      Word.retValue, Word.binary, Word.memberLoad, Word.memberStore, Word.syncRelease]

end Instruction

/-! ## Instruction sequences -/

def encode (code : List Instruction) : List Word := code.flatMap Instruction.words

@[simp] theorem encode_nil : encode [] = [] := rfl

@[simp] theorem encode_cons (instruction : Instruction) (rest : List Instruction) :
    encode (instruction :: rest) = instruction.words ++ encode rest := rfl

@[simp] theorem encode_append (first second : List Instruction) :
    encode (first ++ second) = encode first ++ encode second := by
  simp [encode]

/-- The number of words of an instruction sequence. -/
def extent (code : List Instruction) : Nat := (encode code).length

@[simp] theorem extent_nil : extent [] = 0 := rfl

@[simp] theorem extent_cons (instruction : Instruction) (rest : List Instruction) :
    extent (instruction :: rest) = instruction.width + extent rest := by
  simp [extent, Instruction.width]

@[simp] theorem extent_append (first second : List Instruction) :
    extent (first ++ second) = extent first + extent second := by
  simp [extent]

/-- The instructions of a sequence that starts at `index`, each with the index
of its first word. -/
def placed : Nat → List Instruction → List (Nat × Instruction)
  | _, [] => []
  | index, instruction :: rest => (index, instruction) :: placed (index + instruction.width) rest

theorem placed_append (index : Nat) (first second : List Instruction) :
    placed index (first ++ second) = placed index first ++ placed (index + extent first) second := by
  induction first generalizing index with
  | nil => simp [placed]
  | cons instruction rest ih =>
    simp only [List.cons_append, placed, extent_cons]
    rw [ih, Nat.add_assoc]

theorem mem_placed_iff {base index code instruction} :
    (index, instruction) ∈ placed base code ↔
      ∃ before after, code = before ++ instruction :: after ∧ index = base + extent before := by
  constructor
  · intro member
    induction code generalizing base with
    | nil => simp [placed] at member
    | cons head rest ih =>
      simp only [placed, List.mem_cons, Prod.mk.injEq] at member
      rcases member with ⟨indexEq, instructionEq⟩ | inRest
      · exact ⟨[], rest, by rw [instructionEq, List.nil_append], by simp [indexEq]⟩
      · obtain ⟨before, after, codeEq, indexEq⟩ := ih inRest
        refine ⟨head :: before, after, by rw [codeEq, List.cons_append], ?_⟩
        rw [indexEq, extent_cons, Nat.add_assoc]
  · rintro ⟨before, after, codeEq, indexEq⟩
    rw [codeEq, placed_append, indexEq]
    simp [placed]

theorem Decoding.extend_encode (code : List Instruction) (index : Nat)
    (items : Array (Nat × Instruction)) :
    Decoding.extend index items (encode code) =
      { items := items ++ placed index code, fault? := none } := by
  induction code generalizing index items with
  | nil => simp [Decoding.extend, placed]
  | cons instruction rest ih =>
    obtain ⟨first, more, wordsEq, short, decoded⟩ := instruction.words_eq
    have widthEq : instruction.width = more.length + 1 := by
      simp [Instruction.width, wordsEq]
    rw [encode_cons, wordsEq, List.cons_append, Decoding.extend, decoded]
    match more, short with
    | [], _ =>
      simp only [List.nil_append, List.length_nil] at widthEq ⊢
      rw [ih]
      simp [placed, widthEq]
    | [payload], _ =>
      simp only [List.length_singleton, List.singleton_append] at widthEq ⊢
      rw [ih]
      simp [placed, widthEq]

theorem Decoding.ofWords_encode (code : List Instruction) :
    Decoding.ofWords (encode code) = { items := (placed 0 code).toArray, fault? := none } := by
  rw [Decoding.ofWords, Decoding.extend_encode]
  simp

end SlotCompiler
