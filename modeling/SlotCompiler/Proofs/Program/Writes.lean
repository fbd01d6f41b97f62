import SlotCompiler.Proofs.Emission.Sites
import SlotCompiler.Proofs.Emission.Writes
import SlotCompiler.Proofs.Program.Origin

/-!
Contract: variables that cannot be assigned to are written once.
-/

namespace SlotCompiler

variable {site : Site}

def FunctionCode.writers (function : FunctionCode) (slot : Slot) : List (Nat × Instruction) :=
  (Decoding.ofWords function.code.toList).items.toList.filter fun placement =>
    placement.2.destination? == some slot

/-- What is not mutable is written once, or not at all if it is a parameter.
The instruction that writes a constant belongs to its declaration. -/
structure FunctionCode.WritesOnce (function : FunctionCode) (parameters : List Parameter)
    (frame : Variables) (sites : List Site) : Prop where
  parameters : ∀ parameter ∈ parameters, parameter.isMutable = false →
    function.writers parameter.slot = []
  constants : ∀ site ∈ sites, ∀ name slot declared? value position,
    site.statement = .declaration name slot false declared? value position →
    ∃ placement ∈ placed site.offset site.code, function.writers slot = [placement]
  temporaries : ∀ slot entry, frame.get? slot = some entry → entry.isTemporary = true →
    ∃ placement, function.writers slot = [placement]

theorem Site.StandsIn.writes_le {code} (stands : site.StandsIn code)
    (slot : Slot) : writes site.code slot ≤ writes code slot := by
  obtain ⟨early, late, codeEq, _⟩ := stands
  rw [codeEq, writes_append, writes_append]
  omega

section Function

variable {function : FunctionCode} {types : TypeTable} {item : FunctionItem}
  {typed : TypedFunction} {code : List Instruction} {finish : Stock} {entered left : Context}

variable {slot : Slot} {entry : Variable}

namespace FunctionCode.ComesFrom

variable {slot : Slot} {entry : Variable}

section

variable (comesFrom : function.ComesFrom types item typed code finish)

include comesFrom

theorem frame_becomes (read : item.WasRead entered left) : item.frame.Becomes finish.frame :=
  (typeFunction_resolved read comesFrom.typedOk).1.retypes.becomes.trans comesFrom.emitted.becomes

theorem exists_sited (read : item.WasRead entered left) :
    ∃ sites, Sited (.nodes typed.body) [] code item.frame sites := by
  have fits := typeFunction_fits read comesFrom.typedOk
  rw [read.frame]
  exact comesFrom.emitted.exists_sited fits.body
    ⟨read.entered_bounded, fun _ none => absurd none List.not_mem_nil, read.lockDepth_eq_zero⟩
    fits.size_eq.ge

theorem length_writers (slot : Slot) : (function.writers slot).length = writes code slot := by
  unfold FunctionCode.writers
  rw [comesFrom.words_eq, Decoding.ofWords_encode, length_filter_placed, writes_append]
  have closed : writes (closing typed.returnType?) slot = 0 := by
    unfold closing
    split
    · exact writes_silent rfl slot
    · exact writes_nil slot
  rw [closed, Nat.add_zero]

theorem exists_writer (stands : site.StandsIn code) (positive : 0 < writes site.code slot) :
    ∃ placement ∈ placed site.offset site.code, placement ∈ function.writers slot := by
  obtain ⟨early, late, codeEq, offsetEq⟩ := stands
  obtain ⟨writer, inSite, isWriter⟩ := writes_pos_iff.mp positive
  obtain ⟨first, second, siteEq⟩ := List.append_of_mem inSite
  refine ⟨(site.offset + extent first, writer), mem_placed_iff.mpr ⟨first, second, siteEq, rfl⟩, ?_⟩
  unfold FunctionCode.writers
  rw [comesFrom.words_eq, Decoding.ofWords_encode]
  refine List.mem_filter.mpr ⟨?_, by simp [isWriter]⟩
  have wholeEq : code ++ closing typed.returnType? =
      (early ++ first) ++ writer :: (second ++ late ++ closing typed.returnType?) := by
    simp [codeEq, siteEq]
  exact mem_placed_middle wholeEq (by rw [offsetEq, extent_append])

theorem writes_fixed (read : item.WasRead entered left)
    (found : finish.frame.get? slot = some entry) (fixed : entry.isMutable = false) :
    writes code slot = share entered.frame.size finish.frame.size slot := by
  have fits := typeFunction_fits read comesFrom.typedOk
  have unassigned : slot ∉ blockAssigned typed.body := by
    intro assigned
    have resolved := (typeFunction_resolved read comesFrom.typedOk).1
    rw [resolved.body_eq, blockAssigned_numbered] at assigned
    obtain ⟨other, otherFound, mutable⟩ :=
      (comesFrom.frame_becomes read).isMutable (blockAssigned_isMutable resolved.accepted.2 assigned)
    rw [found] at otherFound
    cases otherFound
    rw [fixed] at mutable
    contradiction
  rw [comesFrom.emitted.writes_eq fits.body read.entered_bounded fits.size_eq.ge unassigned,
    ← fits.size_eq]
  exact share_add (fits.size_eq ▸ fits.body.grows.size_le) comesFrom.emitted.grows.size_le slot

theorem writers_parameter (read : item.WasRead entered left) {parameter}
    (member : parameter ∈ item.parameters) (fixed : parameter.isMutable = false) :
    function.writers parameter.slot = [] := by
  obtain ⟨entry, found, _, mutableEq⟩ := read.parameters.entry member
  have inFrame := (Array.getElem?_eq_some_iff.mp found).1
  have laterFrame := read.body.becomes.trans (read.frame ▸ comesFrom.frame_becomes read)
  obtain ⟨other, otherFound, same⟩ := laterFrame.keeps found
  have otherFixed : other.isMutable = false := by
    rw [Variable.isMutable_eq_of_untyped same, mutableEq, fixed]
  apply List.eq_nil_of_length_eq_zero
  rw [comesFrom.length_writers, comesFrom.writes_fixed read otherFound otherFixed]
  exact if_neg fun inRange => absurd inFrame (Nat.not_lt.mpr inRange.1)

theorem temporary_fixed (read : item.WasRead entered left)
    (found : finish.frame.get? slot = some entry) (isTemporary : entry.isTemporary = true) :
    entry.isMutable = false ∧ entered.frame.size ≤ slot.toNat := by
  have bodyBecomes := read.body.becomes.trans (read.frame ▸ comesFrom.frame_becomes read)
  constructor
  · have nothingYet : Variables.empty.FixesTemporaries := fun _ _ none => by
      contradiction
    exact (read.parameters.becomes.trans bodyBecomes).fixes nothingYet slot entry found isTemporary
  · by_contra isParameter
    -- The first slots belong to parameters, and those have names.
    have inParameters : slot.toNat < item.parameters.length := by
      rw [← read.entered_size]
      exact Nat.not_le.mp isParameter
    have numberEq := read.parameter_slot (List.getElem?_eq_getElem inParameters)
    obtain ⟨earlier, earlierFound, named, _⟩ :=
      read.parameters.entry (List.getElem_mem inParameters)
    rw [UInt16.toNat_inj.mp numberEq] at earlierFound
    obtain ⟨other, otherFound, same⟩ := bodyBecomes.keeps earlierFound
    rw [found] at otherFound
    cases otherFound
    rw [Variable.isTemporary_eq_of_untyped same, named] at isTemporary
    contradiction

theorem writers_temporary (read : item.WasRead entered left)
    (found : finish.frame.get? slot = some entry) (isTemporary : entry.isTemporary = true) :
    ∃ placement, function.writers slot = [placement] := by
  obtain ⟨fixed, afterParameters⟩ := comesFrom.temporary_fixed read found isTemporary
  have inFrame := (Array.getElem?_eq_some_iff.mp found).1
  apply List.length_eq_one_iff.mp
  rw [comesFrom.length_writers, comesFrom.writes_fixed read found fixed]
  exact if_pos ⟨afterParameters, inFrame⟩

theorem writers_constant (read : item.WasRead entered left) (stands : site.StandsIn code)
    (belongs : site.BelongsTo item.frame) {name declared? value position}
    (isDeclaration : site.statement = .declaration name slot false declared? value position) :
    ∃ placement ∈ placed site.offset site.code, function.writers slot = [placement] := by
  obtain ⟨before, after, stock, later, fits, becomes⟩ := belongs
  have siteRead := fits.read
  have siteEmitted := fits.emitted
  have room := fits.room
  rw [isDeclaration] at siteRead siteEmitted
  have .declaration initial declares := siteRead
  cases siteEmitted with
  | value loaded => cases loaded
  | declaration stored =>
    have takes := declares.takes
    have sizeEq := takes.size_eq
    have once := stored.writes_fresh initial fits.guarded.bounded takes.slot_eq (by omega)
    obtain ⟨entry, found, same⟩ :=
      (becomes.trans (comesFrom.frame_becomes read)).keeps declares.becomes.2
    have total := comesFrom.writes_fixed read found (Variable.isMutable_eq_of_untyped same)
    have lengthEq : (function.writers slot).length = 1 := by
      have atMostOne := share_le_one entered.frame.size finish.frame.size slot
      have atLeastOne := stands.writes_le slot
      rw [comesFrom.length_writers]
      omega
    obtain ⟨placement, writersEq⟩ := List.length_eq_one_iff.mp lengthEq
    obtain ⟨writer, isPlaced, isWriter⟩ :=
      comesFrom.exists_writer stands (Nat.lt_of_lt_of_eq one_pos once.symm)
    rw [writersEq, List.mem_singleton] at isWriter
    exact ⟨placement, isWriter ▸ isPlaced, writersEq⟩

end

end FunctionCode.ComesFrom

end Function

/-- In every function of a compiled program, no instruction writes a parameter
that is not mutable; exactly one writes a constant, in the code of its
declaration; and exactly one writes a temporary. -/
theorem compile_writesOnce {config : Config} {source : Source} {program : Program}
    (compiled : (compile config source).outcome = .ok program) {function : FunctionCode}
    (member : function ∈ program.functions) :
    ∃ item ∈ (parseSource source).1.file.functions, ∃ typed code finish sites,
      function.ComesFrom program.types item typed code finish ∧
      Sited (.nodes typed.body) [] code item.frame sites ∧
      function.WritesOnce item.parameters finish.frame sites := by
  obtain ⟨item, inFile, _, ⟨entered, left, read⟩, layer, ok⟩ := compile_origin compiled member
  obtain ⟨typed, code, finish, comesFrom⟩ := compileFunction_comesFrom ok
  obtain ⟨sites, sited⟩ := comesFrom.exists_sited read
  refine ⟨item, inFile, typed, code, finish, sites, comesFrom, sited, ?_, ?_, ?_⟩
  · exact fun parameter isParameter fixed => comesFrom.writers_parameter read isParameter fixed
  · exact fun site isSite _ _ _ _ _ isDeclaration => comesFrom.writers_constant read
      (sited.laid.stands site isSite) (sited.belong site isSite) isDeclaration
  · exact fun slot entry found isTemporary => comesFrom.writers_temporary read found isTemporary

/-- A constant that is declared in a loop, with temporaries of reading and of
emission, beside a mutable parameter that is assigned to. -/
theorem compile_writesOnce_loop :
    ∃ function ∈ compiledFunctions Config.standard ⟨"loop",
      "fn f(a: int, mut b: int) -> int \x7b
        while (a < b) \x7b const c = a * 2 + 1; b = b - c; \x7d return b; \x7d"⟩,
      ((function.writers 0).isEmpty && (function.writers 1).length == 1 &&
        (function.writers 5).length == 1) = true ∧
      ∃ types item typed code finish sites, function.ComesFrom types item typed code finish ∧
        Sited (.nodes typed.body) [] code item.frame sites ∧
        function.WritesOnce item.parameters finish.frame sites := by
  refine exists_compiledFunction (by decide +kernel) fun compiled member => ?_
  obtain ⟨item, _, found⟩ := compile_writesOnce compiled member
  exact ⟨_, item, found⟩

end SlotCompiler
