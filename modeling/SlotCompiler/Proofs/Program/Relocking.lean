import SlotCompiler.Proofs.Emission.Relocking
import SlotCompiler.Proofs.Program.Origin

/-!
Contract: which compiled functions take a lock twice.
-/

namespace SlotCompiler

def FunctionCode.TakesLockTwice (function : FunctionCode) : Prop :=
  ∃ index held slot exclusive, ReachesHolding function.code.toList index held ∧
    (index, .syncAcquire slot exclusive) ∈ (Decoding.ofWords function.code.toList).items ∧
    ∃ lock ∈ held, lock.object = slot

theorem Instruction.relocks_eq_true_iff {instruction : Instruction} {held} :
    instruction.relocks held = true ↔
      ∃ slot exclusive, instruction = .syncAcquire slot exclusive ∧
        ∃ lock ∈ held, lock.object = slot := by
  cases instruction with
  | syncAcquire slot exclusive =>
    rw [Instruction.relocks, List.contains_iff_mem, List.mem_map]
    constructor
    · exact fun isHeld => ⟨slot, exclusive, rfl, isHeld⟩
    · rintro ⟨_, _, same, isHeld⟩
      cases same
      exact isHeld
  | _ => simp [Instruction.relocks]

theorem FunctionCode.takesLockTwice_iff {function : FunctionCode} :
    function.TakesLockTwice ↔
      ∃ index held instruction, Tracker.held.Reaches function.code.toList index held ∧
        (index, instruction) ∈ (Decoding.ofWords function.code.toList).items ∧
        ¬ Monitor.locksOnce.permits instruction held := by
  simp only [Monitor.locksOnce, Bool.not_eq_false, Instruction.relocks_eq_true_iff,
    ← reachesHolding_iff]
  constructor
  · rintro ⟨index, held, slot, exclusive, holding, decoded, isHeld⟩
    exact ⟨index, held, _, holding, decoded, slot, exclusive, rfl, isHeld⟩
  · rintro ⟨index, held, _, holding, decoded, slot, exclusive, rfl, isHeld⟩
    exact ⟨index, held, slot, exclusive, holding, decoded, isHeld⟩

section Function

variable {function : FunctionCode} {types : TypeTable} {item : FunctionItem}
  {typed : TypedFunction} {code : List Instruction} {finish : Stock} {entered left : Context}

theorem typeFunction_relocks {held} (read : item.WasRead entered left)
    (ok : typeFunction types item = .ok typed) :
    blockRelocks held typed.body = blockRelocks held item.body := by
  rw [(typeFunction_resolved read ok).1.body_eq, blockRelocks_numbered]

theorem upholds_closing (returnType? : Option TypeId) (pre : LockStack → Prop) :
    Monitor.locksOnce.Upholds pre (closing returnType?) fun _ => True := by
  unfold closing
  split
  · exact Monitor.upholds_of_final (fun _ => rfl) fun _ _ => rfl
  · exact (Monitor.upholds_nil _ pre).mono (fun _ => id) fun _ _ => trivial

theorem FunctionCode.ComesFrom.takesLockTwice_iff
    (comesFrom : function.ComesFrom types item typed code finish)
    (read : item.WasRead entered left) :
    function.TakesLockTwice ↔ blockRelocks [] item.body = true := by
  have fits := typeFunction_fits read comesFrom.typedOk
  rw [FunctionCode.takesLockTwice_iff, comesFrom.words_eq,
    ← typeFunction_relocks read comesFrom.typedOk]
  constructor
  · rintro ⟨index, held, instruction, reaches, decoded, forbidden⟩
    by_contra once
    have body : Monitor.locksOnce.Upholds (· = []) code _ :=
      comesFrom.emitted.upholds_locksOnce fits.body (Bool.eq_false_of_not_eq_true once)
    have whole := body.append (upholds_closing typed.returnType? _)
    exact forbidden (whole.permits_of_decoded rfl reaches decoded)
  · intro again
    have breaks : Monitor.locksOnce.Breaks code [] :=
      comesFrom.emitted.breaks_locksOnce fits.body again
    exact (breaks.append (closing typed.returnType?)).exists_reaches

end Function

/-- In a compiled program, the functions with a path that locks a slot twice are
those where control can come to a sync block that names a variable which a sync
block around it names too. -/
theorem compile_takesLockTwice_iff {config : Config} {source : Source} {program : Program}
    (compiled : (compile config source).outcome = .ok program) {function : FunctionCode}
    (member : function ∈ program.functions) :
    ∃ item ∈ (parseSource source).1.file.functions, ∃ layer,
      compileFunction program.types item layer = .ok function ∧
      (function.TakesLockTwice ↔ blockRelocks [] item.body = true) := by
  obtain ⟨item, inFile, _, ⟨entered, left, read⟩, layer, ok⟩ := compile_origin compiled member
  obtain ⟨typed, code, finish, comesFrom⟩ := compileFunction_comesFrom ok
  exact ⟨item, inFile, layer, ok, comesFrom.takesLockTwice_iff read⟩

/-- Two sync blocks that follow one another in a loop name the same variable,
and a third that is never entered names it inside the first one. -/
theorem compile_takesLockTwice_iff_sequence :
    ∃ function ∈ compiledFunctions Config.standard ⟨"sequence",
      "fn f(a: int, b: int) \x7bwhile (a < b) \x7b
        sync a \x7bsync b \x7breturn; sync a \x7b\x7d\x7d\x7d
        sync mut a \x7b\x7d\x7d\x7d"⟩,
      ((Decoding.ofWords function.code.toList).items.any fun placement =>
        decide (placement.2 = .syncAcquire 0 true)) = true ∧
      ¬ function.TakesLockTwice := by
  refine exists_compiledFunction (by decide +kernel) fun compiled member twice => ?_
  have once : ∀ item ∈ (parseSource ⟨"sequence",
      "fn f(a: int, b: int) \x7bwhile (a < b) \x7b
        sync a \x7bsync b \x7breturn; sync a \x7b\x7d\x7d\x7d
        sync mut a \x7b\x7d\x7d\x7d"⟩).1.file.functions, blockRelocks [] item.body = false := by
    decide +kernel
  obtain ⟨item, inFile, _, _, twiceIff⟩ := compile_takesLockTwice_iff compiled member
  rw [once item inFile] at twiceIff
  exact Bool.false_ne_true (twiceIff.mp twice)

/-- A sync block inside another one may name the same variable: the function
compiles, and locks it twice. -/
theorem compile_nested_sync_takesLockTwice :
    ∃ function ∈ compiledFunctions Config.standard ⟨"again",
      "fn f(mut a: int) \x7b sync mut a \x7b sync mut a \x7b \x7d \x7d \x7d"⟩,
      function.TakesLockTwice := by
  have found : ((compiledFunctions Config.standard ⟨"again",
      "fn f(mut a: int) \x7b sync mut a \x7b sync mut a \x7b \x7d \x7d \x7d"⟩).any fun function =>
        decide ((Decoding.ofWords function.code.toList).items.toList =
          [(0, .syncAcquire 0 true), (1, .syncAcquire 0 true), (2, .syncRelease 1),
            (3, .syncRelease 1), (4, .ret)])) = true := by
    decide +kernel
  obtain ⟨function, member, decided⟩ := List.any_eq_true.mp found
  have itemsEq := of_decide_eq_true decided
  have outer : (0, .syncAcquire 0 true) ∈ (Decoding.ofWords function.code.toList).items := by
    simp [← Array.mem_toList_iff, itemsEq]
  have inner : (1, .syncAcquire 0 true) ∈ (Decoding.ofWords function.code.toList).items := by
    simp [← Array.mem_toList_iff, itemsEq]
  have goes : 1 ∈ (Instruction.syncAcquire 0 true).successors 0 := by decide
  exact ⟨function, member, 1, _, 0, true, .step .start outer goes, inner, ⟨0, true⟩,
    List.mem_singleton_self _, rfl⟩

end SlotCompiler
