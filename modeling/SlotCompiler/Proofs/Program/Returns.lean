import SlotCompiler.Proofs.Emission.Locking
import SlotCompiler.Proofs.Program.Writes

/-!
Contract: what a return reads once it has given up its locks.

A value that takes code to compute ends up in a slot of its own, which no name
refers to and no lock is on.  A variable takes none, and the return reads it
where it is.
-/

namespace SlotCompiler

/-- The variable that an operand is, if there is nothing to compute. -/
def Operand.variable? : Operand → Option Slot
  | .variable slot => some slot
  | .node (.access ⟨source, [], _⟩) => some source
  | _ => none

section Operands

variable {value : Operand} {src : Slot} {before after : Context} {stock finish : Stock}
  {code : List Instruction}

theorem Loads.slot_eq_of_variable? (loads : Loads value src stock code finish) {slot}
    (isVariable : value.variable? = some slot) : src = slot := by
  cases loads with
  | held => exact Option.some.inj isVariable
  | @access chain _ _ _ =>
    obtain ⟨source, steps, position⟩ := chain
    cases steps with
    | nil => exact Option.some.inj isVariable
    | cons => contradiction
  | literal | string | binary => contradiction

theorem Reads.between_lastSlot {object step rest}
    (read : Reads (.steps (step :: rest)) before after) :
    Between before.frame.size after.frame.size (lastSlot object (step :: rest)) := by
  induction rest generalizing object step before with
  | nil =>
    have .moreSteps added tail := read
    cases tail
    exact ⟨added.takes.slot_eq.ge, added.takes.slot_lt⟩
  | cons next rest ih =>
    have .moreSteps added tail := read
    have within : Between _ _ (lastSlot step.destination (next :: rest)) := ih tail
    exact ⟨added.takes.grows.size_le.trans within.1, within.2⟩

theorem Loads.scratch_of_variable?_eq_none (loads : Loads value src stock code finish)
    (read : Reads (.operand value) before after) (computed : value.variable? = none) :
    Scratch before after stock finish src := by
  cases loads with
  | held => contradiction
  | literal allocated =>
    have adds := Stock.temporary?_adds allocated
    exact .inr ⟨adds.slot_eq.ge, adds.slot_lt⟩
  | string allocated interned =>
    have adds := Stock.temporary?_adds allocated
    exact .inr ⟨adds.slot_eq.ge, Stock.intern?_frame_eq interned ▸ adds.slot_lt⟩
  | @access chain _ _ _ =>
    rw [chain.valueSlot_eq]
    obtain ⟨source, steps, position⟩ := chain
    cases steps with
    | nil => contradiction
    | cons =>
      have .access _ projected := read
      exact .inl projected.between_lastSlot
  | binary =>
    have .binary leftRead rightRead added := read
    have grown := leftRead.grows.size_le.trans rightRead.grows.size_le
    exact .inl ⟨grown.trans added.takes.slot_eq.ge, added.takes.slot_lt⟩

theorem Loads.exists_writer_of_scratch (loads : Loads value src stock code finish)
    (read : Reads (.operand value) before after) (scratch : Scratch before after stock finish src) :
    ∃ instruction ∈ code, instruction.destination? = some src := by
  apply writes_pos_iff.mp
  rw [loads.writes_eq read]
  rcases scratch with inside | inside
  · have one : share before.frame.size after.frame.size src = 1 := if_pos inside
    omega
  · have one : share stock.frame.size finish.frame.size src = 1 := if_pos inside
    omega

end Operands

namespace Site

variable {site : Site} {value : Operand} {computed : List Instruction} {src : Slot}

/-- Once the code of a statement has released locks, it reads none of the slots
that are locked around the statement. -/
def AvoidsReleased (site : Site) : Prop :=
  ∀ early late count, site.code = early ++ .syncRelease count :: late →
    ∀ instruction ∈ late, ∀ lock ∈ site.locks, lock.slot ∉ instruction.reads

/-- The code of a return of a value under locks. -/
structure Returns (site : Site) (value : Operand) (computed : List Instruction) (src : Slot) :
    Prop where
  code_eq : site.code =
    computed ++ [.syncRelease (UInt16.ofNat site.locks.length), .retValue src]
  computing : ∀ instruction ∈ computed, instruction.isComputing = true
  uncopied : ∀ slot, value.variable? = some slot → src = slot
  copied : value.variable? = none →
    (∃ instruction ∈ computed, instruction.destination? = some src) ∧
      ∀ lock ∈ site.locks, src ≠ lock.slot

theorem Returns.late_eq (returns : site.Returns value computed src) {early late count}
    (split : site.code = early ++ .syncRelease count :: late) : late = [.retValue src] := by
  rw [returns.code_eq, List.append_eq_append_iff] at split
  rcases split with ⟨between, _, restEq⟩ | ⟨between, computedEq, restEq⟩
  · cases between with
    | nil => simp_all
    | cons first others => cases others <;> simp_all
  · cases between with
    | nil => simp_all
    | cons first others =>
      -- The value is computed without any release.
      have isComputing := returns.computing first (by simp [computedEq])
      cases restEq
      contradiction

theorem Returns.avoidsReleased_iff (returns : site.Returns value computed src) :
    site.AvoidsReleased ↔ ∀ lock ∈ site.locks, value.variable? ≠ some lock.slot := by
  constructor
  · intro avoids lock isLock isVariable
    refine avoids _ _ _ returns.code_eq (.retValue src) (List.mem_singleton_self _) lock isLock ?_
    rw [returns.uncopied lock.slot isVariable]
    exact List.mem_singleton_self _
  · intro apart early late count split instruction isLate lock isLock isRead
    rw [returns.late_eq split, List.mem_singleton] at isLate
    rw [isLate] at isRead
    have same : lock.slot = src := List.mem_singleton.mp isRead
    cases found : value.variable? with
    | none => exact (returns.copied found).2 lock isLock same.symm
    | some slot =>
      apply apart lock isLock
      rw [found, same, returns.uncopied slot found]

theorem BelongsTo.exists_returns {frame} (belongs : site.BelongsTo frame) {count position}
    (isReturn : site.statement = .ret (some value) count position)
    (locked : site.locks ≠ []) : ∃ computed src, site.Returns value computed src := by
  obtain ⟨before, after, stock, finish, fits, _⟩ := belongs
  have siteRead := fits.read
  have siteEmitted := fits.emitted
  have later := (fits.guarded.reads siteRead).depth
  rw [isReturn] at siteRead siteEmitted
  generalize codeEq : site.code = code at siteEmitted
  have .retValue valueRead := siteRead
  cases siteEmitted with
  | value loaded => cases loaded
  | @retValue _ _ _ src _ _ computed loaded =>
    have room := valueRead.grows.size_le.trans fits.room
    refine ⟨computed, src, ?_, loaded.computing, fun _ => loaded.slot_eq_of_variable?, ?_⟩
    · rw [codeEq, later, releases, if_pos (List.length_pos_iff.mpr locked), List.append_assoc]
      rfl
    · intro isComputed
      have scratch := loaded.scratch_of_variable?_eq_none valueRead isComputed
      refine ⟨loaded.exists_writer_of_scratch valueRead scratch, ?_⟩
      rintro lock isLock rfl
      exact fits.guarded.bounded.not_scratch room (fits.guarded.held lock isLock) scratch

end Site

/-- In a compiled program, the code of every return of a value inside sync blocks
computes the value, releases the locks of all these blocks, and returns.  It
reads a locked slot after the release exactly if the value is a variable on its
own that one of the blocks names. -/
theorem compile_returns_avoidReleased_iff {config : Config} {source : Source} {program : Program}
    (compiled : (compile config source).outcome = .ok program) {function : FunctionCode}
    (member : function ∈ program.functions) :
    ∃ item ∈ (parseSource source).1.file.functions, ∃ typed code finish sites,
      function.ComesFrom program.types item typed code finish ∧
      Sited (.nodes typed.body) [] code item.frame sites ∧
      ∀ site ∈ sites, ∀ value count position, site.statement = .ret (some value) count position →
        site.locks ≠ [] →
        (∃ computed src, site.Returns value computed src) ∧
          (site.AvoidsReleased ↔ ∀ lock ∈ site.locks, value.variable? ≠ some lock.slot) := by
  obtain ⟨item, inFile, _, ⟨entered, left, read⟩, layer, ok⟩ := compile_origin compiled member
  obtain ⟨typed, code, finish, comesFrom⟩ := compileFunction_comesFrom ok
  obtain ⟨sites, sited⟩ := comesFrom.exists_sited read
  refine ⟨item, inFile, typed, code, finish, sites, comesFrom, sited, ?_⟩
  intro site isSite value count position isReturn locked
  obtain ⟨computed, src, returns⟩ := (sited.belong site isSite).exists_returns isReturn locked
  exact ⟨⟨computed, src, returns⟩, returns.avoidsReleased_iff⟩

/-- A sum and a variable are returned from inside the same sync blocks, the
variable being one of two that are locked. -/
theorem compile_returns_avoidReleased_iff_sum :
    ∃ function ∈ compiledFunctions Config.standard ⟨"sum",
      "fn f(a: int, b: int) -> int \x7b
        sync a \x7b sync mut b \x7b if (a < b) \x7b return a + b; \x7d return b; \x7d \x7d \x7d"⟩,
      ([(5, Instruction.syncRelease 2), (6, .retValue 3), (8, .syncRelease 2), (9, .retValue 1)].all
        fun placement => (Decoding.ofWords function.code.toList).items.contains placement) = true ∧
      ∃ types item typed code finish sites, function.ComesFrom types item typed code finish ∧
        Sited (.nodes typed.body) [] code item.frame sites ∧
        ∀ site ∈ sites, ∀ value count position,
          site.statement = .ret (some value) count position → site.locks ≠ [] →
          (∃ computed src, site.Returns value computed src) ∧
            (site.AvoidsReleased ↔ ∀ lock ∈ site.locks, value.variable? ≠ some lock.slot) := by
  refine exists_compiledFunction (by decide +kernel) fun compiled member => ?_
  obtain ⟨item, _, found⟩ := compile_returns_avoidReleased_iff compiled member
  exact ⟨_, item, found⟩

/-- The value of a variable is not copied before the lock on it is released. -/
theorem compile_return_reads_released :
    ∃ function ∈ compiledFunctions Config.standard ⟨"released",
      "fn f(a: int) -> int \x7b sync a \x7b return a; \x7d \x7d"⟩,
      (Decoding.ofWords function.code.toList).items.toList =
        [(0, .syncAcquire 0 false), (1, .syncRelease 1), (2, .retValue 0),
          (3, .syncRelease 1)] := by
  decide +kernel

end SlotCompiler
