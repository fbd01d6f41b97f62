import SlotCompiler.Proofs.Emission.Locking
import SlotCompiler.Proofs.Program.Origin

/-!
Contract: the locks of compiled functions are balanced.
-/

namespace SlotCompiler

/-- Every path comes to a place with the same locks, releases only locks that
are held, and returns without any. -/
structure FunctionCode.BalancesLocks (function : FunctionCode) : Prop where
  oneStack : ∀ index, Reaches function.code.toList index →
    ∃! held, ReachesHolding function.code.toList index held
  covered : ∀ index held count, ReachesHolding function.code.toList index held →
    (index, .syncRelease count) ∈ (Decoding.ofWords function.code.toList).items →
    count.toNat ≤ held.length
  returnsFree : ∀ index held instruction, ReachesHolding function.code.toList index held →
    (index, instruction) ∈ (Decoding.ofWords function.code.toList).items →
    instruction.isReturn = true → held = []

/-- A sync block of a function takes its locks on top of what was held, still
has exactly those at its end, and gives them back there. -/
structure Guard.RestoresIn (guard : Guard) (words : List Word) : Prop where
  acquires : ∀ placement ∈ placed guard.start (acquisitions guard.locks),
    placement ∈ (Decoding.ofWords words).items
  releases : ∃ count : UInt16, count.toNat = guard.locks.length ∧
    (guard.release, .syncRelease count) ∈ (Decoding.ofWords words).items
  restores : ∃ outer, (∀ held, ReachesHolding words guard.start held → held = outer) ∧
    ∀ held, ReachesHolding words guard.release held →
      held = lockStack guard.locks ++ outer ∧ held.drop guard.locks.length = outer

theorem Instruction.eq_nil_of_isReturn {instruction : Instruction} {held}
    (permits : instruction.Permits held) (isReturn : instruction.isReturn = true) : held = [] := by
  cases instruction with
  | ret | retValue => exact permits
  | _ => contradiction

section Words

variable {words : List Word} {code : List Instruction} {exit : LockStack}
  {held : Nat → LockStack}

theorem Guard.Balances.restoresIn {guard : Guard} (balances : guard.Balances code held)
    (carries : Carries code [] exit held) : guard.RestoresIn (encode code) := by
  have countEq : (UInt16.ofNat guard.locks.length).toNat = guard.locks.length :=
    UInt16.toNat_ofNat_of_lt' balances.few
  obtain ⟨early, middle, late, codeEq, startEq, releaseEq⟩ := balances.stands
  have itemsEq := Decoding.ofWords_encode code
  refine ⟨?_, ⟨UInt16.ofNat guard.locks.length, countEq, ?_⟩, held guard.start, ?_, ?_⟩
  · intro placement member
    rw [itemsEq, codeEq]
    apply List.mem_toArray.mpr
    rw [placed_append, placed_append, placed_append, Nat.zero_add, ← startEq]
    exact List.mem_append_left _ (List.mem_append_left _ (List.mem_append_right _ member))
  · rw [itemsEq]
    apply List.mem_toArray.mpr
    exact mem_placed_iff.mpr ⟨_, late, codeEq, by rw [releaseEq, Nat.zero_add]⟩
  · intro stack holding
    exact (carries.held_eq holding).symm
  · intro stack holding
    have stackEq : stack = lockStack guard.locks ++ held guard.start := by
      rw [← carries.held_eq holding, balances.locked]
    refine ⟨stackEq, ?_⟩
    rw [stackEq, ← length_lockStack, List.drop_left]

end Words

section Function

variable {function : FunctionCode} {types : TypeTable} {item : FunctionItem}
  {typed : TypedFunction} {code : List Instruction} {finish : Stock} {entered left : Context}

theorem typeFunction_returnsUnder {limit held} (read : item.WasRead entered left)
    (ok : typeFunction types item = .ok typed) :
    blockReturnsUnder limit held typed.body = blockReturnsUnder limit held item.body := by
  rw [(typeFunction_resolved read ok).1.body_eq, blockReturnsUnder_numbered]

theorem FunctionCode.ComesFrom.guardsLocks
    (comesFrom : function.ComesFrom types item typed code finish) (read : item.WasRead entered left)
    (shallow : blockReturnsUnder 0xFFFF 0 item.body = true) {guards}
    (emitted : EmitsGuarded (.nodes typed.body) ⟨typed.frame, #[]⟩ code finish guards) :
    GuardsLocks (code ++ closing typed.returnType?) guards [] := by
  have fits := typeFunction_fits read comesFrom.typedOk
  have bodyLocks : GuardsLocks code guards [] := by
    have noLocks : ([] : LockStack).length = entered.scopes.lockDepth := read.lockDepth_eq_zero.symm
    apply emitted.guardsLocks fits.body noLocks
    exact (typeFunction_returnsUnder read comesFrom.typedOk).trans shallow
  have closed : GuardsLocks (closing typed.returnType?) [] [] := by
    unfold closing
    split
    · obtain ⟨_, returned⟩ := @carries_of_final .ret [] [] (fun _ => rfl) rfl
      exact guardsLocks_of_carries returned
    · exact guardsLocks_of_carries (carries_nil [])
  have joined := bodyLocks.append closed
  rwa [List.map_nil, List.append_nil] at joined

theorem FunctionCode.ComesFrom.balancesLocks {exit} {held : Nat → LockStack}
    (comesFrom : function.ComesFrom types item typed code finish)
    (carries : Carries (code ++ closing typed.returnType?) [] exit held) :
    function.BalancesLocks := by
  refine ⟨?_, ?_, ?_⟩ <;> rw [comesFrom.words_eq]
  · intro index reaches
    obtain ⟨stack, holding⟩ := reaches_iff_holding.mp reaches
    refine ⟨stack, holding, fun other alsoHolding => ?_⟩
    rw [← carries.held_eq alsoHolding, carries.held_eq holding]
  · intro index stack count holding decoded
    exact carries.permits_of_reaches holding decoded
  · intro index stack instruction holding decoded isReturn
    exact Instruction.eq_nil_of_isReturn (carries.permits_of_reaches holding decoded) isReturn

end Function

/-- In a program where no return stands under more locks than one release can
count, the locks of every function are balanced on every path, and each sync
block of its body gives back exactly the locks it took. -/
theorem compile_balancesLocks {config : Config} {source : Source} {program : Program}
    (compiled : (compile config source).outcome = .ok program)
    (shallow : ∀ item ∈ (parseSource source).1.file.functions,
      blockReturnsUnder 0xFFFF 0 item.body = true)
    {function : FunctionCode} (member : function ∈ program.functions) :
    function.BalancesLocks ∧
      ∃ item ∈ (parseSource source).1.file.functions, ∃ typed code finish guards,
        function.ComesFrom program.types item typed code finish ∧
        EmitsGuarded (.nodes typed.body) ⟨typed.frame, #[]⟩ code finish guards ∧
        ∀ guard ∈ guards, guard.RestoresIn function.code.toList := by
  obtain ⟨item, inFile, _, ⟨entered, left, read⟩, layer, ok⟩ := compile_origin compiled member
  obtain ⟨typed, code, finish, comesFrom⟩ := compileFunction_comesFrom ok
  obtain ⟨guards, emitted⟩ := comesFrom.emitted.exists_guards
  obtain ⟨held, carries, balances⟩ :=
    comesFrom.guardsLocks read (shallow item inFile) emitted
  refine ⟨comesFrom.balancesLocks carries, item, inFile, typed, code, finish, guards, comesFrom,
    emitted, ?_⟩
  intro guard isGuard
  rw [comesFrom.words_eq]
  exact (balances guard isGuard).restoresIn carries

/-- A return in a loop between two sync blocks gives up the three locks of both
with one release. -/
theorem compile_balancesLocks_nested :
    ∃ function ∈ compiledFunctions Config.standard ⟨"nested",
      "fn f(a: int, b: int) \x7bsync a, mut b \x7bwhile (a < b) \x7bsync a \x7breturn;\x7d\x7d\x7d\x7d"⟩,
      ((Decoding.ofWords function.code.toList).items.any fun placement =>
        decide (placement.2 = .syncRelease 3)) = true ∧
      function.BalancesLocks :=
  exists_compiledFunction (by decide +kernel) fun compiled member =>
    (compile_balancesLocks compiled (by decide +kernel) member).1

end SlotCompiler
