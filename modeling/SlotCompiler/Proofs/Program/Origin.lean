import SlotCompiler.Proofs.Program.Function

/-!
Contract: where the functions of a program come from.
-/

namespace SlotCompiler

variable {config : Config} {function : FunctionCode}

namespace Pass

variable {items : List FunctionItem} {table : FunctionTable} {notes : Notes} {item : FunctionItem}
  {types : TypeTable}

theorem run_bind {α β : Type} (first : Pass α) (next : α → Pass β) (notes : Notes) :
    (first >>= next) notes = next (first notes).1 (first notes).2 := rfl

def IsCompiled (types : TypeTable) (items : List FunctionItem) (function : FunctionCode) : Prop :=
  ∃ item ∈ items, item.isBroken = false ∧ ∃ layer, compileFunction types item layer = .ok function

theorem placeFunctions_declared (declared : item ∈ (placeFunctions items table notes).1.declared) :
    item ∈ table.declared ∨ item ∈ items := by
  induction items generalizing table notes with
  | nil => exact .inl declared
  | cons function rest ih =>
    unfold placeFunctions at declared
    split at declared
    · rw [run_bind] at declared
      rcases ih declared with earlier | later
      · exact .inl earlier
      · exact .inr (List.mem_cons_of_mem _ later)
    · rw [run_bind] at declared
      rcases ih declared with earlier | later
      · rcases List.mem_append.mp earlier with earlier | same
        · exact .inl earlier
        · rw [List.mem_singleton.mp same]
          exact .inr List.mem_cons_self
      · exact .inr (List.mem_cons_of_mem _ later)

theorem layerFunctions_declared (declared : item ∈ (layerFunctions items notes).1.declared) :
    item ∈ items := by
  unfold layerFunctions at declared
  rw [run_bind, run_bind] at declared
  rcases placeFunctions_declared declared with impossible | member
  · exact absurd impossible List.not_mem_nil
  · exact member

theorem compilePlaced_isCompiled {name layer}
    (compiled : (compilePlaced config types table name layer notes).1 = some function) :
    IsCompiled types table.declared function := by
  unfold compilePlaced at compiled
  cases found : table.find? name with
  | none =>
    simp only [found] at compiled
    contradiction
  | some item =>
    simp only [found] at compiled
    cases isBroken : item.isBroken with
    | true =>
      simp only [isBroken] at compiled
      contradiction
    | false =>
      simp only [isBroken, Bool.false_eq_true, if_false] at compiled
      cases missing : table.missingCallee? item with
      | some callee =>
        simp only [missing] at compiled
        contradiction
      | none =>
        simp only [missing] at compiled
        cases outcome : compileFunction types item layer with
        | error diagnostic =>
          simp only [outcome] at compiled
          contradiction
        | ok code =>
          simp only [outcome] at compiled
          have same : code = function := by
            cases lists : config.listsCode with
            | true =>
              simp only [lists] at compiled
              exact Option.some.inj compiled
            | false =>
              simp only [lists] at compiled
              exact Option.some.inj compiled
          rw [same] at outcome
          exact ⟨item, List.mem_of_find?_eq_some found, isBroken, layer, outcome⟩

theorem compileAll_isCompiled {placed given}
    (givenCompiled : ∀ function ∈ given, IsCompiled types table.declared function) :
    ∀ function ∈ (compileAll config types table placed given notes).1,
      IsCompiled types table.declared function := by
  induction placed generalizing given notes with
  | nil => exact givenCompiled
  | cons placement rest ih =>
    obtain ⟨name, layer⟩ := placement
    unfold compileAll
    rw [run_bind, show (get : Pass Notes) notes = (notes, notes) from rfl]
    split
    · exact givenCompiled
    · rw [run_bind]
      cases compiled : (compilePlaced config types table name layer notes).1 with
      | some code =>
        apply ih
        intro function member
        rcases Array.mem_push.mp member with earlier | rfl
        · exact givenCompiled function earlier
        · exact compilePlaced_isCompiled compiled
      | none => exact ih givenCompiled

theorem compileFile_isCompiled {file}
    (member : function ∈ (compileFile config file notes).1.functions) :
    IsCompiled (compileFile config file notes).1.types file.functions.toList function := by
  have noneGiven : ∀ given ∈ (#[] : Array FunctionCode), IsCompiled
      (compileFile config file notes).1.types
      (layerFunctions file.functions.toList (structTypes file.structs.toList notes).2).1.declared
      given := fun given none => absurd none (Array.not_mem_empty given)
  obtain ⟨item, declared, ok⟩ := compileAll_isCompiled noneGiven function member
  exact ⟨item, layerFunctions_declared declared, ok⟩

end Pass

theorem compile_origin {source program} (compiled : (compile config source).outcome = .ok program)
    (member : function ∈ program.functions) :
    ∃ item ∈ (parseSource source).1.file.functions, item.isBroken = false ∧ item.IsRead ∧
      ∃ layer, compileFunction program.types item layer = .ok function := by
  unfold compile at compiled
  rcases parsedEq : parseSource source with ⟨parsed, input⟩
  simp only [parsedEq] at compiled
  rcases resultEq : Pass.compileFile config parsed.file ⟨parsed.faults, #[]⟩ with ⟨result, notes⟩
  simp only [resultEq] at compiled
  split at compiled
  · cases compiled
    have isMember : function ∈
        (Pass.compileFile config parsed.file ⟨parsed.faults, #[]⟩).1.functions := by
      rw [resultEq]
      exact member
    obtain ⟨item, inFile, isWhole, layer, ok⟩ := Pass.compileFile_isCompiled isMember
    have isRead := parseSource_functionsRead source
    rw [parsedEq] at isRead
    rw [resultEq] at ok
    have inFunctions := Array.mem_toList_iff.mp inFile
    exact ⟨item, inFunctions, isWhole, isRead item inFunctions isWhole, layer, ok⟩
  · contradiction

/-- The functions of the program that a source compiles to; none when it does
not compile. -/
def compiledFunctions (config : Config) (source : Source) : List FunctionCode :=
  match (compile config source).outcome with
  | .ok program => program.functions.toList
  | .error _ => []

theorem exists_compiledFunction {config source}
    {test : FunctionCode → Bool} {property : FunctionCode → Prop}
    (found : (compiledFunctions config source).any test = true)
    (holds : ∀ {program function},
      (compile config source).outcome = .ok program → function ∈ program.functions → property function) :
    ∃ function ∈ compiledFunctions config source, test function = true ∧ property function := by
  obtain ⟨function, member, passes⟩ := List.any_eq_true.mp found
  refine ⟨function, member, passes, ?_⟩
  unfold compiledFunctions at member
  cases outcome : (compile config source).outcome with
  | ok program =>
    rw [outcome] at member
    exact holds outcome (Array.mem_toList_iff.mp member)
  | error faults =>
    rw [outcome] at member
    exact absurd member List.not_mem_nil

end SlotCompiler
