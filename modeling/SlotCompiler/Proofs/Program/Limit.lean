import SlotCompiler.Proofs.Program.Origin

/-!
Contract: what a limit on faults does to a compilation.
-/

namespace SlotCompiler

@[simp] theorem Config.stopsAfter_none (listsCode : Bool) (count : Nat) :
    (Config.mk none listsCode).stopsAfter count = false := rfl

@[simp] theorem Config.stopsAfter_some (limit : Nat) (listsCode : Bool) (count : Nat) :
    (Config.mk (some limit) listsCode).stopsAfter count = decide (limit ≤ count) := rfl

/-! ## Faults are kept -/

def Notes.Keeps (before after : Notes) : Prop := before.faults.toList <+: after.faults.toList

namespace Notes.Keeps

variable {before middle after : Notes}

theorem refl (notes : Notes) : notes.Keeps notes := List.prefix_refl _

theorem trans (early : before.Keeps middle) (late : middle.Keeps after) : before.Keeps after :=
  List.IsPrefix.trans early late

theorem ne_empty (keeps : before.Keeps after) (hasFaults : before.faults ≠ #[]) :
    after.faults ≠ #[] := by
  intro isEmpty
  have noneBefore : before.faults.toList <+: [] := by simpa [Notes.Keeps, isEmpty] using keeps
  exact hasFaults (Array.toList_eq_nil_iff.mp (List.prefix_nil.mp noneBefore))

end Notes.Keeps

namespace Pass

def KeepsFaults {α : Type} (pass : Pass α) : Prop := ∀ notes : Notes, notes.Keeps (pass notes).2

variable {α β : Type}

theorem keepsFaults_pure (value : α) : KeepsFaults (pure value : Pass α) := Notes.Keeps.refl

theorem keepsFaults_get : KeepsFaults (get : Pass Notes) := Notes.Keeps.refl

theorem keepsFaults_note (event : Event) : KeepsFaults (note event) :=
  fun _ => List.prefix_refl _

theorem keepsFaults_fault (cause : Cause) (position : Position) :
    KeepsFaults (fault cause position) := by
  intro notes
  show notes.faults.toList <+: (notes.faults.push _).toList
  rw [Array.toList_push]
  exact List.prefix_append _ _

theorem KeepsFaults.bind {first} {next : α → Pass β} (keeps : KeepsFaults first)
    (keepsNext : ∀ value, KeepsFaults (next value)) : KeepsFaults (first >>= next) :=
  fun notes => (keeps notes).trans (keepsNext (first notes).1 (first notes).2)

theorem compilePlaced_keepsFaults (config : Config) (types : TypeTable) (table : FunctionTable)
    (name : String) (layer : Nat) : KeepsFaults (compilePlaced config types table name layer) := by
  unfold compilePlaced
  split
  · exact keepsFaults_pure none
  split
  · exact keepsFaults_pure none
  split
  · exact (keepsFaults_fault _ _).bind fun _ => keepsFaults_pure none
  split
  · exact (keepsFaults_fault _ _).bind fun _ => keepsFaults_pure none
  · apply (keepsFaults_note _).bind
    intro _
    split
    · exact (keepsFaults_note _).bind fun _ => keepsFaults_pure _
    · exact keepsFaults_pure _

theorem compileAll_keepsFaults (config : Config) (types : TypeTable) (table : FunctionTable)
    (placed : List (String × Nat)) (given : Array FunctionCode) :
    KeepsFaults (compileAll config types table placed given) := by
  induction placed generalizing given with
  | nil => exact keepsFaults_pure given
  | cons placement rest ih =>
    obtain ⟨name, layer⟩ := placement
    apply keepsFaults_get.bind
    intro notes
    split
    · exact keepsFaults_pure given
    · apply (compilePlaced_keepsFaults config types table name layer).bind
      intro compiled?
      cases compiled? with
      | some function => exact ih (given.push function)
      | none => exact ih given

/-! ## Stopping at a limit -/

theorem compileAll_cons (config : Config) (types : TypeTable) (table : FunctionTable)
    (name : String) (layer : Nat) (rest : List (String × Nat)) (given : Array FunctionCode)
    (notes : Notes) :
    compileAll config types table ((name, layer) :: rest) given notes =
      if config.stopsAfter notes.faults.size then (given, notes)
      else
        compileAll config types table rest
          ((compilePlaced config types table name layer notes).1.elim given given.push)
          (compilePlaced config types table name layer notes).2 := by
  show (if config.stopsAfter notes.faults.size then pure given else _ : Pass _) notes = _
  split
  · rfl
  · rw [run_bind]
    cases (compilePlaced config types table name layer notes).1 with
    | some function => rfl
    | none => rfl

def AgreesUpTo {α : Type} (limit : Nat) (cut full : α × Notes) : Prop :=
  cut = full ∨ limit ≤ cut.2.faults.size ∧ cut.2.Keeps full.2

theorem compileAll_agreesUpTo (limit : Nat) (listsCode : Bool) (types : TypeTable)
    (table : FunctionTable) (placed : List (String × Nat)) (given : Array FunctionCode)
    (notes : Notes) :
    AgreesUpTo limit (compileAll ⟨some limit, listsCode⟩ types table placed given notes)
      (compileAll ⟨none, listsCode⟩ types table placed given notes) := by
  induction placed generalizing given notes with
  | nil => exact .inl rfl
  | cons placement rest ih =>
    obtain ⟨name, layer⟩ := placement
    by_cases isReached : limit ≤ notes.faults.size
    · have stopped : compileAll ⟨some limit, listsCode⟩ types table ((name, layer) :: rest)
          given notes = (given, notes) := by
        simp [compileAll_cons, isReached]
      rw [stopped]
      exact .inr ⟨isReached, compileAll_keepsFaults _ types table _ given notes⟩
    · simp only [compileAll_cons, Config.stopsAfter_some, Config.stopsAfter_none, isReached,
        decide_false, Bool.false_eq_true, if_false]
      -- The limit has no part in compiling one function.
      exact ih _ _

theorem compileAll_zero (listsCode : Bool) (types : TypeTable) (table : FunctionTable)
    (placed : List (String × Nat)) (given : Array FunctionCode) (notes : Notes) :
    compileAll ⟨some 0, listsCode⟩ types table placed given notes = (given, notes) := by
  cases placed with
  | nil => rfl
  | cons placement rest =>
    obtain ⟨name, layer⟩ := placement
    simp [compileAll_cons]

/-! ## Whole files -/

def beforeFunctions (file : File) : Pass (TypeTable × FunctionTable) := do
  let types ← structTypes file.structs.toList
  let table ← layerFunctions file.functions.toList
  return (types, table)

def compileFrom (config : Config) (early : (TypeTable × FunctionTable) × Notes) :
    Array FunctionCode × Notes :=
  compileAll config early.1.1 early.1.2 early.1.2.order #[] early.2

theorem compileFile_eq (config : Config) (file : File) (notes : Notes) :
    compileFile config file notes = let compiled := compileFrom config (beforeFunctions file notes)
      (⟨(beforeFunctions file notes).1.1, compiled.1⟩, compiled.2) := by
  rw [compileFile, run_bind, run_bind, run_bind, beforeFunctions, run_bind, run_bind]
  rfl

end Pass

/-! ## Whole sources -/

def beforeFunctions (source : Source) : (TypeTable × FunctionTable) × Notes :=
  Pass.beforeFunctions (parseSource source).1.file ⟨(parseSource source).1.faults, #[]⟩

def Config.outcome (config : Config) (types : TypeTable) (run : Array FunctionCode × Notes) :
    Except (List Diagnostic) Program :=
  if run.2.faults.isEmpty then .ok ⟨types, run.1⟩ else .error (config.shown run.2.faults.toList)

theorem compile_outcome_compileFile (config : Config) (source : Source) :
    let ran := Pass.compileFile config (parseSource source).1.file
      ⟨(parseSource source).1.faults, #[]⟩
    (compile config source).outcome =
      config.outcome ran.1.types (ran.1.functions, ran.2) := by
  unfold compile
  generalize parseSource source = parsed
  rfl

theorem compile_outcome (config : Config) (source : Source) :
    (compile config source).outcome =
      config.outcome (beforeFunctions source).1.1
        (Pass.compileFrom config (beforeFunctions source)) := by
  unfold compile beforeFunctions
  generalize parseSource source = parsed
  simp only [Pass.compileFile_eq, Config.outcome]

theorem Config.outcome_eq_mapError {limit cut full} (listsCode : Bool) (types : TypeTable)
    (agrees : Pass.AgreesUpTo limit cut full) (shows : cut = full ∨ cut.2.faults ≠ #[]) :
    (Config.mk (some limit) listsCode).outcome types cut =
      ((Config.mk none listsCode).outcome types full).mapError (List.take limit) := by
  have same (run : Array FunctionCode × Notes) :
      (Config.mk (some limit) listsCode).outcome types run =
        ((Config.mk none listsCode).outcome types run).mapError (List.take limit) := by
    unfold Config.outcome
    split <;> rfl
  rcases agrees with rfl | ⟨isReached, keeps⟩
  · exact same cut
  rcases shows with rfl | hasFaults
  · exact same cut
  have fullFaults := keeps.ne_empty hasFaults
  obtain ⟨later, faultsEq⟩ := keeps
  have takeEq : full.2.faults.toList.take limit = cut.2.faults.toList.take limit := by
    rw [← faultsEq, List.take_append_of_le_length isReached]
  simp [Config.outcome, hasFaults, fullFaults, Config.shown, Except.mapError, takeEq]

theorem compile_outcome_eq_mapError (source : Source) (listsCode : Bool) {limit}
    (shows : 0 < limit ∨ (beforeFunctions source).2.faults ≠ #[]) :
    (compile ⟨some limit, listsCode⟩ source).outcome =
      (compile ⟨none, listsCode⟩ source).outcome.mapError (List.take limit) := by
  rw [compile_outcome, compile_outcome]
  generalize beforeFunctions source = early at shows ⊢
  have agrees := Pass.compileAll_agreesUpTo limit listsCode early.1.1 early.1.2 early.1.2.order #[]
    early.2
  apply Config.outcome_eq_mapError listsCode _ agrees
  rcases agrees with same | ⟨isReached, keeps⟩
  · exact .inl same
  · right
    rcases shows with isPositive | hasFaults
    · exact Array.size_pos_iff.mp (isPositive.trans_le isReached)
    · exact (Pass.compileAll_keepsFaults _ _ _ _ _ early.2).ne_empty hasFaults

theorem Config.types_of_outcome {config : Config} {types run program}
    (succeeds : config.outcome types run = .ok program) : types = program.types := by
  unfold Config.outcome at succeeds
  split at succeeds
  · rw [← Except.ok.inj succeeds]
  · contradiction

private theorem mapError_eq_ok_iff {ε ε' α : Type} {f : ε → ε'} {outcome : Except ε α}
    {value} : outcome.mapError f = .ok value ↔ outcome = .ok value := by
  cases outcome <;> simp [Except.mapError]

theorem compile_outcome_zero (source : Source) (listsCode : Bool)
    (noFaults : (beforeFunctions source).2.faults = #[]) :
    (compile ⟨some 0, listsCode⟩ source).outcome = .ok ⟨(beforeFunctions source).1.1, #[]⟩ := by
  rw [compile_outcome, Pass.compileFrom, Pass.compileAll_zero]
  simp [Config.outcome, noFaults]

/-- A limit cuts the report short and changes nothing else, in exactly these cases:
it is above zero, a fault was found before any function was compiled, or there is no
function to compile.  In every other case the limit is zero, and the compilation
succeeds without any function, whatever faults the functions have. -/
theorem compile_limit_iff (source : Source) (listsCode : Bool) (limit : Nat) :
    ((compile ⟨some limit, listsCode⟩ source).outcome =
        (compile ⟨none, listsCode⟩ source).outcome.mapError (List.take limit) ↔
      (0 < limit ∨ (beforeFunctions source).2.faults ≠ #[]) ∨
        ∃ types, (compile ⟨none, listsCode⟩ source).outcome = .ok ⟨types, #[]⟩) ∧
    ((0 < limit ∨ (beforeFunctions source).2.faults ≠ #[]) ∨
      ∃ types, (compile ⟨some limit, listsCode⟩ source).outcome = .ok ⟨types, #[]⟩) := by
  by_cases shows : 0 < limit ∨ (beforeFunctions source).2.faults ≠ #[]
  · have cutShort := compile_outcome_eq_mapError source listsCode shows
    exact ⟨iff_of_true cutShort (.inl shows), .inl shows⟩
  · obtain ⟨isZero, noFaults⟩ := not_or.mp shows
    obtain rfl := Nat.eq_zero_of_not_pos isZero
    have cut := compile_outcome_zero source listsCode (not_not.mp noFaults)
    refine ⟨⟨fun same => .inr ?_, fun exempt => ?_⟩, .inr ⟨_, cut⟩⟩
    · rw [cut] at same
      exact ⟨_, mapError_eq_ok_iff.mp same.symm⟩
    · obtain ⟨types, full⟩ := exempt.resolve_left shows
      rw [cut, full, Config.types_of_outcome ((compile_outcome _ source).symm.trans full)]
      rfl

/-- A function that misses its return is a fault, and a limit of zero lets the
source compile all the same. -/
theorem compile_limit_zero_succeeds :
    (compile ⟨none, false⟩ ⟨"main", "fn f() -> int \x7b \x7d"⟩).outcome.isOk = false ∧
    (compile ⟨some 0, false⟩ ⟨"main", "fn f() -> int \x7b \x7d"⟩).outcome.isOk = true := by
  decide +kernel

end SlotCompiler
