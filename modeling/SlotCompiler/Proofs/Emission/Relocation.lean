import SlotCompiler.Proofs.Emission.Layout
import SlotCompiler.Proofs.Tree.Placement

/-!
Contract: instructions do not depend on the words in front of them or on places.
-/

namespace SlotCompiler

open Emit

theorem array_modify_append {α : Type} (before after : Array α) (index : Nat) (change : α → α) :
    (before ++ after).modify (before.size + index) change = before ++ after.modify index change := by
  apply Array.ext_getElem?
  intro place
  grind

/-! ## Buffers -/

namespace CodeBuffer

def behind (before : Array Word) (buffer : CodeBuffer) : CodeBuffer :=
  { buffer with code := before ++ buffer.code }

variable (before : Array Word) (buffer : CodeBuffer)

theorem size_behind : (buffer.behind before).size = before.size + buffer.size :=
  Array.size_append

theorem emit_behind (given : Instruction) :
    (buffer.behind before).emit given = (buffer.emit given).behind before := by
  have pushed : ∀ (start : CodeBuffer) (word : Word),
      (start.behind before).push word = (start.push word).behind before := by
    intro start word
    simp [push, behind]
  exact List.foldl_hom (behind before) pushed

theorem distance_behind (index : Nat) :
    (buffer.behind before).size - (before.size + index) = buffer.size - index := by
  rw [size_behind, Nat.add_sub_add_left]

theorem landJump_behind (index : Nat) :
    landJump (before.size + index) (buffer.behind before) =
      overState (behind before) (landJump index buffer) := by
  unfold landJump
  rw [distance_behind]
  cases jumpOffset (buffer.size - index) with
  | ok offset =>
    simp only [overState, behind]
    rw [array_modify_append]
  | error fault => rfl

theorem jumpBack_behind (target : Nat) :
    jumpBack (before.size + target) (buffer.behind before) =
      overState (behind before) (jumpBack target buffer) := by
  unfold jumpBack
  rw [distance_behind]
  cases jumpOffset (buffer.size - target) with
  | ok offset =>
    simp only [overState]
    rw [emit_behind]
  | error fault => rfl

theorem intern_behind (text : String) :
    intern text (buffer.behind before) = overState (behind before) (intern text buffer) := by
  unfold intern
  cases found : buffer.constants.findIdx? (· == text) with
  | some number => simp only [behind, found, overState]
  | none =>
    by_cases room : buffer.constants.size < constantCapacity
    · simp only [behind, found, room, if_true, overState]
    · simp only [behind, found, room, if_false, overState]

end CodeBuffer

/-! ## Steps -/

theorem BufferFault.cause_ne_tooManyVariables (fault : BufferFault) (name : String) :
    fault.cause ≠ .tooManyVariables name := by
  intro same
  cases fault <;> cases same

def Diagnostic.inFunction (function : String) : Diagnostic → Diagnostic
  | ⟨.tooManyVariables _, position⟩ => ⟨.tooManyVariables function, position⟩
  | diagnostic => diagnostic

/-- How emission differs there: the function that it is for, the words in front,
the places of the tree, and for these reasons its diagnostics. -/
structure Relocation where
  origin : String
  function : String
  before : Array Word
  place : Position → Position
  diagnostic : Diagnostic → Diagnostic
  named : ∀ position, diagnostic ⟨.tooManyVariables origin, position⟩ =
    ⟨.tooManyVariables function, place position⟩
  nameless : ∀ {cause}, (∀ name, cause ≠ .tooManyVariables name) → ∀ position,
    diagnostic ⟨cause, position⟩ = ⟨cause, place position⟩

namespace Relocation

/-- Only the words in front and the name of the function are others. -/
def behind (function : String) (before : Array Word) : Relocation where
  origin := ""
  function := function
  before := before
  place := id
  diagnostic := Diagnostic.inFunction function
  named _ := rfl
  nameless {cause} notNamed position := by
    unfold Diagnostic.inFunction
    split
    · rename_i isNamed
      cases isNamed
      exact absurd rfl (notNamed _)
    · rfl

/-- Only the places are others. -/
def ofPlaces (function : String) (place : Position → Position) : Relocation where
  origin := function
  function := function
  before := #[]
  place := place
  diagnostic := Diagnostic.moved place
  named _ := rfl
  nameless _ _ := rfl

end Relocation

namespace EmitState

def behind (before : Array Word) (state : EmitState) : EmitState :=
  { state with buffer := state.buffer.behind before }

/-- Constants are added, and variables that are temporaries with a type. -/
structure GrowsTo (state later : EmitState) : Prop where
  constants : ∃ strings, later.buffer.constants = state.buffer.constants ++ strings
  frame : ∃ temporaries : Array Variable,
    later.frame.entries = state.frame.entries ++ temporaries ∧
      ∀ entry ∈ temporaries, entry.isTemporary = true ∧ entry.type?.isSome = true

theorem GrowsTo.of_eq {state later : EmitState}
    (sameConstants : later.buffer.constants = state.buffer.constants)
    (sameFrame : later.frame = state.frame) : state.GrowsTo later where
  constants := ⟨#[], by rw [sameConstants, Array.append_empty]⟩
  frame := ⟨#[], by rw [sameFrame, Array.append_empty], by simp⟩

theorem GrowsTo.trans {first second third : EmitState} (early : first.GrowsTo second)
    (late : second.GrowsTo third) : first.GrowsTo third := by
  obtain ⟨⟨earlyStrings, earlyConstants⟩, ⟨earlyEntries, earlyFrame, earlyTyped⟩⟩ := early
  obtain ⟨⟨lateStrings, lateConstants⟩, ⟨lateEntries, lateFrame, lateTyped⟩⟩ := late
  refine ⟨⟨earlyStrings ++ lateStrings, ?_⟩, ⟨earlyEntries ++ lateEntries, ?_, ?_⟩⟩
  · rw [lateConstants, earlyConstants, Array.append_assoc]
  · rw [lateFrame, earlyFrame, Array.append_assoc]
  · intro entry member
    rcases Array.mem_append.mp member with isEarly | isLate
    · exact earlyTyped entry isEarly
    · exact lateTyped entry isLate

end EmitState

theorem Variables.setType_addTemporary {frame later : Variables} {slot type}
    (added : frame.addTemporary = (some slot, later)) :
    ∃ entry : Variable, (later.setType slot type).entries = frame.entries ++ #[entry] ∧
      entry.isTemporary = true ∧ entry.type? = some type := by
  unfold addTemporary append at added
  by_cases hasRoom : frame.size < capacity
  · rw [if_pos hasRoom] at added
    cases added
    refine ⟨⟨s!"$t{frame.size}", true, false, some type⟩, ?_, rfl, rfl⟩
    have slotEq : (UInt16.ofNat frame.size).toNat = frame.entries.size + 0 :=
      UInt16.toNat_ofNat_of_lt' hasRoom
    simp only [setType]
    rw [slotEq, Array.push_eq_append, array_modify_append]
    rfl
  · rw [if_neg hasRoom] at added
    cases added

theorem Variables.eq_of_addTemporary_none {frame later : Variables}
    (refused : frame.addTemporary = (none, later)) : later = frame := by
  unfold addTemporary append at refused
  by_cases hasRoom : frame.size < capacity
  · rw [if_pos hasRoom] at refused
    cases refused
  · rw [if_neg hasRoom] at refused
    cases refused
    rfl

namespace Emit

variable {α β : Type}

theorem conditional_eq (position : Position) (conditions : List (Emit Slot))
    (blocks : List (Emit Unit)) :
    conditional position conditions blocks = (do
      let exits ← arms position #[] (conditions.zip blocks)
      blocks[conditions.length]?.getD (pure ())
      landAll position exits.toList) := by
  unfold conditional
  cases blocks[conditions.length]? <;> rfl

def relocated (there : Relocation) (moved : α → α) :
    EStateM.Result Diagnostic EmitState α → EStateM.Result Diagnostic EmitState α
  | .ok value state => .ok (moved value) (state.behind there.before)
  | .error fault state => .error (there.diagnostic fault) (state.behind there.before)

/-- Elsewhere `later` does what `step` does here, with `moved` for indices, and only
adds to variables and constants. -/
structure Alike (there : Relocation) (moved : α → α) (step later : Emit α) : Prop where
  relocates : ∀ state : EmitState, later (state.behind there.before) =
    relocated there moved (step state)
  grows : ∀ state : EmitState, state.GrowsTo (endState (step state))

theorem endState_edit (position : Position) (change : CodeBuffer.Edit α) (state : EmitState) :
    endState (edit position change state) = ⟨endState (change state.buffer), state.frame⟩ := by
  rcases state with ⟨buffer, frame⟩
  simp only [edit]
  cases change buffer <;> rfl

abbrev movedIndex (there : Relocation) (index : Nat) : Nat := there.before.size + index

namespace Alike

variable {there : Relocation} {position : Position}

theorem bind {moved : α → α} {movedNext : β → β} {step later} {next laterNext : α → Emit β}
    (first : Alike there moved step later)
    (rest : ∀ value, Alike there movedNext (next value) (laterNext (moved value))) :
    Alike there movedNext (step >>= next) (later >>= laterNext) := by
  constructor
  · intro state
    show EStateM.bind later laterNext (state.behind there.before) =
      relocated there movedNext (EStateM.bind step next state)
    simp only [EStateM.bind, first.relocates state]
    cases step state with
    | ok value middle => exact (rest value).relocates middle
    | error fault middle => rfl
  · intro state
    have early := first.grows state
    show state.GrowsTo (endState (EStateM.bind step next state))
    unfold EStateM.bind
    cases ran : step state with
    | ok value middle =>
      rw [ran] at early
      exact early.trans ((rest value).grows middle)
    | error fault middle =>
      rw [ran] at early
      exact early

theorem pure {moved : α → α} (value : α) :
    Alike there moved (Pure.pure value) (Pure.pure (moved value)) where
  relocates _ := rfl
  grows _ := .of_eq rfl rfl

theorem fail {cause} (nameless : ∀ name, cause ≠ .tooManyVariables name) :
    Alike there id (fail cause position : Emit α) (fail cause (there.place position)) where
  relocates state := by
    show EStateM.Result.error _ _ = EStateM.Result.error _ _
    rw [there.nameless nameless]
  grows _ := .of_eq rfl rfl

theorem instruction (given : Instruction) :
    Alike there id (instruction given) (instruction given) where
  relocates state := by
    show EStateM.Result.ok () _ = EStateM.Result.ok () _
    simp only [EmitState.behind, CodeBuffer.emit_behind]
  grows state := .of_eq (state.buffer.constants_emit given) rfl

theorem here : Alike there (movedIndex there) here here where
  relocates state := by
    show EStateM.Result.ok _ _ = EStateM.Result.ok _ _
    simp only [EmitState.behind, CodeBuffer.size_behind]
  grows _ := .of_eq rfl rfl

theorem placeholder (given : Instruction) :
    Alike there (movedIndex there) (placeholder given) (placeholder given) :=
  here.bind fun index => (instruction given).bind fun _ => pure index

theorem edit {change laterChange : CodeBuffer.Edit α}
    (same : ∀ buffer : CodeBuffer, laterChange (buffer.behind there.before) =
      overState (CodeBuffer.behind there.before) (change buffer))
    (grows : ∀ buffer : CodeBuffer, ∃ strings,
      (endState (change buffer)).constants = buffer.constants ++ strings) :
    Alike there id (Emit.edit position change)
      (Emit.edit (there.place position) laterChange) := by
  constructor
  · rintro ⟨buffer, frame⟩
    simp only [Emit.edit, EmitState.behind, same buffer]
    cases change buffer with
    | ok value after => rfl
    | error fault after =>
      have causeEq := there.nameless fault.cause_ne_tooManyVariables position
      simp only [overState, relocated, causeEq]
      rfl
  · intro state
    obtain ⟨strings, added⟩ := grows state.buffer
    have ends := endState_edit position change state
    refine ⟨⟨strings, ?_⟩, ⟨#[], ?_, by simp⟩⟩
    · rw [ends]
      exact added
    · rw [ends, Array.append_empty]

theorem landJump (index : Nat) :
    Alike there id (Emit.edit position (CodeBuffer.landJump index))
      (Emit.edit (there.place position) (CodeBuffer.landJump (movedIndex there index))) := by
  refine edit (fun buffer => buffer.landJump_behind there.before index) fun buffer => ⟨#[], ?_⟩
  unfold CodeBuffer.landJump
  cases CodeBuffer.jumpOffset (buffer.size - index) with
  | ok offset => exact Array.append_empty.symm
  | error fault => exact Array.append_empty.symm

theorem jumpBack (target : Nat) :
    Alike there id (Emit.edit position (CodeBuffer.jumpBack target))
      (Emit.edit (there.place position) (CodeBuffer.jumpBack (movedIndex there target))) := by
  refine edit (fun buffer => buffer.jumpBack_behind there.before target) fun buffer => ⟨#[], ?_⟩
  unfold CodeBuffer.jumpBack
  cases CodeBuffer.jumpOffset (buffer.size - target) with
  | ok offset => simp [endState]
  | error fault => exact Array.append_empty.symm

theorem intern (text : String) :
    Alike there id (Emit.edit position (CodeBuffer.intern text))
      (Emit.edit (there.place position) (CodeBuffer.intern text)) := by
  refine edit (fun buffer => buffer.intern_behind there.before text) fun buffer => ?_
  unfold CodeBuffer.intern
  cases buffer.constants.findIdx? (· == text) with
  | some number => exact ⟨#[], Array.append_empty.symm⟩
  | none =>
    by_cases room : buffer.constants.size < CodeBuffer.constantCapacity
    · simp only [room, if_true]
      exact ⟨#[text], Array.push_eq_append⟩
    · simp only [room, if_false]
      exact ⟨#[], Array.append_empty.symm⟩

theorem temporary (type : TypeId) :
    Alike there id (Emit.temporary there.origin type position)
      (Emit.temporary there.function type (there.place position)) := by
  constructor
  · rintro ⟨buffer, frame⟩
    simp only [Emit.temporary, EmitState.behind]
    rcases frame.addTemporary with ⟨_ | slot, later⟩
    · simp only [relocated, there.named]
      rfl
    · rfl
  · rintro ⟨buffer, frame⟩
    simp only [Emit.temporary]
    rcases added : frame.addTemporary with ⟨_ | slot, later⟩
    · exact .of_eq rfl (Variables.eq_of_addTemporary_none added)
    · obtain ⟨entry, entriesEq, isTemporary, typed⟩ :=
        @Variables.setType_addTemporary frame later slot type added
      refine ⟨⟨#[], Array.append_empty.symm⟩, ⟨#[entry], entriesEq, ?_⟩⟩
      intro other member
      rw [Array.mem_singleton.mp member, typed]
      exact ⟨isTemporary, rfl⟩

theorem loadString (text : String) (dst : Slot) :
    Alike there id (Emit.loadString text dst position)
      (Emit.loadString text dst (there.place position)) :=
  (intern text).bind fun _ => instruction _

theorem fieldNumber (field? : Option UInt16) :
    Alike there id (fieldNumber field? position)
      (fieldNumber field? (there.place position)) := by
  cases field? with
  | some number => exact pure number
  | none => exact fail fun _ => nofun

theorem projections (object : Slot) (steps : List MemberStep) :
    Alike there id (projections object steps)
      (projections object (steps.map (MemberStep.moved there.place))) := by
  induction steps generalizing object with
  | nil => exact pure ()
  | cons step rest ih =>
    apply (fieldNumber step.field?).bind
    intro number
    apply (instruction _).bind
    intro _
    exact ih step.destination

theorem into (operand : Operand) (dst : Slot) {source laterSource}
    (brought : Alike there id source laterSource) :
    Alike there id (Emit.into operand dst position source)
      (Emit.into (operand.moved there.place) dst (there.place position) laterSource) := by
  cases operand with
  | literal value => exact instruction _
  | string value => exact loadString value dst
  | «variable» | node | call =>
    apply brought.bind
    intro src
    by_cases same : src = dst
    · simp only [id, same, if_true]
      exact pure ()
    · simp only [id, same, if_false]
      exact instruction _

theorem acquire (locks : List Lock) : Alike there id (acquire locks) (acquire locks) := by
  induction locks with
  | nil => exact pure ()
  | cons lock rest ih => exact (instruction _).bind fun _ => ih

theorem ret (src? : Option Slot) (locks : Nat) :
    Alike there id (ret src? locks) (ret src? locks) := by
  rw [ret_eq]
  by_cases held : 0 < locks
  · simp only [held, if_true]
    exact (instruction _).bind fun _ => instruction _
  · simp only [held, if_false]
    exact instruction _

/-! ## Control flow -/

section ControlFlow

variable {conditions laterConditions : List (Emit Slot)} {blocks laterBlocks : List (Emit Unit)}

theorem arm {condition laterCondition block laterBlock}
    (tested : Alike there id condition laterCondition)
    (taken : Alike there id block laterBlock) :
    Alike there (movedIndex there) (Emit.arm position condition block)
      (Emit.arm (there.place position) laterCondition laterBlock) := by
  apply tested.bind
  intro slot
  apply (placeholder _).bind
  intro skip
  apply taken.bind
  intro _
  apply (placeholder _).bind
  intro exit
  exact (landJump skip).bind fun _ => pure exit

theorem arms (tested : List.Forall₂ (Alike there id) conditions laterConditions)
    (taken : List.Forall₂ (Alike there id) blocks laterBlocks) (exits : Array Nat) :
    Alike there (Array.map (movedIndex there)) (arms position exits (conditions.zip blocks))
      (arms (there.place position) (exits.map (movedIndex there))
        (laterConditions.zip laterBlocks)) := by
  induction tested generalizing exits blocks laterBlocks with
  | nil => exact pure exits
  | cons condition _ ih =>
    cases taken with
    | nil => exact pure exits
    | cons block rest =>
      apply (arm condition block).bind
      intro exit
      rw [← Array.map_push]
      exact ih rest (exits.push exit)

theorem landAll (exits : List Nat) :
    Alike there id (Emit.landAll position exits)
      (Emit.landAll (there.place position) (exits.map (movedIndex there))) := by
  induction exits with
  | nil => exact pure ()
  | cons index rest ih => exact (landJump index).bind fun _ => ih

theorem alternative (taken : List.Forall₂ (Alike there id) blocks laterBlocks)
    (place : Nat) :
    Alike there id (blocks[place]?.getD (Pure.pure ()))
      (laterBlocks[place]?.getD (Pure.pure ())) := by
  induction taken generalizing place with
  | nil => exact pure ()
  | cons block _ ih =>
    cases place with
    | zero => exact block
    | succ place => exact ih place

theorem conditional (tested : List.Forall₂ (Alike there id) conditions laterConditions)
    (taken : List.Forall₂ (Alike there id) blocks laterBlocks) :
    Alike there id (conditional position conditions blocks)
      (conditional (there.place position) laterConditions laterBlocks) := by
  rw [conditional_eq, conditional_eq, tested.length_eq]
  have emitted := @arms there position _ _ _ _ tested taken #[]
  rw [Array.map_empty] at emitted
  apply emitted.bind
  intro exits
  apply (alternative taken laterConditions.length).bind
  intro _
  rw [Array.toList_map]
  exact landAll exits.toList

theorem loop {condition laterCondition body laterBody}
    (tested : Alike there id condition laterCondition)
    (repeated : Alike there id body laterBody) :
    Alike there id (Emit.loop position condition body)
      (Emit.loop (there.place position) laterCondition laterBody) := by
  apply here.bind
  intro start
  apply tested.bind
  intro slot
  apply (placeholder _).bind
  intro exit
  apply repeated.bind
  intro _
  exact (jumpBack start).bind fun _ => landJump exit

end ControlFlow

end Alike

end Emit

/-! ## Trees -/

section Trees

variable (there : Relocation)

mutual

theorem Operand.load_alike (position : Position) (operand : Operand) :
    Emit.Alike there id (operand.load there.origin position)
      ((operand.moved there.place).load there.function (there.place position)) := by
  cases operand with
  | «variable» slot => exact .pure slot
  | literal value =>
    apply (Emit.Alike.temporary _).bind
    intro slot
    exact (Emit.Alike.instruction _).bind fun _ => .pure slot
  | string value =>
    apply (Emit.Alike.temporary _).bind
    intro slot
    exact (Emit.Alike.loadString value slot).bind fun _ => .pure slot
  | node inner =>
    apply (inner.emit_alike).bind
    intro _
    rw [inner.valueSlot?_moved]
    cases inner.valueSlot? with
    | some slot => exact .pure slot
    | none => exact .fail fun _ => nofun
  | call invoked => exact .fail fun _ => nofun

theorem Node.emit_alike (node : Node) :
    Emit.Alike there id (node.emit there.origin)
      ((node.moved there.place).emit there.function) := by
  cases node with
  | declaration _ slot _ _ value position => exact .into value slot (value.load_alike position)
  | assignment slot value position => exact .into value slot (value.load_alike position)
  | access chain => exact .projections chain.source chain.steps
  | memberAssignment target member field? value position =>
    simp only [Node.moved, Node.emit, target.valueSlot_moved]
    apply (Emit.Alike.projections target.source target.steps).bind
    intro _
    apply (value.load_alike position).bind
    intro src
    exact (Emit.Alike.fieldNumber field?).bind fun _ => .instruction _
  | ret value? locks position =>
    cases value? with
    | none => exact .ret none locks
    | some value => exact (value.load_alike position).bind fun src => .ret (some src) locks
  | binary operator lhs rhs destination position =>
    apply (lhs.load_alike position).bind
    intro left
    exact (rhs.load_alike position).bind fun _ => .instruction _
  | call invoked =>
    simp only [Node.moved, Node.emit, Call.position_moved]
    exact .fail fun _ => nofun
  | conditional conditions blocks position =>
    exact .conditional (loaders_alike position conditions) (blockEmitters_alike blocks)
  | loop condition body position =>
    exact .loop (condition.load_alike position) (emitNodes_alike body)
  | sync locks body position =>
    apply (Emit.Alike.acquire locks).bind
    intro _
    exact (emitNodes_alike body).bind fun _ => .instruction _

theorem loaders_alike (position : Position) (operands : List Operand) :
    List.Forall₂ (Emit.Alike there id) (loaders there.origin position operands)
      (loaders there.function (there.place position)
        (operandsMoved there.place operands)) := by
  cases operands with
  | nil => exact .nil
  | cons operand rest => exact .cons (operand.load_alike position) (loaders_alike position rest)

theorem emitNodes_alike (nodes : List Node) :
    Emit.Alike there id (emitNodes there.origin nodes)
      (emitNodes there.function (blockMoved there.place nodes)) := by
  cases nodes with
  | nil => exact .pure ()
  | cons node rest => exact (node.emit_alike).bind fun _ => emitNodes_alike rest

theorem blockEmitters_alike (blocks : List (List Node)) :
    List.Forall₂ (Emit.Alike there id) (blockEmitters there.origin blocks)
      (blockEmitters there.function (blocksMoved there.place blocks)) := by
  cases blocks with
  | nil => exact .nil
  | cons block rest => exact .cons (emitNodes_alike block) (blockEmitters_alike rest)

end

end Trees

/-! ## Places -/

namespace Emit

/-- With other places alone, emission differs in the place of its fault alone. -/
theorem Alike.eq_adaptExcept {function place} {step later : Emit Unit}
    (alike : Alike (.ofPlaces function place) id step later) :
    later = step.adaptExcept (Diagnostic.moved place) := by
  have nothing (state : EmitState) : state.behind #[] = state := by
    simp [EmitState.behind, CodeBuffer.behind]
  funext state
  have relocates : later (state.behind #[]) = _ := alike.relocates state
  rw [nothing] at relocates
  rw [relocates, EStateM.adaptExcept]
  cases step state with
  | ok value later => exact congrArg (EStateM.Result.ok value) (nothing later)
  | error fault later => exact congrArg (EStateM.Result.error _) (nothing later)

/-! ## Blocks -/

/-- The outcome of a run that ends in a state, by itself or with a fault. -/
def ended (fault? : Option Diagnostic) (state : EmitState) :
    EStateM.Result Diagnostic EmitState Unit :=
  fault?.elim (.ok () state) fun fault => .error fault state

theorem exists_relocated_eq_ended (result : EStateM.Result Diagnostic EmitState Unit) :
    ∃ fault?, ∀ function before, relocated (.behind function before) id result =
      ended (Option.map (Diagnostic.inFunction function) fault?)
        ((endState result).behind before) := by
  cases result with
  | ok value state => exact ⟨none, fun _ _ => rfl⟩
  | error fault state => exact ⟨some fault, fun _ _ => rfl⟩

theorem endState_ended (fault? : Option Diagnostic) (state : EmitState) :
    endState (ended fault? state) = state := by
  cases fault? <;> rfl

end Emit

theorem emitNodes_behind (function : String) (before : Array Word) (nodes : List Node)
    (state : EmitState) :
    emitNodes function nodes (state.behind before) =
      Emit.relocated (.behind function before) id (emitNodes "" nodes state) := by
  have relocates := (emitNodes_alike (.behind function before) nodes).relocates state
  rwa [show blockMoved (Relocation.behind function before).place nodes = nodes from
    blockMoved_id nodes] at relocates

/-- Emission of a block ends in one way behind any words and for a function of any
name, which shows only in its own diagnostic: it keeps the words, appends the same
ones, and adds the same constants and temporaries, all of them typed. -/
theorem emitBlock_position_independent (block : Block) (constants : Array String)
    (frame : Variables) :
    ∃ (fault? : Option Diagnostic) (words : Array Word) (strings : Array String)
      (temporaries : Array Variable),
      (∀ (function : String) (code : Array Word),
        emitBlock function block ⟨⟨code, constants⟩, frame⟩ =
          Emit.ended (fault?.map (Diagnostic.inFunction function))
            ⟨⟨code ++ words, constants ++ strings⟩, ⟨frame.entries ++ temporaries⟩⟩) ∧
      ∀ entry ∈ temporaries, entry.isTemporary = true ∧ entry.type?.isSome = true := by
  let start : EmitState := ⟨⟨#[], constants⟩, frame⟩
  let alone := emitNodes "" block start
  obtain ⟨⟨strings, stringsAdded⟩, ⟨temporaries, temporariesAdded, typed⟩⟩ :=
    (emitNodes_alike (.behind "" #[]) block).grows start
  obtain ⟨fault?, outcome⟩ := Emit.exists_relocated_eq_ended alone
  refine ⟨fault?, (endState alone).buffer.code, strings, temporaries, ?_, typed⟩
  intro function code
  have startEq : start.behind code = ⟨⟨code, constants⟩, frame⟩ := by
    simp [start, EmitState.behind, CodeBuffer.behind]
  have endEq : (endState alone).behind code =
      ⟨⟨code ++ (endState alone).buffer.code, constants ++ strings⟩,
        ⟨frame.entries ++ temporaries⟩⟩ := by
    rw [← stringsAdded, ← temporariesAdded]
    rfl
  rw [← startEq, ← endEq, ← outcome function code]
  exact emitNodes_behind function code block start

private def stoppedBlock : Block :=
  [.conditional [.literal (.bool true)] [[.assignment 0 (.string "b") ⟨0, 1, 1⟩]] ⟨0, 1, 1⟩,
    .call { name := "g", arguments := [], position := ⟨0, 2, 1⟩ }]

theorem emitBlock_position_independent_stopped :
    ∃ (fault? : Option Diagnostic) (words : Array Word) (strings : Array String)
      (temporaries : Array Variable),
      (∀ (function : String) (code : Array Word),
        emitBlock function stoppedBlock ⟨⟨code, #["a"]⟩, ⟨#[]⟩⟩ =
          Emit.ended (fault?.map (Diagnostic.inFunction function))
            ⟨⟨code ++ words, #["a"] ++ strings⟩, ⟨#[] ++ temporaries⟩⟩) ∧
      (∀ entry ∈ temporaries, entry.isTemporary = true ∧ entry.type?.isSome = true) ∧
      words.size = 4 ∧ strings = #["b"] ∧ temporaries.size = 1 := by
  obtain ⟨fault?, words, strings, temporaries, same, typed⟩ :=
    emitBlock_position_independent stoppedBlock #["a"] ⟨#[]⟩
  let finish := endState (emitBlock "f" stoppedBlock ⟨⟨#[], #["a"]⟩, ⟨#[]⟩⟩)
  have ends : finish = ⟨⟨#[] ++ words, #["a"] ++ strings⟩, ⟨#[] ++ temporaries⟩⟩ := by
    simp only [finish]
    rw [same "f" #[], Emit.endState_ended]
  have wordCount : finish.buffer.code.size = 4 := by decide +kernel
  have constants : finish.buffer.constants = #["a"] ++ #["b"] := by decide +kernel
  have entryCount : finish.frame.entries.size = 1 := by decide +kernel
  rw [ends] at wordCount constants entryCount
  refine ⟨fault?, words, strings, temporaries, same, typed, ?_, ?_, ?_⟩
  · simpa using wordCount
  · exact Array.append_right_inj _ |>.mp constants
  · simpa using entryCount

end SlotCompiler
