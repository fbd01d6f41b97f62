import Mathlib.Logic.Relation
import SlotCompiler.Proofs.Machine.ControlFlow

/-!
Contract: what is collected along control paths.

## Upholding a rule

Control may leave a sequence and come back to it, so a rule is not upheld by a
sequence alone.  What is stated is that nothing goes wrong from the start of the
sequence on if nothing goes wrong from its end on.  To let a loop use this about
itself, the steps that nothing goes wrong for are counted.
-/

namespace SlotCompiler

/-- A state that control carries along.  Jumps do not change it. -/
structure Tracker (State : Type) where
  start : State
  after : Instruction → State → State
  after_jump : ∀ offset state, after (.jump offset) state = state
  after_jumpIfFalse : ∀ condition offset state, after (.jumpIfFalse condition offset) state = state

/-- A rule about the states that instructions are reached with.  It has nothing
to say about a plain jump. -/
structure Monitor (State : Type) extends Tracker State where
  permits : Instruction → State → Prop
  permits_jump : ∀ offset state, permits (.jump offset) state

attribute [simp] Tracker.after_jump Tracker.after_jumpIfFalse Monitor.permits_jump

variable {State : Type}

namespace Tracker

/-- Control that starts at the first word can come to an index with a state. -/
inductive Reaches (tracker : Tracker State) (words : List Word) : Nat → State → Prop where
  | start : tracker.Reaches words 0 tracker.start
  | step {index next state instruction} (here : tracker.Reaches words index state)
      (decoded : (index, instruction) ∈ (Decoding.ofWords words).items)
      (goes : next ∈ instruction.successors index) :
      tracker.Reaches words next (tracker.after instruction state)

def Step (tracker : Tracker State) (code : List Instruction) (here next : Nat × State) : Prop :=
  ∃ instruction, (here.1, instruction) ∈ placed 0 code ∧
    next.1 ∈ instruction.successors here.1 ∧ next.2 = tracker.after instruction here.2

abbrev Path (tracker : Tracker State) (code : List Instruction) :
    Nat × State → Nat × State → Prop :=
  Relation.ReflTransGen (tracker.Step code)

theorem reaches_encode_iff {tracker : Tracker State} {code index state} :
    tracker.Reaches (encode code) index state ↔
      tracker.Path code (0, tracker.start) (index, state) := by
  constructor
  · intro reaches
    induction reaches with
    | start => exact .refl
    | step _ decoded goes path =>
      rw [Decoding.ofWords_encode] at decoded
      exact path.tail ⟨_, List.mem_toArray.mp decoded, goes, rfl⟩
  · intro path
    -- The end of the path is a pair, and is kept as one for the induction.
    suffices general : ∀ place, tracker.Path code (0, tracker.start) place →
        tracker.Reaches (encode code) place.1 place.2 from general _ path
    intro place path
    induction path with
    | refl => exact .start
    | tail _ step reaches =>
      obtain ⟨instruction, isPlaced, goes, stateEq⟩ := step
      rw [stateEq]
      refine reaches.step ?_ goes
      rw [Decoding.ofWords_encode]
      exact List.mem_toArray.mpr isPlaced

end Tracker

theorem append_parts {α : Type} (before first second rest : List α) :
    before ++ (first ++ second) ++ rest = before ++ first ++ (second ++ rest) ∧
      before ++ (first ++ second) ++ rest = (before ++ first) ++ second ++ rest := by
  simp only [List.append_assoc, and_self]

theorem mem_placed_middle {whole before rest instruction}
    (wholeEq : whole = before ++ instruction :: rest) {place}
    (placeEq : place = extent before) : (place, instruction) ∈ placed 0 whole :=
  mem_placed_iff.mpr ⟨before, rest, wholeEq, by rw [placeEq, Nat.zero_add]⟩

namespace Monitor

/-! ## Rules that are upheld -/

def Safe (monitor : Monitor State) (code : List Instruction) (stops : Nat → Prop) :
    Nat → Nat → State → Prop
  | 0, _, _ => True
  | steps + 1, place, state => stops place ∨ ∃ instruction,
      (place, instruction) ∈ placed 0 code ∧ monitor.permits instruction state ∧
        ∀ next ∈ instruction.successors place,
          monitor.Safe code stops steps next (monitor.after instruction state)

def Upholds (monitor : Monitor State) (pre : State → Prop) (code : List Instruction)
    (post : State → Prop) : Prop :=
  ∀ (before rest : List Instruction) (stops : Nat → Prop) (steps : Nat),
    (∀ state, post state →
      monitor.Safe (before ++ code ++ rest) stops steps (extent before + extent code) state) →
    ∀ state, pre state → monitor.Safe (before ++ code ++ rest) stops steps (extent before) state

variable {monitor : Monitor State} {pre middle post : State → Prop} {stops : Nat → Prop}

theorem Safe.pred {code steps place state}
    (safe : monitor.Safe code stops (steps + 1) place state) :
    monitor.Safe code stops steps place state := by
  induction steps generalizing place state with
  | zero => exact trivial
  | succ steps ih =>
    rcases safe with mayStop | ⟨instruction, isPlaced, permitted, onward⟩
    · exact .inl mayStop
    · exact .inr ⟨instruction, isPlaced, permitted, fun next goes =>
        ih (onward next goes)⟩

theorem safe_of_placed {whole before rest instruction}
    (wholeEq : whole = before ++ instruction :: rest) {place} (placeEq : place = extent before)
    {steps state} (permitted : monitor.permits instruction state)
    (onward : ∀ next ∈ instruction.successors place,
      monitor.Safe whole stops steps next (monitor.after instruction state)) :
    monitor.Safe whole stops (steps + 1) place state :=
  .inr ⟨instruction, mem_placed_middle wholeEq placeEq, permitted, onward⟩

theorem Upholds.safe {part} (upholds : monitor.Upholds pre part post) {whole before rest}
    (wholeEq : whole = before ++ part ++ rest) {place} (placeEq : place = extent before) {steps}
    (onward : ∀ state, post state → monitor.Safe whole stops steps (place + extent part) state)
    {state} (entered : pre state) : monitor.Safe whole stops steps place state := by
  subst wholeEq placeEq
  exact upholds before rest stops steps onward state entered

theorem Upholds.mono {code} {stronger weaker : State → Prop}
    (upholds : monitor.Upholds pre code post) (entered : ∀ state, stronger state → pre state)
    (left : ∀ state, post state → weaker state) : monitor.Upholds stronger code weaker :=
  fun before rest stops steps onward state holds =>
    upholds before rest stops steps (fun state holds => onward state (left state holds)) state
      (entered state holds)

theorem Upholds.given {code} (upholds : monitor.Upholds pre code post) (fact : Prop) :
    monitor.Upholds (fun state => fact ∧ pre state) code (fun state => fact ∧ post state) :=
  fun before rest stops steps onward state ⟨holds, entered⟩ =>
    upholds before rest stops steps (fun state left => onward state ⟨holds, left⟩) state entered

theorem upholds_nil (monitor : Monitor State) (pre : State → Prop) : monitor.Upholds pre [] pre :=
  fun _ _ _ _ onward => onward

theorem upholds_of_false {code} (never : ∀ state, ¬ pre state) : monitor.Upholds pre code post :=
  fun _ _ _ _ _ state entered => absurd entered (never state)

theorem Upholds.append {first second} (early : monitor.Upholds pre first middle)
    (late : monitor.Upholds middle second post) : monitor.Upholds pre (first ++ second) post := by
  intro before rest stops steps onward state entered
  obtain ⟨firstWhole, secondWhole⟩ := append_parts before first second rest
  refine early.safe firstWhole rfl (fun state between => ?_) entered
  refine late.safe secondWhole (extent_append ..).symm (fun state left => ?_) between
  rw [Nat.add_assoc, ← extent_append]
  exact onward state left

theorem upholds_of_plain {instruction : Instruction} (plain : instruction.isPlain = true)
    (permitted : ∀ state, pre state →
      monitor.permits instruction state ∧ post (monitor.after instruction state)) :
    monitor.Upholds pre [instruction] post := by
  intro before rest stops steps onward state entered
  cases steps with
  | zero => exact trivial
  | succ steps =>
    obtain ⟨isPermitted, after⟩ := permitted state entered
    refine safe_of_placed (List.append_cons ..).symm rfl isPermitted fun next goes => ?_
    rw [Instruction.successors_of_isPlain plain, List.mem_singleton] at goes
    have safe := (onward _ after).pred
    simpa [goes] using safe

theorem upholds_of_final {instruction : Instruction}
    (final : ∀ index, instruction.successors index = [])
    (permitted : ∀ state, pre state → monitor.permits instruction state) :
    monitor.Upholds pre [instruction] post := by
  intro before rest stops steps _ state entered
  cases steps with
  | zero => exact trivial
  | succ steps =>
    refine safe_of_placed (List.append_cons ..).symm rfl (permitted state entered)
      fun next goes => ?_
    rw [final] at goes
    exact absurd goes List.not_mem_nil

theorem upholds_of_forall_plain {code} {invariant : State → Prop}
    (keeps : ∀ instruction ∈ code, instruction.isPlain = true ∧ ∀ state, invariant state →
      monitor.permits instruction state ∧ invariant (monitor.after instruction state)) :
    monitor.Upholds invariant code invariant := by
  induction code with
  | nil => exact upholds_nil monitor invariant
  | cons instruction rest ih =>
    obtain ⟨⟨plain, permitted⟩, restKeeps⟩ := List.forall_mem_cons.mp keeps
    exact (upholds_of_plain plain permitted).append (ih restKeeps)

theorem Upholds.permits_of_reaches {code leaves}
    (upholds : monitor.Upholds pre code fun _ => leaves) (starts : pre monitor.start) {index state}
    (reaches : monitor.Reaches (encode code) index state) :
    leaves ∧ index = extent code ∨
      ∃ instruction, (index, instruction) ∈ placed 0 code ∧ monitor.permits instruction state := by
  let stops (place : Nat) : Prop := leaves ∧ place = extent code
  have safe : ∀ steps, monitor.Safe code stops steps index state := by
    induction reaches with
    | start =>
      intro steps
      have wholeEq : code = [] ++ code ++ [] := by simp
      refine upholds.safe wholeEq rfl (fun state left => ?_) starts
      rw [extent_nil, Nat.zero_add]
      cases steps with
      | zero => exact trivial
      | succ steps => exact .inl ⟨left, rfl⟩
    | step _ decoded goes safe =>
      intro steps
      rw [Decoding.ofWords_encode] at decoded
      have isPlaced := List.mem_toArray.mp decoded
      rcases safe (steps + 1) with mayStop | ⟨found, foundPlaced, _, onward⟩
      · exact absurd (lt_of_mem_placed isPlaced) (Nat.not_lt.mpr mayStop.2.ge)
      · rw [placed_unique isPlaced foundPlaced] at goes ⊢
        exact onward _ goes
  rcases safe 1 with mayStop | ⟨instruction, isPlaced, permitted, _⟩
  · exact .inl mayStop
  · exact .inr ⟨instruction, isPlaced, permitted⟩

theorem Upholds.permits_of_decoded {code} (upholds : monitor.Upholds pre code post)
    (starts : pre monitor.start) {index state} (reaches : monitor.Reaches (encode code) index state)
    {instruction} (decoded : (index, instruction) ∈ (Decoding.ofWords (encode code)).items) :
    monitor.permits instruction state := by
  rw [Decoding.ofWords_encode] at decoded
  have isPlaced := List.mem_toArray.mp decoded
  have anyEnd := upholds.mono (fun _ => id) (fun _ _ => trivial)
  rcases anyEnd.permits_of_reaches starts reaches with atEnd | ⟨found, foundPlaced, permitted⟩
  · exact absurd (lt_of_mem_placed isPlaced) (Nat.not_lt.mpr atEnd.2.ge)
  · rwa [placed_unique isPlaced foundPlaced]

/-! ## Confined control -/

def free : Monitor Unit where
  start := ()
  after _ _ := ()
  after_jump _ _ := rfl
  after_jumpIfFalse _ _ _ := rfl
  permits _ _ := True
  permits_jump _ _ := trivial

end Monitor

theorem Reaches.free {words index} (reaches : Reaches words index) :
    Monitor.free.Reaches words index () := by
  induction reaches with
  | start => exact .start
  | step _ decoded goes here => exact here.step decoded goes

def Confines (code : List Instruction) (leaves : Prop) : Prop :=
  Monitor.free.Upholds (fun _ => True) code fun _ => leaves

section Confined

variable {code : List Instruction} {leaves : Prop}

theorem Confines.mono {more} (confines : Confines code leaves) (within : leaves → more) :
    Confines code more :=
  Monitor.Upholds.mono confines (fun _ => id) fun _ => within

theorem Confines.append {second laterLeaves} (early : Confines code leaves)
    (late : Confines second laterLeaves) : Confines (code ++ second) (leaves ∧ laterLeaves) := by
  have entered := (Monitor.Upholds.given late leaves).mono (fun _ left => ⟨left, trivial⟩) fun _ => id
  exact Monitor.Upholds.append early entered

theorem confines_nil : Confines [] True := Monitor.upholds_nil _ _

theorem confines_of_plain (plain : ∀ instruction ∈ code, instruction.isPlain = true) :
    Confines code True :=
  Monitor.upholds_of_forall_plain fun instruction member =>
    ⟨plain instruction member, fun _ _ => ⟨trivial, trivial⟩⟩

theorem confines_of_final (instruction : Instruction)
    (final : ∀ index, instruction.successors index = []) : Confines [instruction] False :=
  Monitor.upholds_of_final final fun _ _ => trivial

theorem Confines.placed_of_reaches (confines : Confines code False) {index}
    (reaches : SlotCompiler.Reaches (encode code) index) :
    ∃ instruction, (index, instruction) ∈ placed 0 code := by
  rcases Monitor.Upholds.permits_of_reaches confines trivial reaches.free with
    leaving | ⟨instruction, isPlaced, _⟩
  · exact leaving.1.elim
  · exact ⟨instruction, isPlaced⟩

end Confined

/-! ## Rules that are broken -/

def Tracker.Passes (tracker : Tracker State) (code : List Instruction) (entry exit : State) :
    Prop :=
  ∀ before rest : List Instruction, tracker.Path (before ++ code ++ rest) (extent before, entry)
    (extent before + extent code, exit)

def Monitor.Offends (monitor : Monitor State) (code : List Instruction) (place : Nat)
    (state : State) : Prop :=
  ∃ there instruction, monitor.Path code (place, state) there ∧
    (there.1, instruction) ∈ placed 0 code ∧ ¬ monitor.permits instruction there.2

def Monitor.Breaks (monitor : Monitor State) (code : List Instruction) (entry : State) : Prop :=
  ∀ before rest : List Instruction, monitor.Offends (before ++ code ++ rest) (extent before) entry

namespace Tracker

variable {tracker : Tracker State} {entry between exit : State}

theorem path_of_placed {whole before rest instruction}
    (wholeEq : whole = before ++ instruction :: rest) {place next} (placeEq : place = extent before)
    (goes : next ∈ instruction.successors place) {state} :
    tracker.Path whole (place, state) (next, tracker.after instruction state) :=
  .single ⟨instruction, mem_placed_middle wholeEq placeEq, goes, rfl⟩

theorem Passes.path {part} (passes : tracker.Passes part entry exit) {whole before rest}
    (wholeEq : whole = before ++ part ++ rest) {place} (placeEq : place = extent before) :
    tracker.Path whole (place, entry) (place + extent part, exit) := by
  subst wholeEq placeEq
  exact passes before rest

theorem passes_nil (tracker : Tracker State) (entry : State) : tracker.Passes [] entry entry :=
  fun _ _ => .refl

theorem Passes.append {first second} (early : tracker.Passes first entry between)
    (late : tracker.Passes second between exit) : tracker.Passes (first ++ second) entry exit := by
  intro before rest
  obtain ⟨firstWhole, secondWhole⟩ := append_parts before first second rest
  have onward := late.path secondWhole (extent_append ..).symm
  rw [Nat.add_assoc, ← extent_append first second] at onward
  exact (early.path firstWhole rfl).trans onward

theorem passes_of_plain {instruction : Instruction} (plain : instruction.isPlain = true) :
    tracker.Passes [instruction] entry (tracker.after instruction entry) := by
  intro before rest
  refine path_of_placed (List.append_cons ..).symm rfl ?_
  simp [Instruction.successors_of_isPlain plain]

theorem passes_of_forall_plain {code} (keeps : ∀ instruction ∈ code,
      instruction.isPlain = true ∧ tracker.after instruction entry = entry) :
    tracker.Passes code entry entry := by
  induction code with
  | nil => exact passes_nil tracker entry
  | cons instruction rest ih =>
    obtain ⟨⟨plain, kept⟩, restKeeps⟩ := List.forall_mem_cons.mp keeps
    have single : tracker.Passes [instruction] entry (tracker.after instruction entry) :=
      passes_of_plain plain
    rw [kept] at single
    exact single.append (ih restKeeps)

end Tracker

namespace Monitor

variable {monitor : Monitor State} {entry between : State}

theorem Offends.of_path {whole place next state later}
    (path : monitor.Path whole (place, state) (next, later))
    (offends : monitor.Offends whole next later) : monitor.Offends whole place state := by
  obtain ⟨there, instruction, onward, isPlaced, forbidden⟩ := offends
  exact ⟨there, instruction, path.trans onward, isPlaced, forbidden⟩

theorem Breaks.offends {part} (breaks : monitor.Breaks part entry)
    {whole before rest} (wholeEq : whole = before ++ part ++ rest) {place}
    (placeEq : place = extent before) : monitor.Offends whole place entry := by
  subst wholeEq placeEq
  exact breaks before rest

theorem breaks_of_not_permits {instruction}
    (forbidden : ¬ monitor.permits instruction entry) : monitor.Breaks [instruction] entry := by
  intro before rest
  exact ⟨_, instruction, .refl, mem_placed_middle (List.append_cons ..).symm rfl, forbidden⟩

theorem Breaks.append {first} (breaks : monitor.Breaks first entry)
    (second : List Instruction) : monitor.Breaks (first ++ second) entry := by
  intro before rest
  exact breaks.offends (append_parts before first second rest).1 rfl

theorem Breaks.after {first second} (breaks : monitor.Breaks second between)
    (passes : monitor.Passes first entry between) : monitor.Breaks (first ++ second) entry := by
  intro before rest
  obtain ⟨firstWhole, secondWhole⟩ := append_parts before first second rest
  exact .of_path (passes.path firstWhole rfl) (breaks.offends secondWhole (extent_append ..).symm)

theorem Breaks.exists_reaches {code} (breaks : monitor.Breaks code monitor.start) :
    ∃ index state instruction, monitor.Reaches (encode code) index state ∧
      (index, instruction) ∈ (Decoding.ofWords (encode code)).items ∧
      ¬ monitor.permits instruction state := by
  have wholeEq : code = [] ++ code ++ [] := by simp
  obtain ⟨⟨index, state⟩, instruction, path, isPlaced, forbidden⟩ := breaks.offends wholeEq rfl
  refine ⟨index, state, instruction, Tracker.reaches_encode_iff.mpr path, ?_, forbidden⟩
  rw [Decoding.ofWords_encode]
  exact List.mem_toArray.mpr isPlaced

end Monitor

end SlotCompiler
