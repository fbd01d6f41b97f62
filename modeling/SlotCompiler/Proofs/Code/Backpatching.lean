import SlotCompiler.Proofs.Emission.Layout
import SlotCompiler.Proofs.Machine.Jumps

/-!
Contract: what runs of changes to a buffer leave behind.
-/

namespace SlotCompiler

open CodeBuffer

variable {index : Nat}

/-! ## Jumps with and without a condition -/

def Instruction.jumpOn (condition? : Option Slot) (offset : Int32) : Instruction :=
  condition?.elim (.jump offset) fun condition => .jumpIfFalse condition offset

def Word.jumpOn (condition? : Option Slot) (offset : Int32) : Word :=
  condition?.elim (Word.jump offset) fun condition => Word.jumpIfFalse condition offset

section JumpOn

variable (condition? : Option Slot) (offset : Int32)

@[simp] theorem Instruction.words_jumpOn :
    (Instruction.jumpOn condition? offset).words = [Word.jumpOn condition? offset] := by
  cases condition? <;> rfl

theorem Word.redirect_jumpOn (other : Int32) :
    (Word.jumpOn condition? offset).redirect other = Word.jumpOn condition? other := by
  cases condition? with
  | none => exact Word.redirect_offsetForm _ _ offset other
  | some condition => exact Word.redirect_offsetForm _ _ offset other

theorem decodeWord_jumpOn (index : Nat) (next? : Option Word) :
    decodeWord index (Word.jumpOn condition? offset) next? =
      .ok (Instruction.jumpOn condition? offset, 1) := by
  obtain ⟨first, more, wordsEq, _, decoded⟩ := (Instruction.jumpOn condition? offset).words_eq
  rw [Instruction.words_jumpOn] at wordsEq
  cases wordsEq
  have nextEq : ([] ++ next?.toList).head? = next? := by cases next? <;> rfl
  have whole := decoded index next?.toList
  rw [nextEq] at whole
  exact whole

theorem Instruction.jumpTarget?_jumpOn {distance} (near : distance < jumpReach) :
    (Instruction.jumpOn condition? (Int32.ofNat distance)).jumpTarget? index =
      some (index + distance) := by
  cases condition? with
  | none => exact Instruction.jumpTarget?_jump near
  | some condition => exact Instruction.jumpTarget?_jumpIfFalse near

end JumpOn

/-! ## Requests -/

/-- A change of the buffer that can be asked for. -/
inductive BufferRequest where
  | push (word : Word)
  | emit (instruction : Instruction)
  | openJump (condition? : Option Slot)
  | land (index : Nat)
  | jumpBack (target : Nat)
  | intern (text : String)
deriving DecidableEq, Repr

namespace BufferRequest

variable {target : Nat} {request : BufferRequest} {buffer start : CodeBuffer}
  {requests late : List BufferRequest} {opened : List Nat}

def append (change : CodeBuffer → CodeBuffer) : CodeBuffer.Edit (Option Nat) := do
  let buffer ← get
  set (change buffer)
  return some buffer.size

/-- Carry out a request.  A request that appends words gives the index of the
first one. -/
def perform : BufferRequest → CodeBuffer.Edit (Option Nat)
  | .push word => append (·.push word)
  | .emit given => append (·.emit given)
  | .openJump condition? => append (·.emit (.jumpOn condition? 0))
  | .land index => do
      CodeBuffer.landJump index
      return none
  | .jumpBack target => do
      let buffer ← get
      CodeBuffer.jumpBack target
      return some buffer.size
  | .intern text => do
      let _ ← CodeBuffer.intern text
      return none

def after (request : BufferRequest) (buffer : CodeBuffer) : CodeBuffer :=
  endState (request.perform buffer)

def succeeds (request : BufferRequest) (buffer : CodeBuffer) : Bool :=
  match request.perform buffer with
  | .ok _ _ => true
  | .error _ _ => false

def distance? (buffer : CodeBuffer) : BufferRequest → Option Nat
  | .land index => some (buffer.size - index)
  | .jumpBack target => some (buffer.size - target)
  | _ => none

def lands (index : Nat) (buffer : CodeBuffer) (request : BufferRequest) : Bool :=
  request = .land index && request.succeeds buffer

def appended (buffer : CodeBuffer) : BufferRequest → List Word
  | .push word => [word]
  | .emit given => given.words
  | .openJump condition? => [Word.jumpOn condition? 0]
  | .jumpBack target =>
    if buffer.size - target < jumpReach then
      [Word.jump (-Int32.ofNat (buffer.size - target))]
    else
      []
  | .land _ | .intern _ => []

section Step

variable (buffer : CodeBuffer)

theorem jumpOffset_eq (distance : Nat) :
    jumpOffset distance =
      if distance < jumpReach then .ok (Int32.ofNat distance) else .error (.jumpTooFar distance) :=
  rfl

theorem perform_land : (land index).perform buffer =
    if buffer.size - index < jumpReach then
      .ok none ⟨buffer.code.modify index (·.redirect (Int32.ofNat (buffer.size - index))),
        buffer.constants⟩
    else
      .error (.jumpTooFar (buffer.size - index)) buffer := by
  show EStateM.bind (landJump index) _ buffer = _
  simp only [EStateM.bind, landJump, jumpOffset_eq]
  split_ifs <;> rfl

theorem perform_jumpBack : (jumpBack target).perform buffer =
    if buffer.size - target < jumpReach then
      .ok (some buffer.size) (buffer.emit (.jump (-Int32.ofNat (buffer.size - target))))
    else
      .error (.jumpTooFar (buffer.size - target)) buffer := by
  show EStateM.bind (CodeBuffer.jumpBack target) _ buffer = _
  simp only [EStateM.bind, CodeBuffer.jumpBack, jumpOffset_eq]
  split_ifs <;> rfl

theorem words_after_intern (text : String) : ((intern text).after buffer).words = buffer.words := by
  show (endState (EStateM.bind (CodeBuffer.intern text) _ buffer)).words = buffer.words
  unfold EStateM.bind CodeBuffer.intern
  cases buffer.constants.findIdx? (· == text) with
  | some number => rfl
  | none =>
    by_cases room : buffer.constants.size < CodeBuffer.constantCapacity
    · simp only [room, if_true]
      rfl
    · simp only [room, if_false]
      rfl

theorem lands_iff :
    request.lands index buffer = true ↔
      request = .land index ∧ buffer.size - index < jumpReach := by
  unfold lands
  rw [Bool.and_eq_true, decide_eq_true_iff]
  apply and_congr_right
  rintro rfl
  unfold succeeds
  by_cases near : buffer.size - index < jumpReach
  · simp [perform_land, near]
  · simp [perform_land, near]

theorem words_after_land (near : buffer.size - index < jumpReach) :
    ((land index).after buffer).words = buffer.words.modify index fun word =>
      word.redirect (Int32.ofNat (buffer.size - index)) := by
  rw [after, perform_land, if_pos near]
  exact Array.toList_modify ..

theorem words_after (lies : ∀ index, request.lands index buffer = false) :
    (request.after buffer).words = buffer.words ++ request.appended buffer := by
  cases request with
  | push word => exact (Array.toList_push ..)
  | emit given => exact buffer.words_emit given
  | openJump condition? =>
    have emitted := buffer.words_emit (.jumpOn condition? 0)
    rw [Instruction.words_jumpOn] at emitted
    exact emitted
  | land index =>
    have far : ¬ buffer.size - index < jumpReach := by
      intro near
      have landed := (lands_iff buffer).mpr ⟨rfl, near⟩
      rw [lies index] at landed
      contradiction
    rw [after, perform_land, if_neg far]
    exact (List.append_nil _).symm
  | jumpBack target =>
    by_cases near : buffer.size - target < jumpReach
    · simp only [after, perform_jumpBack, appended, near, if_true]
      exact buffer.words_emit _
    · simp only [after, perform_jumpBack, appended, near, if_false]
      exact (List.append_nil _).symm
  | intern text =>
    rw [words_after_intern]
    exact (List.append_nil _).symm

theorem exists_words_after (request : BufferRequest) :
    ∃ kept : List Word, (request.after buffer).words = kept ++ request.appended buffer ∧
      kept.length = buffer.size ∧
      ∀ index, kept[index]? =
        if request.lands index buffer then
          buffer.words[index]?.map (·.redirect (Int32.ofNat (buffer.size - index)))
        else
          buffer.words[index]? := by
  by_cases landing : ∃ index, request.lands index buffer = true
  · obtain ⟨landed, lands⟩ := landing
    obtain ⟨rfl, near⟩ := (lands_iff buffer).mp lands
    refine ⟨buffer.words.modify landed (·.redirect (Int32.ofNat (buffer.size - landed))),
      ?_, ?_, ?_⟩
    · rw [words_after_land buffer near]
      exact (List.append_nil _).symm
    · rw [List.length_modify, length_words]
    · intro index
      rw [List.getElem?_modify]
      by_cases same : landed = index
      · subst same
        simp [lands]
      · have elsewhere : (land landed).lands index buffer = false := by
          simp [BufferRequest.lands, same]
        rw [elsewhere]
        simp [same]
  · have lies : ∀ index, request.lands index buffer = false := by
      intro index
      rw [← Bool.not_eq_true]
      exact not_exists.mp landing index
    refine ⟨buffer.words, words_after buffer lies, buffer.length_words, ?_⟩
    intro index
    rw [lies index]
    rfl

theorem size_after (request : BufferRequest) :
    (request.after buffer).size = buffer.size + (request.appended buffer).length := by
  obtain ⟨kept, wordsEq, keptLength, _⟩ := exists_words_after buffer request
  rw [← length_words, wordsEq, List.length_append, keptLength]

theorem lt_size_after (inside : index < buffer.size) (request : BufferRequest) :
    index < (request.after buffer).size := by
  rw [size_after]
  omega

theorem getElem?_words_after (inside : index < buffer.size) (request : BufferRequest) :
    (request.after buffer).words[index]? =
      if request.lands index buffer then
        buffer.words[index]?.map (·.redirect (Int32.ofNat (buffer.size - index)))
      else
        buffer.words[index]? := by
  obtain ⟨kept, wordsEq, keptLength, keptWords⟩ := exists_words_after buffer request
  rw [wordsEq, List.getElem?_append_left (keptLength ▸ inside), keptWords]

theorem getElem?_words_after_appended (request : BufferRequest) (place : Nat) :
    (request.after buffer).words[buffer.size + place]? = (request.appended buffer)[place]? := by
  obtain ⟨kept, wordsEq, keptLength, _⟩ := exists_words_after buffer request
  rw [wordsEq, List.getElem?_append_right (by omega), keptLength, Nat.add_sub_cancel_left]

theorem perform_eq_jumpTooFar_iff {distance later} :
    request.perform buffer = .error (.jumpTooFar distance) later ↔
      request.distance? buffer = some distance ∧ 0x7fffffff < distance ∧ later = buffer := by
  have far (covered : Nat) : ¬ covered < jumpReach ↔ 0x7fffffff < covered := by
    unfold jumpReach
    omega
  cases request with
  | push | emit | openJump =>
    constructor
    · intro refused
      cases refused
    · rintro ⟨unknown, _⟩
      cases unknown
  | land index =>
    rw [perform_land, distance?]
    have tooFar := far (buffer.size - index)
    split <;> grind
  | jumpBack target =>
    rw [perform_jumpBack, distance?]
    have tooFar := far (buffer.size - target)
    split <;> grind
  | intern text =>
    constructor
    · intro refused
      rcases bind_eq_error_iff.mp refused with failed | ⟨_, _, _, impossible⟩
      · unfold CodeBuffer.intern at failed
        split at failed
        · cases failed
        · split at failed <;> cases failed
      · cases impossible
    · rintro ⟨unknown, _⟩
      cases unknown

end Step

/-! ## Runs -/

def runFrom (buffer : CodeBuffer) (requests : List BufferRequest) : CodeBuffer :=
  requests.foldl (fun buffer request => request.after buffer) buffer

/-- A new buffer after requests one after the other. -/
abbrev run (requests : List BufferRequest) : CodeBuffer := runFrom .empty requests

def landings (index : Nat) : CodeBuffer → List BufferRequest → List Nat
  | _, [] => []
  | buffer, request :: rest =>
    (if request.lands index buffer then [buffer.size] else []) ++
      landings index (request.after buffer) rest

theorem landings_bounds (inside : index < buffer.size) :
    ∀ target ∈ landings index buffer requests, index < target ∧ target - index < jumpReach := by
  induction requests generalizing buffer with
  | nil =>
    intro target member
    cases member
  | cons request rest ih =>
    have later := lt_size_after buffer inside request
    intro target member
    rw [landings, List.mem_append] at member
    rcases member with now | afterwards
    · by_cases landed : request.lands index buffer = true
      · rw [if_pos landed, List.mem_singleton] at now
        rw [now]
        exact ⟨inside, ((lands_iff buffer).mp landed).2⟩
      · rw [if_neg landed] at now
        cases now
    · exact ih later target afterwards

theorem getElem?_runFrom_of_landings_eq_nil (inside : index < buffer.size)
    (untouched : landings index buffer requests = []) :
    (runFrom buffer requests).words[index]? = buffer.words[index]? := by
  induction requests generalizing buffer with
  | nil => rfl
  | cons request rest ih =>
    have later := lt_size_after buffer inside request
    obtain ⟨now, afterwards⟩ := List.append_eq_nil_iff.mp untouched
    have lies : ¬ request.lands index buffer = true := by
      intro landed
      rw [if_pos landed] at now
      cases now
    show (runFrom (request.after buffer) rest).words[index]? = _
    rw [ih later afterwards, getElem?_words_after buffer inside, if_neg lies]

theorem getElem?_runFrom_of_jumpOn {index condition? offset} {buffer : CodeBuffer} {requests}
    (found : buffer.words[index]? = some (Word.jumpOn condition? offset)) :
    (runFrom buffer requests).words[index]? = some (Word.jumpOn condition?
      ((landings index buffer requests).getLast?.elim offset fun target =>
        Int32.ofNat (target - index))) := by
  induction requests generalizing buffer offset with
  | nil => exact found
  | cons request rest ih =>
    have inside : index < buffer.size := by
      rw [← length_words]
      exact (List.getElem?_eq_some_iff.mp found).1
    have step := getElem?_words_after buffer inside request
    show (runFrom (request.after buffer) rest).words[index]? = _
    by_cases landed : request.lands index buffer = true
    · rw [if_pos landed, found, Option.map_some, Word.redirect_jumpOn] at step
      rw [ih step, landings, if_pos landed, List.getLast?_append]
      cases (landings index (request.after buffer) rest).getLast? <;> rfl
    · rw [if_neg landed, found] at step
      rw [ih step, landings, if_neg landed, List.nil_append]

theorem exists_request_of_lt (inside : index < (runFrom buffer requests).size) :
    index < buffer.size ∨ ∃ early request late, requests = early ++ request :: late ∧
      (runFrom buffer early).size ≤ index ∧
      index < (request.after (runFrom buffer early)).size := by
  induction requests generalizing buffer with
  | nil => exact .inl inside
  | cons request rest ih =>
    rcases ih inside with before | ⟨early, other, late, rfl, lower, upper⟩
    · by_cases old : index < buffer.size
      · exact .inl old
      · exact .inr ⟨[], request, rest, rfl, Nat.le_of_not_lt old, before⟩
    · exact .inr ⟨request :: early, other, late, rfl, lower, upper⟩

/-! ## The protocol -/

/-- The index that a request gives when it opens a jump. -/
def opened? (buffer : CodeBuffer) : BufferRequest → Option Nat
  | .openJump condition? =>
    match (openJump condition?).perform buffer with
    | .ok index? _ => index?
    | .error _ _ => none
  | _ => none

/-- Only open jumps are landed, and jumps back go to words that are there. -/
def allowed (opened : List Nat) (buffer : CodeBuffer) : BufferRequest → Bool
  | .land index => opened.contains index
  | .jumpBack target => target ≤ buffer.size
  | _ => true

/-- All requests are allowed, where some jumps were opened before. -/
def follows : List Nat → CodeBuffer → List BufferRequest → Bool
  | _, _, [] => true
  | opened, buffer, request :: rest =>
    request.allowed opened buffer &&
      follows (opened ++ (request.opened? buffer).toList) (request.after buffer) rest

theorem lt_size_after_of_opened (opened : request.opened? buffer = some index) :
    index = buffer.size ∧ index < (request.after buffer).size := by
  cases request with
  | openJump condition? =>
    cases opened
    rw [size_after]
    exact ⟨rfl, Nat.lt_succ_self _⟩
  | _ => cases opened

theorem follows_cut {early} (legal : follows opened buffer (early ++ late) = true)
    (inside : ∀ index ∈ opened, index < buffer.size) :
    ∃ known, (∀ index ∈ known, index < (runFrom buffer early).size) ∧
      follows known (runFrom buffer early) late = true := by
  induction early generalizing opened buffer with
  | nil => exact ⟨opened, inside, legal⟩
  | cons request rest ih =>
    obtain ⟨_, legalRest⟩ := Bool.and_eq_true_iff.mp legal
    apply ih legalRest
    intro index member
    rcases List.mem_append.mp member with known | isNew
    · exact lt_size_after buffer (inside index known) request
    · exact (lt_size_after_of_opened (Option.mem_toList.mp isNew)).2

theorem landings_eq_nil_of_follows (legal : follows opened buffer requests = true)
    (inside : index < buffer.size) (closed : index ∉ opened) :
    landings index buffer requests = [] := by
  induction requests generalizing opened buffer with
  | nil => rfl
  | cons request rest ih =>
    obtain ⟨permitted, legalRest⟩ := Bool.and_eq_true_iff.mp legal
    have lies : ¬ request.lands index buffer = true := by
      intro landed
      obtain ⟨rfl, _⟩ := (lands_iff buffer).mp landed
      exact closed (List.contains_iff_mem.mp permitted)
    have later := lt_size_after buffer inside request
    have stillClosed : index ∉ opened ++ (request.opened? buffer).toList := by
      intro member
      rcases List.mem_append.mp member with known | isNew
      · exact closed known
      · have same := (lt_size_after_of_opened (Option.mem_toList.mp isNew)).1
        omega
    rw [landings, if_neg lies, List.nil_append]
    exact ih legalRest later stillClosed

theorem getElem?_runFrom_of_follows {opened buffer request late}
    (legal : follows opened buffer (request :: late) = true)
    (inside : ∀ index ∈ opened, index < buffer.size) (opensNone : request.opened? buffer = none)
    {place} (isPlace : place < (request.appended buffer).length) :
    (runFrom buffer (request :: late)).words[buffer.size + place]? =
      (request.appended buffer)[place]? := by
  obtain ⟨_, legalLate⟩ := Bool.and_eq_true_iff.mp legal
  rw [opensNone, Option.toList_none, List.append_nil] at legalLate
  have within : buffer.size + place < (request.after buffer).size := by
    rw [size_after]
    omega
  have closed : buffer.size + place ∉ opened := by
    intro member
    have before := inside _ member
    omega
  show (runFrom (request.after buffer) late).words[buffer.size + place]? = _
  rw [getElem?_runFrom_of_landings_eq_nil within
      (landings_eq_nil_of_follows legalLate within closed),
    getElem?_words_after_appended]

/-! ## Words at the end of a run -/

def JumpsAt (buffer : CodeBuffer) (index : Nat) (condition? : Option Slot) (target : Nat) :
    Prop :=
  ∃ word offset, buffer.words[index]? = some word ∧
    decodeWord index word buffer.words[index + 1]? = .ok (.jumpOn condition? offset, 1) ∧
    (Instruction.jumpOn condition? offset).jumpTarget? index = some target

/-- What stands in the last buffer where a request appended its words to `start`:
a jump that goes where it was landed last, a jump back to its target, and in all
other places the word that was appended. -/
def Found (request : BufferRequest) (start : CodeBuffer) (late : List BufferRequest)
    (finish : CodeBuffer) : Prop :=
  match request with
  | .openJump condition? =>
    (landings start.size (request.after start) late).getLast?.elim
      (finish.words[start.size]? = some (Word.jumpOn condition? 0))
      (JumpsAt finish start.size condition?)
  | .jumpBack target => request.succeeds start = true → JumpsAt finish start.size none target
  | .push word => finish.words[start.size]? = some word
  | .emit given => ∀ place < given.words.length,
      finish.words[start.size + place]? = given.words[place]?
  | .land _ | .intern _ => True

theorem jumpsAt_of_near {condition?}
    (found : buffer.words[index]? = some (Word.jumpOn condition? (Int32.ofNat (target - index))))
    (forward : index < target) (near : target - index < jumpReach) :
    JumpsAt buffer index condition? target := by
  refine ⟨_, _, found, decodeWord_jumpOn _ _ _ _, ?_⟩
  rw [Instruction.jumpTarget?_jumpOn condition? near, Nat.add_sub_of_le forward.le]

theorem openJump_found (condition? : Option Slot) (start : CodeBuffer) (late : List BufferRequest) :
    (openJump condition?).Found start late (runFrom start (openJump condition? :: late)) := by
  let opened := (openJump condition?).after start
  have inside : start.size < opened.size := by
    rw [size_after]
    exact Nat.lt_succ_self _
  have placeholder : opened.words[start.size]? = some (Word.jumpOn condition? 0) :=
    getElem?_words_after_appended start (openJump condition?) 0
  have finish := @getElem?_runFrom_of_jumpOn _ _ _ _ late placeholder
  unfold Found
  cases last : (landings start.size opened late).getLast? with
  | none =>
    rw [last] at finish
    exact finish
  | some target =>
    rw [last] at finish
    obtain ⟨forward, near⟩ := landings_bounds inside target (List.mem_of_getLast? last)
    exact jumpsAt_of_near finish forward near

theorem jumpBack_found (legal : follows opened start (jumpBack target :: late) = true)
    (inside : ∀ index ∈ opened, index < start.size) :
    (jumpBack target).Found start late (runFrom start (jumpBack target :: late)) := by
  intro succeeded
  obtain ⟨permitted, _⟩ := Bool.and_eq_true_iff.mp legal
  have back : target ≤ start.size := of_decide_eq_true permitted
  have near : start.size - target < jumpReach := by
    by_contra far
    rw [succeeds, perform_jumpBack, if_neg far] at succeeded
    contradiction
  have appendedEq : (jumpBack target).appended start =
      [Word.jumpOn none (-Int32.ofNat (start.size - target))] := if_pos near
  have found := @getElem?_runFrom_of_follows _ _ _ _ legal inside rfl 0
    (by rw [appendedEq]; exact Nat.one_pos)
  rw [appendedEq] at found
  refine ⟨_, _, found, decodeWord_jumpOn _ _ _ _, ?_⟩
  have placeEq : target + (start.size - target) = start.size := Nat.add_sub_of_le back
  have goes := @Instruction.jumpTarget?_jump_back target _ near
  rw [placeEq] at goes
  exact goes

theorem found_of_follows (legal : follows opened start (request :: late) = true)
    (inside : ∀ index ∈ opened, index < start.size) :
    request.Found start late (runFrom start (request :: late)) := by
  cases request with
  | openJump condition? => exact openJump_found condition? start late
  | jumpBack target => exact jumpBack_found legal inside
  | push word => exact @getElem?_runFrom_of_follows _ _ _ _ legal inside rfl 0 Nat.one_pos
  | emit given =>
    intro place isPlace
    exact getElem?_runFrom_of_follows legal inside rfl isPlace
  | land | intern => trivial

/-- At the end of a run that follows the protocol, every word is one that some
request appended.  An opened jump is as it was opened, but goes to where the code
ended when it was landed last; a jump back goes to its target; all other words are
the ones that were appended.  A request is refused for its distance exactly when it
does not fit, and changes nothing then. -/
theorem run_backpatches (requests : List BufferRequest)
    (legal : follows [] .empty requests = true) :
    (∀ early request late, requests = early ++ request :: late →
      request.Found (run early) late (run requests) ∧
      ∀ distance later, request.perform (run early) = .error (.jumpTooFar distance) later ↔
        request.distance? (run early) = some distance ∧ 0x7fffffff < distance ∧
          later = run early) ∧
    ∀ index < (run requests).size, ∃ early request late, requests = early ++ request :: late ∧
      (run early).size ≤ index ∧ index < (request.after (run early)).size := by
  constructor
  · rintro early request late rfl
    obtain ⟨known, inside, legalLate⟩ := follows_cut legal (by simp)
    have whole : run (early ++ request :: late) = runFrom (run early) (request :: late) :=
      List.foldl_append
    rw [whole]
    exact ⟨found_of_follows legalLate inside, fun _ _ => perform_eq_jumpTooFar_iff (run early)⟩
  · intro index inside
    rcases exists_request_of_lt inside with before | appendedBy
    · exact absurd before (Nat.not_lt_zero _)
    · exact appendedBy

private def interleaved : List BufferRequest :=
  [.openJump (some 3), .emit (.loadImmediate 0 (.int 0x7fffffffff)), .openJump none, .land 0,
    .jumpBack 1, .land 3, .push Word.nop, .land 0]

theorem run_backpatches_interleaved :
    follows [] .empty interleaved = true ∧
      JumpsAt (run interleaved) 0 (some 3) 6 ∧ JumpsAt (run interleaved) 3 none 5 ∧
      JumpsAt (run interleaved) 4 none 1 := by
  have legal : follows [] .empty interleaved = true := by decide +kernel
  obtain ⟨found, _⟩ := run_backpatches interleaved legal
  refine ⟨legal, ?_, ?_, ?_⟩
  · have opened := (found [] (.openJump (some 3)) (interleaved.drop 1) rfl).1
    have start : (run []).size = 0 := rfl
    have last : (landings 0 ((openJump (some 3)).after (run []))
        (interleaved.drop 1)).getLast? = some 6 := by decide +kernel
    unfold Found at opened
    dsimp only at opened
    rw [start, last] at opened
    exact opened
  · have opened := (found (interleaved.take 2) (.openJump none) (interleaved.drop 3) rfl).1
    have start : (run (interleaved.take 2)).size = 3 := by decide +kernel
    have last : (landings 3 ((openJump none).after (run (interleaved.take 2)))
        (interleaved.drop 3)).getLast? = some 5 := by decide +kernel
    unfold Found at opened
    dsimp only at opened
    rw [start, last] at opened
    exact opened
  · have back := (found (interleaved.take 4) (.jumpBack 1) (interleaved.drop 5) rfl).1
    have start : (run (interleaved.take 4)).size = 4 := by decide +kernel
    have succeeded : (jumpBack 1).succeeds (run (interleaved.take 4)) = true := by decide +kernel
    have jumps := back succeeded
    rw [start] at jumps
    exact jumps

end BufferRequest

end SlotCompiler
