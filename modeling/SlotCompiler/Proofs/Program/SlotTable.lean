import SlotCompiler.Proofs.Parse.Item
import SlotCompiler.Proofs.Tree.Trace

/-!
Contract: the variables of a parsed function and the places that define them.
-/

namespace SlotCompiler

theorem ReadsParameters.defines {parameters before after}
    (read : ReadsParameters parameters before after) :
    before.frame.Defines (definitions (parametersTrace parameters)) after.frame := by
  induction read with
  | nil => exact .nothing _
  | cons declared _ tail => exact declared.defines.append tail

theorem ReadsParameters.slotsBelow {parameters before after}
    (read : ReadsParameters parameters before after) :
    SlotsBelow after.frame.size (parametersTrace parameters) := by
  induction read with
  | nil => exact .nil _
  | cons declared tailRead tail =>
    exact ((declared.takes.mentions rfl).mono tailRead.keeps.grows.size_le).append tail

namespace FunctionItem.WasRead

variable {item : FunctionItem} {entered left : Context}

theorem defines (read : item.WasRead entered left) :
    Variables.empty.Defines (definitions item.trace) item.frame := by
  rw [read.frame, FunctionItem.trace, definitions_append]
  exact read.parameters.defines.append read.body.defines

theorem slotsBelow (read : item.WasRead entered left) : SlotsBelow item.frame.size item.trace := by
  rw [read.frame]
  exact (read.parameters.slotsBelow.mono read.body.grows.size_le).append
    (read.body.slotsBelow read.entered_bounded)

end FunctionItem.WasRead

theorem Variables.Defines.mem_of_get? {events frame}
    (defines : Variables.empty.Defines (definitions events) frame) {slot entry}
    (found : frame.get? slot = some entry) :
    ∃ event ∈ events, event.definition? = some (slot, entry) := by
  have inFrame : slot.toNat < frame.size := (Array.getElem?_eq_some_iff.mp found).1
  have isDefined := (defines.handsOut.mem_iff slot).mpr ⟨Nat.zero_le _, inFrame⟩
  obtain ⟨⟨same, other⟩, member, rfl⟩ := List.mem_map.mp isDefined
  have recorded := defines.recorded _ member
  rw [found] at recorded
  cases recorded
  exact List.mem_filterMap.mp member

/-- Slots and definitions of a whole function correspond: in order, the parameters,
declarations, operators and members have the slots from zero on.  The variable of
a slot is a temporary exactly where an operator or a member defines it, and has
the declared name and mutability elsewhere.  No other slot is mentioned. -/
theorem parseSource_slots_defined {source : Source} {item : FunctionItem}
    (parsed : item ∈ (parseSource source).1.file.functions) (isWhole : item.isBroken = false) :
    (definitions item.trace).map (fun definition => definition.1.toNat) =
        List.range item.frame.size ∧
      (∀ slot entry, item.frame.get? slot = some entry →
        (entry.isTemporary = true ∧ entry.name = s!"$t{slot.toNat}" ∧ entry.isMutable = false ↔
          .computes slot ∈ item.trace) ∧
        (.computes slot ∉ item.trace → entry.isTemporary = false ∧
          .declares entry.name entry.isMutable slot ∈ item.trace)) ∧
      SlotsBelow item.frame.size item.trace := by
  obtain ⟨entered, left, read⟩ := parseSource_functionsRead source item parsed isWhole
  have defines := read.defines
  refine ⟨?_, ?_, read.slotsBelow⟩
  · have sizeEq := defines.handsOut.size_eq
    have numbersEq := defines.handsOut.numbers_eq
    rw [List.map_map] at numbersEq
    rw [show Variables.empty.size = 0 from rfl] at sizeEq numbersEq
    rw [sizeEq, Nat.zero_add, List.range_eq_range']
    exact numbersEq
  · intro slot entry found
    obtain ⟨event, member, defined⟩ := defines.mem_of_get? found
    cases event with
    | computes given =>
      cases defined
      exact ⟨iff_of_true ⟨rfl, rfl, rfl⟩ member, fun absent => absurd member absent⟩
    | declares name isMutable given =>
      cases defined
      refine ⟨⟨fun isTemporary => absurd isTemporary.1 Bool.false_ne_true, ?_⟩,
        fun _ => ⟨rfl, member⟩⟩
      -- Two definitions of one slot would be two entries of it.
      intro isComputed
      have recorded := defines.recorded _ (List.mem_filterMap.mpr ⟨_, isComputed, rfl⟩)
      rw [found] at recorded
      cases recorded
    | _ => cases defined

/-- A function with a parameter, an operator, a member of a member and two variables
of one name. -/
def shadowSource : Source :=
  ⟨"main", "fn f(mut a: int) \x7b a.b.c = a + 1; while (a.b) \x7b const a = a; \x7d \x7d"⟩

theorem parseSource_slots_defined_shadow :
    ∃ item ∈ (parseSource shadowSource).1.file.functions, item.isBroken = false ∧
      item.trace = [.declares "a" true 0, .uses 0, .computes 1, .uses 0, .computes 2, .uses 0,
        .computes 3, .opens 0, .uses 0, .declares "a" false 4, .closes] ∧
      (definitions item.trace).map (fun definition => definition.1.toNat) =
        List.range item.frame.size := by
  have passes : (parseSource shadowSource).1.file.functions.any (fun item =>
      !item.isBroken && item.trace == [.declares "a" true 0, .uses 0, .computes 1, .uses 0,
        .computes 2, .uses 0, .computes 3, .opens 0, .uses 0, .declares "a" false 4, .closes]) =
      true := by
    decide +kernel
  obtain ⟨item, member, passes⟩ := exists_function passes
  obtain ⟨isWhole, traceEq⟩ := Bool.and_eq_true_iff.mp passes
  have isWhole : item.isBroken = false := by simpa using isWhole
  exact ⟨item, member, isWhole, eq_of_beq traceEq, (parseSource_slots_defined member isWhole).1⟩

end SlotCompiler
