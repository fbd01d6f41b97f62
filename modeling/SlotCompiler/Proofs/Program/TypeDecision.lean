import SlotCompiler.Program.Compile
import SlotCompiler.Proofs.Parse.Item
import SlotCompiler.Proofs.Tree.Decision
import SlotCompiler.Proofs.Tree.Shape

/-!
Contract: type resolution of a whole function body.
-/

namespace SlotCompiler

/-! ## Parameters -/

def giveTypes (given : Parameter → TypeId) (parameters : List Parameter) (frame : Variables) :
    Variables :=
  parameters.foldl (fun frame parameter => frame.setType parameter.slot (given parameter)) frame

theorem retypes_giveTypes (given : Parameter → TypeId) (parameters : List Parameter)
    (frame : Variables) : frame.Retypes (giveTypes given parameters frame) := by
  induction parameters generalizing frame with
  | nil => exact .refl frame
  | cons parameter rest ih =>
    exact (frame.retypes_setType parameter.slot (given parameter)).trans (ih _)

theorem ReadsParameters.giveTypes_fills {parameters before after}
    (read : ReadsParameters parameters before after) (given : Parameter → TypeId)
    {frame : Variables} (room : after.frame.size ≤ frame.size) :
    frame.Fills (Between before.frame.size after.frame.size) (giveTypes given parameters frame) ∧
      ∀ parameter ∈ parameters,
        (giveTypes given parameters frame).typeOf? parameter.slot = some (given parameter) := by
  induction read generalizing frame with
  | nil =>
    refine ⟨(Variables.Fills.none frame).congr fun slot => ?_,
      fun _ member => absurd member List.not_mem_nil⟩
    exact iff_false_intro fun inside => absurd inside.1 (Nat.not_le.mpr inside.2)
  | @cons parameter rest before middle after declared restRead ih =>
    have slotEq := declared.takes.slot_eq
    have sizeEq := declared.takes.size_eq
    have grows := restRead.keeps.grows.size_le
    have inFrame : parameter.slot.toNat < frame.size := by omega
    obtain ⟨restFills, restKnown⟩ := @ih
      (frame.setType parameter.slot (given parameter)) (by rwa [Variables.size_setType])
    constructor
    · refine ((Variables.fills_setType inFrame _).trans restFills).congr fun slot => ?_
      rw [← UInt16.toNat_inj]
      unfold Between
      omega
    · intro other member
      rcases List.mem_cons.mp member with rfl | inRest
      · have apart : ¬ Between middle.frame.size after.frame.size other.slot := by
          unfold Between
          omega
        apply (restFills.others _ apart).trans
        rw [Variables.typeOf?_setType inFrame, if_pos rfl]
      · exact restKnown other inRest

theorem typeParameters_eq_giveTypes {env parameters frame later found all}
    (ok : typeParameters env parameters frame found = .ok (all, later)) :
    ∃ given, later = giveTypes given parameters frame := by
  refine ⟨fun parameter => (env.types.lookup? parameter.type.name).getD default, ?_⟩
  induction parameters generalizing frame found with
  | nil =>
    cases ok
    rfl
  | cons parameter rest ih =>
    unfold typeParameters TypeEnv.findType at ok
    cases named : env.types.lookup? parameter.type.name with
    | none =>
      simp only [named] at ok
      contradiction
    | some type =>
      simp only [named] at ok
      rw [ih ok, giveTypes, giveTypes, List.foldl_cons, named]
      rfl

/-! ## Bodies -/

namespace FunctionItem.WasRead

variable {item : FunctionItem} {entered left : Context}

variable {slot : Slot}

section

variable (read : item.WasRead entered left)

include read

theorem exists_parameter (isEarly : slot.toNat < entered.frame.size) :
    ∃ parameter ∈ item.parameters, parameter.slot = slot := by
  rw [read.entered_size] at isEarly
  refine ⟨item.parameters[slot.toNat], List.getElem_mem isEarly, ?_⟩
  exact UInt16.toNat_inj.mp (read.parameter_slot (List.getElem?_eq_getElem isEarly))

theorem giveTypes_fills (given : Parameter → TypeId) :
    item.frame.Fills (Between 0 entered.frame.size)
        (giveTypes given item.parameters item.frame) ∧
      ∀ parameter ∈ item.parameters,
        (giveTypes given item.parameters item.frame).typeOf? parameter.slot =
          some (given parameter) :=
  read.parameters.giveTypes_fills given (read.frame ▸ read.body.grows.size_le)

theorem ready (given : Parameter → TypeId) :
    Ready item.frame entered.scopes (nodesTargets item.body)
      (giveTypes given item.parameters item.frame) := by
  obtain ⟨fills, known⟩ := read.giveTypes_fills given
  have handed := read.body.handsOut
  refine ⟨handed.nodup, ?_, ?_, ?_, retypes_giveTypes given item.parameters item.frame⟩
  · intro slot member
    have isLate := ((handed.mem_iff slot).mp member).1
    rw [fills.others slot fun isEarly => absurd isEarly.2 (Nat.not_lt.mpr isLate)]
    exact read.typeOf?_eq_none slot
  · intro slot member
    rw [fills.size_eq, read.frame]
    exact ((handed.mem_iff slot).mp member).2
  · intro slot held
    obtain ⟨parameter, isParameter, rfl⟩ := read.exists_parameter (read.entered_bounded slot held)
    exact ⟨given parameter, known parameter isParameter⟩

theorem permits_giveTypes_iff (given : Parameter → TypeId) (slots : Slot → TypeId) :
    (giveTypes given item.parameters item.frame).Permits slots ↔
      ∀ parameter ∈ item.parameters, slots parameter.slot = given parameter := by
  obtain ⟨fills, known⟩ := read.giveTypes_fills given
  constructor
  · intro permits parameter isParameter
    exact permits parameter.slot _ (known parameter isParameter)
  · intro agrees slot type isKnown
    by_cases isEarly : slot.toNat < entered.frame.size
    · obtain ⟨parameter, isParameter, rfl⟩ := read.exists_parameter isEarly
      rw [known parameter isParameter] at isKnown
      cases isKnown
      exact agrees parameter isParameter
    · rw [fills.others slot fun inRange => isEarly inRange.2, read.typeOf?_eq_none slot] at isKnown
      contradiction

theorem exists_type {given : Parameter → TypeId} {accepted : (Slot → TypeId) → Unit → Prop}
    {numbered : (Slot → TypeId) → Block} {body later value}
    (finds : Finds (giveTypes given item.parameters item.frame) (nodesTargets item.body) accepted
      numbered body later value) (inFrame : slot.toNat < item.frame.size) :
    ∃ type, later.typeOf? slot = some type := by
  by_cases isEarly : slot.toNat < entered.frame.size
  · obtain ⟨parameter, isParameter, rfl⟩ := read.exists_parameter isEarly
    obtain ⟨_, typesKnown⟩ := read.giveTypes_fills given
    exact ⟨_, finds.refines.keeps (typesKnown parameter isParameter)⟩
  · apply finds.fills.typed
    rw [read.frame] at inFrame
    exact (read.body.handsOut.mem_iff slot).mpr ⟨Nat.not_lt.mp isEarly, inFrame⟩

end

end FunctionItem.WasRead

/-- A typing of all slots in which the parameters have the given types and all
statements are well typed. -/
def FunctionItem.TypedBy (item : FunctionItem) (env : TypeEnv) (given : Parameter → TypeId)
    (slots : Slot → TypeId) : Prop :=
  (∀ parameter ∈ item.parameters, slots parameter.slot = given parameter) ∧
    ∀ node ∈ item.body, NodeTyped env item.frame.IsMutable slots node

theorem FunctionItem.WasRead.decided {item : FunctionItem} {entered left}
    (read : item.WasRead entered left) (env : TypeEnv) (given : Parameter → TypeId) :
    Decided (giveTypes given item.parameters item.frame) (nodesTargets item.body)
      (fun slots (_ : Unit) => BlockAccepted env item.frame.IsMutable slots item.body)
      (fun slots => blockNumbered env.types slots item.body)
      (resolveBlock env item.body (giveTypes given item.parameters item.frame)) :=
  read.body.decides env item.frame _ (read.ready given)

/-- What resolving the body of a function gives when it succeeds: the typing of
all slots that accepts the body, and the body with its fields numbered. -/
structure FunctionItem.Resolved (item : FunctionItem) (env : TypeEnv) (body : Block)
    (frame : Variables) : Prop where
  accepted : BlockAccepted env item.frame.IsMutable frame.typing item.body
  body_eq : body = blockNumbered env.types frame.typing item.body
  retypes : item.frame.Retypes frame
  size_eq : frame.size = item.frame.size
  known : ∀ slot : Slot, slot.toNat < frame.size → frame.typeOf? slot = some (frame.typing slot)

theorem FunctionItem.WasRead.resolved {item : FunctionItem} {entered left}
    (read : item.WasRead entered left) {env} {given : Parameter → TypeId}
    (ok : (resolveBlock env item.body
      (giveTypes given item.parameters item.frame)).outcome = .ok ()) :
    item.Resolved env
      (resolveBlock env item.body (giveTypes given item.parameters item.frame)).tree
      (resolveBlock env item.body (giveTypes given item.parameters item.frame)).frame := by
  have decided := read.decided env given
  generalize resolveBlock env item.body _ = resolved at decided ok
  cases decided with
  | refused => contradiction
  | @found tree later _ finds =>
    have sizeEq := finds.fills.size_eq.trans (read.giveTypes_fills given).1.size_eq
    refine ⟨?_, (finds.tree_eq _ later.permits_typing).symm,
      (retypes_giveTypes given item.parameters item.frame).trans finds.retypes, sizeEq, ?_⟩
    · exact (finds.exact _ (finds.refines.permits later.permits_typing) ()).mpr
        ⟨later.permits_typing, rfl⟩
    · intro slot inFrame
      obtain ⟨type, known⟩ := read.exists_type finds (sizeEq ▸ inFrame)
      rw [known, later.permits_typing slot type known]

namespace FunctionItem.Resolved

variable {item : FunctionItem} {env : TypeEnv} {body : Block} {frame : Variables}
  {entered left : Context}

theorem reads (resolved : item.Resolved env body frame) (read : item.WasRead entered left) :
    Reads (.nodes body) entered left := by
  rw [resolved.body_eq]
  exact read.body.staysRead env.types frame.typing

theorem checked (resolved : item.Resolved env body frame) (read : item.WasRead entered left) :
    Checked env frame (.nodes body) := by
  have room : left.frame.size ≤ frame.size := by rw [resolved.size_eq, read.frame]
  rw [resolved.body_eq]
  exact read.body.checks resolved.known read.entered_bounded room resolved.accepted

end FunctionItem.Resolved

/-- Type resolution decides the type system.  For every body that was read
without fault, every table of types and every typing of the parameters, it
succeeds exactly when the body calls no function and is well typed.  Then its
table holds the type of every slot, the same under every typing, and its tree the
number of every field. -/
theorem resolveBlock_decides_typing {source : Source} {item : FunctionItem}
    (member : item ∈ (parseSource source).1.file.functions) (isWhole : item.isBroken = false)
    (env : TypeEnv) (given : Parameter → TypeId) :
    let resolved := resolveBlock env item.body (giveTypes given item.parameters item.frame)
    (resolved.outcome = .ok () ↔
      blockCallFree item.body = true ∧ ∃ slots, item.TypedBy env given slots) ∧
    (resolved.outcome = .ok () → ∀ slots, item.TypedBy env given slots →
      (∀ slot : Slot, slot.toNat < item.frame.size →
        resolved.frame.typeOf? slot = some (slots slot)) ∧
      resolved.tree = blockNumbered env.types slots item.body) := by
  intro resolved
  obtain ⟨entered, left, read⟩ := parseSource_functionsRead source item member isWhole
  have permitsIff := read.permits_giveTypes_iff given
  have ready := read.ready given
  have decided : Decided _ _ _ _ resolved := read.decided env given
  generalize resolved = result at decided
  cases decided with
  | refused proper never =>
    refine ⟨⟨fun ok => ?_, ?_⟩, fun ok => ?_⟩
    · contradiction
    · rintro ⟨free, slots, agrees, typed⟩
      exact absurd ⟨free, typed⟩ (never slots ((permitsIff slots).mpr agrees) ())
    · contradiction
  | @found tree later _ finds =>
    have exact : ∀ slots, (∀ parameter ∈ item.parameters, slots parameter.slot = given parameter) →
        (BlockAccepted env item.frame.IsMutable slots item.body ↔ later.Permits slots) := by
      intro slots agrees
      simpa using finds.exact slots ((permitsIff slots).mpr agrees) ()
    have agreesTyping := (permitsIff _).mp (finds.refines.permits later.permits_typing)
    have accepted := (exact later.typing agreesTyping).mpr later.permits_typing
    refine ⟨⟨fun _ => ?_, fun _ => rfl⟩, fun _ slots typed => ?_⟩
    · exact ⟨accepted.1, later.typing, agreesTyping, accepted.2⟩
    · have permits := (exact slots typed.1).mp ⟨accepted.1, typed.2⟩
      refine ⟨fun slot inFrame => ?_, (finds.tree_eq slots permits).symm⟩
      obtain ⟨type, known⟩ := read.exists_type finds inFrame
      rw [known, permits slot type known]

/-- The primitive types and a struct of two numbers. -/
def pairTypes : TypeTable :=
  ⟨TypeTable.primitive.entries.push ⟨"Pair", .record #[⟨"first", .int⟩, ⟨"second", .int⟩]⟩⟩

def memberSource : Source :=
  ⟨"member", "fn f(mut p: Pair) -> int \x7b p.second = p.first + 1; return p.second; \x7d"⟩

/-- A body that assigns the second field of a parameter is well typed when the
parameter is a struct that has it. -/
theorem resolveBlock_decides_typing_member :
    ∃ item ∈ (parseSource memberSource).1.file.functions,
      item.isBroken = false ∧ blockCallFree item.body = true ∧
      ∃ slots, item.TypedBy ⟨pairTypes, some .int⟩ (fun _ => ⟨4⟩) slots := by
  have passes : (parseSource memberSource).1.file.functions.any (fun item =>
      !item.isBroken && (resolveBlock ⟨pairTypes, some .int⟩ item.body
        (giveTypes (fun _ => ⟨4⟩) item.parameters item.frame)).outcome.isOk) = true := by
    decide +kernel
  obtain ⟨item, member, passes⟩ := exists_function passes
  obtain ⟨isWhole, isOk⟩ := Bool.and_eq_true_iff.mp passes
  have isWhole : item.isBroken = false := by simpa using isWhole
  refine ⟨item, member, isWhole, ?_⟩
  apply (resolveBlock_decides_typing member isWhole _ _).1.mp
  cases outcome : (resolveBlock ⟨pairTypes, some .int⟩ item.body
      (giveTypes (fun _ => ⟨4⟩) item.parameters item.frame)).outcome with
  | ok _ => rfl
  | error fault =>
    rw [outcome] at isOk
    exact absurd isOk Bool.false_ne_true

end SlotCompiler
