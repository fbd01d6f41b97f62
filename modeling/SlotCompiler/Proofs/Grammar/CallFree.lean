import SlotCompiler.Proofs.Grammar.Scoping
import SlotCompiler.Proofs.Tree.TypeRules

/-!
Contract: calls in what is written and calls in what is read.
-/

namespace SlotCompiler

variable {before : Context}

/-! ## Trees -/

def TreePart.isCallFree : TreePart → Bool
  | .operand value => value.isCallFree
  | .operands values => operandsCallFree values
  | .steps _ => true
  | .node statement => statement.isCallFree
  | .nodes statements => blockCallFree statements
  | .block _ statements => blockCallFree statements
  | .arms conditions blocks => operandsCallFree conditions && blocksCallFree blocks

private theorem calls_nil_iff {first second : Needs} {firstFree secondFree : Prop}
    (firstIff : firstFree ↔ first.calls = []) (secondIff : secondFree ↔ second.calls = []) :
    firstFree ∧ secondFree ↔ (first.and second).calls = [] :=
  (and_congr firstIff secondIff).trans List.append_eq_nil_iff.symm

theorem Builds.isCallFree_iff {part nesting tree context after}
    (builds : Builds part nesting tree context after) :
    tree.isCallFree = true ↔ part.needs.calls = [] := by
  induction builds with
  | literal | string | named | access | noMembers | moreMembers | noArguments | ret
  | noStatements => exact iff_of_true rfl rfl
  | call | callStatement => exact iff_of_false Bool.false_ne_true (List.cons_ne_nil _ _)
  | group _ _ inner | assignment _ _ inner | memberAssignment _ _ _ _ inner | retValue _ inner
  | conditional _ inner | sync _ _ _ _ inner | block _ _ inner => exact inner
  | declaration _ _ initial =>
    rw [WrittenPart.needs, Statement.needs, Needs.and_room]
    exact initial
  | binary _ _ _ _ left right | moreArguments _ _ left right | moreStatements _ _ left right
  | loop _ _ left right =>
    rw [TreePart.isCallFree]
    exact Bool.and_eq_true_iff.trans (calls_nil_iff left right)
  | last _ _ tested entered =>
    refine Iff.trans ?_ (calls_nil_iff tested entered)
    simp [TreePart.isCallFree]
  | otherwise _ _ _ tested entered other =>
    refine Iff.trans ?_ (calls_nil_iff (calls_nil_iff tested entered) other)
    simp [TreePart.isCallFree, and_assoc]
  | moreArms _ _ _ tested entered rest =>
    refine Iff.trans ?_ (calls_nil_iff (calls_nil_iff tested entered) rest)
    simp only [TreePart.isCallFree, operandsCallFree, blocksCallFree, Bool.and_eq_true]
    exact and_and_and_comm

/-! ## Callees -/

theorem Context.Adds.callees_eq {after slot} (adds : before.Adds slot after) :
    after.callees = before.callees := by
  obtain ⟨_, _, rfl⟩ := adds
  rfl

theorem Context.Declares.callees_eq {after name isMutable slot}
    (declares : before.Declares name isMutable slot after) : after.callees = before.callees := by
  obtain ⟨_, _, _, _, _, rfl⟩ := declares
  rfl

theorem Reads.callees_eq {part after} (reads : Reads part before after)
    (isFree : part.isCallFree = true) : after.callees = before.callees := by
  induction reads with
  | visible | literal | string | noOperands | noSteps | ret | noNodes | noAlternative => rfl
  | call | callStatement => exact absurd isFree Bool.false_ne_true
  | access _ _ ih => exact ih rfl
  | assignment _ _ ih | retValue _ ih
  | conditional _ ih | sync _ _ _ _ ih
  | block _ ih => exact ih isFree
  | binary _ _ added left right =>
    obtain ⟨leftFree, rightFree⟩ := Bool.and_eq_true_iff.mp isFree
    exact added.callees_eq.trans ((right rightFree).trans (left leftFree))
  | moreOperands _ _ head tail | moreNodes _ _ head tail =>
    obtain ⟨headFree, tailFree⟩ := Bool.and_eq_true_iff.mp isFree
    exact (tail tailFree).trans (head headFree)
  | moreSteps added _ tail => exact (tail rfl).trans added.callees_eq
  | declaration _ declared initial => exact declared.callees_eq.trans (initial isFree)
  | memberAssignment _ _ _ projected assigned => exact (assigned isFree).trans (projected rfl)
  | loop _ _ tested repeated =>
    obtain ⟨testFree, bodyFree⟩ := Bool.and_eq_true_iff.mp isFree
    exact (repeated bodyFree).trans (tested testFree)
  | arm _ _ _ tested entered rest =>
    obtain ⟨conditionsFree, blocksFree⟩ := Bool.and_eq_true_iff.mp isFree
    obtain ⟨testFree, othersFree⟩ := Bool.and_eq_true_iff.mp conditionsFree
    obtain ⟨takenFree, moreFree⟩ := Bool.and_eq_true_iff.mp blocksFree
    have restEq := rest (Bool.and_eq_true_iff.mpr ⟨othersFree, moreFree⟩)
    exact restEq.trans ((entered takenFree).trans (tested testFree))
  | alternative _ entered => exact entered (by simpa [TreePart.isCallFree] using isFree)

theorem ReadsParameters.callees_eq {parameters after}
    (reads : ReadsParameters parameters before after) : after.callees = before.callees := by
  induction reads with
  | nil => rfl
  | cons declared _ ih => exact ih.trans declared.callees_eq

theorem FunctionItem.WasRead.callees_eq {item : FunctionItem} {entered left}
    (wasRead : item.WasRead entered left) (isFree : blockCallFree item.body = true) :
    item.callees = (Context.initial item.name).callees := by
  rw [wasRead.callees, wasRead.body.callees_eq isFree, wasRead.parameters.callees_eq]

end SlotCompiler
