import SlotCompiler.Proofs.Parse.DeepCalls
import SlotCompiler.Proofs.Parse.Item

/-!
Contract: what the nesting limit says about the trees that are parsed.
-/

namespace SlotCompiler

variable {nesting : Nat}

def levelsLeft (nesting : Nat) : Nat := Input.nestingLimit - nesting

theorem levelsLeft_eq_succ (isShallow : nesting < Input.nestingLimit) :
    levelsLeft nesting = levelsLeft (nesting + 1) + 1 := by
  unfold levelsLeft
  omega

/-! ## Parts -/

def TreePart.depth (weigh : TreeLevel → Nat) : TreePart → Nat
  | .operand value => value.depth weigh
  | .operands values => operandsDepth weigh values
  | .steps _ => 0
  | .node statement => statement.depth weigh
  | .nodes statements => blockDepth weigh statements
  | .block _ statements => weigh .block + blockDepth weigh statements
  | .arms conditions blocks => max (operandsDepth weigh conditions) (blocksDepth weigh blocks)

/-- The levels that are left for an operator after the part. -/
def WrittenPart.levelsSpared (nesting : Nat) : WrittenPart → Nat
  | .value written => levelsLeft (nesting + written.spine)
  | _ => 0

theorem Shallow.within {room spare depth} (shallow : Shallow room spare depth) :
    Shallow room 0 depth :=
  shallow.mono (Nat.le_refl _) (Nat.zero_le _)

theorem Builds.shallow {part tree context after}
    (builds : Builds part nesting tree context after) :
    Shallow (levelsLeft nesting) (part.levelsSpared nesting) fun weigh => tree.depth weigh := by
  have flat (room : Nat) : Shallow room 0 fun _ => 0 := .flat (Nat.zero_le _)
  induction builds with
  | literal | string | named | access => exact .flat (Nat.le_refl _)
  | noMembers | moreMembers | noArguments | ret | noStatements => exact flat _
  | call _ _ given => exact given.call
  | @group _ nesting _ _ _ isShallow _ inner =>
    show Shallow (levelsLeft nesting) (levelsLeft nesting) _
    rw [levelsLeft_eq_succ isShallow]
    exact inner.within.group
  | @binary _ lhs _ _ nesting _ _ _ _ _ _ _ _ isShallow _ _ left right =>
    have levelsEq := levelsLeft_eq_succ isShallow
    have fewer : levelsLeft (nesting + lhs.spine + 1) + 1 ≤ levelsLeft nesting := by
      unfold levelsLeft
      omega
    -- The left operand had one operator to spare; the right one gets the levels below it.
    rw [WrittenPart.levelsSpared, levelsEq] at left
    exact left.leftOperand.deepest (right.within.rightOperand.mono fewer (Nat.le_refl _))
  | declaration _ _ inner | assignment _ _ inner | memberAssignment _ _ _ _ inner
  | retValue _ inner | callStatement _ inner => exact inner.within
  | conditional _ inner | sync _ _ _ _ inner => exact inner
  | moreArguments _ _ first second | loop _ _ first second => exact first.within.deepest second
  | moreStatements _ _ head tail => exact head.deepest tail
  | last _ _ tested entered =>
    exact (tested.within.deepest (flat _)).deepest (entered.deepest (flat _))
  | otherwise _ _ _ tested entered other =>
    exact (tested.within.deepest (flat _)).deepest (entered.deepest (other.deepest (flat _)))
  | @moreArms _ _ _ _ test nodes others blocks _ _ _ _ _ _ _ tested entered rest =>
    have depthEq : (fun weigh => (TreePart.arms (test :: others) (nodes :: blocks)).depth weigh) =
        fun weigh => max _ _ :=
      funext fun weigh => max_max_max_comm (test.depth weigh) _ _ _
    rw [depthEq]
    exact (tested.within.deepest entered).deepest rest
  | block isShallow _ inside =>
    rw [levelsLeft_eq_succ isShallow]
    exact inside.block

/-! ## Functions -/

def FunctionItem.IsShallow (item : FunctionItem) : Prop :=
  Shallow Input.nestingLimit 0 fun weigh => blockDepth weigh item.body

theorem parseSource_isShallow (source : Source) :
    (parseSource source).1.AllFunctions FunctionItem.IsShallow := by
  intro item member
  unfold FunctionItem.IsShallow
  rcases parseSource_functions_written source item member with ⟨_, isEmpty⟩ | found
  · rw [isEmpty]
    exact .flat (Nat.zero_le _)
  · obtain ⟨written, tokens, _, _, built⟩ := found
    obtain ⟨parameters, entered, body, left, _, bodyBuilt, rfl⟩ :=
      WrittenFunction.tree?_eq_some.mp built
    exact (statementsTree?_builds written.body bodyBuilt).shallow

/-- The nesting limit bounds the blocks and right operands on every path down the body
of a function.  It does not bound all levels: left operands can reach further down,
and every call starts anew, so that some source has as many levels as wanted. -/
theorem parseSource_depth_bounds (source : Source) (count : Nat) :
    (∀ function ∈ (parseSource source).1.file.functions,
      blockDepth TreeLevel.blocksAndRights function.body ≤ Input.nestingLimit ∧
      blockDepth TreeLevel.all function.body ≤ reach Input.nestingLimit +
        (Input.nestingLimit + 1) * blockDepth TreeLevel.calls function.body) ∧
    ∃ text, (parseSource ⟨source.name, text⟩).1.faults = #[] ∧
      ∃ function ∈ (parseSource ⟨source.name, text⟩).1.file.functions,
        blockDepth TreeLevel.all function.body = count + 1 := by
  constructor
  · intro function member
    have isShallow := parseSource_isShallow source function member
    exact ⟨isShallow.counted, isShallow.total⟩
  · obtain ⟨clean, function, member, depthEq⟩ := exists_nestedCalls source.name count
    exact ⟨_, clean, function, member, by rw [depthEq TreeLevel.all]; exact Nat.mul_one _⟩

/-- Calls nested more deeply than the limit, in a body without blocks or operators. -/
theorem parseSource_depth_bounds_nested :
    ∃ function ∈ (parseSource ⟨"main", nestedCallsText 128⟩).1.file.functions,
      Input.nestingLimit < blockDepth TreeLevel.all function.body ∧
      blockDepth TreeLevel.blocksAndRights function.body ≤ Input.nestingLimit ∧
      blockDepth TreeLevel.all function.body ≤ reach Input.nestingLimit +
        (Input.nestingLimit + 1) * blockDepth TreeLevel.calls function.body := by
  obtain ⟨_, function, member, depthEq⟩ := exists_nestedCalls "main" 128
  have exceeds : Input.nestingLimit < blockDepth TreeLevel.all function.body := by
    rw [depthEq TreeLevel.all]
    decide
  exact ⟨function, member, exceeds,
    (parseSource_depth_bounds ⟨"main", nestedCallsText 128⟩ 0).1 function member⟩

/-- A chain of operators around a group with another chain. -/
def chainText : List Char :=
  "fn f(a: int) -> int \x7b return (a".toList ++ (List.replicate 127 ['+', 'a']).flatten ++
    ")+a+a; \x7d".toList

/-- The two chains together have more levels than the nesting may have. -/
theorem chainText_exceeds_limit :
    (parseSource ⟨"main", String.ofList chainText⟩).1.file.functions.map
      (fun function => blockDepth TreeLevel.all function.body) = #[Input.nestingLimit + 1] := by
  -- The characters are at hand, so that the text need not be decoded.
  have streamEq : TokenStream.ofText (String.ofList chainText) =
      TokenStream.collect (chainText.length + 1) none .start chainText #[] := by
    rw [TokenStream.ofText, String.toList_ofList]
  rw [parseSource, Input.ofSource, TokenCursor.ofSource, streamEq]
  decide +kernel

end SlotCompiler
