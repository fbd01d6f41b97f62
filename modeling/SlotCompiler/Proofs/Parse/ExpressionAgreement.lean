import SlotCompiler.Proofs.Parse.Agreement

/-!
Contract: two runs of the expression parsers agree.

The runs may have different amounts of fuel, as long as both have enough for the
tokens that they share.
-/

namespace SlotCompiler

variable {here there : Position → Position}

theorem map_push_eq {α β : Type} {f g : α → β} {first second : Array α} {a b}
    (same : first.toList.map f = second.toList.map g) (sameLast : f a = g b) :
    (first.push a).toList.map f = (second.push b).toList.map g := by
  rw [Array.toList_push, Array.toList_push, List.map_append, List.map_append, same,
    List.map_singleton, List.map_singleton, sameLast]

def namesMoved (place : Position → Position) (names : List (String × Position)) :
    List (String × Position) :=
  names.map (Prod.map id place)

def memberNamesMoved (place : Position → Position) (names : Array (String × Position)) :
    List (String × Position) :=
  namesMoved place names.toList

def argumentsMoved (place : Position → Position) (arguments : Array Operand) : List Operand :=
  operandsMoved place arguments.toList

theorem argumentsMoved_push {first second} {a b : Operand}
    (same : argumentsMoved here first = argumentsMoved there second)
    (sameLast : a.moved here = b.moved there) :
    argumentsMoved here (first.push a) = argumentsMoved there (second.push b) := by
  unfold argumentsMoved at same ⊢
  rw [operandsMoved_eq_map, operandsMoved_eq_map] at same ⊢
  exact map_push_eq same sameLast

section Members

variable {first second : Array (String × Position)}

theorem memberNames_back?_eq (same : memberNamesMoved here first = memberNamesMoved there second) :
    first.back?.map (Prod.map id here) = second.back?.map (Prod.map id there) := by
  unfold memberNamesMoved namesMoved at same
  rw [← Array.getLast?_toList, ← Array.getLast?_toList, ← List.getLast?_map, same,
    List.getLast?_map]

theorem memberNames_pop_eq (same : memberNamesMoved here first = memberNamesMoved there second) :
    namesMoved here first.pop.toList = namesMoved there second.pop.toList := by
  unfold memberNamesMoved at same
  unfold namesMoved at same ⊢
  rw [Array.toList_pop, Array.toList_pop, List.map_dropLast, same, List.map_dropLast]

end Members

theorem TokenKind.isInner_of_operator? {kind : TokenKind} {operator : Operator}
    (isOperator : kind.operator? = some operator) : kind.isInner = true := by
  apply decide_eq_true
  refine ⟨?_, ?_, ?_⟩
  all_goals
    rintro rfl
    contradiction

namespace BodyParser

variable {window : Window} {level fuel other : Nat} {view : View} {s t : BodyInput}

variable {first second : List (String × Position)}

/-! ## Members -/

theorem agree_memberNames {first second} (state : window.At level view s t)
    (enough : view.ahead.length < min fuel other)
    (same : window.SameBy memberNamesMoved first second) :
    window.Matches level view 0 memberNamesMoved (memberNames fuel first s)
      (memberNames other second t) := by
  induction fuel generalizing other view s t first second with
  | zero => omega
  | succ fuel ih =>
    obtain _ | other := other
    · omega
    rw [memberNames, memberNames]
    apply state.accept_then rfl
    · intro _ _ _ state past
      apply state.identifier_then
      intro name position place _ _ _ state later samePlace
      have sameNames : memberNamesMoved window.here (first.push (name, position)) =
          memberNamesMoved window.there (second.push (name, place)) :=
        map_push_eq same (congrArg (name, ·) samePlace)
      exact (ih state (by omega) sameNames).weaken id
        fun ⟨sameAll, last⟩ => ⟨sameAll, by omega⟩
    · intro _ _ state
      exact state.agree_pure ⟨same, rfl, Nat.le_refl _⟩

theorem agree_projectSteps (state : window.At level view s t)
    (same : window.SameBy namesMoved first second) :
    window.Matches level view 0 (fun place => List.map (MemberStep.moved place))
      (projectSteps first s) (projectSteps second t) := by
  induction first generalizing second s t with
  | nil =>
    obtain rfl : second = [] := List.map_eq_nil_iff.mp (Eq.symm same)
    exact state.agree_pure ⟨rfl, rfl, Nat.le_refl _⟩
  | cons name rest ih =>
    rcases second with _ | ⟨⟨member, place⟩, others⟩
    · exact absurd same (List.cons_ne_nil _ _)
    · rcases name with ⟨_, position⟩
      obtain ⟨sameName, sameRest⟩ := List.cons.inj same
      obtain ⟨rfl, samePlace⟩ := Prod.mk.inj sameName
      rw [projectSteps, projectSteps]
      apply state.stay_then (state.agree_temporary samePlace)
      intro destination _ _ state
      apply state.match_then (ih state sameRest)
      intro steps otherSteps _ _ _ state sameSteps past
      exact state.agree_pure
        ⟨List.cons_eq_cons.mpr ⟨congrArg (MemberStep.mk _ _ none) samePlace, sameSteps⟩, past⟩

theorem agree_project {position place} (state : window.At level view s t)
    (source : Slot) (same : window.SameBy namesMoved first second)
    (samePlace : window.Same position place) :
    window.Matches level view 0 MemberChain.moved (project source first position s)
      (project source second place t) := by
  apply state.match_then (agree_projectSteps state same)
  intro steps otherSteps _ _ _ state sameSteps past
  refine state.agree_pure ⟨?_, past⟩
  rw [MemberChain.moved, MemberChain.moved, sameSteps, samePlace]

/-! ## Operands and operators -/

theorem agree_oneToken (state : window.At level view s t)
    (inner : view.kind.isInner = true) {operand : Operand}
    (same : operand.moved window.here = operand.moved window.there) :
    window.Matches level view 1 Operand.moved
      ((do
        let _ ← Parser.next
        return operand : BodyParser Operand) s)
      ((do
        let _ ← Parser.next
        return operand : BodyParser Operand) t) := by
  apply state.next_then inner
  intro _ _ _ _ _ state past _
  exact state.agree_pure ⟨same, past⟩

/-- Two runs of each expression parser agree, with enough fuel for the tokens
shared. -/
structure ExpressionsAgree (window : Window) (fuel other : Nat) : Prop where
  binary : ∀ {level view s t},
    window.At level view s t → 4 * view.ahead.length + 2 ≤ min fuel other →
      ∀ minPrecedence,
    window.Matches level view 1 Operand.moved (binaryExpression fuel minPrecedence s)
      (binaryExpression other minPrecedence t)
  chain : ∀ {level view s t} {lhs left : Operand},
    window.Within (fun _ => True) level view s t → 4 * view.ahead.length + 1 ≤ min fuel other →
      ∀ minPrecedence, lhs.moved window.here = left.moved window.there →
    Agree window Window.BodyPairs (fun _ => True)
      (fun a b after => a.moved window.here = b.moved window.there ∧ view.Past 0 after)
      (operatorChain fuel minPrecedence lhs s) (operatorChain other minPrecedence left t)
  primary : ∀ {level view s t},
    window.At level view s t → 4 * view.ahead.length + 1 ≤ min fuel other →
    window.Matches level view 1 Operand.moved (primaryExpression fuel s)
      (primaryExpression other t)
  call : ∀ {level view s t} {position place : Position},
    window.At level view s t → 4 * view.ahead.length + 1 ≤ min fuel other →
      window.Same position place → ∀ name,
    window.Matches level view 1 Call.moved (callExpression fuel name position s)
      (callExpression other name place t)
  arguments : ∀ {level view s t} {first second : Array Operand},
    window.At level view s t → 4 * view.ahead.length + 3 ≤ min fuel other →
      window.SameBy argumentsMoved first second →
    window.Matches level view 1 argumentsMoved (argumentList fuel first s)
      (argumentList other second t)

section Step

variable (agrees : ExpressionsAgree window fuel other)
include agrees

theorem agree_binaryExpression_step (state : window.At level view s t)
    (enough : 4 * view.ahead.length + 2 ≤ min (fuel + 1) (other + 1)) (minPrecedence : Nat) :
    window.Matches level view 1 Operand.moved (binaryExpression (fuel + 1) minPrecedence s)
      (binaryExpression (other + 1) minPrecedence t) := by
  rw [binaryExpression, binaryExpression]
  apply state.agree_restoringNesting
  apply state.anywhere.match_then (agrees.primary state (by omega))
  intro lhs left _ _ _ state same past
  exact (agrees.chain state (by omega) _ same).weaken id
    fun ⟨same, later⟩ => ⟨same, by omega⟩

theorem agree_operatorChain_step {lhs left : Operand}
    (state : window.Within (fun _ => True) level view s t)
    (enough : 4 * view.ahead.length + 1 ≤ min (fuel + 1) (other + 1)) (minPrecedence : Nat)
    (same : lhs.moved window.here = left.moved window.there) :
    Agree window Window.BodyPairs (fun _ => True)
      (fun a b after => a.moved window.here = b.moved window.there ∧ view.Past 0 after)
      (operatorChain (fuel + 1) minPrecedence lhs s)
      (operatorChain (other + 1) minPrecedence left t) := by
  rw [operatorChain, operatorChain]
  apply state.peekKind_then
  intro _ _ state
  cases isOperator : view.kind.operator? with
  | none => exact state.agree_pure ⟨same, rfl, Nat.le_refl _⟩
  | some operator =>
    simp only
    split
    · exact state.agree_pure ⟨same, rfl, Nat.le_refl _⟩
    · apply state.next_then (TokenKind.isInner_of_operator? isOperator)
      intro token otherToken _ _ _ state past sameToken
      apply state.descend_then sameToken.position
      intro _ _ _ state
      apply state.match_then (agrees.binary state.exactly (by omega) _)
      intro rhs right _ _ _ state sameRight later
      apply state.stay_then (state.agree_temporary sameToken.position)
      intro destination _ _ state
      have sameNode : (Operand.node (.binary operator lhs rhs destination
            token.position)).moved window.here =
          (Operand.node (.binary operator left right destination
            otherToken.position)).moved window.there := by
        rw [Operand.moved, Operand.moved, Node.moved, Node.moved, same, sameRight,
          sameToken.position]
      exact (agrees.chain state (by omega) _ sameNode).weaken id
        fun ⟨same, last⟩ => ⟨same, by omega⟩

theorem agree_deeperExpression {position place} (state : window.At level view s t)
    (enough : 4 * view.ahead.length + 2 ≤ min fuel other) (same : window.Same position place) :
    window.Matches level view 1 Operand.moved
      ((restoringNesting do
        Parser.descend position
        binaryExpression fuel 1 : BodyParser Operand) s)
      ((restoringNesting do
        Parser.descend place
        binaryExpression other 1 : BodyParser Operand) t) := by
  apply state.agree_restoringNesting
  apply state.anywhere.descend_then same
  intro _ _ _ state
  exact (agrees.binary state.exactly enough _).weaken (fun _ => trivial) id

theorem agree_primaryExpression_step (state : window.At level view s t)
    (enough : 4 * view.ahead.length + 1 ≤ min (fuel + 1) (other + 1)) :
    window.Matches level view 1 Operand.moved (primaryExpression (fuel + 1) s)
      (primaryExpression (other + 1) t) := by
  rw [primaryExpression, primaryExpression]
  apply state.peek_then
  intro token otherToken _ _ state tokenEq otherEq
  have sameToken : window.SameToken token otherToken := tokenEq.trans otherEq.symm
  have tokenContent : token.content = view.content := congrArg Prod.fst tokenEq
  have otherContent : otherToken.content = view.content := congrArg Prod.fst otherEq
  have kindEq : view.kind = view.content.kind := rfl
  rw [tokenContent, otherContent]
  cases contentEq : view.content with
  | int | float | string => exact agree_oneToken state (by rw [kindEq, contentEq]; rfl) rfl
  | char | invalid => exact state.agree_refuse sameToken _
  | plain kind =>
    have isKind : view.kind = kind := by rw [kindEq, contentEq]; rfl
    simp only
    split
    · rename_i isTrue
      exact agree_oneToken state (by rw [isKind, isTrue]; rfl) rfl
    split
    · rename_i isFalse
      exact agree_oneToken state (by rw [isKind, isFalse]; rfl) rfl
    split
    · rename_i isParen
      apply state.next_then (by rw [isKind, isParen]; rfl)
      intro _ _ _ _ _ state past _
      apply state.match_then (agree_deeperExpression agrees state (by omega) sameToken.position)
      intro _ _ _ _ _ state same later
      apply state.expect_then rfl
      intro _ _ _ _ _ state last _
      exact state.agree_pure ⟨same, by omega⟩
    · exact state.agree_refuse sameToken _
  | identifier name =>
    apply state.identifier_then
    intro name position place _ _ _ state past samePlace
    apply state.peekKind_then
    intro _ _ state
    split
    · apply state.stay_then (state.agree_lookup samePlace name)
      intro source _ _ state
      apply state.match_then (agree_memberNames state (by omega) rfl)
      intro names otherNames _ _ _ state same later
      apply state.match_then (agree_project state source same samePlace)
      intro chain otherChain _ _ _ state sameChain last
      refine state.agree_pure ⟨?_, by omega⟩
      rw [Operand.moved, Operand.moved, Node.moved, Node.moved, sameChain]
    split
    · apply state.match_then (agrees.call state (by omega) samePlace name)
      intro call otherCall _ _ _ state same later
      refine state.agree_pure ⟨?_, by omega⟩
      rw [Operand.moved, Operand.moved, same]
    · apply state.stay_then (state.agree_lookup samePlace name)
      intro slot _ _ state
      exact state.agree_pure ⟨rfl, past⟩

theorem agree_callExpression_step {position place} (state : window.At level view s t)
    (enough : 4 * view.ahead.length + 1 ≤ min (fuel + 1) (other + 1))
    (samePlace : window.Same position place) (name : String) :
    window.Matches level view 1 Call.moved (callExpression (fuel + 1) name position s)
      (callExpression (other + 1) name place t) := by
  rw [callExpression, callExpression]
  apply state.expect_then rfl
  intro _ _ _ _ _ state past _
  have afterArguments {first second : Array Operand} {after : View} {s t : BodyInput}
      (same : window.SameBy argumentsMoved first second)
      (state : window.At level after s t) (later : view.Past 1 after) :
      window.Matches level view 1 Call.moved
        ((do
          recordCall name position
          return { name, arguments := first.toList, position } : BodyParser Call) s)
        ((do
          recordCall name place
          return { name, arguments := second.toList, position := place } : BodyParser Call)
          t) := by
    apply state.stay_then (state.agree_recordCall samePlace name)
    intro _ _ _ state
    refine state.agree_pure ⟨?_, later⟩
    rw [Call.moved, Call.moved, samePlace]
    exact congrArg (Call.mk name · _) same
  apply state.accept_then rfl
  · intro _ _ _ state later
    exact afterArguments rfl state (by omega)
  · intro _ _ state
    apply state.match_then (agrees.arguments state (by omega) rfl)
    intro _ _ _ _ _ state same later
    exact afterArguments same state (by omega)

theorem agree_argumentList_step {first second} (state : window.At level view s t)
    (enough : 4 * view.ahead.length + 3 ≤ min (fuel + 1) (other + 1))
    (same : window.SameBy argumentsMoved first second) :
    window.Matches level view 1 argumentsMoved (argumentList (fuel + 1) first s)
      (argumentList (other + 1) second t) := by
  rw [argumentList, argumentList]
  apply state.match_then (agrees.binary state (by omega) _)
  intro argument otherArgument _ _ _ state sameLast past
  have sameAll := argumentsMoved_push same sameLast
  apply state.accept_then rfl
  · intro _ _ _ state later
    exact (agrees.arguments state (by omega) sameAll).weaken id
      fun ⟨same, last⟩ => ⟨same, by omega⟩
  · intro _ _ state
    apply state.expect_then rfl
    intro _ _ _ _ _ state later _
    exact state.agree_pure ⟨sameAll, by omega⟩

end Step

theorem expressionsAgree (window : Window) (fuel other : Nat) :
    ExpressionsAgree window fuel other := by
  induction fuel generalizing other with
  | zero => constructor <;> (intros; omega)
  | succ fuel ih =>
    cases other with
    | zero => constructor <;> (intros; omega)
    | succ other =>
      have agrees := ih other
      exact
        { binary := agree_binaryExpression_step agrees
          chain := agree_operatorChain_step agrees
          primary := agree_primaryExpression_step agrees
          call := agree_callExpression_step agrees
          arguments := agree_argumentList_step agrees }

theorem agree_expression (state : window.At level view s t)
    (enough : 4 * view.ahead.length + 2 ≤ min fuel other) :
    window.Matches level view 1 Operand.moved (expression fuel s) (expression other t) :=
  (expressionsAgree window fuel other).binary state enough 1

end BodyParser

end SlotCompiler
