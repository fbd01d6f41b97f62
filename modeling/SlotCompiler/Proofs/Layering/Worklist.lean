import SlotCompiler.Proofs.Layering.Layers

/-!
Contract: the work list that raises callers runs empty.

A function enters the list again each time it is raised.  What bounds the rounds
is that no layer passes the longest chain of calls.
-/

namespace SlotCompiler

open Relation

/-! ## Chains of a new function -/

theorem Chain.without_added {functions added name length}
    (chain : Chain (functions ++ [added]) name length)
    (leadsAway : ¬ ReflTransGen (Calls functions) name added.function) :
    Chain functions name length := by
  induction chain with
  | stop member =>
    rw [functionNames, List.map_append, List.mem_append, List.map_singleton,
      List.mem_singleton] at member
    refine .stop (member.resolve_right ?_)
    rintro rfl
    exact leadsAway .refl
  | call calls _ ih =>
    rcases calls_append_iff.mp calls with earlier | ⟨rfl, _⟩
    · exact .call earlier (ih fun path => leadsAway (.head earlier path))
    · exact absurd .refl leadsAway

namespace LayeredGraph

theorem Layered.length_le_layerFor {graph} (layered : Layered graph) {added : Callees}
    (isNew : added.function ∉ functionNames graph.functions) (leadsAway : graph.LeadsAway added)
    {length} (chain : Chain (graph.functions ++ [added]) added.function length) :
    length ≤ graph.layerFor added := by
  cases chain with
  | stop => exact Nat.zero_le _
  | @call _ callee length calls rest =>
    rcases calls_append_iff.mp calls with earlier | ⟨_, named⟩
    · exact absurd earlier.caller_mem isNew
    have chain := rest.without_added (leadsAway callee named)
    have member : callee ∈ functionNames graph.functions := by
      cases chain with
      | stop member => exact member
      | call calls _ => exact calls.caller_mem
    obtain ⟨placed, placedMember, rfl⟩ := mem_functionNames_iff.mp member
    have longest := layered.length_le chain placedMember rfl
    have above := lt_layerFor named (layered.layer_of_mem placedMember)
    omega

/-! ## Rounds -/

/-- A graph, and the functions whose callers may have to move. -/
structure Worklist where
  graph : LayeredGraph
  pending : List String

namespace Worklist

/-- The callers of the first function are lifted above it, and those that moved are
looked at next.  An empty list is left alone. -/
def pop : Worklist → Worklist
  | ⟨graph, []⟩ => ⟨graph, []⟩
  | ⟨graph, name :: pending⟩ =>
    let moves := raiseCallers graph.entries name ((graph.layerOf? name).getD 0 + 1)
    ⟨⟨moves.1⟩, (moves.2.map Raise.name).reverse ++ pending⟩

theorem raiseAll_eq_iterate (fuel : Nat) (list : Worklist) (raises : List Raise) :
    (raiseAll fuel list.graph list.pending raises).1 = (pop^[fuel] list).graph := by
  induction fuel generalizing list raises with
  | zero => rfl
  | succ fuel ih =>
    rcases list with ⟨graph, _ | ⟨name, pending⟩⟩
    · have unchanged : pop ⟨graph, []⟩ = ⟨graph, []⟩ := rfl
      rw [Function.iterate_fixed unchanged]
      rfl
    · rw [Function.iterate_succ_apply, ← ih _ (raises ++ (raiseCallers graph.entries name
        ((graph.layerOf? name).getD 0 + 1)).2)]
      rfl

/-- While functions are raised, the one just placed stays in its layer. -/
structure Keeps (functions : List Callees) (fixed : String) (layer : Nat) (list : Worklist) :
    Prop where
  raising : Raising functions list.graph list.pending
  kept : ∀ placed ∈ list.graph.entries, placed.name = fixed → placed.layer = layer

section Rounds

variable {functions : List Callees} {fixed : String} {layer : Nat} {list : Worklist}
  (distinct : (functionNames functions).Nodup)

include distinct

theorem Keeps.pop (longest : ∀ length, Chain functions fixed length → length ≤ layer)
    (keeps : Keeps functions fixed layer list) : Keeps functions fixed layer list.pop := by
  rcases list with ⟨graph, _ | ⟨name, pending⟩⟩
  · exact keeps
  have raising := keeps.raising.round distinct
  refine ⟨raising, fun after member isFixed => ?_⟩
  obtain ⟨before, beforeMember, calleesEq, grows, _⟩ := raiseCallers_cases member
  have sameName : before.name = fixed := (congrArg Callees.function calleesEq.symm).trans isFixed
  have atMost := longest _ (isFixed ▸ raising.reached after member)
  exact le_antisymm atMost (keeps.kept before beforeMember sameName ▸ grows)

theorem Keeps.iterate (longest : ∀ length, Chain functions fixed length → length ≤ layer)
    (keeps : Keeps functions fixed layer list) (rounds : Nat) :
    Keeps functions fixed layer (Worklist.pop^[rounds] list) := by
  induction rounds with
  | zero => exact keeps
  | succ rounds ih =>
    rw [Function.iterate_succ_apply']
    exact ih.pop distinct longest

theorem pending_iterate (acyclic : Acyclic functions) {rounds}
    (raising : Raising functions list.graph list.pending)
    (enough : list.pending.length + headroom functions.length list.graph.entries ≤ rounds) :
    (Worklist.pop^[rounds] list).pending = [] := by
  induction rounds generalizing list with
  | zero => exact List.length_eq_zero_iff.mp (by simp only [Function.iterate_zero, id]; omega)
  | succ rounds ih =>
    rcases list with ⟨graph, _ | ⟨name, pending⟩⟩
    · exact congrArg Worklist.pending (Function.iterate_fixed rfl (rounds + 1))
    · have shrinks := raising.round_shrinks acyclic
      exact ih (raising.round distinct) (by dsimp only [Worklist.pop] at shrinks enough ⊢; omega)

end Rounds

end Worklist

/-- A function is offered that has a new name and closes no cycle, after any others
were offered.  Then the work list runs empty after finitely many rounds, at most
one and the square of the number of functions, and the graph it leaves is the
result.  In every round the function stays in its first layer, and all layers
lie below the number of functions. -/
theorem place_drains_worklist (offered : List Callees) (added : Callees)
    (isNew : (empty.pushAll offered).contains added.function = false)
    (isSelfless : added.calls added.function = false)
    (leadsAway : (empty.pushAll offered).reaches added.names added.function = false) :
    let graph := empty.pushAll offered
    let start : Worklist := ⟨graph.extended added, [added.function]⟩
    ∃ placement rounds, graph.place added = .ok placement ∧
      rounds ≤ (graph.size + 1) * (graph.size + 1) + 1 ∧
      (Worklist.pop^[rounds] start).pending = [] ∧
      (Worklist.pop^[rounds] start).graph = placement.graph ∧
      ∀ count, let reached := (Worklist.pop^[count] start).graph
        reached.functions = graph.functions ++ [added] ∧
        reached.layerOf? added.function = some placement.initialLayer ∧
        ∀ placed ∈ reached.entries, placed.layer < reached.size := by
  intro graph start
  have layered : Layered graph := layered_empty.pushAll offered
  have isAway : graph.LeadsAway added := by
    intro callee named path
    have leadsBack := (reaches_iff layered.distinct).mpr ⟨callee, named, path⟩
    exact Bool.false_ne_true (leadsAway.symm.trans leadsBack)
  have sizeEq : (graph.extended added).size = graph.size + 1 := List.length_append
  have newName := contains_eq_false_iff.mp isNew
  obtain ⟨distinct, acyclic, enough⟩ := layered.extended_enough newName isAway
  have raising := layered.raising_extended added
  have keeps : Worklist.Keeps (graph.functions ++ [added]) added.function (graph.layerFor added)
      start := by
    refine ⟨raising, fun placed member nameEq => ?_⟩
    rcases List.mem_append.mp member with earlier | last
    · exact absurd (mem_functionNames_iff.mpr ⟨placed, earlier, nameEq⟩) newName
    · rw [List.mem_singleton.mp last]
  have accepted : ∃ placement, graph.place added = .ok placement ∧
      placement.initialLayer = graph.layerFor added ∧
      placement.graph =
        (raiseAll (graph.extended added).raiseFuel start.graph start.pending []).1 := by
    rw [place, isNew, isSelfless, leadsAway]
    exact ⟨_, rfl, rfl, rfl⟩
  obtain ⟨placement, ok, layerEq, graphEq⟩ := accepted
  rw [Worklist.raiseAll_eq_iterate] at graphEq
  refine ⟨placement, (graph.extended added).raiseFuel, ok, ?_, ?_, graphEq.symm, ?_⟩
  · rw [raiseFuel, sizeEq]
  · exact Worklist.pending_iterate distinct acyclic raising enough
  · intro count reached
    have kept := keeps.iterate distinct (fun _ => layered.length_le_layerFor newName isAway) count
    have functionsEq := kept.raising.functions_eq
    refine ⟨functionsEq, ?_, ?_⟩
    · have isPlaced : added.function ∈ functionNames (graph.functions ++ [added]) :=
        List.mem_map_of_mem (List.mem_append_right _ (List.mem_singleton.mpr rfl))
      obtain ⟨placed, member, nameEq, found⟩ := kept.raising.exists_layer isPlaced
      rw [layerEq, ← kept.kept placed member nameEq]
      exact found
    · intro placed member
      have low := (kept.raising.reached placed member).length_lt acyclic
      rwa [← functionsEq, functions, List.length_map] at low

/-- The function that both others call is placed last: it lifts the one, and that
lifts the other. -/
theorem place_drains_worklist_chain :
    let offered : List Callees := [⟨"top", ["left", "base"]⟩, ⟨"left", ["base"]⟩]
    (empty.pushAll offered).layerOf? "top" = some 1 ∧
      ∃ placement rounds, (empty.pushAll offered).place ⟨"base", []⟩ = .ok placement ∧
        (Worklist.pop^[rounds] ⟨(empty.pushAll offered).extended ⟨"base", []⟩, ["base"]⟩).graph =
          placement.graph ∧ placement.graph.layerOf? "top" = some 2 := by
  intro offered
  refine ⟨by decide, ?_⟩
  obtain ⟨placement, rounds, ok, _, _, graphEq, _⟩ :=
    place_drains_worklist offered ⟨"base", []⟩ (by decide) (by decide) (by decide)
  have raised : ((empty.pushAll offered).place ⟨"base", []⟩).toOption.bind
      (fun placement => placement.graph.layerOf? "top") = some 2 := by decide
  rw [ok] at raised
  exact ⟨placement, rounds, ok, graphEq, raised⟩

end LayeredGraph

end SlotCompiler
