import SlotCompiler.Proofs.Layering.Layers

/-!
Contract: the order in which placed functions are processed.
-/

namespace SlotCompiler

namespace LayeredGraph

variable {graph : LayeredGraph} {placed : Placed} {callees : Callees} {index : Nat}

theorem layer_lt_layerCount (member : placed ∈ graph.entries) : placed.layer < graph.layerCount :=
  le_foldl_max (.inr (List.mem_map_of_mem member))

def inLayer (graph : LayeredGraph) (index : Nat) : List Callees :=
  (graph.entries.filter fun placed => placed.layer == index).map Placed.callees

theorem layers_eq (graph : LayeredGraph) :
    graph.layers = (List.range graph.layerCount).map graph.inLayer := rfl

theorem inLayer_sublist (graph : LayeredGraph) (index : Nat) :
    (graph.inLayer index).Sublist graph.functions :=
  List.filter_sublist.map Placed.callees

theorem mem_order_iff : callees ∈ graph.order ↔ callees ∈ graph.functions := by
  simp only [order, layers, functions, List.mem_flatten, List.mem_map, List.mem_range]
  constructor
  · rintro ⟨_, ⟨_, _, rfl⟩, member⟩
    obtain ⟨placed, inLayer, rfl⟩ := List.mem_map.mp member
    exact ⟨placed, List.mem_of_mem_filter inLayer, rfl⟩
  · rintro ⟨placed, member, rfl⟩
    refine ⟨_, ⟨placed.layer, layer_lt_layerCount member, rfl⟩, List.mem_map_of_mem ?_⟩
    exact List.mem_filter.mpr ⟨member, beq_self_eq_true _⟩

theorem order_eq_functions (flat : ∀ placed ∈ graph.entries, placed.layer = 0) :
    graph.order = graph.functions := by
  have lowest : graph.entries.filter (fun placed => placed.layer == 0) = graph.entries := by
    rw [List.filter_eq_self]
    intro placed member
    exact beq_iff_eq.mpr (flat placed member)
  have higher (layer : Nat) :
      graph.entries.filter (fun placed => placed.layer == layer + 1) = [] := by
    rw [List.filter_eq_nil_iff]
    intro placed member
    simp [flat placed member]
  rw [order, layers, functions]
  cases count : graph.layerCount with
  | zero =>
    have noEntry : graph.entries = [] := by
      rw [List.eq_nil_iff_forall_not_mem]
      intro placed member
      exact absurd (count ▸ layer_lt_layerCount member) (Nat.not_lt_zero _)
    rw [noEntry]
    rfl
  | succ others => simp [List.range_succ_eq_map, lowest, higher]

section Layered

variable (layered : Layered graph)

include layered

theorem Layered.layer_eq_zero (noCalls : ∀ callees ∈ graph.functions, callees.names = [])
    (member : placed ∈ graph.entries) : placed.layer = 0 := by
  have chain := layered.raised.reached placed member
  generalize placed.layer = layer at chain ⊢
  cases chain with
  | stop => rfl
  | call calls _ =>
    obtain ⟨callees, isPlaced, _, named⟩ := calls
    rw [noCalls callees isPlaced] at named
    exact absurd named List.not_mem_nil

/-! ## Layers in full -/

/-- Below a function there is one in every lower layer: on its longest chain of
calls the layers go down one by one. -/
theorem Layered.exists_in_layer (member : placed ∈ graph.entries) (le : index ≤ placed.layer) :
    ∃ lower ∈ graph.entries, lower.layer = index := by
  generalize topEq : placed.layer = top at le
  induction top generalizing placed with
  | zero => exact ⟨placed, member, by omega⟩
  | succ top ih =>
    rcases Nat.lt_or_eq_of_le le with below | isTop
    swap
    · exact ⟨placed, member, topEq.trans isTop.symm⟩
    have chain := layered.raised.reached placed member
    rw [topEq] at chain
    cases chain with
    | @call _ callee _ calls rest =>
      have calleeMember : callee ∈ functionNames graph.functions := by
        cases rest with
        | stop member => exact member
        | call calls _ => exact calls.caller_mem
      obtain ⟨lower, lowerMember, rfl⟩ := mem_functionNames_iff.mp calleeMember
      have longer := layered.length_le (.call calls (layered.raised.reached lower lowerMember))
        member rfl
      have atLeast := layered.length_le rest lowerMember rfl
      exact ih lowerMember (by omega) (by omega)

theorem Layered.mem_inLayer_iff :
    callees ∈ graph.inLayer index ↔
      callees ∈ graph.functions ∧ graph.layerOf? callees.function = some index := by
  simp only [inLayer, functions, List.mem_map, List.mem_filter, beq_iff_eq]
  constructor
  · rintro ⟨placed, ⟨member, rfl⟩, rfl⟩
    exact ⟨⟨placed, member, rfl⟩, layered.layer_of_mem member⟩
  · rintro ⟨⟨placed, member, rfl⟩, found⟩
    have same := (layered.layer_of_mem member).symm.trans found
    exact ⟨placed, ⟨member, Option.some.inj same⟩, rfl⟩

theorem Layered.inLayer_ne_nil (inRange : index < graph.layerCount) : graph.inLayer index ≠ [] := by
  obtain ⟨top, topMember, topEq⟩ : ∃ top ∈ graph.entries, top.layer + 1 = graph.layerCount := by
    rcases foldl_max_mem (graph.entries.map fun placed => placed.layer + 1) 0 with none | isMax
    · exact absurd inRange (Nat.not_lt.mpr (none.le.trans (Nat.zero_le _)))
    · exact List.mem_map.mp isMax
  obtain ⟨lower, member, layerEq⟩ := layered.exists_in_layer topMember (by omega : index ≤ _)
  refine List.ne_nil_of_mem (a := lower.callees) (List.mem_map_of_mem ?_)
  exact List.mem_filter.mpr ⟨member, beq_iff_eq.mpr layerEq⟩

/-! ## The order as a whole -/

/-- No function comes twice, and layers never go down. -/
theorem Layered.order_pairwise :
    graph.order.Pairwise fun early late => early ≠ late ∧
      ∀ lower upper, graph.layerOf? early.function = some lower →
        graph.layerOf? late.function = some upper → lower ≤ upper := by
  have distinct : graph.functions.Nodup := .of_map _ layered.distinct
  rw [order, layers_eq, List.pairwise_flatten]
  constructor
  · intro layer member
    obtain ⟨index, _, rfl⟩ := List.mem_map.mp member
    refine List.Pairwise.imp_of_mem ?_ (distinct.sublist (graph.inLayer_sublist index))
    intro early late isEarly isLate apart
    refine ⟨apart, fun lower upper foundLower foundUpper => ?_⟩
    rw [(layered.mem_inLayer_iff.mp isEarly).2] at foundLower
    rw [(layered.mem_inLayer_iff.mp isLate).2] at foundUpper
    exact (Option.some.inj foundLower).ge.trans (Option.some.inj foundUpper).le
  · rw [List.pairwise_map]
    refine List.pairwise_lt_range.imp fun below early isEarly late isLate => ?_
    have earlyFound := (layered.mem_inLayer_iff.mp isEarly).2
    have lateFound := (layered.mem_inLayer_iff.mp isLate).2
    constructor
    · rintro rfl
      exact below.ne (Option.some.inj (earlyFound.symm.trans lateFound))
    · intro lower upper foundLower foundUpper
      rw [earlyFound] at foundLower
      rw [lateFound] at foundUpper
      cases foundLower
      cases foundUpper
      exact below.le

theorem Layered.callee_before {caller callee early late}
    (orderEq : graph.order = early ++ caller :: late) (isPlaced : callee ∈ graph.functions)
    (named : callee.function ∈ caller.names) : callee ∈ early := by
  have inOrder : callee ∈ early ++ caller :: late := orderEq ▸ mem_order_iff.mpr isPlaced
  refine (List.mem_append.mp inOrder).resolve_right fun fromCaller => ?_
  have callerPlaced : caller ∈ graph.functions :=
    mem_order_iff.mp (orderEq ▸ List.mem_append_right _ List.mem_cons_self)
  obtain ⟨upper, upperMember, rfl⟩ := List.mem_map.mp callerPlaced
  obtain ⟨lower, lowerMember, rfl⟩ := List.mem_map.mp isPlaced
  have above := (layered.raised.above upper upperMember lower lowerMember named).resolve_right
    List.not_mem_nil
  have foundUpper := layered.layer_of_mem upperMember
  have foundLower := layered.layer_of_mem lowerMember
  have pairwise := layered.order_pairwise
  rw [orderEq] at pairwise
  have later := (List.pairwise_append.mp pairwise).2.1
  rcases List.mem_cons.mp fromCaller with same | isLate
  · have sameLayer : graph.layerOf? lower.name = graph.layerOf? upper.name := by
      rw [Placed.name, Placed.name, same]
    rw [foundLower, foundUpper] at sameLayer
    exact above.ne (Option.some.inj sameLayer)
  · exact absurd ((List.rel_of_pairwise_cons later isLate).2 _ _ foundUpper foundLower)
      (Nat.not_le.mpr above)

end Layered

/-- After any functions were offered there are as many layers as counted, and none
is empty.  A placed function has a layer and stands in that one alone, and every
layer keeps the order of placement.  So each placed function is processed
exactly once, and after all placed functions that it calls. -/
theorem order_topological (offered : List Callees) :
    let graph := empty.pushAll offered
    graph.layers.length = graph.layerCount ∧ [] ∉ graph.layers ∧
      (∀ callees ∈ graph.functions, ∃ index < graph.layers.length,
        graph.layerOf? callees.function = some index) ∧
      (∀ index layer, graph.layers[index]? = some layer →
        layer.Sublist graph.functions ∧ ∀ callees ∈ graph.functions,
          callees ∈ layer ↔ graph.layerOf? callees.function = some index) ∧
      graph.order.Nodup ∧ graph.order.Perm graph.functions ∧
      ∀ early caller late, graph.order = early ++ caller :: late →
        ∀ callee ∈ graph.functions, callee.function ∈ caller.names → callee ∈ early := by
  intro graph
  have layered : Layered graph := layered_empty.pushAll offered
  have count : graph.layers.length = graph.layerCount := by
    rw [layers, List.length_map, List.length_range]
  have once : graph.order.Nodup := layered.order_pairwise.imp And.left
  refine ⟨count, ?_, ?_, ?_, once, ?_, ?_⟩
  · intro isEmpty
    obtain ⟨index, inRange, nothing⟩ := List.mem_map.mp isEmpty
    exact layered.inLayer_ne_nil (List.mem_range.mp inRange) nothing
  · intro callees isPlaced
    obtain ⟨placed, member, rfl⟩ := List.mem_map.mp isPlaced
    exact ⟨placed.layer, count ▸ layer_lt_layerCount member, layered.layer_of_mem member⟩
  · intro index layer found
    rw [layers_eq, List.getElem?_map, Option.map_eq_some_iff] at found
    obtain ⟨number, isNumber, rfl⟩ := found
    obtain ⟨_, rfl⟩ := List.getElem?_eq_some_iff.mp isNumber
    rw [List.getElem_range]
    exact ⟨graph.inLayer_sublist index, fun callees isPlaced =>
      layered.mem_inLayer_iff.trans (and_iff_right isPlaced)⟩
  · exact (List.perm_ext_iff_of_nodup once (.of_map _ layered.distinct)).mpr
      fun _ => mem_order_iff
  · intro early caller late orderEq callee isPlaced named
    exact layered.callee_before orderEq isPlaced named

/-- A caller placed first is moved up twice, and comes last all the same. -/
theorem order_topological_diamond :
    let graph := empty.pushAll
      [⟨"top", ["left", "right"]⟩, ⟨"left", ["base"]⟩, ⟨"right", []⟩, ⟨"base", []⟩]
    graph.order.map Callees.function = ["right", "base", "left", "top"] ∧ [] ∉ graph.layers ∧
      (⟨"base", []⟩ : Callees) ∈ graph.order.take 3 := by
  intro graph
  have whole := order_topological
    [⟨"top", ["left", "right"]⟩, ⟨"left", ["base"]⟩, ⟨"right", []⟩, ⟨"base", []⟩]
  have orderEq : graph.order = graph.order.take 2 ++ ⟨"left", ["base"]⟩ :: graph.order.drop 3 := by
    decide
  refine ⟨by decide, whole.2.1, ?_⟩
  have before := whole.2.2.2.2.2.2 _ _ _ orderEq ⟨"base", []⟩ (by decide) (by decide)
  exact List.mem_of_mem_take (List.take_take ▸ before : _ ∈ (graph.order.take 3).take 2)

end LayeredGraph

end SlotCompiler
