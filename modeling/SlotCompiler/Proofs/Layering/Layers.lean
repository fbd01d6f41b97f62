import SlotCompiler.Proofs.Layering.Calls

/-!
Contract: the layer of a placed function is the length of its longest chain of
calls.
-/

namespace SlotCompiler

namespace LayeredGraph

variable {name : String}

variable {placed : Placed} {layer value : Nat}

open Relation

/-! ## Raising -/

/-- Layers while functions are raised: none is higher than its chains allow, and
a caller that is not yet above a callee will be looked at. -/
structure Raising (functions : List Callees) (graph : LayeredGraph) (pending : List String) :
    Prop where
  functions_eq : graph.functions = functions
  reached : ∀ placed ∈ graph.entries, Chain functions placed.name placed.layer
  above : ∀ caller ∈ graph.entries, ∀ callee ∈ graph.entries,
    callee.name ∈ caller.callees.names → callee.layer < caller.layer ∨ callee.name ∈ pending
  placed : ∀ name ∈ pending, name ∈ functionNames functions

section Round

variable {entries : List Placed} {name : String} {floor : Nat}

theorem raiseCallers_callees :
    (raiseCallers entries name floor).1.map Placed.callees = entries.map Placed.callees := by
  simp only [raiseCallers, List.map_map]
  refine List.map_congr_left fun placed _ => ?_
  simp only [Function.comp_apply]
  split <;> rfl

theorem raiseCallers_cases {after} (member : after ∈ (raiseCallers entries name floor).1) :
    ∃ before ∈ entries, after.callees = before.callees ∧ before.layer ≤ after.layer ∧
      (name ∈ before.callees.names → floor ≤ after.layer) ∧
      (after = before ∨ name ∈ before.callees.names ∧ after.layer = floor ∧
        after.name ∈ (raiseCallers entries name floor).2.map Raise.name) := by
  obtain ⟨before, beforeMember, rfl⟩ := List.mem_map.mp member
  refine ⟨before, beforeMember, ?_⟩
  by_cases lies : (before.callees.calls name && before.layer < floor) = true
  · rw [if_pos lies]
    obtain ⟨calls, below⟩ := Bool.and_eq_true_iff.mp lies
    have named := Callees.calls_iff.mp calls
    have isBelow := of_decide_eq_true below
    refine ⟨rfl, isBelow.le, fun _ => le_refl floor, .inr ⟨named, rfl, ?_⟩⟩
    have moved : (⟨before.name, before.layer, floor⟩ : Raise) ∈
        (raiseCallers entries name floor).2 :=
      List.mem_map_of_mem (List.mem_filter.mpr ⟨beforeMember, lies⟩)
    exact List.mem_map_of_mem moved
  · rw [if_neg lies]
    refine ⟨rfl, le_refl _, fun named => ?_, .inl rfl⟩
    by_contra below
    exact lies (Bool.and_eq_true_iff.mpr
      ⟨Callees.calls_iff.mpr named, decide_eq_true (Nat.lt_of_not_le below)⟩)

theorem raiseCallers_moved {moved}
    (member : moved ∈ (raiseCallers entries name floor).2.map Raise.name) :
    ∃ placed ∈ entries, placed.name = moved := by
  obtain ⟨raise, raiseMember, rfl⟩ := List.mem_map.mp member
  obtain ⟨placed, isFiltered, rfl⟩ := List.mem_map.mp raiseMember
  exact ⟨placed, List.mem_of_mem_filter isFiltered, rfl⟩

def headroom (bound : Nat) : List Placed → Nat
  | [] => 0
  | placed :: rest => (bound - placed.layer) + headroom bound rest

theorem headroom_raiseCallers (entries : List Placed) (name : String) {bound}
    (within : floor ≤ bound) :
    headroom bound (raiseCallers entries name floor).1 +
      (raiseCallers entries name floor).2.length ≤ headroom bound entries := by
  simp only [raiseCallers, List.length_map]
  induction entries with
  | nil => rfl
  | cons placed rest ih =>
    by_cases lies : (placed.callees.calls name && placed.layer < floor) = true
    · have below := of_decide_eq_true (Bool.and_eq_true_iff.mp lies).2
      simp only [List.map_cons, List.filter_cons, if_pos lies, headroom, List.length_cons]
      omega
    · simp only [List.map_cons, List.filter_cons, if_neg lies, headroom]
      omega

theorem headroom_le (bound : Nat) (entries : List Placed) :
    headroom bound entries ≤ entries.length * bound := by
  induction entries with
  | nil => exact Nat.zero_le _
  | cons placed rest ih =>
    rw [headroom, List.length_cons, Nat.add_mul, Nat.one_mul]
    omega

end Round

section Raising

variable {functions : List Callees} {graph : LayeredGraph} {name : String}
  {pending : List String}

theorem Raising.exists_layer (raising : Raising functions graph pending)
    (member : name ∈ functionNames functions) :
    ∃ placed ∈ graph.entries, placed.name = name ∧ graph.layerOf? name = some placed.layer := by
  rw [← raising.functions_eq] at member
  cases found : graph.find? name with
  | none => exact absurd member (find?_eq_none_iff.mp found)
  | some placed =>
    obtain ⟨placedMember, nameEq⟩ := mem_of_find? found
    exact ⟨placed, placedMember, nameEq, by rw [layerOf?, found]; rfl⟩

/-- One round: the callers of the name are lifted above it, and those that moved
are looked at next. -/
theorem Raising.round (distinct : (functionNames functions).Nodup)
    (raising : Raising functions graph (name :: pending)) :
    let moves := raiseCallers graph.entries name ((graph.layerOf? name).getD 0 + 1)
    Raising functions ⟨moves.1⟩ ((moves.2.map Raise.name).reverse ++ pending) := by
  intro moves
  obtain ⟨lifting, liftingMember, rfl, layerEq⟩ :=
    raising.exists_layer (raising.placed name List.mem_cons_self)
  have floorEq : (graph.layerOf? lifting.name).getD 0 + 1 = lifting.layer + 1 := by
    rw [layerEq, Option.getD_some]
  have callsOf {caller : Placed} {callee : String} (member : caller ∈ graph.entries)
      (named : callee ∈ caller.callees.names) : Calls functions caller.name callee := by
    rw [← raising.functions_eq]
    exact calls_iff.mpr ⟨caller, member, rfl, named⟩
  have sameName {first second : Placed} (same : first.callees = second.callees) :
      first.name = second.name := congrArg Callees.function same
  refine ⟨?_, ?_, ?_, ?_⟩
  · rw [← raising.functions_eq]
    exact raiseCallers_callees
  · intro after member
    obtain ⟨before, beforeMember, calleesEq, _, _, unmoved | ⟨named, layerIs, _⟩⟩ :=
      raiseCallers_cases member
    · rw [unmoved]
      exact raising.reached before beforeMember
    · rw [sameName calleesEq, layerIs, floorEq]
      exact .call (callsOf beforeMember named) (raising.reached lifting liftingMember)
  · intro caller callerMember callee calleeMember named
    obtain ⟨oldCaller, oldCallerMember, callerEq, callerLe, lifted, _⟩ :=
      raiseCallers_cases callerMember
    obtain ⟨oldCallee, oldCalleeMember, calleeEq, _, _, unmoved | ⟨_, _, moved⟩⟩ :=
      raiseCallers_cases calleeMember
    swap
    · exact .inr (List.mem_append_left _ (List.mem_reverse.mpr moved))
    subst unmoved
    rw [callerEq] at named
    by_cases isLifting : callee.name = lifting.name
    · -- The callee is the function above which this round lifts its callers.
      have same : callee = lifting := by
        rw [← raising.functions_eq] at distinct
        have found := find?_eq_some distinct oldCalleeMember
        rw [isLifting, find?_eq_some distinct liftingMember] at found
        exact (Option.some.inj found).symm
      rw [same] at named ⊢
      have above := lifted named
      rw [floorEq] at above
      exact .inl above
    · rcases raising.above oldCaller oldCallerMember callee oldCalleeMember named with
        above | waiting
      · exact .inl (above.trans_le callerLe)
      · rcases List.mem_cons.mp waiting with isFirst | waiting
        · exact absurd isFirst isLifting
        · exact .inr (List.mem_append_right _ waiting)
  · intro other member
    rcases List.mem_append.mp member with moved | waiting
    · obtain ⟨placed, placedMember, rfl⟩ := raiseCallers_moved (List.mem_reverse.mp moved)
      rw [← raising.functions_eq]
      exact mem_functionNames_iff.mpr ⟨placed, placedMember, rfl⟩
    · exact raising.placed other (List.mem_cons_of_mem _ waiting)

theorem raiseAll_cons (fuel : Nat) (graph : LayeredGraph) (name : String) (pending : List String)
    (raises : List Raise) :
    let moves := raiseCallers graph.entries name ((graph.layerOf? name).getD 0 + 1)
    raiseAll (fuel + 1) graph (name :: pending) raises =
      raiseAll fuel ⟨moves.1⟩ ((moves.2.map Raise.name).reverse ++ pending) (raises ++ moves.2) :=
  rfl

/-- Every move takes as much headroom as it adds to the functions to look at, so a
round leaves less of both. -/
theorem Raising.round_shrinks (acyclic : Acyclic functions)
    (raising : Raising functions graph (name :: pending)) :
    let moves := raiseCallers graph.entries name ((graph.layerOf? name).getD 0 + 1)
    ((moves.2.map Raise.name).reverse ++ pending).length + headroom functions.length moves.1 + 1 ≤
      (name :: pending).length + headroom functions.length graph.entries := by
  intro moves
  obtain ⟨lifting, liftingMember, _, layerEq⟩ :=
    raising.exists_layer (raising.placed name List.mem_cons_self)
  have floorLe : (graph.layerOf? name).getD 0 + 1 ≤ functions.length := by
    rw [layerEq, Option.getD_some]
    exact (raising.reached lifting liftingMember).length_lt acyclic
  have taken := headroom_raiseCallers graph.entries name floorLe
  rw [List.length_append, List.length_reverse, List.length_map, List.length_cons]
  dsimp only [moves]
  omega

theorem Raising.finishes (distinct : (functionNames functions).Nodup) (acyclic : Acyclic functions)
    {fuel raises} (raising : Raising functions graph pending)
    (enough : pending.length + headroom functions.length graph.entries ≤ fuel) :
    Raising functions (raiseAll fuel graph pending raises).1 [] := by
  induction fuel generalizing graph pending raises with
  | zero =>
    have nothing : pending = [] := List.length_eq_zero_iff.mp (by omega)
    rw [nothing] at raising
    exact raising
  | succ fuel ih =>
    cases pending with
    | nil => exact raising
    | cons name pending =>
      have shrinks := raising.round_shrinks acyclic
      rw [raiseAll_cons]
      exact ih (raising.round distinct) (by dsimp only at shrinks ⊢; omega)

end Raising

/-! ## Layers of a graph -/

/-- A graph in which every function has its proper layer. -/
structure Layered (graph : LayeredGraph) : Prop where
  distinct : (functionNames graph.functions).Nodup
  acyclic : Acyclic graph.functions
  raised : Raising graph.functions graph []

section Layered

variable {graph : LayeredGraph}

theorem layered_empty : Layered empty where
  distinct := List.nodup_nil
  acyclic := by
    intro name cycle
    obtain ⟨_, ⟨_, impossible, _⟩, _⟩ := TransGen.head'_iff.mp cycle
    exact absurd impossible List.not_mem_nil
  raised := ⟨rfl, by simp [empty], by simp [empty], by simp⟩

theorem Layered.layer_of_mem (layered : Layered graph) (member : placed ∈ graph.entries) :
    graph.layerOf? placed.name = some placed.layer := by
  rw [layerOf?, find?_eq_some layered.distinct member]
  rfl

theorem Layered.length_le (layered : Layered graph) {length}
    (chain : Chain graph.functions name length) (member : placed ∈ graph.entries)
    (nameEq : placed.name = name) : length ≤ placed.layer := by
  induction chain generalizing placed with
  | stop => exact Nat.zero_le _
  | @call caller callee length calls rest ih =>
    obtain ⟨same, sameMember, sameName, named⟩ := calls_iff.mp calls
    have samePlaced : placed = same := by
      have found := find?_eq_some layered.distinct member
      rw [nameEq, ← sameName, find?_eq_some layered.distinct sameMember] at found
      exact (Option.some.inj found).symm
    have calleeMember : callee ∈ functionNames graph.functions := by
      cases rest with
      | stop member => exact member
      | call calls _ => exact calls.caller_mem
    obtain ⟨lower, lowerMember, lowerName⟩ := mem_functionNames_iff.mp calleeMember
    have below := ih lowerMember lowerName
    rw [← lowerName] at named
    have above := (layered.raised.above same sameMember lower lowerMember named).resolve_right
      List.not_mem_nil
    rw [samePlaced]
    omega

theorem Layered.layerOf?_eq_some_iff (layered : Layered graph) :
    graph.layerOf? name = some layer ↔
      IsGreatest {length | Chain graph.functions name length} layer := by
  constructor
  · intro found
    obtain ⟨placed, isPlaced, rfl⟩ := Option.map_eq_some_iff.mp found
    obtain ⟨member, nameEq⟩ := mem_of_find? isPlaced
    refine ⟨?_, fun length chain => layered.length_le chain member nameEq⟩
    have reached := layered.raised.reached placed member
    rw [nameEq] at reached
    exact reached
  · intro longest
    have member : name ∈ functionNames graph.functions := by
      cases longest.1 with
      | stop member => exact member
      | call calls _ => exact calls.caller_mem
    obtain ⟨placed, placedMember, rfl⟩ := mem_functionNames_iff.mp member
    rw [layered.layer_of_mem placedMember]
    have upper := longest.2 (layered.raised.reached placed placedMember)
    have lower := layered.length_le longest.1 placedMember rfl
    exact congrArg some (le_antisymm upper lower)

end Layered

/-! ## Placement -/

section Placement

variable {graph : LayeredGraph} {callees : Callees}

theorem le_foldl_max {values : List Nat} {initial : Nat} (le : value ≤ initial ∨ value ∈ values) :
    value ≤ values.foldl max initial := by
  induction values generalizing initial with
  | nil => exact le.resolve_right List.not_mem_nil
  | cons head rest ih =>
    apply ih
    rcases le with small | member
    · exact .inl (small.trans (le_max_left _ _))
    · rcases List.mem_cons.mp member with rfl | member
      · exact .inl (le_max_right _ _)
      · exact .inr member

theorem foldl_max_mem (values : List Nat) (initial : Nat) :
    values.foldl max initial = initial ∨ values.foldl max initial ∈ values := by
  induction values generalizing initial with
  | nil => exact .inl rfl
  | cons head rest ih =>
    rw [List.foldl_cons]
    rcases ih (max initial head) with same | member
    · rw [same]
      rcases max_choice initial head with isInitial | isHead
      · exact .inl isInitial
      · rw [isHead]
        exact .inr List.mem_cons_self
    · exact .inr (List.mem_cons_of_mem _ member)

theorem mem_calleeLayers_iff {value} :
    value ∈ (callees.names.filterMap graph.layerOf?).map (· + 1) ↔
      ∃ callee ∈ callees.names, ∃ layer, graph.layerOf? callee = some layer ∧ layer + 1 = value := by
  simp only [List.mem_map, List.mem_filterMap]
  constructor
  · rintro ⟨layer, ⟨callee, member, found⟩, rfl⟩
    exact ⟨callee, member, layer, found, rfl⟩
  · rintro ⟨callee, member, layer, found, rfl⟩
    exact ⟨layer, ⟨callee, member, found⟩, rfl⟩

theorem lt_layerFor {callee : String} (named : callee ∈ callees.names)
    (found : graph.layerOf? callee = some layer) : layer < graph.layerFor callees :=
  le_foldl_max (.inr (mem_calleeLayers_iff.mpr ⟨callee, named, layer, found, rfl⟩))

theorem Layered.chain_layerFor (layered : Layered graph) :
    Chain (graph.functions ++ [callees]) callees.function (graph.layerFor callees) := by
  have added : callees ∈ graph.functions ++ [callees] :=
    List.mem_append_right _ (List.mem_singleton.mpr rfl)
  rcases foldl_max_mem ((callees.names.filterMap graph.layerOf?).map (· + 1)) 0 with
    lowest | member
  · rw [layerFor, lowest]
    exact .stop (List.mem_map_of_mem added)
  · obtain ⟨callee, named, layer, found, layerEq⟩ := mem_calleeLayers_iff.mp member
    rw [layerFor, ← layerEq]
    have longest := layered.layerOf?_eq_some_iff.mp found
    exact .call ⟨callees, added, rfl, named⟩ (longest.1.mono (List.subset_append_left _ _))

def LeadsAway (graph : LayeredGraph) (callees : Callees) : Prop :=
  ∀ callee ∈ callees.names, ¬ ReflTransGen (Calls graph.functions) callee callees.function

def extended (graph : LayeredGraph) (callees : Callees) : LayeredGraph :=
  ⟨graph.entries ++ [⟨callees, graph.layerFor callees⟩]⟩

theorem functions_extended (graph : LayeredGraph) (callees : Callees) :
    (graph.extended callees).functions = graph.functions ++ [callees] := by
  rw [extended, functions, List.map_append]
  rfl

theorem contains_eq_false_iff :
    graph.contains name = false ↔ name ∉ functionNames graph.functions := by
  rw [contains, Option.isSome_eq_false_iff, Option.isNone_iff_eq_none, find?_eq_none_iff]

theorem place_eq_ok_iff (distinct : (functionNames graph.functions).Nodup) {raised} :
    (∃ placement, graph.place callees = .ok placement ∧ placement.graph = raised) ↔
      callees.function ∉ functionNames graph.functions ∧ graph.LeadsAway callees ∧
        raised = (raiseAll (graph.extended callees).raiseFuel (graph.extended callees)
          [callees.function] []).1 := by
  have leadsBack_iff : graph.reaches callees.names callees.function = true ↔
      ¬ graph.LeadsAway callees := by
    rw [reaches_iff distinct, LeadsAway]
    push Not
    rfl
  rw [← contains_eq_false_iff]
  unfold place
  dsimp only
  split
  · rename_i taken
    simp [taken]
  rename_i isNew
  split
  · rename_i callsItself
    have leadsBack : ¬ graph.LeadsAway callees := fun leadsAway =>
      leadsAway _ (Callees.calls_iff.mp callsItself) .refl
    simp [leadsBack]
  split
  · rename_i leadsBack
    simp [leadsBack_iff.mp leadsBack]
  · rename_i leadsAway
    rw [leadsBack_iff, not_not] at leadsAway
    rw [Bool.not_eq_true] at isNew
    constructor
    · rintro ⟨placement, placementEq, rfl⟩
      cases placementEq
      exact ⟨isNew, leadsAway, rfl⟩
    · rintro ⟨_, _, rfl⟩
      exact ⟨_, rfl, rfl⟩

theorem Layered.raising_extended (layered : Layered graph) (callees : Callees) :
    Raising (graph.functions ++ [callees]) (graph.extended callees) [callees.function] where
  functions_eq := functions_extended graph callees
  reached := by
    intro placed member
    rcases List.mem_append.mp member with earlier | last
    · exact (layered.raised.reached placed earlier).mono (List.subset_append_left _ _)
    · rw [List.mem_singleton.mp last]
      exact layered.chain_layerFor
  above := by
    intro caller callerMember callee calleeMember named
    rcases List.mem_append.mp calleeMember with calleeEarlier | calleeLast
    · left
      rcases List.mem_append.mp callerMember with callerEarlier | callerLast
      · exact (layered.raised.above caller callerEarlier callee calleeEarlier named).resolve_right
          List.not_mem_nil
      · rw [List.mem_singleton.mp callerLast] at named ⊢
        exact lt_layerFor named (layered.layer_of_mem calleeEarlier)
    · rw [List.mem_singleton.mp calleeLast]
      exact .inr (List.mem_singleton.mpr rfl)
  placed := by
    intro name member
    rw [List.mem_singleton.mp member]
    exact List.mem_map_of_mem (List.mem_append_right _ (List.mem_singleton.mpr rfl))

theorem Layered.extended_enough (layered : Layered graph)
    (isNew : callees.function ∉ functionNames graph.functions)
    (leadsAway : graph.LeadsAway callees) :
    (functionNames (graph.functions ++ [callees])).Nodup ∧
      Acyclic (graph.functions ++ [callees]) ∧
      [callees.function].length +
        headroom (graph.functions ++ [callees]).length (graph.extended callees).entries ≤
          (graph.extended callees).raiseFuel := by
  refine ⟨?_, layered.acyclic.append isNew leadsAway, ?_⟩
  · rw [functionNames, List.map_append, List.map_singleton]
    refine List.nodup_append.mpr ⟨layered.distinct, List.nodup_singleton _, ?_⟩
    intro name member last isLast same
    rw [same, List.mem_singleton.mp isLast] at member
    exact isNew member
  · have sizeEq : (graph.functions ++ [callees]).length = (graph.extended callees).size := by
      rw [← functions_extended, functions, List.length_map, size]
    have room := headroom_le (graph.extended callees).size (graph.extended callees).entries
    rw [sizeEq, raiseFuel, List.length_singleton, Nat.add_comm]
    exact Nat.add_le_add_right room 1

theorem Layered.place (layered : Layered graph) {placement}
    (ok : graph.place callees = .ok placement) :
    Layered placement.graph ∧ placement.graph.functions = graph.functions ++ [callees] := by
  obtain ⟨isNew, leadsAway, graphEq⟩ := (place_eq_ok_iff layered.distinct).mp ⟨placement, ok, rfl⟩
  obtain ⟨distinct, acyclic, enough⟩ := layered.extended_enough isNew leadsAway
  have finished : Raising (graph.functions ++ [callees]) placement.graph [] :=
    graphEq ▸ (layered.raising_extended callees).finishes distinct acyclic enough
  have functionsEq := finished.functions_eq
  rw [← functionsEq] at distinct acyclic finished
  exact ⟨⟨distinct, acyclic, finished⟩, functionsEq⟩

end Placement

/-! ## Sequences of placements -/

/-- The graph after a function was offered; a refusal leaves it as it is. -/
def push (graph : LayeredGraph) (callees : Callees) : LayeredGraph :=
  match graph.place callees with
  | .ok placement => placement.graph
  | .error _ => graph

/-- The graph after functions were offered one after the other. -/
def pushAll (graph : LayeredGraph) (offered : List Callees) : LayeredGraph :=
  offered.foldl push graph

/-- The graph after all functions were placed, or the first refusal. -/
def placeAll (graph : LayeredGraph) : List Callees → Except LayeringFault LayeredGraph
  | [] => .ok graph
  | callees :: rest =>
    match graph.place callees with
    | .ok placement => placement.graph.placeAll rest
    | .error fault => .error fault

section Sequences

variable {graph : LayeredGraph}

theorem Layered.push (layered : Layered graph) (callees : Callees) :
    Layered (graph.push callees) := by
  unfold LayeredGraph.push
  split
  · rename_i placement ok
    exact (layered.place ok).1
  · exact layered

theorem Layered.pushAll (layered : Layered graph) (offered : List Callees) :
    Layered (graph.pushAll offered) := by
  induction offered generalizing graph with
  | nil => exact layered
  | cons callees rest ih => exact ih (layered.push callees)

theorem Layered.placeAll (layered : Layered graph) {offered}
    (distinct : (functionNames (graph.functions ++ offered)).Nodup)
    (acyclic : Acyclic (graph.functions ++ offered)) :
    ∃ placed, graph.placeAll offered = .ok placed ∧ Layered placed ∧
      placed.functions = graph.functions ++ offered := by
  induction offered generalizing graph with
  | nil => exact ⟨graph, rfl, layered, (List.append_nil _).symm⟩
  | cons callees rest ih =>
    have member : callees ∈ graph.functions ++ callees :: rest :=
      List.mem_append_right _ List.mem_cons_self
    have isNew : callees.function ∉ functionNames graph.functions := by
      rw [functionNames, List.map_append, List.map_cons] at distinct
      exact fun earlier =>
        (List.nodup_append.mp distinct).2.2 _ earlier _ List.mem_cons_self rfl
    have leadsAway : graph.LeadsAway callees := by
      intro callee named path
      have within : graph.functions ⊆ graph.functions ++ callees :: rest :=
        List.subset_append_left _ _
      have back := ReflTransGen.mono (fun _ _ calls => Calls.mono calls within) _ _ path
      exact acyclic _ (.head' ⟨callees, member, rfl, named⟩ back)
    obtain ⟨placement, ok, _⟩ := (place_eq_ok_iff layered.distinct).mpr ⟨isNew, leadsAway, rfl⟩
    obtain ⟨next, functionsEq⟩ := layered.place ok
    have appendEq : graph.functions ++ callees :: rest = placement.graph.functions ++ rest := by
      rw [functionsEq, List.append_assoc, List.singleton_append]
    rw [appendEq] at distinct acyclic ⊢
    rw [LayeredGraph.placeAll, ok]
    exact ih next distinct acyclic

end Sequences

/-- After any functions were offered, the layer of a placed function is the
length of its longest chain of calls between placed functions; so it lies above
the placed functions that it calls.  Functions without a cycle are all placed in
any order, and always get the same layers. -/
theorem layers_exact :
    (∀ offered name layer,
      (empty.pushAll offered).layerOf? name = some layer ↔
        IsGreatest {length | Chain (empty.pushAll offered).functions name length} layer) ∧
    (∀ offered caller callee upper lower,
      Calls (empty.pushAll offered).functions caller callee →
      (empty.pushAll offered).layerOf? caller = some upper →
      (empty.pushAll offered).layerOf? callee = some lower → lower < upper) ∧
    (∀ functions first second : List Callees,
      (functionNames functions).Nodup → Acyclic functions →
      first.Perm functions → second.Perm functions →
      ∃ one other, empty.placeAll first = .ok one ∧ empty.placeAll second = .ok other ∧
        one.functions = first ∧ other.functions = second ∧
        ∀ name, one.layerOf? name = other.layerOf? name) := by
  refine ⟨?_, ?_, ?_⟩
  · intro offered name layer
    exact (layered_empty.pushAll offered).layerOf?_eq_some_iff
  · intro offered caller callee upper lower calls callerFound calleeFound
    have layered := layered_empty.pushAll offered
    have callerLongest := layered.layerOf?_eq_some_iff.mp callerFound
    have calleeLongest := layered.layerOf?_eq_some_iff.mp calleeFound
    exact callerLongest.2 (.call calls calleeLongest.1)
  · intro functions first second distinct acyclic firstSame secondSame
    have placeInOrder {order : List Callees} (same : order.Perm functions) :
        ∃ placed, empty.placeAll order = .ok placed ∧ Layered placed ∧ placed.functions = order := by
      refine layered_empty.placeAll ?_ ?_
      · exact (same.map Callees.function).nodup_iff.mpr distinct
      · intro name cycle
        exact acyclic name (TransGen.mono (fun _ _ calls => Calls.mono calls same.subset) _ _ cycle)
    obtain ⟨one, oneOk, oneLayered, oneEq⟩ := placeInOrder firstSame
    obtain ⟨other, otherOk, otherLayered, otherEq⟩ := placeInOrder secondSame
    refine ⟨one, other, oneOk, otherOk, oneEq, otherEq, fun name => Option.ext fun layer => ?_⟩
    have sameChains {length : Nat} :
        Chain one.functions name length ↔ Chain other.functions name length := by
      rw [oneEq, otherEq]
      exact chain_iff_of_perm (firstSame.trans secondSame.symm)
    rw [oneLayered.layerOf?_eq_some_iff, otherLayered.layerOf?_eq_some_iff]
    simp only [sameChains]

/-- A function that calls two others, one of which calls a fourth: callees last
or callees first, the layers are the same. -/
theorem layers_exact_diamond :
    let diamond : List Callees :=
      [⟨"top", ["left", "right"]⟩, ⟨"left", ["base"]⟩, ⟨"right", []⟩, ⟨"base", []⟩]
    (functionNames diamond).Nodup ∧ Acyclic diamond ∧
      ∃ one other, empty.placeAll diamond = .ok one ∧ empty.placeAll diamond.reverse = .ok other ∧
        one.functions = diamond ∧ other.functions = diamond.reverse ∧
        ∀ name, one.layerOf? name = other.layerOf? name := by
  intro diamond
  have distinct : (functionNames diamond).Nodup := by decide
  have acyclic : Acyclic diamond :=
    acyclic_of_rank (fun name => ["base", "left", "top"].idxOf name % 3) (by decide)
  exact ⟨distinct, acyclic, layers_exact.2.2 diamond diamond diamond.reverse distinct acyclic
    (.refl _) (List.reverse_perm _)⟩

end LayeredGraph

end SlotCompiler
