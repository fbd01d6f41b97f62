import SlotCompiler.Program.Functions
import SlotCompiler.Proofs.Layering.Layers

/-!
Contract: a function is refused exactly when its name is taken or it closes a
cycle of calls.
-/

namespace SlotCompiler

open Relation

/-! ## Recorded calls -/

namespace Callees

variable {callees : Callees}

def recordOrKeep (callees : Callees) (name : String) : Callees :=
  match callees.record name with
  | .ok (recorded, _) => recorded
  | .error _ => callees

/-- A function whose calls were recorded one after the other. -/
def ofCalls (function : String) (calls : List String) : Callees :=
  calls.foldl recordOrKeep (.none function)

def Selfless (callees : Callees) : Prop := callees.function ∉ callees.names

theorem selfless_none (function : String) : (Callees.none function).Selfless :=
  List.not_mem_nil

theorem function_recordOrKeep (callees : Callees) (name : String) :
    (callees.recordOrKeep name).function = callees.function := by
  unfold recordOrKeep record
  by_cases isSelf : name = callees.function
  · rw [if_pos isSelf]
  · rw [if_neg isSelf]
    by_cases isKnown : callees.calls name = true
    · rw [if_pos isKnown]
    · rw [if_neg isKnown]

theorem Selfless.recordOrKeep (selfless : callees.Selfless) (name : String) :
    (callees.recordOrKeep name).Selfless := by
  unfold Callees.recordOrKeep record
  by_cases isSelf : name = callees.function
  · rw [if_pos isSelf]
    exact selfless
  · rw [if_neg isSelf]
    by_cases isKnown : callees.calls name = true
    · rw [if_pos isKnown]
      exact selfless
    · rw [if_neg isKnown]
      intro member
      rcases List.mem_append.mp member with earlier | last
      · exact selfless earlier
      · exact isSelf (List.mem_singleton.mp last).symm

theorem foldl_recordOrKeep (selfless : callees.Selfless) (calls : List String) :
    (calls.foldl Callees.recordOrKeep callees).function = callees.function ∧
      (calls.foldl Callees.recordOrKeep callees).Selfless := by
  induction calls generalizing callees with
  | nil => exact ⟨rfl, selfless⟩
  | cons name rest ih =>
    obtain ⟨functionEq, restSelfless⟩ := ih (selfless.recordOrKeep name)
    exact ⟨functionEq.trans (callees.function_recordOrKeep name), restSelfless⟩

theorem function_ofCalls (function : String) (calls : List String) :
    (ofCalls function calls).function = function :=
  (foldl_recordOrKeep (selfless_none function) calls).1

theorem selfless_ofCalls (function : String) (calls : List String) :
    (ofCalls function calls).Selfless :=
  (foldl_recordOrKeep (selfless_none function) calls).2

end Callees

/-! ## Closing a cycle -/

section Closing

variable {functions : List Callees} {added : Callees}

theorem closesCycle_iff (isNew : added.function ∉ functionNames functions) :
    TransGen (Calls (functions ++ [added])) added.function added.function ↔
      ∃ callee ∈ added.names, ReflTransGen (Calls functions) callee added.function := by
  constructor
  · intro cycle
    obtain ⟨callee, calls, back⟩ := TransGen.head'_iff.mp cycle
    rcases calls_append_iff.mp calls with earlier | ⟨_, named⟩
    · exact absurd earlier.caller_mem isNew
    · exact ⟨callee, named, reaches_without_added back⟩
  · rintro ⟨callee, named, back⟩
    have within : functions ⊆ functions ++ [added] := List.subset_append_left _ _
    have longer := ReflTransGen.mono (fun _ _ calls => Calls.mono calls within) _ _ back
    exact .head' (calls_append_iff.mpr (.inr ⟨rfl, named⟩)) longer

theorem Acyclic.append_iff (acyclic : Acyclic functions)
    (isNew : added.function ∉ functionNames functions) :
    Acyclic (functions ++ [added]) ↔
      ¬ TransGen (Calls (functions ++ [added])) added.function added.function := by
  constructor
  · intro joinedAcyclic
    exact joinedAcyclic added.function
  · intro noCycle
    refine acyclic.append isNew fun callee named back => noCycle ?_
    exact (closesCycle_iff isNew).mpr ⟨callee, named, back⟩

end Closing

/-! ## Outcomes -/

namespace LayeredGraph

section Outcomes

variable {graph : LayeredGraph} {added : Callees}

theorem Layered.place_isOk_iff (layered : Layered graph) :
    (∃ placement, graph.place added = .ok placement) ↔
      added.function ∉ functionNames graph.functions ∧ Acyclic (graph.functions ++ [added]) := by
  have ok_iff : (∃ placement, graph.place added = .ok placement) ↔
      added.function ∉ functionNames graph.functions ∧ graph.LeadsAway added := by
    constructor
    · rintro ⟨placement, ok⟩
      obtain ⟨isNew, leadsAway, _⟩ := (place_eq_ok_iff layered.distinct).mp ⟨placement, ok, rfl⟩
      exact ⟨isNew, leadsAway⟩
    · rintro ⟨isNew, leadsAway⟩
      obtain ⟨placement, ok, _⟩ := (place_eq_ok_iff layered.distinct).mpr ⟨isNew, leadsAway, rfl⟩
      exact ⟨placement, ok⟩
  rw [ok_iff]
  refine and_congr_right fun isNew => ?_
  rw [layered.acyclic.append_iff isNew, closesCycle_iff isNew, LeadsAway]
  push Not
  rfl

theorem place_eq_alreadyPlaced_iff :
    graph.place added = .error (.alreadyPlaced added.function) ↔
      added.function ∈ functionNames graph.functions := by
  rw [← not_iff_not, ← contains_eq_false_iff]
  unfold place
  dsimp only
  split
  · rename_i isTaken
    simp [isTaken]
  · rename_i isNew
    rw [Bool.not_eq_true] at isNew
    split
    · simp [isNew]
    split
    · simp [isNew]
    · simp [isNew]

theorem place_eq_cyclic_iff (distinct : (functionNames graph.functions).Nodup)
    (selfless : added.Selfless) :
    graph.place added = .error (.cyclic added.function) ↔
      added.function ∉ functionNames graph.functions ∧
        TransGen (Calls (graph.functions ++ [added])) added.function added.function := by
  rw [← contains_eq_false_iff]
  unfold place
  dsimp only
  split
  · rename_i isTaken
    simp [isTaken]
  rename_i isNew
  rw [Bool.not_eq_true] at isNew
  split
  · rename_i callsItself
    exact absurd (Callees.calls_iff.mp callsItself) selfless
  rw [closesCycle_iff (contains_eq_false_iff.mp isNew), ← reaches_iff distinct]
  split
  · rename_i leadsBack
    simp [isNew, leadsBack]
  · rename_i leadsAway
    simp [leadsAway]

theorem placeFunction_graph (item : FunctionItem) (graph : LayeredGraph) (notes : Notes) :
    (Pass.placeFunction item graph notes).1 = graph.push item.callees := by
  unfold Pass.placeFunction push
  cases graph.place item.callees with
  | ok placement => rfl
  | error fault => rfl

end Outcomes

/-- After any functions were offered, placed functions have no cycle.  One more
function, whose calls were recorded one by one, is placed exactly when its name
is new and it closes no cycle with the placed functions; it is refused as cyclic
exactly when its name is new and it does close one.  A refusal leaves the graph
as it was, and a placed function is the only one that is added. -/
theorem place_refuses_cycles (offered : List Callees) (function : String)
    (calls : List String) :
    let graph := empty.pushAll offered
    let added := Callees.ofCalls function calls
    let joined := graph.functions ++ [added]
    Acyclic graph.functions ∧
      ((∃ placement, graph.place added = .ok placement) ↔
        function ∉ functionNames graph.functions ∧ Acyclic joined) ∧
      (graph.place added = .error (.cyclic function) ↔
        function ∉ functionNames graph.functions ∧
          TransGen (Calls joined) function function) ∧
      (graph.place added = .error (.alreadyPlaced function) ↔
        function ∈ functionNames graph.functions) ∧
      (∀ placement, graph.place added = .ok placement → placement.graph.functions = joined) ∧
      (∀ fault, graph.place added = .error fault →
        ∀ item notes, item.callees = added → (Pass.placeFunction item graph notes).1 = graph) := by
  intro graph added joined
  have layered : Layered graph := layered_empty.pushAll offered
  have nameEq : added.function = function := Callees.function_ofCalls function calls
  have selfless : added.Selfless := Callees.selfless_ofCalls function calls
  refine ⟨layered.acyclic, ?_, ?_, ?_, ?_, ?_⟩
  · rw [layered.place_isOk_iff, nameEq]
  · rw [← nameEq]
    exact place_eq_cyclic_iff layered.distinct selfless
  · rw [← nameEq]
    exact place_eq_alreadyPlaced_iff
  · intro placement ok
    exact (layered.place ok).2
  · intro fault refused item notes calleesEq
    rw [placeFunction_graph, calleesEq, push, refused]

/-- The third function of a ring of calls is refused, and the first two stay as
they are. -/
theorem place_refuses_cycles_ring :
    let graph := empty.pushAll [.ofCalls "a" ["b"], .ofCalls "b" ["c"]]
    let closing := Callees.ofCalls "c" ["a"]
    graph.place closing = .error (.cyclic "c") ∧
      TransGen (Calls (graph.functions ++ [closing])) "c" "c" ∧
      ∀ item notes, item.callees = closing → (Pass.placeFunction item graph notes).1 = graph := by
  intro graph closing
  have refused : graph.place closing = .error (.cyclic "c") := by decide
  obtain ⟨_, _, cyclic_iff, _, _, unchanged⟩ :=
    place_refuses_cycles [.ofCalls "a" ["b"], .ofCalls "b" ["c"]] "c" ["a"]
  exact ⟨refused, (cyclic_iff.mp refused).2, unchanged _ refused⟩

end LayeredGraph

end SlotCompiler
