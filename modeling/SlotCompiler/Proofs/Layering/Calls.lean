import Mathlib
import SlotCompiler.Layering.Graph

/-!
Contract: calls between functions, and the search along them.

All of this speaks about lists of functions only.  A graph enters through the
functions placed in it, so that moving a function to another layer changes
nothing here.
-/

namespace SlotCompiler

variable {name caller callee : String}

open Relation

def Calls (functions : List Callees) (caller callee : String) : Prop :=
  ∃ function ∈ functions, function.function = caller ∧ callee ∈ function.names

def functionNames (functions : List Callees) : List String := functions.map Callees.function

def Acyclic (functions : List Callees) : Prop :=
  ∀ name, ¬ TransGen (Calls functions) name name

/-- A chain of calls from a function through functions of the list, with so many
calls. -/
inductive Chain (functions : List Callees) : String → Nat → Prop where
  | stop {name : String} (member : name ∈ functionNames functions) : Chain functions name 0
  | call {caller callee length} (calls : Calls functions caller callee)
      (rest : Chain functions callee length) : Chain functions caller (length + 1)

theorem Callees.calls_iff {callees : Callees} : callees.calls name = true ↔ name ∈ callees.names :=
  List.contains_iff_mem

section Relation

variable {length : Nat}

variable {more : List Callees}

variable {functions : List Callees}

theorem Calls.caller_mem (calls : Calls functions caller callee) :
    caller ∈ functionNames functions := by
  obtain ⟨function, member, rfl, _⟩ := calls
  exact List.mem_map_of_mem member

theorem Calls.mono (calls : Calls functions caller callee) (within : functions ⊆ more) :
    Calls more caller callee := by
  obtain ⟨function, member, nameEq, named⟩ := calls
  exact ⟨function, within member, nameEq, named⟩

theorem Chain.mono (chain : Chain functions name length) (within : functions ⊆ more) :
    Chain more name length := by
  induction chain with
  | stop member => exact .stop (List.map_subset _ within member)
  | call calls _ rest => exact .call (calls.mono within) rest

theorem chain_iff_of_perm {first second : List Callees} (same : first.Perm second) :
    Chain first name length ↔ Chain second name length :=
  ⟨fun chain => chain.mono same.subset, fun chain => chain.mono same.symm.subset⟩

theorem acyclic_of_rank (rank : String → Nat)
    (below : ∀ function ∈ functions, ∀ callee ∈ function.names,
      rank callee < rank function.function) : Acyclic functions := by
  intro name cycle
  have descends {start finish : String} (path : TransGen (Calls functions) start finish) :
      rank finish < rank start := by
    induction path with
    | single calls =>
      obtain ⟨function, member, rfl, named⟩ := calls
      exact below function member _ named
    | tail _ calls ih =>
      obtain ⟨function, member, rfl, named⟩ := calls
      exact (below function member _ named).trans ih
  exact Nat.lt_irrefl _ (descends cycle)

theorem Chain.exists_path (chain : Chain functions name length) :
    ∃ path, path.length = length ∧ List.IsChain (Calls functions) (name :: path) ∧
      ∀ visited ∈ name :: path, visited ∈ functionNames functions := by
  induction chain with
  | stop member => exact ⟨[], rfl, .singleton _, List.forall_mem_singleton.mpr member⟩
  | @call caller callee length calls _ rest =>
    obtain ⟨path, lengthEq, isChain, members⟩ := rest
    refine ⟨callee :: path, congrArg (· + 1) lengthEq, .cons_cons calls isChain, ?_⟩
    exact List.forall_mem_cons.mpr ⟨calls.caller_mem, members⟩

theorem Chain.length_lt (acyclic : Acyclic functions) (chain : Chain functions name length) :
    length < functions.length := by
  obtain ⟨path, rfl, isChain, members⟩ := chain.exists_path
  have reaches : List.Pairwise (TransGen (Calls functions)) (name :: path) :=
    List.isChain_iff_pairwise.mp (isChain.imp fun _ _ calls => .single calls)
  have distinct : (name :: path).Nodup := by
    refine reaches.imp fun {first second} onward same => ?_
    rw [same] at onward
    exact acyclic second onward
  have fits := (distinct.subperm members).length_le
  rw [functionNames, List.length_map] at fits
  exact fits

end Relation

/-! ## One more function -/

section Extension

variable {functions : List Callees} {added : Callees}

variable {start : String}

theorem calls_append_iff :
    Calls (functions ++ [added]) caller callee ↔
      Calls functions caller callee ∨ added.function = caller ∧ callee ∈ added.names := by
  simp only [Calls, List.mem_append, List.mem_singleton, or_and_right, exists_or, exists_eq_left]

theorem reaches_without_added
    (path : ReflTransGen (Calls (functions ++ [added])) start added.function) :
    ReflTransGen (Calls functions) start added.function := by
  induction path using ReflTransGen.head_induction_on with
  | refl => exact .refl
  | @head first second calls _ rest =>
    rcases calls_append_iff.mp calls with earlier | ⟨rfl, _⟩
    · exact .head earlier rest
    · exact .refl

theorem path_splits_at_added {finish}
    (path : TransGen (Calls (functions ++ [added])) start finish) :
    TransGen (Calls functions) start finish ∨
      ReflTransGen (Calls (functions ++ [added])) start added.function ∧
        TransGen (Calls (functions ++ [added])) added.function finish := by
  induction path with
  | single calls =>
    rcases calls_append_iff.mp calls with earlier | ⟨rfl, _⟩
    · exact .inl (.single earlier)
    · exact .inr ⟨.refl, .single calls⟩
  | tail before calls split =>
    rcases split with earlier | ⟨toAdded, fromAdded⟩
    · rcases calls_append_iff.mp calls with last | ⟨rfl, _⟩
      · exact .inl (earlier.tail last)
      · exact .inr ⟨before.to_reflTransGen, .single calls⟩
    · exact .inr ⟨toAdded, fromAdded.tail calls⟩

theorem Acyclic.append (acyclic : Acyclic functions)
    (isNew : added.function ∉ functionNames functions)
    (leadsAway : ∀ callee ∈ added.names, ¬ ReflTransGen (Calls functions) callee added.function) :
    Acyclic (functions ++ [added]) := by
  intro name cycle
  rcases path_splits_at_added cycle with earlier | ⟨toAdded, fromAdded⟩
  · exact acyclic name earlier
  obtain ⟨callee, calls, back⟩ := TransGen.head'_iff.mp (fromAdded.trans_left toAdded)
  rcases calls_append_iff.mp calls with earlier | ⟨_, named⟩
  · exact isNew earlier.caller_mem
  · exact leadsAway callee named (reaches_without_added back)

end Extension

/-! ## The search -/

namespace LayeredGraph

variable {placed : Placed} {target : String} {visited : List String}

variable {fuel : Nat} {pending : List String}

def functions (graph : LayeredGraph) : List Callees := graph.entries.map Placed.callees

variable {graph : LayeredGraph}

theorem mem_functionNames_iff :
    name ∈ functionNames graph.functions ↔ ∃ placed ∈ graph.entries, placed.name = name := by
  simp only [functionNames, functions, List.map_map, List.mem_map]
  rfl

theorem calls_iff :
    Calls graph.functions caller callee ↔
      ∃ placed ∈ graph.entries, placed.name = caller ∧ callee ∈ placed.callees.names := by
  simp only [Calls, functions, List.mem_map, exists_exists_and_eq_and]
  rfl

theorem find?_eq_none_iff : graph.find? name = none ↔ name ∉ functionNames graph.functions := by
  rw [mem_functionNames_iff]
  simp [find?, List.find?_eq_none]

theorem mem_of_find? (found : graph.find? name = some placed) :
    placed ∈ graph.entries ∧ placed.name = name := by
  refine ⟨List.mem_of_find?_eq_some found, ?_⟩
  have matched := List.find?_some found
  exact beq_iff_eq.mp matched

theorem find?_eq_some (distinct : (functionNames graph.functions).Nodup)
    (member : placed ∈ graph.entries) : graph.find? placed.name = some placed := by
  cases found : graph.find? placed.name with
  | none =>
    have absent := find?_eq_none_iff.mp found
    exact absurd (mem_functionNames_iff.mpr ⟨placed, member, rfl⟩) absent
  | some other =>
    obtain ⟨otherMember, nameEq⟩ := mem_of_find? found
    have injective : (graph.entries.map Placed.name).Nodup := by
      rw [functionNames, functions, List.map_map] at distinct
      exact distinct
    rw [List.inj_on_of_nodup_map injective otherMember member nameEq]

theorem searchFor_sound (found : graph.searchFor target fuel visited pending = true) :
    ∃ name ∈ pending, ReflTransGen (Calls graph.functions) name target := by
  induction fuel generalizing visited pending with
  | zero => contradiction
  | succ fuel ih =>
    cases pending with
    | nil => contradiction
    | cons name pending =>
      have later (found : ∃ other ∈ pending,
          ReflTransGen (Calls graph.functions) other target) :
          ∃ other ∈ name :: pending, ReflTransGen (Calls graph.functions) other target := by
        obtain ⟨other, member, path⟩ := found
        exact ⟨other, List.mem_cons_of_mem _ member, path⟩
      unfold searchFor at found
      split at found
      · rename_i isTarget
        exact ⟨name, List.mem_cons_self, isTarget ▸ .refl⟩
      split at found
      · exact later (ih found)
      split at found
      · exact later (ih found)
      · rename_i placed isPlaced
        obtain ⟨member, nameEq⟩ := mem_of_find? isPlaced
        obtain ⟨other, otherMember, path⟩ := ih found
        rcases List.mem_append.mp otherMember with named | waiting
        · have calls : Calls graph.functions name other :=
            calls_iff.mpr ⟨placed, member, nameEq, named⟩
          exact ⟨name, List.mem_cons_self, .head calls path⟩
        · exact later ⟨other, waiting, path⟩

def openCalls (visited : List String) : List Placed → Nat
  | [] => 0
  | placed :: rest =>
    (if placed.name ∈ visited then 0 else placed.callees.names.length) + openCalls visited rest

theorem openCalls_nil_eq (graph : LayeredGraph) : openCalls [] graph.entries = graph.callCount := by
  unfold callCount
  induction graph.entries with
  | nil => rfl
  | cons placed rest ih => simp only [openCalls, List.not_mem_nil, if_false, List.foldr_cons, ih]

theorem openCalls_visit_le (visited : List String) (name : String) (entries : List Placed) :
    openCalls (name :: visited) entries ≤ openCalls visited entries := by
  induction entries with
  | nil => rfl
  | cons placed rest ih =>
    simp only [openCalls, List.mem_cons]
    split <;> split <;> grind

theorem openCalls_visit {entries} (member : placed ∈ entries) (isNew : placed.name ∉ visited) :
    placed.callees.names.length + openCalls (placed.name :: visited) entries ≤
      openCalls visited entries := by
  induction entries with
  | nil => exact absurd member List.not_mem_nil
  | cons head rest ih =>
    have restLe := openCalls_visit_le visited placed.name rest
    rcases List.mem_cons.mp member with rfl | inRest
    · simp only [openCalls, List.mem_cons_self, if_true, if_neg isNew]
      omega
    · have headLe := openCalls_visit_le visited placed.name [head]
      have tailLe := ih inRest
      simp only [openCalls, Nat.add_zero] at headLe ⊢
      omega

def Covers (graph : LayeredGraph) (target : String) (visited pending : List String)
    (name : String) : Prop :=
  name ∈ visited ∨ name ∈ pending ∨ name ∉ functionNames graph.functions ∧ name ≠ target

theorem not_reaches_of_covers (avoids : target ∉ visited)
    (closed : ∀ caller ∈ visited, ∀ callee, Calls graph.functions caller callee →
      graph.Covers target visited [] callee) (covered : graph.Covers target visited [] name) :
    ¬ ReflTransGen (Calls graph.functions) name target := by
  intro path
  have staysCovered {last : String} (path : ReflTransGen (Calls graph.functions) name last) :
      graph.Covers target visited [] last := by
    induction path with
    | refl => exact covered
    | tail _ calls middleCovered =>
      rcases middleCovered with isVisited | impossible | ⟨absent, _⟩
      · exact closed _ isVisited _ calls
      · exact absurd impossible List.not_mem_nil
      · exact absurd calls.caller_mem absent
  rcases staysCovered path with isVisited | impossible | ⟨_, isOther⟩
  · exact avoids isVisited
  · exact absurd impossible List.not_mem_nil
  · exact isOther rfl

theorem searchFor_complete (distinct : (functionNames graph.functions).Nodup)
    (missed : graph.searchFor target fuel visited pending = false)
    (enough : pending.length + openCalls visited graph.entries < fuel) (avoids : target ∉ visited)
    (closed : ∀ caller ∈ visited, ∀ callee, Calls graph.functions caller callee →
      graph.Covers target visited pending callee)
    (covered : graph.Covers target visited pending name) :
    ¬ ReflTransGen (Calls graph.functions) name target := by
  induction fuel generalizing visited pending name with
  | zero => omega
  | succ fuel ih =>
    cases pending with
    | nil => exact not_reaches_of_covers avoids closed covered
    | cons first pending =>
      rw [List.length_cons] at enough
      -- Once the first name is dealt with, all that was covered still is.
      have stays {later waiting : List String}
          (keeps : ∀ other ∈ visited, other ∈ later) (waits : ∀ other ∈ pending, other ∈ waiting)
          (dealt : graph.Covers target later waiting first) {other : String}
          (before : graph.Covers target visited (first :: pending) other) :
          graph.Covers target later waiting other := by
        rcases before with isVisited | isPending | outside
        · exact .inl (keeps other isVisited)
        · rcases List.mem_cons.mp isPending with rfl | isPending
          · exact dealt
          · exact .inr (.inl (waits other isPending))
        · exact .inr (.inr outside)
      unfold searchFor at missed
      split at missed
      · contradiction
      rename_i isOther
      split at missed
      · rename_i again
        have keeps {other : String}
            (before : graph.Covers target visited (first :: pending) other) :=
          stays (fun _ => id) (fun _ => id) (.inl (List.contains_iff_mem.mp again)) before
        exact ih missed (by omega) avoids
          (fun caller member callee calls => keeps (closed caller member callee calls))
          (keeps covered)
      rename_i isNew
      split at missed
      · rename_i isAbsent
        have outside := find?_eq_none_iff.mp isAbsent
        have keeps {other : String}
            (before : graph.Covers target visited (first :: pending) other) :=
          stays (fun _ => id) (fun _ => id) (.inr (.inr ⟨outside, isOther⟩)) before
        exact ih missed (by omega) avoids
          (fun caller member callee calls => keeps (closed caller member callee calls))
          (keeps covered)
      · rename_i placed isPlaced
        obtain ⟨member, rfl⟩ := mem_of_find? isPlaced
        have unvisited : placed.name ∉ visited := fun earlier =>
          isNew (List.contains_iff_mem.mpr earlier)
        have fewer := openCalls_visit member unvisited
        have keeps {other : String}
            (before : graph.Covers target visited (placed.name :: pending) other) :=
          stays (fun _ => List.mem_cons_of_mem placed.name)
            (fun _ => List.mem_append_right placed.callees.names) (.inl List.mem_cons_self)
            before
        refine ih missed ?_ ?_ ?_ (keeps covered)
        · rw [List.length_append]
          omega
        · intro isVisited
          rcases List.mem_cons.mp isVisited with isTarget | earlier
          · exact isOther isTarget.symm
          · exact avoids earlier
        · intro caller isVisited callee calls
          rcases List.mem_cons.mp isVisited with rfl | earlier
          · obtain ⟨same, sameMember, nameEq, named⟩ := calls_iff.mp calls
            have found := find?_eq_some distinct sameMember
            rw [nameEq, isPlaced] at found
            cases found
            exact .inr (.inl (List.mem_append_left _ named))
          · exact keeps (closed caller earlier callee calls)

theorem reaches_iff (distinct : (functionNames graph.functions).Nodup) {start} :
    graph.reaches start target = true ↔
      ∃ name ∈ start, ReflTransGen (Calls graph.functions) name target := by
  constructor
  · exact searchFor_sound
  · rintro ⟨name, member, path⟩
    by_contra missed
    rw [Bool.not_eq_true] at missed
    refine searchFor_complete distinct missed ?_ List.not_mem_nil ?_ (.inr (.inl member)) path
    · rw [openCalls_nil_eq]
      omega
    · exact fun caller impossible => absurd impossible List.not_mem_nil

end LayeredGraph

end SlotCompiler
