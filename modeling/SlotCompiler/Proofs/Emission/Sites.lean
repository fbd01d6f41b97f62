import SlotCompiler.Proofs.Emission.Jumps
import SlotCompiler.Proofs.Emission.Stock
import SlotCompiler.Proofs.Tree.Mutability

/-!
Contract: where the single statements of a body stand in its code.
-/

namespace SlotCompiler

variable {code : List Instruction} {stock : Stock}

/-! ## Locks in scope -/

/-- The open blocks hold certain locks, on variables that are in scope. -/
structure Context.Guarded (context : Context) (locks : List Lock) : Prop where
  bounded : context.Bounded
  held : ∀ lock ∈ locks, context.scopes.Holds lock.slot
  depth : context.scopes.lockDepth = locks.length

theorem Context.Guarded.reads {before after : Context} {locks part} (guarded : before.Guarded locks)
    (read : Reads part before after) : after.Guarded locks where
  bounded := read.bounded guarded.bounded
  held lock member := read.keeps.holds (guarded.held lock member)
  depth := read.sameBlocks.lockDepth_eq.trans guarded.depth

theorem Context.Guarded.enter {context : Context} {locks own} (guarded : context.Guarded locks)
    (found : ∀ lock ∈ own, context.scopes.Holds lock.slot) :
    (context.withScopes (context.scopes.enter own.length)).Guarded (own ++ locks) where
  bounded := guarded.bounded.enter own.length
  held lock member := ScopeChain.holds_enter_iff.mpr
    ((List.mem_append.mp member).elim (found lock) (guarded.held lock))
  depth := by
    rw [List.length_append, ← guarded.depth]
    exact ScopeChain.lockDepth_enter ..

/-! ## Single statements -/

mutual

/-- The statements inside a statement that hold no others, each with the locks
that are around it, those of the innermost sync block first. -/
def Node.leaves (locks : List Lock) : Node → List (List Lock × Node)
  | .conditional _ blocks _ => blocksLeaves locks blocks
  | .loop _ body _ => blockLeaves locks body
  | .sync own body _ => blockLeaves (own ++ locks) body
  | node => [(locks, node)]

def blockLeaves (locks : List Lock) : List Node → List (List Lock × Node)
  | [] => []
  | node :: rest => node.leaves locks ++ blockLeaves locks rest

def blocksLeaves (locks : List Lock) : List (List Node) → List (List Lock × Node)
  | [] => []
  | block :: rest => blockLeaves locks block ++ blocksLeaves locks rest

end

def Fragment.leaves (locks : List Lock) : Fragment → List (List Lock × Node)
  | .node statement => statement.leaves locks
  | .nodes statements => blockLeaves locks statements
  | .arms _ blocks => blocksLeaves locks blocks

/-- A single statement, with the locks around it and its code. -/
structure Site where
  locks : List Lock
  statement : Node
  offset : Nat
  code : List Instruction

namespace Site

variable {site : Site} {frame : Variables}

def leaf (site : Site) : List Lock × Node := (site.locks, site.statement)

def shift (distance : Nat) (site : Site) : Site := { site with offset := distance + site.offset }

def StandsIn (site : Site) (code : List Instruction) : Prop :=
  ∃ early late, code = early ++ site.code ++ late ∧ site.offset = extent early

theorem StandsIn.end_le (stands : site.StandsIn code) :
    site.offset + extent site.code ≤ extent code := by
  obtain ⟨early, late, rfl, offsetEq⟩ := stands
  rw [offsetEq, extent_append, extent_append]
  omega

/-- How the statement was read and its code emitted. -/
structure Fits (site : Site) (before after : Context) (stock finish : Stock) : Prop where
  read : Reads (.node site.statement) before after
  emitted : Emits (.node site.statement) stock site.code finish
  guarded : before.Guarded site.locks
  room : after.frame.size ≤ stock.frame.size

/-- The statement belongs to a body whose variables are these in the end. -/
def BelongsTo (site : Site) (frame : Variables) : Prop :=
  ∃ before after stock finish, site.Fits before after stock finish ∧ after.frame.Becomes frame

theorem BelongsTo.later {later} (belongs : site.BelongsTo frame)
    (becomes : frame.Becomes later) : site.BelongsTo later := by
  obtain ⟨before, after, stock, finish, fits, within⟩ := belongs
  exact ⟨before, after, stock, finish, fits, within.trans becomes⟩

theorem BelongsTo.shift (belongs : site.BelongsTo frame) (distance : Nat) :
    (site.shift distance).BelongsTo frame := by
  obtain ⟨before, after, stock, finish, fits, within⟩ := belongs
  exact ⟨before, after, stock, finish, ⟨fits.read, fits.emitted, fits.guarded, fits.room⟩, within⟩

end Site

/-! ## Layout -/

/-- Sites that stand in a sequence one after the other. -/
structure LaidOut (sites : List Site) (code : List Instruction) : Prop where
  stands : ∀ site ∈ sites, site.StandsIn code
  inOrder : sites.Pairwise fun first second => first.offset + extent first.code ≤ second.offset

theorem laidOut_nil (code : List Instruction) : LaidOut [] code :=
  ⟨fun _ member => absurd member List.not_mem_nil, .nil⟩

theorem LaidOut.embed {sites part whole before after} (laid : LaidOut sites part)
    (wholeEq : whole = before ++ part ++ after) :
    LaidOut (sites.map (Site.shift (extent before))) whole := by
  constructor
  · intro shifted member
    obtain ⟨site, isSite, rfl⟩ := List.mem_map.mp member
    obtain ⟨early, late, rfl, offsetEq⟩ := laid.stands site isSite
    refine ⟨before ++ early, late ++ after, ?_, ?_⟩
    · simp [wholeEq, Site.shift]
    · simp [Site.shift, offsetEq]
  · refine List.pairwise_map.mpr (laid.inOrder.imp fun {first second} apart => ?_)
    simp only [Site.shift]
    omega

theorem LaidOut.append {first second border} (early : LaidOut first code)
    (late : LaidOut second code) (ends : ∀ site ∈ first, site.offset + extent site.code ≤ border)
    (starts : ∀ site ∈ second, border ≤ site.offset) : LaidOut (first ++ second) code :=
  ⟨List.forall_mem_append.mpr ⟨early.stands, late.stands⟩,
    List.pairwise_append.mpr ⟨early.inOrder, late.inOrder, fun before isEarly after isLate =>
      (ends before isEarly).trans (starts after isLate)⟩⟩

/-- The sites of a fragment in its code. -/
structure Sited (fragment : Fragment) (locks : List Lock) (code : List Instruction)
    (frame : Variables) (sites : List Site) : Prop where
  leaves_eq : sites.map Site.leaf = fragment.leaves locks
  laid : LaidOut sites code
  belong : ∀ site ∈ sites, site.BelongsTo frame

section Joining

variable {fragment first second : Fragment} {locks : List Lock}
  {part other whole before middle after : List Instruction} {frame later : Variables}
  {sites lateSites : List Site}

theorem Sited.embed (sited : Sited fragment locks part frame sites)
    (wholeEq : whole = before ++ part ++ after) (becomes : frame.Becomes later) :
    Sited fragment locks whole later (sites.map (Site.shift (extent before))) where
  leaves_eq := by
    rw [List.map_map, ← sited.leaves_eq]
    rfl
  laid := sited.laid.embed wholeEq
  belong shifted member := by
    obtain ⟨site, isSite, rfl⟩ := List.mem_map.mp member
    exact ((sited.belong site isSite).later becomes).shift _

theorem Sited.join (early : Sited first locks part frame sites)
    (late : Sited second locks other later lateSites)
    (wholeEq : whole = before ++ part ++ middle ++ other ++ after) (becomes : frame.Becomes later)
    (leavesEq : fragment.leaves locks = first.leaves locks ++ second.leaves locks) :
    ∃ joined, Sited fragment locks whole later joined := by
  have firstWhole : whole = before ++ part ++ (middle ++ other ++ after) := by
    simp [wholeEq]
  have firstSited := early.embed firstWhole becomes
  have secondSited := late.embed wholeEq (.refl later)
  have ends : ∀ site ∈ sites.map (Site.shift (extent before)),
      site.offset + extent site.code ≤ extent before + extent part := by
    intro shifted member
    obtain ⟨site, isSite, rfl⟩ := List.mem_map.mp member
    have inside := (early.laid.stands site isSite).end_le
    simp only [Site.shift]
    omega
  have starts : ∀ site ∈ lateSites.map (Site.shift (extent (before ++ part ++ middle))),
      extent before + extent part ≤ site.offset := by
    intro shifted member
    obtain ⟨site, isSite, rfl⟩ := List.mem_map.mp member
    simp only [Site.shift, extent_append]
    omega
  refine ⟨_, ?_, firstSited.laid.append secondSited.laid ends starts,
    List.forall_mem_append.mpr ⟨firstSited.belong, secondSited.belong⟩⟩
  rw [List.map_append, firstSited.leaves_eq, secondSited.leaves_eq, leavesEq]

end Joining

theorem exists_sited_single {statement : Node} {locks before after finish}
    (flat : statement.leaves locks = [(locks, statement)])
    (emits : Emits (.node statement) stock code finish)
    (read : Reads (.node statement) before after) (guarded : before.Guarded locks)
    (room : after.frame.size ≤ stock.frame.size) :
    ∃ sites, Sited (.node statement) locks code after.frame sites := by
  let site : Site := ⟨locks, statement, 0, code⟩
  have stands : site.StandsIn code := ⟨[], [], by simp [site], rfl⟩
  have belongs : site.BelongsTo after.frame :=
    ⟨before, after, stock, finish, ⟨read, emits, guarded, room⟩, .refl _⟩
  exact ⟨[site], flat.symm, ⟨List.forall_mem_singleton.mpr stands, List.pairwise_singleton ..⟩,
    List.forall_mem_singleton.mpr belongs⟩

private theorem exists_sited_block (own : List Lock) {locks body before after}
    (entered : Reads (.block own.length body) before after) (guarded : before.Guarded locks)
    (found : ∀ lock ∈ own, before.scopes.Holds lock.slot)
    (room : after.frame.size ≤ stock.frame.size)
    (inside : ∀ {before after locks}, Reads (.nodes body) before after →
      before.Guarded locks → after.frame.size ≤ stock.frame.size →
      ∃ sites, Sited (.nodes body) locks code after.frame sites) :
    ∃ sites, Sited (.nodes body) (own ++ locks) code after.frame sites := by
  have .block insideRead := entered
  have bodySited := inside insideRead (guarded.enter found) room
  exact bodySited

attribute [local simp] loopCode armCode

/-- Every single statement of a part has its own code, in the order of the
part. -/
theorem Emits.exists_sited {fragment before after finish locks}
    (emits : Emits fragment stock code finish) (read : Reads fragment.part before after)
    (guarded : before.Guarded locks) (room : after.frame.size ≤ stock.frame.size) :
    ∃ sites, Sited fragment locks code after.frame sites := by
  induction emits generalizing before after locks with
  | declaration stored => exact exists_sited_single rfl (.declaration stored) read guarded room
  | assignment stored => exact exists_sited_single rfl (.assignment stored) read guarded room
  | value loaded => cases loaded <;> cases read
  | memberAssignment object loaded =>
    exact exists_sited_single rfl (.memberAssignment object loaded) read guarded room
  | ret => exact exists_sited_single rfl .ret read guarded room
  | retValue loaded => exact exists_sited_single rfl (.retValue loaded) read guarded room
  | conditional _ arms =>
    have .conditional chained := read
    obtain ⟨sites, sited⟩ := arms chained guarded room
    exact ⟨sites, sited.leaves_eq, sited.laid, sited.belong⟩
  | @loop _ _ _ test _ _ _ conditionCode bodyCode tested _ _ _ repeated =>
    have .loop testedRead repeatedRead := read
    obtain ⟨sites, sited⟩ := exists_sited_block [] repeatedRead (guarded.reads testedRead)
      (fun _ member => absurd member List.not_mem_nil) (room.trans tested.grows.size_le)
      repeated
    have wholeEq : loopCode test conditionCode bodyCode =
        (conditionCode ++ [.jumpIfFalse test (Int32.ofNat (extent bodyCode + 2))]) ++
          bodyCode ++
            [.jump (-Int32.ofNat (extent conditionCode + 1 + extent bodyCode))] := by
      simp
    have inLoop := sited.embed wholeEq (.refl _)
    exact ⟨_, inLoop.leaves_eq, inLoop.laid, inLoop.belong⟩
  | @sync own _ _ _ _ bodyCode _ guardedBody =>
    have .sync found _ _ guardedRead := read
    obtain ⟨sites, sited⟩ := exists_sited_block own guardedRead guarded
      (fun lock member => ScopeChain.holds_of_lookup? (found lock member)) room guardedBody
    have inSync := sited.embed (Eq.refl (acquisitions own ++ bodyCode ++
      [.syncRelease (UInt16.ofNat own.length)])) (.refl _)
    exact ⟨_, inSync.leaves_eq, inSync.laid, inSync.belong⟩
  | nil =>
    cases read
    exact ⟨[], rfl, laidOut_nil _, fun _ member => absurd member List.not_mem_nil⟩
  | @cons _ _ _ _ _ headCode tailCode headEmitted _ head tail =>
    have .moreNodes headRead tailRead := read
    obtain ⟨sites, sited⟩ := head headRead guarded (tailRead.grows.size_le.trans room)
    obtain ⟨lateSites, lateSited⟩ := tail tailRead (guarded.reads headRead)
      (room.trans headEmitted.grows.size_le)
    have wholeEq : headCode ++ tailCode = [] ++ headCode ++ [] ++ tailCode ++ [] := by simp
    exact sited.join lateSited wholeEq tailRead.becomes rfl
  | @arm _ _ _ _ test _ _ _ _ conditionCode blockCode restCode conditionLoaded blockEmitted _ _ _
      block rest =>
      have .arm testedRead enteredRead restRead := read
      have conditionGrows := conditionLoaded.grows.size_le
      have blockGrows := blockEmitted.grows.size_le
      have restLe := restRead.grows.size_le
      have takenGuarded := guarded.reads testedRead
      obtain ⟨sites, sited⟩ := exists_sited_block [] enteredRead takenGuarded
        (fun _ member => absurd member List.not_mem_nil) (by omega) block
      obtain ⟨lateSites, lateSited⟩ := rest restRead (takenGuarded.reads enteredRead) (by omega)
      have wholeEq : armCode test conditionCode blockCode restCode =
          (conditionCode ++ [.jumpIfFalse test (Int32.ofNat (extent blockCode + 2))]) ++
            blockCode ++ [.jump (Int32.ofNat (extent restCode + 1))] ++ restCode ++ [] := by
        simp
      exact sited.join lateSited wholeEq restRead.becomes rfl
  | alternative _ taken =>
    have .alternative entered := read
    obtain ⟨sites, sited⟩ := exists_sited_block [] entered guarded
      (fun _ member => absurd member List.not_mem_nil) room taken
    refine ⟨sites, ?_, sited.laid, sited.belong⟩
    rw [sited.leaves_eq]
    exact (List.append_nil _).symm
  | done =>
    cases read
    exact ⟨[], rfl, laidOut_nil _, fun _ member => absurd member List.not_mem_nil⟩

end SlotCompiler
