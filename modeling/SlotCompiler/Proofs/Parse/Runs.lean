import SlotCompiler.Proofs.Grammar.Tokens
import SlotCompiler.Proofs.Parse.StatementSoundness

/-!
Contract: runs of parsers inside a function, successful or not.
-/

namespace SlotCompiler

namespace BodyParser

/-! ## Single steps -/

/-- The steps that all parsing inside a function is made of. -/
inductive SharedStep : {α : Type} → BodyParser α → Prop where
  | give {α : Type} (value : α) : SharedStep (pure value)
  | refuse {α : Type} (fault : Diagnostic) : SharedStep (throw fault : BodyParser α)
  | look : SharedStep (liftM Parser.peek : BodyParser Token)
  | take : SharedStep (liftM Parser.next : BodyParser Token)
  | descend (position : Position) :
      SharedStep (liftM (Parser.descend position) : BodyParser Unit)
  | inspect : SharedStep (get : BodyParser BodyInput)
  | allocate (change : Variables → Option Slot × Variables) (position : Position) :
      SharedStep (allocate change position)
  | rescope (change : ScopeChain → ScopeChain) : SharedStep (modifyScopes change)
  | record (name : String) (position : Position) : SharedStep (recordCall name position)

/-- The nestings that a run passes: those before and after every single step, and
those that are put back. -/
inductive Visits : {α : Type} → BodyParser α → BodyInput → List Nat → Prop where
  | single {α : Type} {step : BodyParser α} (shared : SharedStep step) (start : BodyInput) :
      Visits step start [start.nesting, (endState (step start)).nesting]
  | sequence {α β : Type} {step : BodyParser α} {next : α → BodyParser β}
      {start middle : BodyInput} {value : α} {early late : List Nat}
      (first : Visits step start early) (ran : step start = .ok value middle)
      (rest : Visits (next value) middle late) : Visits (step >>= next) start (early ++ late)
  | cut {α β : Type} {step : BodyParser α} {next : α → BodyParser β} {start later : BodyInput}
      {fault : Diagnostic} {levels : List Nat} (first : Visits step start levels)
      (ran : step start = .error fault later) : Visits (step >>= next) start levels
  | restoring {α : Type} {step : BodyParser α} {start : BodyInput} {levels : List Nat}
      (inside : Visits step start levels) :
      Visits (restoringNesting step) start (levels ++ [start.nesting])
  | inScope {α : Type} {step : BodyParser α} {start : BodyInput} {levels : List Nat}
      {locks : Nat} (inside : Visits step (start.opened locks) levels) :
      Visits (inScope locks step) start levels

private theorem nesting_le_of_eq {before after} (same : after = before) :
    after ≤ max before Input.nestingLimit :=
  same ▸ Nat.le_max_left _ _

theorem SharedStep.nesting_le {α : Type} {step : BodyParser α} (shared : SharedStep step)
    (start : BodyInput) :
    (endState (step start)).nesting ≤ max start.nesting Input.nestingLimit := by
  rcases start with ⟨⟨cursor, depth, nesting⟩, ⟨function, frame, scopes, callees⟩⟩
  cases shared with
  | give | refuse | look | take | inspect | rescope => exact nesting_le_of_eq rfl
  | allocate change position =>
    apply nesting_le_of_eq
    unfold BodyParser.allocate
    dsimp only
    split <;> rfl
  | record name position =>
    apply nesting_le_of_eq
    unfold recordCall
    split <;> rfl
  | descend position =>
    rw [descend_eq]
    split
    · rename_i isShallow
      exact (Nat.succ_le_of_lt isShallow).trans (Nat.le_max_right _ _)
    · exact nesting_le_of_eq rfl

theorem Visits.nesting_le {α : Type} {step : BodyParser α} {start : BodyInput} {levels : List Nat}
    (visits : Visits step start levels) :
    (∀ level ∈ levels, level ≤ max start.nesting Input.nestingLimit) ∧
      (endState (step start)).nesting ≤ max start.nesting Input.nestingLimit := by
  induction visits with
  | single shared start =>
    refine ⟨?_, shared.nesting_le start⟩
    intro level member
    rcases List.mem_pair.mp member with rfl | rfl
    · exact Nat.le_max_left _ _
    · exact shared.nesting_le start
  | @sequence _ _ step next start middle value _ _ _ ran _ early late =>
    have middleLe : middle.nesting ≤ max start.nesting Input.nestingLimit := by
      have ended := early.2
      rwa [ran] at ended
    have within {level : Nat} (bounded : level ≤ max middle.nesting Input.nestingLimit) :
        level ≤ max start.nesting Input.nestingLimit :=
      bounded.trans (Nat.max_le.mpr ⟨middleLe, Nat.le_max_right _ _⟩)
    have ranOn : (step >>= next) start = next value middle := by
      show EStateM.bind step next start = next value middle
      rw [EStateM.bind, ran]
    rw [ranOn]
    exact ⟨List.forall_mem_append.mpr ⟨early.1, fun level member => within (late.1 level member)⟩,
      within late.2⟩
  | @cut _ _ step next start later fault _ _ ran first =>
    have stopped : (step >>= next) start = .error fault later := bind_eq_error_iff.mpr (.inl ran)
    rw [stopped]
    rw [ran] at first
    exact first
  | restoring _ inside =>
    rw [restoringNesting_eq, endState_overState]
    refine ⟨List.forall_mem_append.mpr ⟨inside.1, ?_⟩, Nat.le_max_left _ _⟩
    intro level member
    rw [List.mem_singleton.mp member]
    exact Nat.le_max_left _ _
  | inScope _ inside =>
    rw [inScope_eq, endState_overState]
    exact inside

/-! ## Outcomes -/

/-- A run from some state consists of shared steps, and what it leaves is as stated
for success and for a fault. -/
structure Runs {α : Type} (step : BodyParser α) (start : BodyInput)
    (done : α → BodyInput → Prop) (failed : BodyInput → Prop) : Prop where
  visits : ∃ levels, Visits step start levels
  of_ok : ∀ {value later}, step start = .ok value later → done value later
  of_error : ∀ {fault later}, step start = .error fault later → failed later

namespace Runs

variable {α β : Type} {start : BodyInput} {done : α → BodyInput → Prop}
  {failed : BodyInput → Prop}

theorem pure {value} (holds : done value start) : Runs (Pure.pure value) start done failed where
  visits := ⟨_, .single (.give value) start⟩
  of_ok ran := by
    cases ran
    exact holds
  of_error ran := nomatch ran

theorem throw {fault} (holds : failed start) :
    Runs (throw fault : BodyParser α) start done failed where
  visits := ⟨_, .single (.refuse fault) start⟩
  of_ok ran := nomatch ran
  of_error ran := by
    cases ran
    exact holds

theorem bind {step} {next : β → BodyParser α} {middle : β → BodyInput → Prop}
    (first : Runs step start middle failed)
    (rest : ∀ value state, step start = .ok value state → middle value state →
      Runs (next value) state done failed) : Runs (step >>= next) start done failed where
  visits := by
    obtain ⟨early, firstVisits⟩ := first.visits
    cases ran : step start with
    | ok value state =>
      obtain ⟨late, restVisits⟩ := (rest value state ran (first.of_ok ran)).visits
      exact ⟨_, .sequence firstVisits ran restVisits⟩
    | error fault state => exact ⟨_, .cut firstVisits ran⟩
  of_ok ran := by
    obtain ⟨value, state, stepRan, nextRan⟩ := bind_eq_ok_iff.mp ran
    exact (rest value state stepRan (first.of_ok stepRan)).of_ok nextRan
  of_error ran := by
    rcases bind_eq_error_iff.mp ran with stepRan | ⟨value, state, stepRan, nextRan⟩
    · exact first.of_error stepRan
    · exact (rest value state stepRan (first.of_ok stepRan)).of_error nextRan

theorem mono {step} {weaker : α → BodyInput → Prop} {worse : BodyInput → Prop}
    (runs : Runs step start done failed) (ok : ∀ value later, done value later → weaker value later)
    (error : ∀ later, failed later → worse later) : Runs step start weaker worse :=
  ⟨runs.visits, fun ran => ok _ _ (runs.of_ok ran), fun ran => error _ (runs.of_error ran)⟩

theorem map {step} {change : β → α}
    (runs : Runs step start (fun value later => done (change value) later) failed) :
    Runs (change <$> step) start done failed := by
  rw [map_eq_pure_bind]
  exact runs.bind fun _ _ _ holds => pure holds

theorem restoring {step}
    (inside : Runs step start (fun value later => done value (later.atNesting start.nesting))
      fun later => failed (later.atNesting start.nesting)) :
    Runs (restoringNesting step) start done failed where
  visits := by
    obtain ⟨levels, visits⟩ := inside.visits
    exact ⟨_, .restoring visits⟩
  of_ok ran := by
    rw [restoringNesting_eq] at ran
    obtain ⟨state, stepRan, rfl⟩ := overState_eq_ok_iff.mp ran
    exact inside.of_ok stepRan
  of_error ran := by
    rw [restoringNesting_eq] at ran
    obtain ⟨state, stepRan, rfl⟩ := overState_eq_error_iff.mp ran
    exact inside.of_error stepRan

theorem inScope {step locks}
    (inside : Runs step (start.opened locks) (fun value later => done value later.closed)
      fun later => failed later.closed) : Runs (inScope locks step) start done failed where
  visits := by
    obtain ⟨levels, visits⟩ := inside.visits
    exact ⟨_, .inScope visits⟩
  of_ok ran := by
    rw [inScope_eq] at ran
    obtain ⟨state, stepRan, rfl⟩ := overState_eq_ok_iff.mp ran
    exact inside.of_ok stepRan
  of_error ran := by
    rw [inScope_eq] at ran
    obtain ⟨state, stepRan, rfl⟩ := overState_eq_error_iff.mp ran
    exact inside.of_error stepRan

end Runs

/-! ## What stays as it was -/

/-- Only tokens are consumed, none of them a brace, and only variables and callees
are added. -/
structure Quiet (start later : BodyInput) : Prop where
  nesting_eq : later.nesting = start.nesting
  scopes_eq : later.context.scopes = start.context.scopes
  depth_eq : later.input.depth = start.input.depth
  tokens : later.input.ahead.tokens <:+ start.input.ahead.tokens

/-- What a fault leaves: nesting and scopes as they were, and perhaps more open
braces. -/
structure Faulted (start later : BodyInput) : Prop where
  nesting_eq : later.nesting = start.nesting
  scopes_eq : later.context.scopes = start.context.scopes
  depth_le : start.input.depth ≤ later.input.depth
  tokens : later.input.ahead.tokens <:+ start.input.ahead.tokens

section Relations

variable {start middle later : BodyInput}

theorem Quiet.refl (body : BodyInput) : Quiet body body := ⟨rfl, rfl, rfl, List.suffix_refl _⟩

theorem Quiet.trans (early : Quiet start middle) (late : Quiet middle later) :
    Quiet start later where
  nesting_eq := late.nesting_eq.trans early.nesting_eq
  scopes_eq := late.scopes_eq.trans early.scopes_eq
  depth_eq := late.depth_eq.trans early.depth_eq
  tokens := late.tokens.trans early.tokens

theorem Quiet.faulted (quiet : Quiet start later) : Faulted start later :=
  ⟨quiet.nesting_eq, quiet.scopes_eq, quiet.depth_eq.ge, quiet.tokens⟩

theorem Faulted.trans (early : Faulted start middle) (late : Faulted middle later) :
    Faulted start later where
  nesting_eq := late.nesting_eq.trans early.nesting_eq
  scopes_eq := late.scopes_eq.trans early.scopes_eq
  depth_le := early.depth_le.trans late.depth_le
  tokens := late.tokens.trans early.tokens

theorem Quiet.spoils (early : Quiet start middle) (late : Faulted middle later) :
    Faulted start later :=
  early.faulted.trans late

end Relations

/-- What a kind of parser keeps when it succeeds and when it fails.  Steps that keep
it can be put in sequence. -/
structure Discipline where
  kept : BodyInput → BodyInput → Prop
  spoilt : BodyInput → BodyInput → Prop
  of_quiet : ∀ {start later}, Quiet start later → kept start later
  of_faulted : ∀ {start later}, Faulted start later → spoilt start later
  trans : ∀ {start middle later}, kept start middle → kept middle later → kept start later
  spoils : ∀ {start middle later}, kept start middle → spoilt middle later → spoilt start later

namespace Discipline

def strict : Discipline where
  kept := Quiet
  spoilt := Faulted
  of_quiet := id
  of_faulted := id
  trans := Quiet.trans
  spoils := Quiet.spoils

def loose : Discipline where
  kept start later := Quiet start (later.atNesting start.nesting)
  spoilt start later := Faulted start (later.atNesting start.nesting)
  of_quiet quiet := ⟨rfl, quiet.scopes_eq, quiet.depth_eq, quiet.tokens⟩
  of_faulted faulted := ⟨rfl, faulted.scopes_eq, faulted.depth_le, faulted.tokens⟩
  trans early late :=
    early.trans ⟨rfl, late.scopes_eq, late.depth_eq, late.tokens⟩
  spoils early late :=
    early.spoils ⟨rfl, late.scopes_eq, late.depth_le, late.tokens⟩

end Discipline

def Follows {α : Type} (discipline : Discipline) (step : BodyParser α) (start : BodyInput) : Prop :=
  Runs step start (fun _ later => discipline.kept start later) (discipline.spoilt start)

def Steady {α : Type} (step : BodyParser α) : Prop := ∀ start, Follows .strict step start

namespace Follows

variable {α β : Type} {discipline : Discipline} {start : BodyInput}

theorem pure (value : α) : Follows discipline (Pure.pure value) start :=
  Runs.pure (discipline.of_quiet (.refl start))

theorem throw (fault : Diagnostic) : Follows discipline (throw fault : BodyParser α) start :=
  Runs.throw (discipline.of_faulted (Quiet.refl start).faulted)

theorem bind {step} {next : β → BodyParser α} (first : Follows discipline step start)
    (rest : ∀ value middle, step start = .ok value middle →
      Follows discipline (next value) middle) : Follows discipline (step >>= next) start :=
  Runs.bind first fun value middle ran kept =>
    (rest value middle ran).mono (fun _ _ late => discipline.trans kept late)
      fun _ late => discipline.spoils kept late

theorem map {step} {change : β → α} (follows : Follows discipline step start) :
    Follows discipline (change <$> step) start :=
  Runs.map follows

end Follows

namespace Steady

variable {α β : Type} {step : BodyParser β}

theorem follows (steady : Steady step) (discipline : Discipline) (start : BodyInput) :
    Follows discipline step start :=
  (steady start).mono (fun _ _ => discipline.of_quiet) fun _ => discipline.of_faulted

theorem pure (value : α) : Steady (Pure.pure value) := fun _ => Follows.pure value

theorem throw (fault : Diagnostic) : Steady (throw fault : BodyParser α) :=
  fun _ => Follows.throw fault

theorem bind {next : β → BodyParser α} (first : Steady step)
    (rest : ∀ value, Steady (next value)) : Steady (step >>= next) :=
  fun start => (first start).bind fun value middle _ => rest value middle

theorem map {change : β → α} (steady : Steady step) : Steady (change <$> step) :=
  fun start => (steady start).map

end Steady

/-! ## Shared steps -/

theorem lift_bind {α β : Type} (step : Parser α) (next : α → Parser β) :
    (liftM (step >>= next) : BodyParser β) =
      (liftM step : BodyParser α) >>= fun value => liftM (next value) := by
  funext body
  rcases body with ⟨input, context⟩
  show ofParser (EStateM.bind step next) ⟨input, context⟩ =
    EStateM.bind (ofParser step) (fun value => ofParser (next value)) ⟨input, context⟩
  unfold EStateM.bind ofParser
  dsimp only
  cases step input <;> rfl

theorem Steady.lift {α β : Type} {step} {next : α → Parser β}
    (first : Steady (liftM step : BodyParser α))
    (rest : ∀ value, Steady (liftM (next value) : BodyParser β)) :
    Steady (liftM (step >>= next) : BodyParser β) := by
  rw [lift_bind]
  exact first.bind rest

theorem SharedStep.follows {α : Type} {step : BodyParser α} {discipline : Discipline}
    {start : BodyInput} (shared : SharedStep step)
    (ok : ∀ {value later}, step start = .ok value later → discipline.kept start later)
    (error : ∀ {fault later}, step start = .error fault later → discipline.spoilt start later) :
    Follows discipline step start :=
  ⟨⟨_, .single shared start⟩, ok, error⟩

/-! ### Tokens -/

theorem peek_quiet {start later token}
    (ran : (liftM Parser.peek : BodyParser Token) start = .ok token later) :
    token.content = start.input.ahead.content ∧ later.input.ahead = start.input.ahead ∧
      Quiet start later := by
  obtain ⟨peekRan, sameContext⟩ := lift_eq_ok ran
  obtain ⟨contentEq, aheadEq, _⟩ := Parser.peek_ok peekRan
  refine ⟨contentEq, aheadEq, congrArg Ahead.nesting aheadEq, congrArg Context.scopes sameContext,
    ?_, ?_⟩
  · rcases start with ⟨⟨cursor, depth, nesting⟩, context⟩
    cases ran
    rfl
  · rw [aheadEq]

theorem steady_peek : Steady (liftM Parser.peek : BodyParser Token) := by
  intro start
  apply SharedStep.look.follows
  · intro token later ran
    exact (peek_quiet ran).2.2
  · intro fault later ran
    contradiction

theorem next_leaves {start later token}
    (ran : (liftM Parser.next : BodyParser Token) start = .ok token later) :
    later.nesting = start.nesting ∧ later.context = start.context ∧
      later.input.depth = Input.depthAfter start.input.depth start.input.ahead.kind ∧
      later.input.ahead.tokens <:+ start.input.ahead.tokens := by
  rcases start with ⟨⟨⟨name, stream, pending, consumed, inspected, finished⟩, depth, nesting⟩,
    context⟩
  cases ran
  cases pending with
  | nil => exact ⟨rfl, rfl, rfl, List.suffix_refl _⟩
  | cons token rest => exact ⟨rfl, rfl, rfl, List.suffix_cons token rest⟩

theorem depthAfter_of_isInline {kind : TokenKind} (isInline : kind.IsInline) (depth : Nat) :
    Input.depthAfter depth kind = depth := by
  unfold Input.depthAfter
  split
  · exact absurd rfl isInline.2.1
  · exact absurd rfl isInline.2.2
  · rfl

theorem follows_next {discipline : Discipline} {start : BodyInput}
    (isInline : start.input.ahead.kind.IsInline) :
    Follows discipline (liftM Parser.next : BodyParser Token) start := by
  apply SharedStep.take.follows
  · intro token later ran
    obtain ⟨nestingEq, contextEq, depthEq, tokens⟩ := next_leaves ran
    rw [depthAfter_of_isInline isInline] at depthEq
    exact discipline.of_quiet ⟨nestingEq, congrArg Context.scopes contextEq, depthEq, tokens⟩
  · intro fault later ran
    contradiction

theorem steady_peekKind : Steady (liftM Parser.peekKind : BodyParser TokenKind) :=
  steady_peek.lift fun _ => Steady.pure _

theorem peekKind_quiet {start later kind}
    (ran : (liftM Parser.peekKind : BodyParser TokenKind) start = .ok kind later) :
    later.input.ahead.kind = kind := by
  obtain ⟨kindRan, _⟩ := lift_eq_ok ran
  obtain ⟨rfl, aheadEq⟩ := Parser.peekKind_ok kindRan
  exact congrArg Ahead.kind aheadEq

theorem steady_accept {kind : TokenKind} (isInline : kind.IsInline) :
    Steady (liftM (Parser.accept kind) : BodyParser Bool) := by
  intro start
  rw [Parser.accept, lift_bind]
  apply (steady_peekKind start).bind
  intro found middle ran
  split
  · rename_i isKind
    rw [lift_bind]
    apply Follows.bind (follows_next ?_) fun _ _ _ => Follows.pure _
    rw [peekKind_quiet ran, isKind]
    exact isInline
  · exact Follows.pure _

theorem expect_runs (kind : TokenKind) (start : BodyInput) :
    Runs (liftM (Parser.expect kind) : BodyParser Token) start
      (fun _ later => later.nesting = start.nesting ∧
        later.context.scopes = start.context.scopes ∧
        later.input.depth = Input.depthAfter start.input.depth kind ∧
        later.input.ahead.tokens <:+ start.input.ahead.tokens)
      (Faulted start) := by
  rw [Parser.expect, lift_bind]
  apply Runs.bind (steady_peek start)
  intro token middle peekRan quiet
  obtain ⟨contentEq, aheadEq, _⟩ := peek_quiet peekRan
  split
  · rename_i isKind
    have kindEq : middle.input.ahead.kind = kind := by
      rw [aheadEq, ← isKind]
      exact congrArg Content.kind contentEq.symm
    refine ⟨⟨_, .single .take middle⟩, fun ran => ?_, fun ran => nomatch ran⟩
    obtain ⟨nestingEq, contextEq, depthEq, tokens⟩ := next_leaves ran
    rw [kindEq, quiet.depth_eq] at depthEq
    exact ⟨nestingEq.trans quiet.nesting_eq,
      (congrArg Context.scopes contextEq).trans quiet.scopes_eq, depthEq,
      tokens.trans quiet.tokens⟩
  · exact Runs.throw quiet.faulted

theorem steady_expect {kind : TokenKind} (isInline : kind.IsInline) :
    Steady (liftM (Parser.expect kind) : BodyParser Token) := by
  intro start
  apply (expect_runs kind start).mono
  · rintro _ later ⟨nestingEq, scopesEq, depthEq, tokens⟩
    rw [depthAfter_of_isInline isInline] at depthEq
    exact ⟨nestingEq, scopesEq, depthEq, tokens⟩
  · exact fun _ => id

theorem steady_identifier : Steady (liftM Parser.identifier : BodyParser (String × Position)) := by
  apply (steady_expect (by decide)).lift
  intro token
  split
  · exact Steady.pure _
  · exact Steady.throw _

theorem steady_typeName : Steady (liftM Parser.typeName : BodyParser TypeRef) := by
  intro start
  rw [Parser.typeName, lift_bind]
  apply (steady_peek start).bind
  intro token middle ran
  obtain ⟨contentEq, aheadEq, _⟩ := peek_quiet ran
  split
  · rename_i name isType
    rw [lift_bind]
    apply Follows.bind (follows_next ?_) fun _ _ _ => Follows.pure _
    have isInline := Token.isInline_of_typeName? isType
    rw [Token.kind, contentEq, ← Ahead.kind_eq, ← aheadEq] at isInline
    exact isInline
  · exact Follows.throw _

theorem steady_typeAfter {kind : TokenKind} (isInline : kind.IsInline) :
    Steady (liftM (Parser.typeAfter kind) : BodyParser (Option TypeRef)) := by
  apply (steady_accept isInline).lift
  intro isThere
  split
  · exact steady_typeName.lift fun _ => Steady.pure _
  · exact Steady.pure _

/-! ### Context -/

theorem steady_get : Steady (get : BodyParser BodyInput) := by
  intro start
  apply SharedStep.inspect.follows
  · intro body later ran
    cases ran
    exact .refl _
  · intro fault later ran
    contradiction

theorem steady_allocate (change : Variables → Option Slot × Variables) (position : Position) :
    Steady (allocate change position) := by
  rintro ⟨input, function, frame, scopes, callees⟩
  apply (SharedStep.allocate change position).follows
  · intro slot later ran
    obtain ⟨changed, _, rfl⟩ := allocate_ok ran
    exact ⟨rfl, rfl, rfl, List.suffix_refl _⟩
  · intro fault later ran
    unfold allocate at ran
    dsimp only at ran
    split at ran
    · contradiction
    · cases ran
      exact ⟨rfl, rfl, Nat.le_refl _, List.suffix_refl _⟩

theorem steady_temporary (position : Position) : Steady (temporary position) :=
  steady_allocate _ position

theorem steady_recordCall (name : String) (position : Position) :
    Steady (recordCall name position) := by
  intro start
  apply (SharedStep.record name position).follows
  · intro _ later ran
    unfold recordCall at ran
    split at ran
    · cases ran
      exact ⟨rfl, rfl, rfl, List.suffix_refl _⟩
    · contradiction
  · intro fault later ran
    unfold recordCall at ran
    split at ran
    · contradiction
    · cases ran
      exact (Quiet.refl start).faulted

theorem steady_requireFresh (name : String) (position : Position) :
    Steady (requireFresh name position) := by
  apply steady_get.bind
  intro body
  split
  · exact Steady.throw _
  · exact Steady.pure _

theorem steady_lookup (name : String) (position : Position) : Steady (lookup name position) := by
  apply steady_get.bind
  intro body
  split
  · exact Steady.pure _
  · exact Steady.throw _

theorem steady_exhausted {α : Type} : Steady (exhausted : BodyParser α) :=
  steady_peek.bind fun _ => Steady.throw _

theorem follows_descend (position : Position) (start : BodyInput) :
    Follows .loose (liftM (Parser.descend position) : BodyParser Unit) start := by
  apply (SharedStep.descend position).follows
  · intro _ later ran
    rw [descend_eq] at ran
    split at ran
    · cases ran
      exact Quiet.refl start
    · contradiction
  · intro fault later ran
    rw [descend_eq] at ran
    split at ran
    · contradiction
    · cases ran
      exact (Quiet.refl start).faulted

end BodyParser

end SlotCompiler
