import SlotCompiler.Proofs.Grammar.Building
import SlotCompiler.Proofs.Parse.Tokens

/-!
Contract: parsing does what building does.
-/

namespace SlotCompiler

def Refuses {σ ω α : Type} (view : σ → ω) (step : EStateM Diagnostic σ α) (before : ω)
    (cause : Cause) : Prop :=
  ∀ state, view state = before →
    ∃ fault later, step state = .error fault later ∧ fault.cause = cause

namespace BodyParser

/-- Before the tokens ahead and in every function, the parser does what building does.
It goes up to what is left and gives the same, or it fails for the same cause. -/
structure Gives {α : Type} (step : BodyParser α) (ahead : Ahead) (build : Building α)
    (left : Ahead) : Prop where
  takes : ∀ {context later : Context} {value : α}, build context = .ok (value, later) →
    Takes BodyInput.view step (ahead, context) value (left, later)
  refuses : ∀ {context : Context} {cause : Cause}, build context = .error cause →
    Refuses BodyInput.view step (ahead, context) cause

/-! ## Composition -/

section Composition

variable {α β : Type} {step : BodyParser α} {next : α → BodyParser β} {build : Building α}
  {following : α → Building β} {ahead middle left : Ahead}

theorem gives_pure (value : α) (ahead : Ahead) : Gives (pure value) ahead (pure value) ahead where
  takes := by
    rintro context _ _ ⟨⟩
    exact takes_pure value _
  refuses := nofun

theorem Gives.bind_form {γ : Type} {form : α → γ} {step} {next : γ → BodyParser β}
    (first : Gives step ahead (return form (← build)) middle)
    (rest : ∀ value, Gives (next (form value)) middle (following value) left) :
    Gives (step >>= next) ahead (build >>= following) left where
  takes := by
    intro context later value built
    obtain ⟨given, between, firstBuilt, restBuilt⟩ := Building.bind_eq_ok_iff.mp built
    exact (first.takes (Building.bind_of_ok firstBuilt)).bind ((rest given).takes restBuilt)
  refuses := by
    intro context cause failed body isBefore
    rcases Building.bind_eq_error_iff.mp failed with
      firstFailed | ⟨given, between, firstBuilt, restFailed⟩
    · obtain ⟨fault, later, ran, isCause⟩ :=
        first.refuses (Building.bind_of_error firstFailed) body isBefore
      exact ⟨fault, later, bind_eq_error_iff.mpr (.inl ran), isCause⟩
    · obtain ⟨state, firstRan, isMiddle⟩ :=
        first.takes (Building.bind_of_ok firstBuilt) body isBefore
      obtain ⟨fault, later, ran, isCause⟩ := (rest given).refuses restFailed state isMiddle
      exact ⟨fault, later, bind_eq_error_iff.mpr (.inr ⟨_, state, firstRan, ran⟩), isCause⟩

theorem Gives.bind (first : Gives step ahead build middle)
    (rest : ∀ value, Gives (next value) middle (following value) left) :
    Gives (step >>= next) ahead (build >>= following) left := by
  rw [← bind_pure build] at first
  exact first.bind_form rest

theorem Gives.after {value built} (first : Gives step ahead (pure value) middle)
    (rest : Gives (next value) middle built left) : Gives (step >>= next) ahead built left := by
  have known : Gives step ahead ((pure () : Building Unit) >>= fun _ => pure value) middle := first
  exact known.bind_form fun _ => rest

theorem gives_lift {step : Parser α} {value : α} (takes : Takes Input.ahead step ahead value left) :
    Gives (liftM step : BodyParser α) ahead (pure value) left where
  takes := by
    rintro context _ _ ⟨⟩
    exact takes_lift takes context
  refuses := nofun

theorem gives_after {step : Parser α} {value : α} {built : Building β}
    (takes : Takes Input.ahead step ahead value middle)
    (rest : Gives (next value) middle built left) :
    Gives ((liftM step : BodyParser α) >>= next) ahead built left :=
  (gives_lift takes).after rest

end Composition

/-! ## The function being parsed -/

section Function

variable {α : Type} {step : BodyParser α} {ahead : Ahead}

theorem gives_ofOption {cause : Context → Cause} {change : Context → Option (α × Context)}
    (position : Position) (ahead : Ahead) (found : ∀ {input context later value},
      change context = some (value, later) → step ⟨input, context⟩ = .ok value ⟨input, later⟩)
    (missing : ∀ {input context}, change context = none →
      ∃ later, step ⟨input, context⟩ = .error ⟨cause context, position⟩ later) :
    Gives step ahead (.ofOption cause change) ahead where
  takes := by
    rintro _ later value built ⟨input, context⟩ ⟨⟩
    exact ⟨_, found (Building.ofOption_eq_ok_iff.mp built), rfl⟩
  refuses := by
    rintro _ _ failed ⟨input, context⟩ ⟨⟩
    unfold Building.ofOption at failed
    split at failed
    · contradiction
    · rename_i isNone
      cases failed
      obtain ⟨later, ran⟩ := @missing input context isNone
      exact ⟨_, later, ran, rfl⟩

theorem gives_lookup (name : String) (position : Position) (ahead : Ahead) :
    Gives (lookup name position) ahead (.lookup name) ahead := by
  refine gives_ofOption position ahead ?_ ?_
  · intro input context later value built
    obtain ⟨slot, found, same⟩ := Option.map_eq_some_iff.mp built
    cases same
    refine bind_eq_ok_iff.mpr ⟨⟨input, context⟩, _, rfl, ?_⟩
    simp only [found]
    rfl
  · intro input context isNone
    refine ⟨⟨input, context⟩, bind_eq_error_iff.mpr (.inr ⟨⟨input, context⟩, _, rfl, ?_⟩)⟩
    simp only [Option.map_eq_none_iff.mp isNone]
    rfl

theorem gives_temporary (position : Position) (ahead : Ahead) :
    Gives (temporary position) ahead .temporary ahead := by
  refine gives_ofOption position ahead ?_ ?_
  · intro input context later slot added
    obtain ⟨frame, allocated, rfl⟩ := Context.temporary?_eq_some_iff.mp added
    simp only [temporary, allocate, allocated]
    rfl
  · intro input context isNone
    unfold Context.temporary? at isNone
    split at isNone
    · contradiction
    · rename_i isFull
      simp only [temporary, allocate, isFull]
      exact ⟨_, rfl⟩

theorem gives_recordCall (name : String) (position : Position) (ahead : Ahead) :
    Gives (recordCall name position) ahead (.record name) ahead := by
  refine gives_ofOption position ahead ?_ ?_
  · intro input context later value built
    obtain ⟨after, recorded, same⟩ := Option.map_eq_some_iff.mp built
    cases same
    obtain ⟨callees, isNew, isRecorded, rfl⟩ := Context.record?_eq_some_iff.mp recorded
    simp only [recordCall, isRecorded]
    rfl
  · intro input context isNone
    have notRecorded := Option.map_eq_none_iff.mp isNone
    unfold Context.record? at notRecorded
    split at notRecorded
    · contradiction
    · rename_i isSelf
      simp only [recordCall, isSelf]
      exact ⟨_, rfl⟩

theorem requireFresh_eq (name : String) (position : Position) (body : BodyInput) :
    requireFresh name position body =
      if body.context.scopes.isTaken name then .error ⟨.duplicateSymbol name, position⟩ body
      else .ok () body := by
  show (if _ then _ else _ : BodyParser Unit) body = _
  split <;> rfl

theorem gives_requireFresh (name : String) (position : Position) (ahead : Ahead) :
    Gives (requireFresh name position) ahead (.requireFresh name) ahead := by
  refine gives_ofOption position ahead ?_ ?_
  · intro input context later value built
    obtain ⟨isFree, same⟩ := Option.ite_none_right_eq_some.mp built
    cases same
    exact (requireFresh_eq ..).trans (if_neg (by simpa using isFree))
  · intro input context isNone
    exact ⟨_, (requireFresh_eq ..).trans (if_pos (by simpa using isNone))⟩

theorem gives_declare (name : String) (isMutable : Bool) (position : Position) (ahead : Ahead) :
    Gives (declare name isMutable position) ahead (.declare name isMutable) ahead := by
  refine gives_ofOption position ahead ?_ ?_
  · intro input context later slot declared
    obtain ⟨isFree, frame, scopes, added, found, rfl⟩ := Context.declare?_eq_some_iff.mp declared
    refine bind_eq_ok_iff.mpr ⟨(), ⟨input, context⟩, ?_, ?_⟩
    · exact (requireFresh_eq ..).trans (if_neg (by simp [isFree]))
    · refine bind_eq_ok_iff.mpr ⟨slot, ⟨input, context.withFrame frame⟩, ?_, ?_⟩
      · simp only [allocate, added]
        rfl
      · refine bind_eq_ok_iff.mpr ⟨(), _, rfl, ?_⟩
        show EStateM.Result.ok slot (BodyInput.mk input ((context.withFrame frame).withScopes
          ((context.scopes.declare? name slot).getD context.scopes))) = _
        rw [found]
        rfl
  · intro input context isNone
    by_cases isTaken : context.scopes.isTaken name = true
    · rw [if_pos isTaken]
      exact ⟨_, bind_eq_error_iff.mpr (.inl ((requireFresh_eq ..).trans (if_pos isTaken)))⟩
    · rw [if_neg isTaken]
      -- The name is free, so it is the frame that is full.
      unfold Context.declare? at isNone
      split at isNone
      · rename_i slot frame added
        have declared : context.scopes.declare? name slot = some _ := if_neg isTaken
        rw [declared] at isNone
        contradiction
      · rename_i frame isFull
        refine ⟨⟨input, context.withFrame frame⟩,
          bind_eq_error_iff.mpr (.inr ⟨(), ⟨input, context⟩, ?_, ?_⟩)⟩
        · exact (requireFresh_eq ..).trans (if_neg isTaken)
        · refine bind_eq_error_iff.mpr (.inl ?_)
          simp only [allocate, isFull]
          rfl

/-! ## Nesting and scopes -/

theorem gives_descend (tokens : List Token) (nesting : Nat) (position : Position) :
    Gives (liftM (Parser.descend position) : BodyParser Unit) ⟨tokens, nesting⟩ (.descend nesting)
      ⟨tokens, nesting + 1⟩ := by
  by_cases isShallow : nesting < Input.nestingLimit
  · refine ⟨?_, ?_⟩
    · intro context later value built
      rw [Building.descend_of_shallow isShallow] at built
      cases built
      exact takes_lift (Parser.takes_descend isShallow tokens position) context
    · intro context cause failed
      rw [Building.descend_of_shallow isShallow] at failed
      contradiction
  · have tooDeep (context : Context) : Building.descend nesting context =
        .error (.nestingTooDeep Input.nestingLimit) :=
      Building.require_of_fails (decide_eq_false isShallow)
    refine ⟨?_, ?_⟩
    · intro context later value built
      rw [tooDeep] at built
      contradiction
    · rintro _ cause failed ⟨input, context⟩ ⟨⟩
      rw [tooDeep] at failed
      cases failed
      exact ⟨_, _, (descend_eq position _).trans (if_neg isShallow), rfl⟩

theorem gives_restoringNesting {tokens rest nesting deeper build}
    (inside : Gives step ⟨tokens, nesting⟩ build ⟨rest, deeper⟩) :
    Gives (restoringNesting step) ⟨tokens, nesting⟩ build ⟨rest, nesting⟩ where
  takes := by
    intro context later value built body isBefore
    obtain ⟨state, ran, isAfter⟩ := inside.takes built body isBefore
    refine ⟨state.atNesting body.nesting, ?_, ?_⟩
    · rw [restoringNesting_eq, ran]
      rfl
    · obtain ⟨aheadEq, rfl⟩ := Prod.mk.inj isAfter
      have nestingEq : body.nesting = nesting := congrArg (·.1.nesting) isBefore
      have tokensEq : state.input.ahead.tokens = rest := congrArg Ahead.tokens aheadEq
      rw [nestingEq, ← tokensEq]
      rfl
  refuses := by
    intro context cause failed body isBefore
    obtain ⟨fault, state, ran, isCause⟩ := inside.refuses failed body isBefore
    refine ⟨fault, state.atNesting body.nesting, ?_, isCause⟩
    rw [restoringNesting_eq, ran]
    rfl

theorem gives_inScope {locks left build} (inside : Gives step ahead build left) :
    Gives (inScope locks step) ahead (do
      .enter locks
      let value ← build
      .leave
      return value) left where
  takes := by
    rintro _ later value built ⟨input, context⟩ ⟨⟩
    obtain ⟨_, _, ⟨⟩, built⟩ := Building.bind_eq_ok_iff.mp built
    obtain ⟨_, inner, insideBuilt, ⟨⟩⟩ := Building.bind_eq_ok_iff.mp built
    obtain ⟨state, ran, isAfter⟩ := inside.takes insideBuilt
      (BodyInput.opened ⟨input, context⟩ locks) rfl
    obtain ⟨rfl, rfl⟩ := Prod.mk.inj isAfter
    exact ⟨state.closed, by rw [inScope_eq, ran]; rfl, rfl⟩
  refuses := by
    rintro _ cause failed ⟨input, context⟩ ⟨⟩
    rcases Building.bind_eq_error_iff.mp failed with ⟨⟨⟩⟩ | ⟨_, _, ⟨⟩, failed⟩
    rcases Building.bind_eq_error_iff.mp failed with insideFailed | ⟨_, _, _, ⟨⟩⟩
    obtain ⟨fault, state, ran, isCause⟩ := inside.refuses insideFailed
      (BodyInput.opened ⟨input, context⟩ locks) rfl
    exact ⟨fault, state.closed, by rw [inScope_eq, ran]; rfl, isCause⟩

end Function

end BodyParser

end SlotCompiler
