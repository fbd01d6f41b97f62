import SlotCompiler.Proofs.Grammar.File

/-!
Contract: the tokens that the grammar is written with.
-/

namespace SlotCompiler

variable {token : Token} {name : String} {tokens : List Token}

def TokenKind.IsInline (kind : TokenKind) : Prop :=
  kind ≠ .invalid ∧ kind ≠ .leftBrace ∧ kind ≠ .rightBrace

instance : DecidablePred TokenKind.IsInline := fun _ => inferInstanceAs (Decidable (_ ∧ _ ∧ _))

attribute [local grind] TokenKind.IsInline

theorem Token.kind_of_name (isName : token.content = .identifier name) : token.kind = .identifier :=
  congrArg Content.kind isName

theorem Token.isInline_of_reading {α : Type} {reading? : Content → Option α}
    (noKind : ∀ kind : TokenKind, kind = .invalid ∨ kind = .leftBrace ∨ kind = .rightBrace →
      reading? (.plain kind) = none) (noFault : ∀ fault, reading? (.invalid fault) = none) {value}
    (found : reading? token.content = some value) : token.kind.IsInline := by
  rw [Token.kind]
  cases contentEq : token.content with
  | plain kind =>
    rw [contentEq] at found
    have kept : ¬ (kind = .invalid ∨ kind = .leftBrace ∨ kind = .rightBrace) := by
      intro excluded
      rw [noKind kind excluded] at found
      contradiction
    rw [not_or, not_or] at kept
    exact kept
  | invalid fault =>
    rw [contentEq, noFault] at found
    contradiction
  | int | float | char | string | identifier => exact ⟨nofun, nofun, nofun⟩

/-! ## Expressions -/

theorem TokenKind.isInline_of_operator? {kind : TokenKind} {operator : Operator}
    (binds : kind.operator? = some operator) : kind.IsInline := by
  refine ⟨?_, ?_, ?_⟩
  all_goals
    rintro rfl
    contradiction

theorem Token.isInline_of_literal? {value}
    (isLiteral : token.content.literal? = some value) : token.kind.IsInline := by
  refine Token.isInline_of_reading ?_ (fun _ => rfl) isLiteral
  rintro _ (rfl | rfl | rfl) <;> rfl

theorem Token.isInline_of_typeName? (isType : Parser.typeName? token.content = some name) :
    token.kind.IsInline := by
  refine Token.isInline_of_reading ?_ (fun _ => rfl) isType
  rintro _ (rfl | rfl | rfl) <;> rfl

theorem Derives.isInline {part} (derives : Derives part tokens) :
    ∀ token ∈ tokens, token.kind.IsInline := by
  induction derives with
  | operation binds =>
    have operatorInline := TokenKind.isInline_of_operator? binds
    grind
  | tighter _ _ _ innerInline => exact innerInline
  | literal isLiteral =>
    have literalInline := Token.isInline_of_literal? isLiteral
    grind
  | string isString => grind [Token.kind, Content.kind]
  | named | access | callWithout | call | moreMembers => grind [Token.kind_of_name]
  | group | noMembers | lastArgument | moreArguments => grind

/-! ## Statements -/

theorem DerivesName.isInline {isMutable} (derives : DerivesName isMutable name tokens) :
    ∀ token ∈ tokens, token.kind.IsInline := by
  cases derives with
  | plain | mutable => grind [Token.kind_of_name]

theorem DerivesType.isInline {mark type?} (derives : DerivesType mark type? tokens)
    (proper : mark.IsInline) : ∀ token ∈ tokens, token.kind.IsInline := by
  cases derives with
  | absent => exact fun _ member => absurd member List.not_mem_nil
  | present isMark isType =>
    have typeInline := Token.isInline_of_typeName? isType
    grind

theorem DerivesAssigned.isInline {value} (derives : DerivesAssigned value tokens) :
    ∀ token ∈ tokens, token.kind.IsInline := by
  cases derives with
  | mk _ derives => grind [derives.isInline]

theorem DerivesLocks.isInline {locks} (derives : DerivesLocks locks tokens) :
    ∀ token ∈ tokens, token.kind.IsInline := by
  induction derives with
  | last locked => exact locked.isInline
  | more locked => grind [locked.isInline]

theorem DerivesStatement.kind_ne_invalid {part}
    (derives : DerivesStatement part tokens) : ∀ token ∈ tokens, token.kind ≠ .invalid := by
  induction derives with
  | declaration declares isName typed assigned =>
    grind [Token.kind_of_name, DerivesType.isInline, DerivesAssigned.isInline]
  | assignment => grind [Token.kind_of_name, DerivesAssigned.isInline]
  | memberAssignment => grind [Token.kind_of_name, Derives.isInline, DerivesAssigned.isInline]
  | returnValue | call | guarded => grind [Derives.isInline]
  | sync => grind [DerivesLocks.isInline]
  | returnNothing | conditional | loop | noStatements | moreStatements | block | lastArm
    | otherwise | moreArms => grind

/-! ## Files -/

theorem DerivesFields.isInline {fields}
    (derives : DerivesFields fields tokens) : ∀ token ∈ tokens, token.kind.IsInline := by
  induction derives with
  | none | last | more => grind [Token.kind_of_name, DerivesType.isInline]

theorem DerivesParameters.isInline {parameters}
    (derives : DerivesParameters parameters tokens) : ∀ token ∈ tokens, token.kind.IsInline := by
  induction derives with
  | none | last | more => grind [DerivesName.isInline, DerivesType.isInline]

theorem DerivesHeader.isInline {parameters returnType? position}
    (derives : DerivesHeader name parameters returnType? position tokens) :
    ∀ token ∈ tokens, token.kind.IsInline := by
  cases derives with
  | mk => grind [Token.kind_of_name, DerivesParameters.isInline, DerivesType.isInline]

theorem DerivesItem.kind_ne_invalid {item} (derives : DerivesItem item tokens) :
    ∀ token ∈ tokens, token.kind ≠ .invalid := by
  cases derives with
  | struct => grind [Token.kind_of_name, DerivesFields.isInline]
  | function => grind [DerivesHeader.isInline, DerivesStatement.kind_ne_invalid]

theorem DerivesItems.kind_ne_invalid {items}
    (derives : DerivesItems items tokens) : ∀ token ∈ tokens, token.kind ≠ .invalid := by
  induction derives with
  | none => exact fun _ member => absurd member List.not_mem_nil
  | more first _ restValid =>
    intro token member
    rcases List.mem_append.mp member with inFirst | inRest
    · exact first.kind_ne_invalid token inFirst
    · exact restValid token inRest

end SlotCompiler
