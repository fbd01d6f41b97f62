import SlotCompiler.Proofs.Parse.Recovery

/-!
Contract: where the items of a file end.
-/

namespace SlotCompiler

attribute [local grind] TokenKind.IsInline

/-! ## Balanced braces -/

def KeepsBraces (tokens : List Token) : Prop :=
  ∀ depth rest, bracesBalance depth (tokens ++ rest) = bracesBalance depth rest

namespace KeepsBraces

variable {token opening closing : Token} {tokens others : List Token}

theorem nil : KeepsBraces [] := fun _ _ => rfl

theorem append (first : KeepsBraces tokens) (second : KeepsBraces others) :
    KeepsBraces (tokens ++ others) := by
  intro depth rest
  rw [List.append_assoc, first, second]

theorem cons (isInline : token.kind.IsInline) (following : KeepsBraces tokens) :
    KeepsBraces (token :: tokens) := by
  intro depth rest
  rw [List.cons_append, bracesBalance, if_neg isInline.2.1, if_neg isInline.2.2, following]

theorem of_isInline (isInline : ∀ token ∈ tokens, token.kind.IsInline) : KeepsBraces tokens := by
  induction tokens with
  | nil => exact .nil
  | cons token rest ih =>
    rw [List.forall_mem_cons] at isInline
    exact .cons isInline.1 (ih isInline.2)

theorem braces (opens : opening.kind = .leftBrace) (inside : KeepsBraces tokens)
    (closes : closing.kind = .rightBrace) : KeepsBraces (opening :: tokens ++ [closing]) := by
  intro depth rest
  have notOpening : closing.kind ≠ .leftBrace := by
    rw [closes]
    decide
  rw [List.append_assoc, List.cons_append, bracesBalance, if_pos opens, inside,
    List.singleton_append, bracesBalance, if_neg notOpening, if_pos closes]
  rfl

theorem balances (keeps : KeepsBraces tokens) : bracesBalance 0 tokens = true := by
  have balanced := keeps 0 []
  rw [List.append_nil] at balanced
  exact balanced

end KeepsBraces

theorem DerivesStatement.keepsBraces {part tokens}
    (derives : DerivesStatement part tokens) : KeepsBraces tokens := by
  induction derives with
  | declaration =>
    apply KeepsBraces.of_isInline
    grind [Token.kind_of_name, DerivesType.isInline, DerivesAssigned.isInline]
  | assignment =>
    apply KeepsBraces.of_isInline
    grind [Token.kind_of_name, DerivesAssigned.isInline]
  | memberAssignment =>
    apply KeepsBraces.of_isInline
    grind [Token.kind_of_name, Derives.isInline, DerivesAssigned.isInline]
  | returnNothing | returnValue | call =>
    apply KeepsBraces.of_isInline
    grind [Derives.isInline]
  | conditional _ _ inner | loop _ _ inner => exact inner.cons (by grind)
  | sync _ listed _ inner =>
    have locked := KeepsBraces.of_isInline listed.isInline
    exact (locked.append inner).cons (by grind)
  | noStatements => exact .nil
  | moreStatements _ _ first following => exact first.append following
  | block opens _ closes inside => exact .braces opens inside closes
  | guarded _ test _ _ arm =>
    have tested := KeepsBraces.of_isInline test.isInline
    exact (tested.append (arm.cons (by grind))).cons (by grind)
  | lastArm _ arm => exact arm
  | otherwise _ _ _ arm other => exact arm.append (other.cons (by grind))
  | moreArms _ _ _ _ arm following => exact arm.append ((following.cons (by grind)).cons (by grind))

/-! ## Cutting -/

def extendFirst (content : Content) : List (List Content) → List (List Content)
  | [] => [[content]]
  | item :: items => (content :: item) :: items

/-- Cut contents after each brace that closes the outermost one, inside as many open
braces as given. -/
def cutItems : Nat → List Content → List (List Content)
  | _, [] => []
  | depth, content :: rest =>
    if content.kind = .leftBrace then extendFirst content (cutItems (depth + 1) rest)
    else if content.kind = .rightBrace then
      if depth ≤ 1 then [content] :: cutItems 0 rest
      else extendFirst content (cutItems (depth - 1) rest)
    else extendFirst content (cutItems depth rest)

def Source.items (source : Source) : List (List Content) :=
  cutItems 0 ((TokenStream.ofText source.text).tokens.map Token.content)

def startsItem (kind : TokenKind) (item : List Content) : Bool :=
  item.head?.any fun content => content.kind == kind

section Cutting

variable {opening closing : Token} {depth : Nat} {rest : List Content}

theorem cutItems_cons (depth : Nat) (token : Token) (rest : List Content) :
    cutItems depth (token.content :: rest) =
      if token.kind = .leftBrace then extendFirst token.content (cutItems (depth + 1) rest)
      else if token.kind = .rightBrace then
        if depth ≤ 1 then [token.content] :: cutItems 0 rest
        else extendFirst token.content (cutItems (depth - 1) rest)
      else extendFirst token.content (cutItems depth rest) := rfl

theorem foldr_extendFirst (contents item : List Content) (items : List (List Content)) :
    contents.foldr extendFirst (item :: items) = (contents ++ item) :: items := by
  induction contents with
  | nil => rfl
  | cons content rest ih =>
    rw [List.foldr_cons, ih]
    rfl

theorem cutItems_inline {tokens : List Token} (isInline : ∀ token ∈ tokens, token.kind.IsInline) :
    cutItems depth (tokens.map Token.content ++ rest) =
      (tokens.map Token.content).foldr extendFirst (cutItems depth rest) := by
  induction tokens with
  | nil => rfl
  | cons token others ih =>
    rw [List.forall_mem_cons] at isInline
    rw [List.map_cons, List.cons_append, cutItems_cons, if_neg isInline.1.2.1,
      if_neg isInline.1.2.2, ih isInline.2, List.foldr_cons]

theorem cutItems_of_bracesBalance {body} (closes : closing.kind = .rightBrace)
    (balanced : bracesBalance depth body = true) :
    cutItems (depth + 1) ((body ++ [closing]).map Token.content ++ rest) =
      (body ++ [closing]).map Token.content :: cutItems 0 rest := by
  induction body generalizing depth with
  | nil =>
    cases eq_of_beq (show (depth == 0) = true from balanced)
    have notOpening : closing.kind ≠ .leftBrace := by
      rw [closes]
      decide
    show cutItems 1 (closing.content :: rest) = _
    rw [cutItems_cons, if_neg notOpening, if_pos closes, if_pos (le_refl 1)]
    rfl
  | cons token others ih =>
    rw [bracesBalance] at balanced
    rw [List.cons_append, List.map_cons, List.cons_append, cutItems_cons]
    by_cases opens : token.kind = .leftBrace
    · rw [if_pos opens] at balanced
      rw [if_pos opens, ih balanced]
      rfl
    rw [if_neg opens] at balanced
    rw [if_neg opens]
    by_cases ends : token.kind = .rightBrace
    · rw [if_pos ends, Bool.and_eq_true, decide_eq_true_eq] at balanced
      have shallower := ih balanced.2
      rw [Nat.sub_add_cancel balanced.1] at shallower
      rw [if_pos ends, if_neg (by omega), Nat.add_sub_cancel, shallower]
      rfl
    · rw [if_neg ends] at balanced
      rw [if_neg ends, ih balanced]
      rfl

theorem cutItems_braced {head body : List Token} (isInline : ∀ token ∈ head, token.kind.IsInline)
    (opens : opening.kind = .leftBrace) (balanced : bracesBalance 0 body = true)
    (closes : closing.kind = .rightBrace) :
    cutItems 0 ((head ++ opening :: (body ++ [closing])).map Token.content ++ rest) =
      (head ++ opening :: (body ++ [closing])).map Token.content :: cutItems 0 rest := by
  rw [List.map_append, List.append_assoc, cutItems_inline isInline, List.map_cons,
    List.cons_append, cutItems_cons, if_pos opens, cutItems_of_bracesBalance closes balanced]
  exact foldr_extendFirst _ (opening.content :: _) _

end Cutting

/-! ## Items -/

theorem DerivesItem.cutItems_eq {item tokens} (derives : DerivesItem item tokens)
    (rest : List Content) :
    cutItems 0 (tokens.map Token.content ++ rest) =
      tokens.map Token.content :: cutItems 0 rest := by
  cases derives with
  | @struct keyword token _ _ _ _ _ isStruct isName opens listed closes =>
    have isInline : ∀ inHead ∈ [keyword, token], inHead.kind.IsInline := by
      grind [Token.kind_of_name]
    have balanced := (KeepsBraces.of_isInline listed.isInline).balances
    exact cutItems_braced isInline opens balanced closes
  | function headed braced =>
    have .block opens inside closes := braced
    exact cutItems_braced headed.isInline opens inside.keepsBraces.balances closes

theorem DerivesItems.exists_cut {items tokens} (derives : DerivesItems items tokens) :
    ∃ pieces, List.Forall₂ DerivesItem items pieces ∧ pieces.flatten = tokens ∧
      cutItems 0 (tokens.map Token.content) = pieces.map (List.map Token.content) := by
  induction derives with
  | none => exact ⟨[], .nil, rfl, rfl⟩
  | more first _ ih =>
    obtain ⟨pieces, derived, flattened, cut⟩ := ih
    refine ⟨_ :: pieces, .cons first derived, ?_, ?_⟩
    · rw [List.flatten_cons, flattened]
    · rw [List.map_append, first.cutItems_eq, cut, List.map_cons]

theorem DerivesItem.startsItem_eq {item tokens} (derives : DerivesItem item tokens) :
    startsItem .structKw (tokens.map Token.content) = item.struct?.isSome ∧
      startsItem .fnKw (tokens.map Token.content) = item.function?.isSome := by
  have startsIff (keyword : Token) (rest : List Token) (kind : TokenKind) :
      startsItem kind ((keyword :: rest).map Token.content) = (keyword.kind == kind) := rfl
  cases derives with
  | struct isStruct =>
    rw [startsIff, startsIff, isStruct]
    exact ⟨rfl, rfl⟩
  | function headed =>
    cases headed with
    | mk isFunction =>
      rw [List.cons_append, startsIff, startsIff, isFunction]
      exact ⟨rfl, rfl⟩

theorem DerivesItem.name_eq {written tokens} (derives : DerivesItem (.function written) tokens) :
    (tokens.map Token.content)[1]? = some (.identifier written.name) := by
  cases derives with
  | function headed =>
    cases headed with
    | mk _ isName => exact congrArg some isName

end SlotCompiler
