import SlotCompiler.Token.Stream

/-!
Contract: what a text can be cut into.
-/

namespace SlotCompiler

/-! ## One token -/

theorem wordContent_kind_ne (word : List Char) : (wordContent word).kind ≠ .endOfFile := by
  unfold wordContent
  split
  · rename_i entry kind found
    have properKeywords : ∀ entry ∈ TokenKind.keywords, entry.2 ≠ .endOfFile := by decide
    exact properKeywords _ (List.mem_of_find?_eq_some found)
  · exact nofun

theorem numberContent_kind_ne (negative : Bool) (body : List Char) :
    (numberContent negative body).kind ≠ .endOfFile := by
  unfold numberContent
  split
  · exact nofun
  split
  · exact nofun
  split
  · unfold wholeNumber
    dsimp only
    generalize (if negative then -(digitsValue body : Int) else digitsValue body) = signed
    split
    · exact nofun
    · exact nofun
  · exact nofun
  · exact nofun

theorem stringScan_kind_ne (characters : List Char) :
    (stringScan characters).content.kind ≠ .endOfFile := by
  unfold stringScan
  split
  · exact nofun
  · exact nofun

theorem closeChar_kind_ne (value : Char) (text rest : List Char) :
    (closeChar value text rest).content.kind ≠ .endOfFile := by
  unfold closeChar
  split
  · exact nofun
  · exact nofun

theorem charScan_kind_ne (characters : List Char) :
    (charScan characters).content.kind ≠ .endOfFile := by
  unfold charScan
  split
  · exact nofun
  · exact nofun
  · exact closeChar_kind_ne _ _ _
  · exact nofun
  · exact nofun
  · exact closeChar_kind_ne _ _ _

theorem markScan_kind_ne (character : Char) (rest : List Char) :
    (markScan character rest).content.kind ≠ .endOfFile := by
  unfold markScan
  dsimp only
  split
  · rename_i spelling kind found
    have properMarks : ∀ entry ∈ TokenKind.marks, entry.2 ≠ .endOfFile := by decide
    exact properMarks _ (List.mem_of_find?_eq_some found)
  · exact nofun

theorem nextScan?_kind_ne {previous? characters scan}
    (found : nextScan? previous? characters = some scan) : scan.content.kind ≠ .endOfFile := by
  cases characters with
  | nil => contradiction
  | cons character rest =>
    cases found
    split
    · exact wordContent_kind_ne _
    split
    · exact numberContent_kind_ne _ _
    split
    · exact stringScan_kind_ne rest
    split
    · exact charScan_kind_ne rest
    split
    · show (if _ then TokenKind.bitAnd else .reference) ≠ .endOfFile
      split
      · exact nofun
      · exact nofun
    split
    · show (if _ then TokenKind.multiply else .pointer) ≠ .endOfFile
      split
      · exact nofun
      · exact nofun
    split
    · split
      · exact nofun
      · exact numberContent_kind_ne _ _
    · exact markScan_kind_ne character rest

/-! ## Whole texts -/

namespace TokenStream

theorem collect_forall {holds : Token → Prop} (scanned : ∀ {previous? characters scan}
      (position : Position), nextScan? previous? characters = some scan →
      holds ⟨scan.content, position, String.ofList scan.text⟩) {fuel previous? position characters}
    {given : Array Token} (known : ∀ token ∈ given.toList, holds token) :
    ∀ token ∈ (collect fuel previous? position characters given).tokens, holds token := by
  induction fuel generalizing previous? position characters given with
  | zero => exact known
  | succ fuel ih =>
    unfold collect
    dsimp only
    split
    · exact known
    · rename_i scan found
      apply ih
      intro token member
      rw [Array.toList_push, List.mem_append, List.mem_singleton] at member
      rcases member with earlier | rfl
      · exact known token earlier
      · exact scanned _ found

theorem ofText_forall {holds : Token → Prop}
    (scanned : ∀ {previous? characters scan}
      (position : Position), nextScan? previous? characters = some scan →
      holds ⟨scan.content, position, String.ofList scan.text⟩)
    (text : String) : ∀ token ∈ (ofText text).tokens, holds token :=
  collect_forall scanned fun _ member => absurd member List.not_mem_nil

theorem ofText_kind_ne (text : String) : ∀ token ∈ (ofText text).tokens, token.kind ≠ .endOfFile :=
  ofText_forall (fun _ found => nextScan?_kind_ne found) text

end TokenStream

theorem kind_ne_of_contents_eq {tokens others : List Token} {kind}
    (same : tokens.map Token.content = others.map Token.content)
    (absent : ∀ token ∈ tokens, token.kind ≠ kind) : ∀ token ∈ others, token.kind ≠ kind := by
  intro token member
  have inTokens : token.content ∈ tokens.map Token.content := same ▸ List.mem_map_of_mem member
  obtain ⟨original, isOriginal, contentEq⟩ := List.mem_map.mp inTokens
  have kindEq : original.kind = token.kind := congrArg Content.kind contentEq
  exact kindEq ▸ absent original isOriginal

end SlotCompiler
