import SlotCompiler.Proofs.Program.Placement
import SlotCompiler.Proofs.Source.Line
import SlotCompiler.Proofs.Token.Tiling

/-!
Contract: diagnostics point at places of the source.

No pass makes up a place: were all places of a source taken elsewhere, the passes would
report the places that theirs are taken to.  This is applied to a map that fixes exactly
the places of the source.
-/

namespace SlotCompiler

/-! ## Places of a source -/

/-- The place after some front of a text. -/
def Position.InText (position : Position) (text : String) : Prop :=
  ∃ front, front <+: text.toList ∧ position = start.advance front

theorem Tiles.exists_front {before characters tokens finish}
    (tiles : Tiles before characters tokens finish) {token} (member : token ∈ tokens) :
    ∃ front, front <+: before ++ characters ∧ token.position = Position.start.advance front := by
  induction tiles with
  | finish => exact absurd member List.not_mem_nil
  | @token before gap rest first _ _ _ _ placed _ ih =>
    rcases List.mem_cons.mp member with rfl | later
    · exact ⟨before ++ gap, ⟨token.text.toList ++ rest, by simp⟩, placed⟩
    · simpa using ih later

theorem parseSource_moved_eq {source : Source} {place : Position → Position}
    (fixes : ∀ {position : Position}, position.InText source.text → place position = position) :
    (parseSource source).1.moved place = (parseSource source).1.moved id := by
  have tiles := TokenStream.ofText_tiles source.text
  rw [parseSource_eq]
  apply TokenStream.parse_moved_eq _ _ (TokenStream.ofText_kind_ne source.text)
  · apply List.map_congr_left
    intro token member
    exact congrArg (Prod.mk token.content) (fixes (tiles.exists_front member))
  · exact fixes ⟨_, List.prefix_rfl, tiles.finish_eq⟩

theorem Config.mem_faults_of_outcome {config : Config} {types run faults}
    (failed : config.outcome types run = .error faults) {fault} (member : fault ∈ faults) :
    fault ∈ run.2.faults.toList := by
  unfold outcome at failed
  split at failed
  · cases failed
  · cases failed
    unfold shown at member
    split at member
    · exact List.mem_of_mem_take member
    · exact member

theorem compile_fault_inText {config : Config} {source : Source} {faults}
    (failed : (compile config source).outcome = .error faults) {fault} (member : fault ∈ faults) :
    fault.position.InText source.text := by
  classical
  let place (position : Position) : Position :=
    if position.InText source.text then position else .start
  have inText (position : Position) : (place position).InText source.text := by
    unfold place
    split
    · assumption
    · exact ⟨[], List.nil_prefix, rfl⟩
  obtain ⟨_, sameNotes⟩ :=
    compileFile_eq_of_moved (@parseSource_moved_eq source place fun known => if_pos known) config
  rw [compile_outcome_compileFile] at failed
  generalize Pass.compileFile config (parseSource source).1.file _ = ran at sameNotes failed
  have found := config.mem_faults_of_outcome failed member
  have sameFaults : ran.2.faults.toList.map (Diagnostic.moved place) =
      ran.2.faults.toList.map (Diagnostic.moved id) := by
    simpa only [Notes.moved, Array.toList_map] using congrArg (·.faults.toList) sameNotes
  have fixed : place fault.position = fault.position :=
    congrArg Diagnostic.position (List.map_inj_left.mp sameFaults fault found)
  exact fixed ▸ inText fault.position

/-! ## Lines and columns -/

/-- The columns that characters of a line take: a tab takes several, a carriage return none. -/
def columnsOf (characters : List Char) : Nat :=
  ((characters.flatMap Diagnostic.expandTab).filter (· ≠ '\r')).length

theorem Position.step_inLine {character} (notFeed : character ≠ '\n') (position : Position) :
    (position.step character).line = position.line ∧
      (position.step character).column = position.column + columnsOf [character] := by
  unfold step columnsOf
  rw [if_neg notFeed]
  by_cases isTab : character = '\t'
  · rw [isTab]
    exact ⟨rfl, rfl⟩
  · by_cases isReturn : character = '\r' <;> simp [isTab, isReturn, Diagnostic.expandTab]

/-- The text in front of a place: whole lines, then a part of one.  Line and column are
counted there, and the walk to the line of a byte at or after the place comes by it. -/
structure Fronts (front : List Char) (lines : List (List Char)) (before : List Char) : Prop where
  whole : front = lines.flatMap (· ++ ['\n']) ++ before
  noFeed : '\n' ∉ before
  line_eq : (Position.start.advance front).line = lines.length + 1
  column_eq : (Position.start.advance front).column = columnsOf before + 1
  splits : ∀ rest, (front ++ rest).splitOn '\n' = lines ++ (before ++ rest).splitOn '\n'
  walks : ∀ {index}, utf8Length front ≤ index → ∃ first, ∀ rest,
    Span.lineAround index 0 0 [] (front ++ rest) =
      Span.lineAround index (utf8Length front) first before.reverse rest

namespace Fronts

variable {front before : List Char} {lines : List (List Char)}

theorem feed (fronts : Fronts front lines before) :
    Fronts (front ++ ['\n']) (lines ++ [before]) [] where
  whole := by simp [fronts.whole]
  noFeed := List.not_mem_nil
  line_eq := by
    rw [Position.advance_append, List.length_append]
    exact congrArg (· + 1) fronts.line_eq
  column_eq := by
    rw [Position.advance_append]
    rfl
  splits rest := by
    rw [List.append_assoc, fronts.splits, List.singleton_append, List.splitOn_append_cons_self,
      List.splitOn_eq_singleton fronts.noFeed, List.append_assoc, List.nil_append]
  walks {index} reached := by
    have sizeEq : utf8Length (front ++ ['\n']) = utf8Length front + 1 := utf8Length_append _ _
    obtain ⟨_, walks⟩ := @fronts.walks index (by omega)
    refine ⟨utf8Length front + 1, fun rest => ?_⟩
    rw [List.append_assoc, walks, List.singleton_append, Span.lineAround, if_pos rfl,
      if_neg (by omega), sizeEq, List.reverse_nil]

theorem further (fronts : Fronts front lines before) {character} (notFeed : character ≠ '\n') :
    Fronts (front ++ [character]) lines (before ++ [character]) where
  whole := by rw [fronts.whole, List.append_assoc]
  noFeed := by simp [fronts.noFeed, notFeed.symm]
  line_eq := by
    rw [Position.advance_append, ← fronts.line_eq]
    exact (Position.step_inLine notFeed _).1
  column_eq := by
    rw [Position.advance_append, Position.advance_cons, Position.advance_nil,
      (Position.step_inLine notFeed _).2, fronts.column_eq]
    simp only [columnsOf, List.flatMap_append, List.filter_append, List.length_append]
    omega
  splits rest := by
    rw [List.append_assoc, fronts.splits, List.append_assoc]
  walks {index} reached := by
    have sizeEq : utf8Length (front ++ [character]) = utf8Length front + character.utf8Size := by
      simp
    obtain ⟨first, walks⟩ := @fronts.walks index (by omega)
    refine ⟨first, fun rest => ?_⟩
    rw [List.append_assoc, walks, List.singleton_append, Span.lineAround, if_neg notFeed, sizeEq,
      List.reverse_append]
    rfl

end Fronts

theorem exists_fronts (front : List Char) : ∃ lines before, Fronts front lines before := by
  induction front using List.reverseRecOn with
  | nil => exact ⟨[], [], rfl, List.not_mem_nil, rfl, rfl, fun _ => rfl, fun _ => ⟨0, fun _ => rfl⟩⟩
  | append_singleton front character ih =>
    obtain ⟨lines, before, fronts⟩ := ih
    by_cases isFeed : character = '\n'
    · exact ⟨_, _, isFeed ▸ fronts.feed⟩
    · exact ⟨_, _, fronts.further isFeed⟩

/-- From a place on, the walk takes the rest of its line. -/
theorem Span.exists_rest_of_line {index offset} (reached : index ≤ offset) (first : Nat)
    (reversed rest : List Char) :
    ∃ after, lineAround index offset first reversed rest =
        (first, trimReturn (after.reverse ++ reversed)) ∧
      ∀ before, '\n' ∉ before → ((before ++ rest).splitOn '\n').head? = some (before ++ after) := by
  induction rest generalizing offset reversed with
  | nil =>
    refine ⟨[], by rw [lineAround]; rfl, fun before noFeed => ?_⟩
    rw [List.append_nil, List.splitOn_eq_singleton noFeed]
    rfl
  | cons character rest ih =>
    rw [lineAround]
    by_cases isFeed : character = '\n'
    · rw [if_pos isFeed, if_pos reached, isFeed]
      refine ⟨[], rfl, fun before noFeed => ?_⟩
      rw [List.splitOn_append_cons_self, List.splitOn_eq_singleton noFeed, List.append_nil]
      rfl
    · rw [if_neg isFeed]
      obtain ⟨after, walked, splits⟩ :=
        @ih (offset + character.utf8Size) (by omega) (character :: reversed)
      refine ⟨character :: after, ?_, fun before noFeed => ?_⟩
      · rw [walked, List.reverse_cons, List.append_assoc, List.singleton_append]
      · have next := splits (before ++ [character]) (by simp [noFeed, Ne.symm isFeed])
        rwa [List.append_assoc, List.append_assoc] at next

/-- The diagnostic stands at a place of the source: after some whole lines and a part of
the next, where line and column are counted.  It is shown with this line, without a
carriage return at its end and with tabs as blanks, and with a caret under the first
column after that part. -/
def Diagnostic.PointsInto (fault : Diagnostic) (source : Source) : Prop :=
  let lines := source.text.toList.splitOn '\n'
  let number := toString fault.position.line
  let margin := Text.fill number.length ' '
  ∃ (line : Nat) (before after shown : List Char),
    let front := (lines.take line).flatMap (· ++ ['\n']) ++ before
    front <+: source.text.toList ∧ fault.position = Position.start.advance front ∧
    fault.position.line = line + 1 ∧ lines[line]? = some (before ++ after) ∧
    before ++ after = shown ++ Span.lineReturn (before ++ after) ∧
    fault.render source =
      "error: " ++ fault.message ++ "\n" ++
        margin ++ "--> " ++ fault.position.textIn source.name ++ "\n" ++
        number ++ " | " ++ String.ofList (shown.flatMap expandTab) ++ "\n" ++
        margin ++ " | " ++ Text.fill (columnsOf before) ' ' ++ "^" ++ "\n"

/-- Every diagnostic of a compilation points into its source, whatever the limit. -/
theorem compile_faults_placed {config : Config} {source : Source} {faults : List Diagnostic}
    (failed : (compile config source).outcome = .error faults) {fault : Diagnostic}
    (member : fault ∈ faults) : fault.PointsInto source := by
  unfold Diagnostic.PointsInto
  intro lines number margin
  obtain ⟨front, ⟨rest, textEq⟩, placed⟩ := compile_fault_inText failed member
  obtain ⟨gone, before, fronts⟩ := exists_fronts front
  obtain ⟨first, walks⟩ := fronts.walks (Nat.le_refl _)
  obtain ⟨after, walked, splits⟩ :=
    Span.exists_rest_of_line (Nat.le_refl (utf8Length front)) first before.reverse rest
  have linesEq : lines = gone ++ (before ++ rest).splitOn '\n' := by
    rw [← fronts.splits, textEq]
  have takeEq : lines.take gone.length = gone := by
    rw [linesEq, List.take_left]
  refine ⟨gone.length, before, after, Span.trimReturn (before ++ after).reverse, ?_⟩
  rw [takeEq, ← fronts.whole]
  refine ⟨⟨rest, textEq⟩, placed, placed ▸ fronts.line_eq, ?_, (Span.trimReturn_append _).symm, ?_⟩
  · rw [linesEq, List.getElem?_append_right (Nat.le_refl _), Nat.sub_self, ← List.head?_eq_getElem?]
    exact splits before fronts.noFeed
  · have foundEq : (Span.enclosingLine ⟨fault.position.index, 0⟩ source.text).1 =
        String.ofList (Span.trimReturn (before ++ after).reverse) := by
      rw [Span.enclosingLine, placed, Position.index_advance_start, ← textEq, walks, walked,
        List.reverse_append]
    have caretEq : Text.alignRight fault.position.column "^" =
        Text.fill (columnsOf before) ' ' ++ "^" := by
      have columnEq : fault.position.column = columnsOf before + 1 := placed ▸ fronts.column_eq
      rw [Text.alignRight, columnEq, show "^".length = 1 from rfl, Nat.add_sub_cancel]
    show _ ++ String.ofList ((Span.enclosingLine ⟨fault.position.index, 0⟩
      source.text).1.toList.flatMap Diagnostic.expandTab) ++ "\n" ++ margin ++ " | " ++
        Text.alignRight fault.position.column "^" ++ "\n" = _
    rw [foundEq, caretEq, String.toList_ofList, ← String.append_assoc]

/-- The fault is behind two tabs, in the second of two lines that end in a carriage
return. -/
def tabbedSource : Source :=
  ⟨"main", "// caffè\r\n\tfn f() -> int \x7b\treturn true; \x7d\r\n"⟩

theorem compile_faults_placed_tabbed :
    ∃ fault, (compile .standard tabbedSource).outcome = .error [fault] ∧
      fault.position = ⟨28, 2, 24⟩ ∧ fault.PointsInto tabbedSource := by
  have failed : (compile .standard tabbedSource).outcome =
      .error [⟨.typeMismatch "int" "bool", ⟨28, 2, 24⟩⟩] := by
    decide +kernel
  exact ⟨_, failed, rfl, compile_faults_placed failed List.mem_cons_self⟩

end SlotCompiler
