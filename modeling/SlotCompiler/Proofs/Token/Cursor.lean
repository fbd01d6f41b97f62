import SlotCompiler.Proofs.Token.Respacing

/-!
Contract: calls on a cursor in any order.
-/

namespace SlotCompiler

variable {characters : List Char} {token : Token}

/-! ## Invalid tokens -/

theorem wordContent_kind_ne_invalid (word : List Char) : (wordContent word).kind ≠ .invalid := by
  unfold wordContent
  split
  · rename_i entry kind found
    have validKeywords : ∀ entry ∈ TokenKind.keywords, entry.2 ≠ .invalid := by decide
    exact validKeywords _ (List.mem_of_find?_eq_some found)
  · intro invalid
    contradiction

theorem wholeNumber_kind_ne_invalid (negative : Bool) (digits : List Char) :
    (wholeNumber negative digits).kind ≠ .invalid := by
  unfold wholeNumber
  dsimp only
  generalize (if negative then -(digitsValue digits : Int) else digitsValue digits) = signed
  intro invalid
  split at invalid
  · contradiction
  · contradiction

theorem numberContent_invalid {negative body}
    (invalid : (numberContent negative body).kind = .invalid) :
    numberContent negative body = .invalid .invalidNumber ∨
      numberContent negative body = .invalid .multipleDecimalPoints ∧ 2 ≤ body.count '.' := by
  unfold numberContent at invalid ⊢
  split
  · exact .inl rfl
  split
  · exact .inl rfl
  rename_i noLetter someDigit
  rw [if_neg noLetter, if_neg someDigit] at invalid
  generalize body.count '.' = points at invalid ⊢
  match points with
  | 0 => exact absurd invalid (wholeNumber_kind_ne_invalid negative body)
  | 1 => contradiction
  | points + 2 => exact .inr ⟨rfl, Nat.le_add_left 2 points⟩

def Content.IsFaulty (content : Content) (text : List Char) : Prop :=
  ∃ fault, content = .invalid fault ∧ (fault = .multipleDecimalPoints → 2 ≤ text.count '.')

theorem numberScan_isFaulty {sign}
    (invalid : (numberScan sign characters).content.kind = .invalid) :
    (numberScan sign characters).content.IsFaulty (numberScan sign characters).text := by
  rcases numberContent_invalid invalid with malformed | ⟨pointed, twice⟩
  · exact ⟨_, malformed, fun other => by contradiction⟩
  · refine ⟨_, pointed, fun _ => ?_⟩
    show 2 ≤ (sign ++ (characters.span isNumberPart).1).count '.'
    rw [List.count_append]
    exact twice.trans (Nat.le_add_left _ _)

theorem stringScan_isFaulty (invalid : (stringScan characters).content.kind = .invalid) :
    (stringScan characters).content.IsFaulty (stringScan characters).text := by
  unfold stringScan at invalid ⊢
  cases closed : stringContents [] characters with
  | some found =>
    rw [closed] at invalid
    contradiction
  | none => exact ⟨.unterminatedString, rfl, fun other => by contradiction⟩

theorem closeChar_isFaulty {value text rest}
    (invalid : (closeChar value text rest).content.kind = .invalid) :
    (closeChar value text rest).content.IsFaulty (closeChar value text rest).text := by
  unfold closeChar at invalid ⊢
  split
  · contradiction
  · exact ⟨.unterminatedChar, rfl, fun other => by contradiction⟩

theorem charScan_isFaulty (invalid : (charScan characters).content.kind = .invalid) :
    (charScan characters).content.IsFaulty (charScan characters).text := by
  have unterminated (text : List Char) : (Content.invalid .unterminatedChar).IsFaulty text :=
    ⟨.unterminatedChar, rfl, fun other => by contradiction⟩
  unfold charScan at invalid ⊢
  split
  · exact unterminated _
  · exact unterminated _
  · exact closeChar_isFaulty invalid
  · exact unterminated _
  · exact unterminated _
  · exact closeChar_isFaulty (by simpa using invalid)

theorem markScan_isFaulty {character rest}
    (invalid : (markScan character rest).content.kind = .invalid) :
    (markScan character rest).content.IsFaulty (markScan character rest).text := by
  unfold markScan at invalid ⊢
  dsimp only at invalid ⊢
  split
  · rename_i spelling kind found
    have validMarks : ∀ entry ∈ TokenKind.marks, entry.2 ≠ .invalid := by decide
    rw [found] at invalid
    exact absurd invalid (validMarks _ (List.mem_of_find?_eq_some found))
  · exact ⟨.unexpectedCharacter, rfl, fun other => by contradiction⟩

theorem nextScan?_isFaulty {previous? scan} (found : nextScan? previous? characters = some scan)
    (invalid : scan.content.kind = .invalid) : scan.content.IsFaulty scan.text := by
  cases nextScan?_eq_some_iff.mp found with
  | word => exact absurd invalid (wordContent_kind_ne_invalid _)
  | number | negative => exact numberScan_isFaulty invalid
  | string => exact stringScan_isFaulty invalid
  | char => exact charScan_isFaulty invalid
  | ampersand =>
    change (if _ then TokenKind.bitAnd else .reference) = .invalid at invalid
    split at invalid <;> contradiction
  | asterisk =>
    change (if _ then TokenKind.multiply else .pointer) = .invalid at invalid
    split at invalid <;> contradiction
  | hyphen => contradiction
  | mark => exact markScan_isFaulty invalid

/-! ## Places of faults -/

theorem dropWhile_ne_nil {accepts : Char → Bool} {character} (member : character ∈ characters)
    (refused : accepts character = false) : characters.dropWhile accepts ≠ [] := by
  intro nothing
  have accepted := List.dropWhile_eq_nil_iff.mp nothing character member
  rw [refused] at accepted
  contradiction

theorem Token.exists_eq_beforeFault_append {fault text} (nonempty : text ≠ [])
    (points : fault = .multipleDecimalPoints → 2 ≤ text.count '.') :
    ∃ rest, text = beforeFault fault text ++ rest ∧ rest ≠ [] := by
  cases fault with
  | invalidNumber =>
    unfold beforeFault
    by_cases lettered : text.any isLetter = true
    · obtain ⟨letter, member, isLetter⟩ := List.any_eq_true.mp lettered
      rw [if_pos lettered]
      exact ⟨_, List.takeWhile_append_dropWhile.symm,
        dropWhile_ne_nil member (by rw [isLetter]; rfl)⟩
    · rw [if_neg lettered]
      exact ⟨text, rfl, nonempty⟩
  | multipleDecimalPoints =>
    have twice := points rfl
    have wholeEq := @List.takeWhile_append_dropWhile _ (· != '.') text
    have noPoint : (text.takeWhile (· != '.')).count '.' = 0 := by
      rw [List.count_eq_zero]
      intro member
      exact absurd (List.mem_takeWhile_imp member) (by decide)
    simp only [beforeFault, List.span_eq_takeWhile_dropWhile]
    cases split : text.dropWhile (· != '.') with
    | nil =>
      rw [split, List.append_nil] at wholeEq
      rw [← wholeEq, noPoint] at twice
      contradiction
    | cons point rest =>
      rw [split] at wholeEq
      have another : 0 < rest.count '.' := by
        rw [← wholeEq, List.count_append, noPoint, List.count_cons] at twice
        split at twice <;> omega
      refine ⟨rest.dropWhile (· != '.'), ?_, dropWhile_ne_nil (List.count_pos_iff.mp another) rfl⟩
      rw [List.append_assoc, List.cons_append, List.takeWhile_append_dropWhile, wholeEq]
  | unterminatedString | unterminatedChar | unexpectedCharacter => exact ⟨text, rfl, nonempty⟩

/-- The report names the fault of an invalid token and a place in front of one of
its characters. -/
structure Token.Reports (token : Token) (report : Report) : Prop where
  content_eq : token.content = .invalid report.fault
  position_eq : ∃ front rest, token.text.toList = front ++ rest ∧ rest ≠ [] ∧
    report.position = token.position.advance front
  index_mem : report.position.index ∈ Set.Ico token.position.index token.stop

theorem TokenStream.exists_reports {text} (member : token ∈ (ofText text).tokens)
    (invalid : token.kind = .invalid) :
    ∃ report, token.report? = some report ∧ token.Reports report := by
  have nonempty : token.text.toList ≠ [] := by
    intro nothing
    have positive := (ofText_tiles text).size_pos member
    rw [Token.size, nothing] at positive
    contradiction
  have faulty : token.kind = .invalid → token.content.IsFaulty token.text.toList := by
    refine @ofText_forall (fun token => token.kind = .invalid →
      token.content.IsFaulty token.text.toList) ?_ text token member
    intro previous? characters scan position found scanInvalid
    rw [String.toList_ofList]
    exact nextScan?_isFaulty found scanInvalid
  obtain ⟨fault, contentEq, points⟩ := faulty invalid
  obtain ⟨rest, textEq, left⟩ := Token.exists_eq_beforeFault_append nonempty points
  let front := Token.beforeFault fault token.text.toList
  refine ⟨⟨fault, token.position.advance front⟩, ?_, contentEq, ⟨front, rest, textEq, left, rfl⟩,
    ?_⟩
  · simp only [Token.report?, contentEq, front]
  · have restPositive := utf8Length_pos left
    have sizeEq : token.size = utf8Length front + utf8Length rest := by
      rw [Token.size, textEq, utf8Length_append]
    rw [Position.index_advance, Set.mem_Ico, Token.stop]
    omega

/-! ## Calls -/

/-- A call on a cursor. -/
inductive CursorCall where
  | next
  | peek
  | peekKind
  | position
  | current
  | location
  | iterate
deriving DecidableEq, Repr

/-- What a call gives. -/
inductive CursorAnswer where
  | token (token : Token)
  | token? (token? : Option Token)
  | kind (kind : TokenKind)
  | position (position : Position)
  | location (sourceName : String) (position : Position)
deriving DecidableEq, Repr

namespace CursorCall

/-- Carry out a call. -/
def perform (cursor : TokenCursor) : CursorCall → CursorAnswer × TokenCursor
  | .next => (.token cursor.next.1, cursor.next.2)
  | .peek => (.token cursor.peek.1, cursor.peek.2)
  | .peekKind => (.kind cursor.peek.1.kind, cursor.peek.2)
  | .position => (.position cursor.peek.1.position, cursor.peek.2)
  | .current => (.token? cursor.current?, cursor)
  | .location => (.location cursor.sourceName cursor.currentPosition, cursor)
  | .iterate => (.token? cursor.iterate.1, cursor.iterate.2)

/-- The token that a call takes from the stream: the one it gives, if it is one
that takes tokens. -/
def taken? (call : CursorCall) (cursor : TokenCursor) : Option Token :=
  match call, (call.perform cursor).1 with
  | .next, .token token => some token
  | .iterate, .token? token? => token?
  | _, _ => none

/-- The call needs the next token but does not take it. -/
def looksAhead (call : CursorCall) : Bool :=
  [peek, peekKind, position].contains call

/-- What a call that looks ahead gives of the token there. -/
def view? (token : Token) : CursorCall → Option CursorAnswer
  | .peek => some (.token token)
  | .peekKind => some (.kind token.kind)
  | .position => some (.position token.position)
  | _ => none

end CursorCall

namespace TokenCursor

def afterCalls (cursor : TokenCursor) (calls : List CursorCall) : TokenCursor :=
  calls.foldl (fun cursor call => (call.perform cursor).2) cursor

def takenBy : TokenCursor → List CursorCall → List Token
  | _, [] => []
  | cursor, call :: rest => (call.taken? cursor).toList ++ takenBy (call.perform cursor).2 rest

def LookedAhead (cursor : TokenCursor) (calls : List CursorCall) : Prop :=
  ∃ early call late, calls = early ++ call :: late ∧ call.looksAhead = true ∧
    (cursor.afterCalls (early ++ [call])).takenBy late = []

end TokenCursor

/-! ## Places in the stream -/

namespace TokenStream

theorem take_zero (stream : TokenStream) : stream.take 0 = [] := by
  simp [take]

theorem take_succ (stream : TokenStream) (count : Nat) :
    stream.take (count + 1) = stream.take count ++ [stream.get count] := by
  unfold take get
  by_cases inside : count < stream.tokens.length
  · rw [List.take_add_one, List.getElem?_eq_getElem inside, Nat.sub_eq_zero_of_le inside,
      Nat.sub_eq_zero_of_le inside.le]
    simp
  · have past := Nat.le_of_not_lt inside
    rw [List.getElem?_eq_none past, List.take_of_length_le past,
      List.take_of_length_le (past.trans (Nat.le_succ _)), Nat.succ_sub past,
      List.replicate_succ', List.append_assoc]
    rfl

theorem mem_take {stream : TokenStream} {count} (member : token ∈ stream.take count) :
    token ∈ stream.tokens ∨ token = stream.finish := by
  rcases List.mem_append.mp member with inText | isFinish
  · exact .inl (List.mem_of_mem_take inText)
  · exact .inr (List.eq_of_mem_replicate isFinish)

end TokenStream

namespace TokenCursor

variable {cursor : TokenCursor} {stream : TokenStream} {count ahead : Nat}

variable {call : CursorCall} {answer : CursorAnswer}

/-- The cursor has taken so many tokens of the stream and looked at so many more. -/
structure StandsAt (cursor : TokenCursor) (stream : TokenStream) (count ahead : Nat) :
    Prop where
  stream_eq : cursor.stream = stream
  pending_eq : cursor.pending = stream.tokens.drop count
  consumed_eq : cursor.consumed = count
  inspected_eq : cursor.inspected = count + ahead
  ahead_le : ahead ≤ 1

theorem ofSource_standsAt (source : Source) :
    (ofSource source).StandsAt (TokenStream.ofText source.text) 0 0 where
  stream_eq := rfl
  pending_eq := rfl
  consumed_eq := rfl
  inspected_eq := rfl
  ahead_le := Nat.zero_le 1

namespace StandsAt

theorem head_eq (stands : cursor.StandsAt stream count ahead) : cursor.head = stream.get count := by
  unfold head TokenStream.get
  rw [stands.pending_eq, stands.stream_eq]
  cases left : stream.tokens.drop count with
  | nil =>
    rw [List.getElem?_eq_none (List.drop_eq_nil_iff.mp left)]
    rfl
  | cons token rest =>
    have found : stream.tokens[count]? = some token := by
      rw [← List.head?_drop, left]
      rfl
    rw [found]
    rfl

theorem inspect (stands : cursor.StandsAt stream count ahead) :
    cursor.inspect.StandsAt stream count 1 where
  stream_eq := stands.stream_eq
  pending_eq := stands.pending_eq
  consumed_eq := stands.consumed_eq
  inspected_eq := by
    have within := stands.ahead_le
    show max cursor.inspected (cursor.consumed + 1) = count + 1
    rw [stands.inspected_eq, stands.consumed_eq]
    omega
  ahead_le := le_refl 1

theorem next (stands : cursor.StandsAt stream count ahead) :
    cursor.next.2.StandsAt stream (count + 1) 0 where
  stream_eq := stands.stream_eq
  pending_eq := by
    show cursor.pending.tail = _
    rw [stands.pending_eq, List.tail_drop]
  consumed_eq := by
    show cursor.consumed + 1 = _
    rw [stands.consumed_eq]
  inspected_eq := stands.inspect.inspected_eq
  ahead_le := Nat.zero_le 1

theorem setFinished (stands : cursor.StandsAt stream count ahead) (finished : Bool) :
    StandsAt { cursor with finished } stream count ahead :=
  ⟨stands.stream_eq, stands.pending_eq, stands.consumed_eq, stands.inspected_eq, stands.ahead_le⟩

theorem perform (stands : cursor.StandsAt stream count ahead) (call : CursorCall) :
    call.looksAhead = false ∧ call.taken? cursor = some (stream.get count) ∧
        (call.perform cursor).2.StandsAt stream (count + 1) 0 ∨
      call.taken? cursor = none ∧
        (call.perform cursor).2.StandsAt stream count (if call.looksAhead then 1 else ahead) := by
  cases call with
  | next => exact .inl ⟨rfl, congrArg some stands.head_eq, stands.next⟩
  | peek | peekKind | position => exact .inr ⟨rfl, stands.inspect⟩
  | current | location => exact .inr ⟨rfl, stands⟩
  | iterate =>
    cases finished : cursor.finished with
    | true =>
      have same : cursor.iterate = (none, cursor) := by simp [iterate, finished]
      refine .inr ⟨?_, ?_⟩
      · show cursor.iterate.1 = none
        rw [same]
      · show cursor.iterate.2.StandsAt stream count ahead
        rw [same]
        exact stands
    | false =>
      have goes : cursor.iterate = (some cursor.head,
          { cursor.next.2 with finished := cursor.head.kind == .endOfFile }) := by
        simp [iterate, finished, TokenCursor.next]
      refine .inl ⟨rfl, ?_, ?_⟩
      · show cursor.iterate.1 = some (stream.get count)
        rw [goes, stands.head_eq]
      · show cursor.iterate.2.StandsAt stream (count + 1) 0
        rw [goes]
        exact stands.next.setFinished _

theorem answer_eq (stands : cursor.StandsAt stream count ahead)
    (viewed : call.view? (stream.get count) = some answer) : (call.perform cursor).1 = answer := by
  rw [← stands.head_eq] at viewed
  cases call with
  | peek | peekKind | position => exact Option.some.inj viewed
  | _ => contradiction

end StandsAt

theorem not_lookedAhead_nil (cursor : TokenCursor) : ¬ cursor.LookedAhead [] := by
  rintro ⟨early, call, late, split, _⟩
  exact List.append_ne_nil_of_right_ne_nil early (List.cons_ne_nil call late) split.symm

theorem lookedAhead_cons {rest} :
    cursor.LookedAhead (call :: rest) ↔
      (call.looksAhead = true ∧ (call.perform cursor).2.takenBy rest = []) ∨
        (call.perform cursor).2.LookedAhead rest := by
  constructor
  · rintro ⟨early, looking, late, split, looks, nothing⟩
    cases early with
    | nil =>
      obtain ⟨rfl, rfl⟩ := List.cons.inj split
      exact .inl ⟨looks, nothing⟩
    | cons first others =>
      obtain ⟨rfl, rfl⟩ := List.cons.inj split
      exact .inr ⟨others, looking, late, rfl, looks, nothing⟩
  · rintro (⟨looks, nothing⟩ | ⟨early, looking, late, rfl, looks, nothing⟩)
    · exact ⟨[], call, rest, rfl, looks, nothing⟩
    · exact ⟨call :: early, looking, late, rfl, looks, nothing⟩

theorem StandsAt.afterCalls (stands : cursor.StandsAt stream count ahead)
    (calls : List CursorCall) :
    stream.take count ++ cursor.takenBy calls =
        stream.take (count + (cursor.takenBy calls).length) ∧
      ∃ later, (cursor.afterCalls calls).StandsAt stream
          (count + (cursor.takenBy calls).length) later ∧
        (later = 1 ↔ cursor.LookedAhead calls ∨ ahead = 1 ∧ cursor.takenBy calls = []) := by
  induction calls generalizing cursor count ahead with
  | nil =>
    refine ⟨List.append_nil _, ahead, stands, ?_⟩
    simp [not_lookedAhead_nil, takenBy]
  | cons call rest ih =>
    rcases stands.perform call with ⟨looksNot, taken, moved⟩ | ⟨taken, stayed⟩
    · obtain ⟨tokensEq, later, placed, peeked⟩ := ih moved
      have takenEq : cursor.takenBy (call :: rest) =
          stream.get count :: (call.perform cursor).2.takenBy rest := by
        simp [takenBy, taken]
      rw [takenEq, List.length_cons, lookedAhead_cons]
      rw [TokenStream.take_succ, List.append_assoc] at tokensEq
      have countEq (more : Nat) : count + 1 + more = count + (more + 1) := by omega
      rw [countEq] at tokensEq placed
      refine ⟨tokensEq, later, placed, peeked.trans ?_⟩
      simp [looksNot]
    · obtain ⟨tokensEq, later, placed, peeked⟩ := ih stayed
      have takenEq : cursor.takenBy (call :: rest) = (call.perform cursor).2.takenBy rest := by
        simp [takenBy, taken]
      rw [takenEq, lookedAhead_cons]
      refine ⟨tokensEq, later, placed, peeked.trans ?_⟩
      cases call.looksAhead with
      | true =>
        tauto
      | false => simp

theorem takenBy_replicate_next (source : Source) (count : Nat) :
    (ofSource source).takenBy (List.replicate count .next) =
      (TokenStream.ofText source.text).take count := by
  have lengthEq (cursor : TokenCursor) :
      (cursor.takenBy (List.replicate count .next)).length = count := by
    induction count generalizing cursor with
    | zero => rfl
    | succ count ih =>
      rw [List.replicate_succ]
      exact congrArg Nat.succ (ih cursor.next.2)
  have tokensEq := ((ofSource_standsAt source).afterCalls (List.replicate count .next)).1
  rw [lengthEq, Nat.zero_add, TokenStream.take_zero] at tokensEq
  exact tokensEq

theorem StandsAt.answer_eq_of_taken (stands : cursor.StandsAt stream count ahead)
    {looking taking : CursorCall} {middle} (viewed : looking.view? token = some answer)
    (nothing : (looking.perform cursor).2.takenBy middle = [])
    (taken : taking.taken? ((looking.perform cursor).2.afterCalls middle) = some token) :
    (looking.perform cursor).1 = answer := by
  have looks : looking.looksAhead = true := by
    cases looking with
    | peek | peekKind | position => rfl
    | _ => contradiction
  rcases stands.perform looking with ⟨looksNot, _⟩ | ⟨_, seen⟩
  · rw [looks] at looksNot
    contradiction
  · obtain ⟨_, later, placed, _⟩ := seen.afterCalls middle
    rw [nothing, List.length_nil, Nat.add_zero] at placed
    rcases placed.perform taking with ⟨_, isNext, _⟩ | ⟨isNone, _⟩
    · rw [isNext] at taken
      rw [← Option.some.inj taken] at viewed
      exact stands.answer_eq viewed
    · rw [isNone] at taken
      contradiction

theorem forall₂_reports {text : String} {tokens : List Token}
    (found : ∀ token ∈ tokens, token ∈ (TokenStream.ofText text).tokens ∨
      token = (TokenStream.ofText text).finish) :
    List.Forall₂ Token.Reports (tokens.filter (·.kind == .invalid))
      (tokens.filterMap Token.report?) := by
  induction tokens with
  | nil => exact .nil
  | cons token rest ih =>
    have others := ih fun other member =>
      found other (List.mem_cons_of_mem token member)
    by_cases invalid : token.kind = .invalid
    · have inText : token ∈ (TokenStream.ofText text).tokens := by
        rcases found token List.mem_cons_self with inText | rfl
        · exact inText
        · contradiction
      obtain ⟨report, reported, reports⟩ := TokenStream.exists_reports inText invalid
      rw [List.filter_cons_of_pos (by simp [invalid]), List.filterMap_cons_some reported]
      exact .cons reports others
    · rw [List.filter_cons_of_neg (by simp [invalid]),
        List.filterMap_cons_none (Token.report?_eq_none invalid)]
      exact others

end TokenCursor

private def mixedCalls : List CursorCall :=
  [.peek, .position, .iterate, .current, .next, .iterate, .iterate, .peekKind]

end SlotCompiler
