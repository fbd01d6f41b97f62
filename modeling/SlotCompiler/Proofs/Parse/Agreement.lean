import SlotCompiler.Parse.Statement
import SlotCompiler.Proofs.Tree.Placement

/-!
Contract: two runs of one parser on tokens that stand for the same.

The places of the two inputs need only be the same once they are taken elsewhere.
Beyond the shared tokens the inputs may differ.  No parser looks there as long as
the braces that the shared tokens stand in are open.
-/

namespace SlotCompiler

open BodyParser

/-! ## Shared tokens -/

/-- What a token stands for, and the place that its own is taken to. -/
def Token.mark (place : Position → Position) (token : Token) : Content × Position :=
  (token.content, place token.position)

/-- What two inputs have in common: the brace depth, the marks of the tokens ahead,
and the place of the end of file. -/
structure View where
  depth : Nat
  ahead : List (Content × Position)
  finish : Position

namespace View

def head (view : View) : Content × Position :=
  view.ahead.head?.getD (.plain .endOfFile, view.finish)

def content (view : View) : Content := view.head.1

def kind (view : View) : TokenKind := view.content.kind

def next (view : View) : View :=
  ⟨Input.depthAfter view.depth view.kind, view.ahead.tail, view.finish⟩

abbrev Past (view : View) (count : Nat) (after : View) : Prop :=
  after.depth = view.depth ∧ after.ahead.length + count ≤ view.ahead.length

theorem next_length_of_kind {view : View} (proper : view.kind ≠ .endOfFile) :
    view.next.ahead.length + 1 = view.ahead.length := by
  rcases view with ⟨depth, _ | ⟨mark, rest⟩, finish⟩
  · exact absurd rfl proper
  · rfl

end View

variable {kind : TokenKind} {first second : Token}

def TokenKind.isInner (kind : TokenKind) : Bool :=
  decide (kind ≠ .leftBrace ∧ kind ≠ .rightBrace ∧ kind ≠ .endOfFile)

theorem TokenKind.depthAfter_of_inner (inner : kind.isInner = true) (depth : Nat) :
    Input.depthAfter depth kind = depth := by
  obtain ⟨notOpening, notClosing, _⟩ := of_decide_eq_true inner
  unfold Input.depthAfter
  split
  · exact absurd rfl notOpening
  · exact absurd rfl notClosing
  · rfl

theorem View.past_next {view : View} (isKind : view.kind = kind) (inner : kind.isInner = true) :
    view.Past 1 view.next := by
  cases isKind
  exact ⟨TokenKind.depthAfter_of_inner inner _,
    Nat.le_of_eq (View.next_length_of_kind (of_decide_eq_true inner).2.2)⟩

abbrev View.Opened (view after : View) : Prop :=
  after.depth = view.depth + 1 ∧ after.ahead.length + 1 ≤ view.ahead.length

theorem View.opened_next {view : View} (opens : view.kind = .leftBrace) :
    view.Opened view.next := by
  refine ⟨?_, Nat.le_of_eq (View.next_length_of_kind (opens ▸ by decide))⟩
  rw [View.next, opens]
  rfl

abbrev View.Closed (view after : View) : Prop :=
  after.depth = view.depth - 1 ∧ after.ahead.length + 1 ≤ view.ahead.length

theorem View.closed_next {view : View} (closes : view.kind = .rightBrace) :
    view.Closed view.next := by
  refine ⟨?_, Nat.le_of_eq (View.next_length_of_kind (closes ▸ by decide))⟩
  rw [View.next, closes]
  rfl

/-- Where two inputs share tokens: at depths of at least `floor`.  What lies
beyond is given for each, and what its places are taken to. -/
structure Window where
  floor : Nat
  /-- A bound on the number of tokens shared. -/
  size : Nat
  first : List Token
  second : List Token
  here : Position → Position
  there : Position → Position

abbrev Window.Same (window : Window) (first second : Position) : Prop :=
  window.here first = window.there second

/-- Two values are the same once their places are taken elsewhere. -/
abbrev Window.SameBy {α γ : Type} (window : Window) (move : (Position → Position) → α → γ)
    (first second : α) : Prop :=
  move window.here first = move window.there second

abbrev Window.SameToken (window : Window) (first second : Token) : Prop :=
  first.mark window.here = second.mark window.there

theorem Window.SameToken.position {window : Window} {first second : Token}
    (same : window.SameToken first second) : window.Same first.position second.position :=
  congrArg Prod.snd same

def Window.Covers (window : Window) : Nat → List (Content × Position) → Prop
  | depth, [] => depth < window.floor ∨ (window.first = [] ∧ window.second = [])
  | depth, mark :: rest =>
    window.floor ≤ depth ∧ mark.1.kind ≠ .endOfFile ∧
      window.Covers (Input.depthAfter depth mark.1.kind) rest

theorem Window.Covers.next {window : Window} {view : View}
    (covers : window.Covers view.depth view.ahead) :
    window.Covers view.next.depth view.next.ahead := by
  rcases view with ⟨depth, _ | ⟨mark, rest⟩, finish⟩
  · exact covers
  · exact covers.2.2

/-- The input is at the depth and nesting given, and the tokens ahead start with
those of the view. -/
structure Input.Shows (input : Input) (place : Position → Position) (level : Nat) (view : View)
    (beyond : List Token) : Prop where
  depth_eq : input.depth = view.depth
  nesting_eq : input.nesting = level
  pending_eq : ∃ shown, input.cursor.pending = shown ++ beyond ∧
    shown.map (Token.mark place) = view.ahead
  finish_eq : place input.cursor.stream.finishPosition = view.finish

namespace Input.Shows

variable {input : Input} {place : Position → Position} {level : Nat} {view : View}
  {beyond : List Token}

theorem peek (shows : input.Shows place level view beyond) :
    input.peek.2.Shows place level view beyond :=
  ⟨shows.depth_eq, shows.nesting_eq, shows.pending_eq, shows.finish_eq⟩

theorem length_le (shows : input.Shows place level view beyond) :
    view.ahead.length ≤ input.cursor.pending.length := by
  obtain ⟨shown, pendingEq, shownEq⟩ := shows.pending_eq
  rw [pendingEq, ← shownEq, List.length_map, List.length_append]
  exact Nat.le_add_right _ _

theorem head_mark (shows : input.Shows place level view beyond)
    (ends : view.ahead = [] → beyond = []) : input.cursor.head.mark place = view.head := by
  obtain ⟨shown, pendingEq, shownEq⟩ := shows.pending_eq
  rw [TokenCursor.head, View.head, ← shownEq, ← shows.finish_eq]
  cases shown with
  | nil =>
    rw [pendingEq, ends shownEq.symm]
    rfl
  | cons token rest =>
    rw [pendingEq]
    rfl

theorem next (shows : input.Shows place level view beyond) (ends : view.ahead = [] → beyond = []) :
    input.next.2.Shows place level view.next beyond where
  depth_eq := by
    show depthAfter input.depth (input.cursor.head.mark place).1.kind = _
    rw [shows.depth_eq, shows.head_mark ends]
    rfl
  nesting_eq := shows.nesting_eq
  finish_eq := shows.finish_eq
  pending_eq := by
    obtain ⟨shown, pendingEq, shownEq⟩ := shows.pending_eq
    show ∃ left, input.cursor.pending.tail = left ++ beyond ∧ _ = view.ahead.tail
    cases shown with
    | nil =>
      rw [ends shownEq.symm] at pendingEq ⊢
      refine ⟨[], ?_, congrArg List.tail shownEq⟩
      rw [pendingEq]
      rfl
    | cons token rest =>
      refine ⟨rest, ?_, congrArg List.tail shownEq⟩
      rw [pendingEq]
      rfl

end Input.Shows

/-- Two inputs share the tokens of a view. -/
structure Window.Pairs (window : Window) (level : Nat) (view : View) (first second : Input) :
    Prop where
  first : first.Shows window.here level view window.first
  second : second.Shows window.there level view window.second
  covers : window.Covers view.depth view.ahead
  length_le : view.ahead.length ≤ window.size

namespace Window.Pairs

variable {window : Window} {level : Nat} {view : View} {s t : Input}

section

variable (paired : window.Pairs level view s t)

include paired

theorem ends (inside : window.floor ≤ view.depth) (isEnd : view.ahead = []) :
    window.first = [] ∧ window.second = [] := by
  have covers := paired.covers
  rw [isEnd] at covers
  exact covers.resolve_left (Nat.not_lt.mpr inside)

theorem ahead_eq_nil (below : view.depth < window.floor) : view.ahead = [] := by
  have covers := paired.covers
  cases aheadEq : view.ahead with
  | nil => rfl
  | cons mark rest =>
    rw [aheadEq] at covers
    exact absurd covers.1 (Nat.not_le.mpr below)

theorem ahead_eq_nil_of_kind (isEnd : view.kind = .endOfFile) : view.ahead = [] := by
  have covers := paired.covers
  rcases view with ⟨depth, _ | ⟨mark, rest⟩, finish⟩
  · rfl
  · exact absurd isEnd covers.2.1

theorem head_marks (inside : window.floor ≤ view.depth) :
    s.cursor.head.mark window.here = view.head ∧ t.cursor.head.mark window.there = view.head :=
  ⟨paired.first.head_mark fun isEnd => (paired.ends inside isEnd).1,
    paired.second.head_mark fun isEnd => (paired.ends inside isEnd).2⟩

theorem peek : window.Pairs level view s.peek.2 t.peek.2 :=
  ⟨paired.first.peek, paired.second.peek, paired.covers, paired.length_le⟩

end

theorem next (paired : window.Pairs level view s t) (inside : window.floor ≤ view.depth) :
    window.Pairs level view.next s.next.2 t.next.2 where
  first := paired.first.next fun isEnd => (paired.ends inside isEnd).1
  second := paired.second.next fun isEnd => (paired.ends inside isEnd).2
  covers := paired.covers.next
  length_le := Nat.le_trans (List.length_tail ▸ Nat.sub_le _ _) paired.length_le

theorem deeper (paired : window.Pairs level view s t) :
    window.Pairs (level + 1) view { s with nesting := s.nesting + 1 }
      { t with nesting := t.nesting + 1 } where
  first := { paired.first with nesting_eq := congrArg (· + 1) paired.first.nesting_eq }
  second := { paired.second with nesting_eq := congrArg (· + 1) paired.second.nesting_eq }
  covers := paired.covers
  length_le := paired.length_le

theorem withNesting (paired : window.Pairs level view s t) (nesting : Nat) :
    window.Pairs nesting view { s with nesting := nesting } { t with nesting := nesting } where
  first := { paired.first with nesting_eq := rfl }
  second := { paired.second with nesting_eq := rfl }
  covers := paired.covers
  length_le := paired.length_le

end Window.Pairs

theorem Token.kind_eq_of_mark {token : Token} {place : Position → Position} {view : View}
    (shown : token.mark place = view.head) : token.kind = view.kind :=
  congrArg (fun mark => mark.1.kind) shown

open Window

/-! ## Agreement -/

/-- Two results agree: both are values that the postcondition relates, or both
are faults that are taken to the same one.  The states are paired again, at a nesting
that is `kept`. -/
inductive Agree {σ α : Type} (window : Window) (pairs : Window → Nat → View → σ → σ → Prop)
    (kept : Nat → Prop) (post : α → α → View → Prop) :
    EStateM.Result Diagnostic σ α → EStateM.Result Diagnostic σ α → Prop where
  | ok {level view a b s t} (paired : pairs window level view s t) (isKept : kept level)
      (holds : post a b view) : Agree window pairs kept post (.ok a s) (.ok b t)
  | error {level view} {fault other : Diagnostic} {s t} (paired : pairs window level view s t)
      (isKept : kept level) (same : fault.moved window.here = other.moved window.there) :
      Agree window pairs kept post (.error fault s) (.error other t)

namespace Agree

variable {σ α β : Type} {window : Window} {pairs : Window → Nat → View → σ → σ → Prop}
  {kept wider : Nat → Prop} {middle post : α → α → View → Prop} {s t : σ}

theorem weaken {first second} (agree : Agree window pairs kept middle first second)
    (widens : ∀ {level}, kept level → wider level)
    (implies : ∀ {a b view}, middle a b view → post a b view) :
    Agree window pairs wider post first second := by
  cases agree with
  | ok paired isKept holds => exact .ok paired (widens isKept) (implies holds)
  | error paired isKept same => exact .error paired (widens isKept) same

theorem bind {x y} {f g : α → EStateM Diagnostic σ β} {last : β → β → View → Prop}
    (first : Agree window pairs kept middle (x s) (y t))
    (widens : ∀ {level}, kept level → wider level)
    (rest : ∀ {level view a b s t}, pairs window level view s t →
      kept level → middle a b view → Agree window pairs wider last (f a s) (g b t)) :
    Agree window pairs wider last ((x >>= f) s) ((y >>= g) t) := by
  show Agree window pairs wider last (EStateM.bind x f s) (EStateM.bind y g t)
  unfold EStateM.bind
  generalize x s = left, y t = right at first
  cases first with
  | ok paired isKept holds => exact rest paired isKept holds
  | error paired isKept same => exact .error paired (widens isKept) same

theorem ofGet {f g : σ → EStateM Diagnostic σ α}
    (agree : Agree window pairs kept post (f s s) (g t t)) :
    Agree window pairs kept post ((get >>= f) s) ((get >>= g) t) := agree

theorem map {x y : EStateM Diagnostic σ α} {change : α → β} {last : β → β → View → Prop}
    (agree : Agree window pairs kept middle (x s) (y t))
    (implies : ∀ {a b view}, middle a b view → last (change a) (change b) view) :
    Agree window pairs kept last ((change <$> x) s) ((change <$> y) t) := by
  show Agree window pairs kept last (EStateM.map change x s) (EStateM.map change y t)
  unfold EStateM.map
  generalize x s = left, y t = right at agree
  cases agree with
  | ok paired isKept holds => exact .ok paired isKept (implies holds)
  | error paired isKept same => exact .error paired isKept same

end Agree

/-! ## Steps on tokens -/

theorem Window.refusal_eq {window : Window} (same : window.SameToken first second)
    (expected : List TokenKind) :
    (first.refusal expected).moved window.here = (second.refusal expected).moved window.there := by
  obtain ⟨sameContent, samePlace⟩ := Prod.mk.inj same
  unfold Token.refusal Token.kind
  rw [sameContent]
  cases second.content <;> exact congrArg (Diagnostic.mk _) samePlace

namespace Parser

variable {window : Window} {level : Nat} {view : View} {s t : Input}

section

variable (paired : window.Pairs level view s t)

include paired

theorem peek_agree (inside : window.floor ≤ view.depth) :
    Agree window Pairs (level = ·)
      (fun a b after => (a.mark window.here = view.head ∧ b.mark window.there = view.head) ∧
        view = after)
      (peek s) (peek t) :=
  .ok paired.peek rfl ⟨paired.head_marks inside, rfl⟩

theorem peekKind_agree (inside : window.floor ≤ view.depth) :
    Agree window Pairs (level = ·)
      (fun a b after => (a = view.kind ∧ b = view.kind) ∧ view = after)
      (peekKind s) (peekKind t) := by
  apply (peek_agree paired inside).bind id
  rintro _ _ _ _ _ _ paired rfl ⟨⟨first, second⟩, rfl⟩
  exact .ok paired rfl ⟨⟨Token.kind_eq_of_mark first, Token.kind_eq_of_mark second⟩, rfl⟩

theorem next_agree (inside : window.floor ≤ view.depth) :
    Agree window Pairs (level = ·)
      (fun a b after => (a.mark window.here = view.head ∧ b.mark window.there = view.head) ∧
        view.next = after)
      (next s) (next t) :=
  .ok (paired.next inside) rfl ⟨paired.head_marks inside, rfl⟩

theorem refuse_agree {α : Type} {post : α → α → View → Prop}
    (same : window.SameToken first second) (expected : List TokenKind) :
    Agree window Pairs (level = ·) post (refuse first expected s) (refuse second expected t) :=
  .error paired rfl (window.refusal_eq same expected)

theorem accept_agree (inside : window.floor ≤ view.depth) (kind : TokenKind) :
    Agree window Pairs (level = ·)
      (fun a b after => (a = true ∧ b = true ∧ view.kind = kind ∧ view.next = after) ∨
        (a = false ∧ b = false ∧ view = after))
      (accept kind s) (accept kind t) := by
  apply (peekKind_agree paired inside).bind id
  rintro _ _ _ _ _ _ paired rfl ⟨⟨rfl, rfl⟩, rfl⟩
  split
  · rename_i isKind
    apply (next_agree paired inside).bind id
    rintro _ _ _ _ _ _ paired rfl ⟨_, rfl⟩
    exact .ok paired rfl (.inl ⟨rfl, rfl, isKind, rfl⟩)
  · exact .ok paired rfl (.inr ⟨rfl, rfl, rfl⟩)

theorem expect_agree (inside : window.floor ≤ view.depth) (kind : TokenKind) :
    Agree window Pairs (level = ·)
      (fun a b after => (a.mark window.here = view.head ∧ b.mark window.there = view.head) ∧
        view.kind = kind ∧ view.next = after)
      (expect kind s) (expect kind t) := by
  apply (peek_agree paired inside).bind id
  rintro _ _ first second _ _ paired rfl ⟨⟨firstEq, secondEq⟩, rfl⟩
  have firstKind := Token.kind_eq_of_mark firstEq
  have secondKind := Token.kind_eq_of_mark secondEq
  rw [firstKind, secondKind]
  split
  · rename_i isKind
    exact (next_agree paired inside).weaken id fun ⟨contents, isNext⟩ =>
      ⟨contents, isKind, isNext⟩
  · exact refuse_agree paired (firstEq.trans secondEq.symm) _

theorem identifier_agree (inside : window.floor ≤ view.depth) :
    Agree window Pairs (level = ·)
      (fun a b after => a.map id window.here = b.map id window.there ∧ view.Past 1 after)
      (identifier s) (identifier t) := by
  apply (expect_agree paired inside .identifier).bind id
  rintro _ _ first second _ _ paired rfl ⟨⟨firstEq, secondEq⟩, isKind, rfl⟩
  have past := View.past_next isKind rfl
  have same := firstEq.trans secondEq.symm
  obtain ⟨sameContent, samePlace⟩ := Prod.mk.inj same
  rw [sameContent]
  cases second.content with
  | identifier name => exact .ok paired rfl ⟨congrArg (name, ·) samePlace, past⟩
  | _ => exact refuse_agree paired same _

end

theorem isInner_of_typeName? {content name}
    (isType : typeName? content = some name) : content.kind.isInner = true := by
  unfold typeName? at isType
  split at isType
  · rfl
  · rfl
  · rfl
  · rfl
  · rfl
  · contradiction

theorem typeName_agree (paired : window.Pairs level view s t) (inside : window.floor ≤ view.depth) :
    Agree window Pairs (level = ·)
      (fun a b after => a.moved window.here = b.moved window.there ∧ view.Past 1 after)
      (typeName s) (typeName t) := by
  apply (peek_agree paired inside).bind id
  rintro _ _ first second _ _ paired rfl ⟨⟨firstEq, secondEq⟩, rfl⟩
  have firstContent : first.content = view.content := congrArg Prod.fst firstEq
  have secondContent : second.content = view.content := congrArg Prod.fst secondEq
  have same : window.SameToken first second := firstEq.trans secondEq.symm
  rw [firstContent, secondContent]
  cases isType : typeName? view.content with
  | none => exact refuse_agree paired same _
  | some name =>
    apply (next_agree paired inside).bind id
    rintro _ _ _ _ _ _ paired rfl ⟨_, rfl⟩
    exact .ok paired rfl ⟨congrArg (TypeRef.mk name) same.position,
      View.past_next rfl (isInner_of_typeName? isType)⟩

theorem typeAfter_agree (paired : window.Pairs level view s t) (inside : window.floor ≤ view.depth)
    (inner : kind.isInner = true) :
    Agree window Pairs (level = ·)
      (fun a b after => a.map (TypeRef.moved window.here) = b.map (TypeRef.moved window.there) ∧
        view.Past 0 after)
      (typeAfter kind s) (typeAfter kind t) := by
  apply (accept_agree paired inside kind).bind id
  rintro _ _ _ _ _ _ paired rfl (⟨rfl, rfl, isKind, rfl⟩ | ⟨rfl, rfl, rfl⟩)
  · have past := View.past_next isKind inner
    apply (typeName_agree paired (by omega)).bind id
    rintro _ _ _ _ _ _ paired rfl ⟨same, later⟩
    refine .ok paired rfl ⟨?_, by omega⟩
    rw [Option.map_some, Option.map_some, same]
  · exact .ok paired rfl ⟨rfl, rfl, Nat.le_refl _⟩

end Parser

/-! ## Steps inside a function -/

/-- Two inputs share the tokens of a view, and the function being parsed is the
same. -/
structure Window.BodyPairs (window : Window) (level : Nat) (view : View)
    (first second : BodyInput) : Prop where
  input : window.Pairs level view first.input second.input
  context_eq : first.context = second.context

theorem Window.Pairs.inBody {window : Window} {level view s t}
    (paired : window.Pairs level view s t) (context : Context) :
    window.BodyPairs level view ⟨s, context⟩ ⟨t, context⟩ :=
  ⟨paired, rfl⟩

/-- A pair of inputs inside the window, at a nesting that is kept. -/
structure Window.Within (window : Window) (kept : Nat → Prop) (level : Nat) (view : View)
    (first second : BodyInput) : Prop extends window.BodyPairs level view first second where
  inside : window.floor ≤ view.depth
  isKept : kept level

abbrev Window.At (window : Window) (level : Nat) (view : View) (first second : BodyInput) : Prop :=
  window.Within (level = ·) level view first second

abbrev Window.Matches {α γ : Type} (window : Window) (level : Nat) (view : View) (count : Nat)
    (move : (Position → Position) → α → γ)
    (first second : EStateM.Result Diagnostic BodyInput α) : Prop :=
  Agree window BodyPairs (level = ·)
    (fun a b after => move window.here a = move window.there b ∧ view.Past count after) first second

abbrev Window.Stays {α : Type} (window : Window) (level : Nat) (view : View)
    (first second : EStateM.Result Diagnostic BodyInput α) : Prop :=
  Agree window BodyPairs (level = ·) (fun a b after => a = b ∧ view = after) first second

/-- Two runs agree that start with one step on tokens. -/
abbrev Window.AgreeFrom {α β : Type} (window : Window) (kept : Nat → Prop)
    (post : α → α → View → Prop) (step : Parser β) (f g : β → BodyParser α)
    (s t : BodyInput) : Prop :=
  Agree window BodyPairs kept post (((liftM step : BodyParser β) >>= f) s)
    (((liftM step : BodyParser β) >>= g) t)

theorem BodyParser.agree_lift {α : Type} {window : Window} {kept : Nat → Prop} {s t : BodyInput}
    {x y : Parser α} {post : α → α → View → Prop}
    (agree : Agree window Pairs kept post (x s.input) (y t.input))
    (contextEq : s.context = t.context) :
    Agree window BodyPairs kept post ((liftM x : BodyParser α) s) ((liftM y : BodyParser α) t) := by
  rcases s with ⟨s, context⟩
  rcases t with ⟨t, _⟩
  cases contextEq
  show Agree window BodyPairs kept post (ofParser x ⟨s, context⟩) (ofParser y ⟨t, context⟩)
  simp only [ofParser]
  generalize x s = left, y t = right at agree
  cases agree with
  | ok paired isKept holds => exact .ok (paired.inBody context) isKept holds
  | error paired isKept same => exact .error (paired.inBody context) isKept same

namespace Window.Within

variable {window : Window} {kept : Nat → Prop} {level : Nat} {view : View} {s t : BodyInput}
  {α β : Type} {post : α → α → View → Prop}

theorem exactly (state : window.Within kept level view s t) :
    window.At level view s t :=
  ⟨state.toBodyPairs, state.inside, rfl⟩

theorem anywhere (state : window.Within kept level view s t) :
    window.Within (fun _ => True) level view s t :=
  ⟨state.toBodyPairs, state.inside, trivial⟩

/-! ### Ends -/

theorem agree_pure {a b} (state : window.Within kept level view s t) (holds : post a b view) :
    Agree window BodyPairs kept post ((pure a : BodyParser α) s) ((pure b : BodyParser α) t) :=
  .ok state.toBodyPairs state.isKept holds

theorem agree_fail {first second} (state : window.Within kept level view s t) (cause : Cause)
    (same : window.Same first second) :
    Agree window BodyPairs kept post (fail cause first s) (fail cause second t) :=
  .error state.toBodyPairs state.isKept (congrArg (Diagnostic.mk cause) same)

theorem agree_refuse (state : window.Within kept level view s t)
    (same : window.SameToken first second) (expected : List TokenKind) :
    Agree window BodyPairs kept post (refuse first expected s)
      (refuse second expected t) :=
  .error state.toBodyPairs state.isKept (window.refusal_eq same expected)

/-! ### Steps and what comes after them -/

variable {f g : β → BodyParser α}

section

variable (state : window.Within kept level view s t)

include state

theorem agree_then {x y} {middle : β → β → View → Prop}
    (first : Agree window BodyPairs (level = ·) middle (x s) (y t))
    (stays : ∀ {a b after}, middle a b after → view.depth ≤ after.depth)
    (rest : ∀ {a b after s t}, window.Within kept level after s t →
      middle a b after → Agree window BodyPairs kept post (f a s) (g b t)) :
    Agree window BodyPairs kept post ((x >>= f) s) ((y >>= g) t) := by
  apply first.bind (fun same => same ▸ state.isKept)
  rintro _ _ _ _ _ _ paired rfl holds
  exact rest ⟨paired, Nat.le_trans state.inside (stays holds), state.isKept⟩ holds

theorem lift_then {step} {middle : β → β → View → Prop}
    (first : Agree window Pairs (level = ·) middle (step s.input) (step t.input))
    (stays : ∀ {a b after}, middle a b after → view.depth ≤ after.depth)
    (rest : ∀ {a b after s t}, window.Within kept level after s t →
      middle a b after → Agree window BodyPairs kept post (f a s) (g b t)) :
    window.AgreeFrom kept post step f g s t :=
  state.agree_then (agree_lift first state.context_eq) stays rest

theorem match_then {γ : Type} {count} {move : (Position → Position) → β → γ} {x y}
    (first : window.Matches level view count move (x s) (y t))
    (rest : ∀ {a b after s t}, window.Within kept level after s t →
      move window.here a = move window.there b → view.Past count after →
      Agree window BodyPairs kept post (f a s) (g b t)) :
    Agree window BodyPairs kept post ((x >>= f) s) ((y >>= g) t) :=
  state.agree_then first (fun holds => Nat.le_of_eq holds.2.1.symm)
    fun state holds => rest state holds.1 holds.2

theorem stay_then {x y} (first : window.Stays level view (x s) (y t))
    (rest : ∀ {a s t}, window.Within kept level view s t →
      Agree window BodyPairs kept post (f a s) (g a t)) :
    Agree window BodyPairs kept post ((x >>= f) s) ((y >>= g) t) := by
  apply state.agree_then first (fun holds => Nat.le_of_eq (congrArg View.depth holds.2))
  rintro _ _ _ _ _ state ⟨rfl, rfl⟩
  exact rest state

theorem peek_then {f g : Token → BodyParser α}
    (rest : ∀ {a b : Token} {s t}, window.Within kept level view s t →
      a.mark window.here = view.head → b.mark window.there = view.head →
      Agree window BodyPairs kept post (f a s) (g b t)) :
    window.AgreeFrom kept post Parser.peek f g s t := by
  apply state.lift_then (Parser.peek_agree state.input state.inside)
    (fun holds => Nat.le_of_eq (congrArg View.depth holds.2))
  rintro _ _ _ _ _ state ⟨⟨first, second⟩, rfl⟩
  exact rest state first second

theorem peekKind_then {f g : TokenKind → BodyParser α}
    (rest : ∀ {s t}, window.Within kept level view s t →
      Agree window BodyPairs kept post (f view.kind s) (g view.kind t)) :
    window.AgreeFrom kept post Parser.peekKind f g s t := by
  apply state.lift_then (Parser.peekKind_agree state.input state.inside)
    (fun holds => Nat.le_of_eq (congrArg View.depth holds.2))
  rintro _ _ _ _ _ state ⟨⟨rfl, rfl⟩, rfl⟩
  exact rest state

theorem next_then {f g : Token → BodyParser α} (inner : view.kind.isInner = true)
    (rest : ∀ {a b : Token} {after s t},
      window.Within kept level after s t → view.Past 1 after → window.SameToken a b →
      Agree window BodyPairs kept post (f a s) (g b t)) :
    window.AgreeFrom kept post Parser.next f g s t := by
  have past := View.past_next rfl inner
  apply state.lift_then (Parser.next_agree state.input state.inside)
    (fun holds => Nat.le_of_eq (past.1.symm.trans (congrArg View.depth holds.2)))
  rintro _ _ _ _ _ state ⟨⟨first, second⟩, rfl⟩
  exact rest state past (first.trans second.symm)

theorem expect_then {f g : Token → BodyParser α} (inner : kind.isInner = true)
    (rest : ∀ {a b after s t},
      window.Within kept level after s t → view.Past 1 after → window.SameToken a b →
      Agree window BodyPairs kept post (f a s) (g b t)) :
    window.AgreeFrom kept post (Parser.expect kind) f g s t := by
  apply state.lift_then (Parser.expect_agree state.input state.inside kind)
    (fun ⟨_, isKind, isNext⟩ => isNext ▸ Nat.le_of_eq (View.past_next isKind inner).1.symm)
  rintro _ _ _ _ _ state ⟨⟨first, second⟩, isKind, rfl⟩
  exact rest state (View.past_next isKind inner) (first.trans second.symm)

theorem openBrace_then {f g : Token → BodyParser α} (rest : ∀ {a b after s t},
      window.Within kept level after s t → view.Opened after → window.SameToken a b →
      Agree window BodyPairs kept post (f a s) (g b t)) :
    window.AgreeFrom kept post (Parser.expect .leftBrace) f g s t := by
  apply state.lift_then (Parser.expect_agree state.input state.inside _)
  · rintro _ _ _ ⟨_, opens, rfl⟩
    have opened := View.opened_next opens
    omega
  · rintro _ _ _ _ _ state ⟨⟨first, second⟩, opens, rfl⟩
    exact rest state (View.opened_next opens) (first.trans second.symm)

theorem accept_then {f g : Bool → BodyParser α} (inner : kind.isInner = true)
    (there : ∀ {after s t}, window.Within kept level after s t →
      view.Past 1 after → Agree window BodyPairs kept post (f true s) (g true t))
    (absent : ∀ {s t}, window.Within kept level view s t →
      Agree window BodyPairs kept post (f false s) (g false t)) :
    window.AgreeFrom kept post (Parser.accept kind) f g s t := by
  apply state.lift_then (Parser.accept_agree state.input state.inside kind)
  · rintro _ _ _ (⟨_, _, isKind, rfl⟩ | ⟨_, _, rfl⟩)
    · exact Nat.le_of_eq (View.past_next isKind inner).1.symm
    · exact Nat.le_refl _
  · rintro _ _ _ _ _ state (⟨rfl, rfl, isKind, rfl⟩ | ⟨rfl, rfl, rfl⟩)
    · exact there state (View.past_next isKind inner)
    · exact absent state

theorem acceptEither_then {f g : Bool → BodyParser α} (inner : kind.isInner = true)
    (rest : ∀ {isThere after s t},
      window.Within kept level after s t → view.Past 0 after →
      Agree window BodyPairs kept post (f isThere s) (g isThere t)) :
    window.AgreeFrom kept post (Parser.accept kind) f g s t :=
  state.accept_then inner (fun state past => rest state (by omega))
    fun state => rest state ⟨rfl, Nat.le_refl _⟩

theorem identifier_then {f g : String × Position → BodyParser α}
    (rest : ∀ {name first second after s t},
      window.Within kept level after s t → view.Past 1 after → window.Same first second →
      Agree window BodyPairs kept post (f (name, first) s) (g (name, second) t)) :
    window.AgreeFrom kept post Parser.identifier f g s t := by
  apply state.match_then (show window.Matches level view 1 (Prod.map id) _ _ from
    agree_lift (Parser.identifier_agree state.input state.inside) state.context_eq)
  rintro ⟨name, first⟩ ⟨_, second⟩ _ _ _ state same past
  obtain ⟨rfl, samePlace⟩ := Prod.mk.inj same
  exact rest state past samePlace

theorem typeName_then {f g : TypeRef → BodyParser α} (rest : ∀ {a b : TypeRef} {after s t},
      window.Within kept level after s t → a.moved window.here = b.moved window.there →
      view.Past 1 after →
      Agree window BodyPairs kept post (f a s) (g b t)) :
    window.AgreeFrom kept post Parser.typeName f g s t :=
  state.match_then (show window.Matches level view 1 TypeRef.moved _ _ from
    agree_lift (Parser.typeName_agree state.input state.inside) state.context_eq) rest

theorem typeAfter_then {f g : Option TypeRef → BodyParser α} (inner : kind.isInner = true)
    (rest : ∀ {a b : Option TypeRef} {after s t},
      window.Within kept level after s t →
      a.map (TypeRef.moved window.here) = b.map (TypeRef.moved window.there) →
      view.Past 0 after → Agree window BodyPairs kept post (f a s) (g b t)) :
    window.AgreeFrom kept post (Parser.typeAfter kind) f g s t :=
  state.match_then
    (show window.Matches level view 0 (fun place => Option.map (TypeRef.moved place)) _ _ from
      agree_lift (Parser.typeAfter_agree state.input state.inside inner) state.context_eq) rest

end

/-! ### Nesting -/

theorem descend_then {f g : Unit → BodyParser α}
    {first second} (state : window.Within (fun _ => True) level view s t)
    (same : window.Same first second)
    (rest : ∀ {level s t}, window.Within (fun _ => True) level view s t →
      Agree window BodyPairs (fun _ => True) post (f () s) (g () t)) :
    Agree window BodyPairs (fun _ => True) post
      (((liftM (Parser.descend first) : BodyParser Unit) >>= f) s)
      (((liftM (Parser.descend second) : BodyParser Unit) >>= g) t) := by
  have descended : Agree window Pairs (fun _ => True) (fun _ _ after => view = after)
      (Parser.descend first s.input) (Parser.descend second t.input) := by
    apply Agree.ofGet
    rw [state.input.first.nesting_eq, state.input.second.nesting_eq]
    split
    · exact .ok state.input.deeper trivial rfl
    · exact .error state.input trivial (congrArg (Diagnostic.mk _) same)
  apply (agree_lift descended state.context_eq).bind id
  rintro _ _ _ _ _ _ paired _ rfl
  exact rest ⟨paired, state.inside, trivial⟩

theorem agree_restoringNesting {x y} (state : window.Within kept level view s t)
    (agree : Agree window BodyPairs (fun _ => True) post (x s) (y t)) :
    Agree window BodyPairs (level = ·) post (restoringNesting x s)
      (restoringNesting y t) := by
  unfold restoringNesting
  rw [state.input.first.nesting_eq, state.input.second.nesting_eq]
  generalize x s = left, y t = right at agree
  cases agree with
  | ok paired _ holds =>
    exact .ok (Window.BodyPairs.mk (paired.input.withNesting level) paired.context_eq) rfl holds
  | error paired _ same =>
    exact .error (Window.BodyPairs.mk (paired.input.withNesting level) paired.context_eq) rfl same

/-! ### The function being parsed -/

section

variable {first second : Position} (state : window.Within kept level view s t)
  (same : window.Same first second)

include state

theorem agree_modifyScopes (change : ScopeChain → ScopeChain) :
    window.Stays level view (modifyScopes change s)
      (modifyScopes change t) := by
  rcases s with ⟨s, context⟩
  rcases t with ⟨t, _⟩
  cases state.context_eq
  exact .ok (state.input.inBody _) rfl ⟨rfl, rfl⟩

include same

theorem agree_allocate (change : Variables → Option Slot × Variables) :
    window.Stays level view (allocate change first s)
      (allocate change second t) := by
  rcases s with ⟨s, function, frame, scopes, callees⟩
  rcases t with ⟨t, _⟩
  cases state.context_eq
  simp only [allocate]
  rcases change frame with ⟨_ | slot, frame⟩
  · exact .error (state.input.inBody _) rfl (congrArg (Diagnostic.mk _) same)
  · exact .ok (state.input.inBody _) rfl ⟨rfl, rfl⟩

theorem agree_temporary : window.Stays level view (temporary first s) (temporary second t) :=
  state.agree_allocate same _

theorem agree_requireFresh (name : String) :
    window.Stays level view (requireFresh name first s)
      (requireFresh name second t) := by
  apply Agree.ofGet
  rw [state.context_eq]
  split
  · exact state.exactly.agree_fail _ same
  · exact state.exactly.agree_pure ⟨rfl, rfl⟩

theorem agree_declare (name : String) (isMutable : Bool) :
    window.Stays level view (declare name isMutable first s)
      (declare name isMutable second t) := by
  apply state.exactly.stay_then (state.agree_requireFresh same name)
  intro _ _ _ state
  apply state.stay_then (state.agree_allocate same _)
  intro slot _ _ state
  apply state.stay_then (state.agree_modifyScopes _)
  intro _ _ _ state
  exact state.agree_pure ⟨rfl, rfl⟩

theorem agree_lookup (name : String) :
    window.Stays level view (lookup name first s) (lookup name second t) := by
  apply Agree.ofGet
  rw [state.context_eq]
  cases t.context.scopes.lookup? name with
  | none => exact state.exactly.agree_fail _ same
  | some slot => exact state.exactly.agree_pure ⟨rfl, rfl⟩

theorem agree_recordCall (name : String) :
    window.Stays level view (recordCall name first s)
      (recordCall name second t) := by
  rcases s with ⟨s, context⟩
  rcases t with ⟨t, _⟩
  cases state.context_eq
  simp only [recordCall]
  cases context.callees.record name with
  | ok recorded => exact .ok (state.input.inBody _) rfl ⟨rfl, rfl⟩
  | error fault => exact .error (state.input.inBody _) rfl (congrArg (Diagnostic.mk _) same)

end

theorem agree_inScope {x y} (locks : Nat) (state : window.Within kept level view s t)
    (agree : ∀ {s t}, window.Within kept level view s t →
      Agree window BodyPairs kept post (x s) (y t)) :
    Agree window BodyPairs kept post (inScope locks x s)
      (inScope locks y t) := by
  rcases s with ⟨s, context⟩
  rcases t with ⟨t, _⟩
  cases state.context_eq
  have enters {input : Input} :
      modifyScopes (ScopeChain.enter · locks) ⟨input, context⟩ =
        .ok () ⟨input, { context with scopes := context.scopes.enter locks }⟩ := rfl
  have entered := agree (Window.Within.mk (state.input.inBody
    { context with scopes := context.scopes.enter locks }) state.inside state.isKept)
  simp only [inScope, enters]
  generalize x _ = left, y _ = right at entered
  cases entered with
  | @ok _ _ _ _ s t paired isKept holds =>
    rcases s with ⟨s, context⟩
    rcases t with ⟨t, _⟩
    cases paired.context_eq
    exact .ok (paired.input.inBody _) isKept holds
  | @error _ _ _ _ s t paired isKept same =>
    rcases s with ⟨s, context⟩
    rcases t with ⟨t, _⟩
    cases paired.context_eq
    exact .error (paired.input.inBody _) isKept same

end Window.Within

end SlotCompiler
