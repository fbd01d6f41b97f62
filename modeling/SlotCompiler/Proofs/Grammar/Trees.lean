import SlotCompiler.Proofs.Grammar.Statement

/-!
Contract: how trees are made of the trees of parts.
-/

namespace SlotCompiler

/-- A part of a function as it is written. -/
inductive WrittenPart where
  | value (written : Expression)
  | members (names : List (String × Position))
  | arguments (values : List Expression)
  | statement (written : Statement)
  | arms (written : Arms)
  | body (statements : List Statement)
  | block (locks : Nat) (statements : List Statement)

/-- A part that stands at some nesting in a function has a tree, and what the function
has collected before it and after it. -/
inductive Builds : WrittenPart → Nat → TreePart → Context → Context → Prop where
  | literal {value nesting context} :
      Builds (.value (.literal value)) nesting (.operand (.literal value)) context context
  | string {raw nesting context} :
      Builds (.value (.string raw)) nesting
        (.operand (.string (String.ofList (BodyParser.decodeEscapes raw.toList)))) context context
  | named {name nesting slot} {context : Context}
      (found : context.scopes.lookup? name = some slot) :
      Builds (.value (.named name)) nesting (.operand (.variable slot)) context context
  | access {name members position nesting source steps} {context after : Context}
      (found : context.scopes.lookup? name = some source)
      (projects : Builds (.members members) nesting (.steps steps) context after) :
      Builds (.value (.access name members position)) nesting
        (.operand (.node (.access { source, steps, position }))) context after
  | call {name arguments position nesting values} {context middle after : Context}
      (gives : Builds (.arguments arguments) nesting (.operands values) context middle)
      (recorded : middle.record? name = some after) :
      Builds (.value (.call name arguments position)) nesting
        (.operand (.call { name, arguments := values, position })) context after
  | group {inner nesting tree context after} (isShallow : nesting < Input.nestingLimit)
      (inside : Builds (.value inner) (nesting + 1) (.operand tree) context after) :
      Builds (.value (.group inner)) nesting (.operand tree) context after
  | binary {operator lhs rhs position nesting left right destination}
      {context middle late after : Context}
      (leftBuilds : Builds (.value lhs) nesting (.operand left) context middle)
      (isShallow : nesting + lhs.spine < Input.nestingLimit)
      (rightBuilds : Builds (.value rhs) (nesting + lhs.spine + 1) (.operand right) middle late)
      (added : late.temporary? = some (destination, after)) :
      Builds (.value (.binary operator lhs rhs position)) nesting
        (.operand (.node (.binary operator left right destination position))) context after
  | noMembers {nesting context} : Builds (.members []) nesting (.steps []) context context
  | moreMembers {member position rest nesting destination steps} {context middle after : Context}
      (added : context.temporary? = some (destination, middle))
      (tail : Builds (.members rest) nesting (.steps steps) middle after) :
      Builds (.members ((member, position) :: rest)) nesting
        (.steps ({ member, destination, field? := none, position } :: steps)) context after
  | noArguments {nesting context} :
      Builds (.arguments []) nesting (.operands []) context context
  | moreArguments {value rest nesting first others context middle after}
      (head : Builds (.value value) nesting (.operand first) context middle)
      (tail : Builds (.arguments rest) nesting (.operands others) middle after) :
      Builds (.arguments (value :: rest)) nesting (.operands (first :: others)) context after
  | declaration {isMutable name declared? value position nesting initial slot}
      {context middle after : Context}
      (valueBuilds : Builds (.value value) nesting (.operand initial) context middle)
      (declared : middle.declare? name isMutable = some (slot, after)) :
      Builds (.statement (.declaration isMutable name declared? value position)) nesting
        (.node (.declaration name slot isMutable declared? initial position)) context after
  | assignment {name value position nesting slot assigned} {context after : Context}
      (found : context.scopes.lookup? name = some slot)
      (valueBuilds : Builds (.value value) nesting (.operand assigned) context after) :
      Builds (.statement (.assignment name value position)) nesting
        (.node (.assignment slot assigned position)) context after
  | memberAssignment {name members member value position nesting source steps assigned}
      {context middle after : Context} (found : context.scopes.lookup? name = some source)
      (projects : Builds (.members members) nesting (.steps steps) context middle)
      (valueBuilds : Builds (.value value) nesting (.operand assigned) middle after) :
      Builds (.statement (.memberAssignment name members member value position)) nesting
        (.node (.memberAssignment { source, steps, position } member none assigned position))
        context after
  | ret {position nesting} {context : Context} :
      Builds (.statement (.ret none position)) nesting
        (.node (.ret none context.scopes.lockDepth position)) context context
  | retValue {value position nesting returned} {context after : Context}
      (valueBuilds : Builds (.value value) nesting (.operand returned) context after) :
      Builds (.statement (.ret (some value) position)) nesting
        (.node (.ret (some returned) after.scopes.lockDepth position)) context after
  | callStatement {name arguments position nesting invoked context after}
      (calls : Builds (.value (.call name arguments position)) nesting (.operand (.call invoked))
        context after) :
      Builds (.statement (.call name arguments position)) nesting (.node (.call invoked))
        context after
  | conditional {arms position nesting conditions blocks context after}
      (armsBuild : Builds (.arms arms) nesting (.arms conditions blocks) context after) :
      Builds (.statement (.conditional arms position)) nesting
        (.node (.conditional conditions blocks position)) context after
  | loop {condition body position nesting test nodes context middle after}
      (tests : Builds (.value condition) nesting (.operand test) context middle)
      (repeats : Builds (.block 0 body) nesting (.block 0 nodes) middle after) :
      Builds (.statement (.loop condition body position)) nesting
        (.node (.loop test nodes position)) context after
  | sync {locks body position nesting found nodes} {context after : Context}
      (areVisible : locksTree? context.scopes locks = some found)
      (distinct : (found.map Lock.slot).Nodup) (few : found.length < 0x10000)
      (guards : Builds (.block found.length body) nesting (.block found.length nodes)
        context after) :
      Builds (.statement (.sync locks body position)) nesting
        (.node (.sync found nodes position)) context after
  | last {condition body nesting test nodes context middle after}
      (tests : Builds (.value condition) nesting (.operand test) context middle)
      (enters : Builds (.block 0 body) nesting (.block 0 nodes) middle after) :
      Builds (.arms (.last condition body)) nesting (.arms [test] [nodes]) context after
  | otherwise {condition body alternative nesting test nodes others context middle late after}
      (tests : Builds (.value condition) nesting (.operand test) context middle)
      (enters : Builds (.block 0 body) nesting (.block 0 nodes) middle late)
      (otherwise : Builds (.block 0 alternative) nesting (.block 0 others) late after) :
      Builds (.arms (.otherwise condition body alternative)) nesting
        (.arms [test] [nodes, others]) context after
  | moreArms {condition body rest nesting test nodes others blocks context middle late after}
      (tests : Builds (.value condition) nesting (.operand test) context middle)
      (enters : Builds (.block 0 body) nesting (.block 0 nodes) middle late)
      (tail : Builds (.arms rest) nesting (.arms others blocks) late after) :
      Builds (.arms (.more condition body rest)) nesting
        (.arms (test :: others) (nodes :: blocks)) context after
  | noStatements {nesting context} : Builds (.body []) nesting (.nodes []) context context
  | moreStatements {written rest nesting node nodes context middle after}
      (head : Builds (.statement written) nesting (.node node) context middle)
      (tail : Builds (.body rest) nesting (.nodes nodes) middle after) :
      Builds (.body (written :: rest)) nesting (.nodes (node :: nodes)) context after
  | block {locks body nesting nodes} {context inner : Context}
      (isShallow : nesting < Input.nestingLimit)
      (inside : Builds (.body body) (nesting + 1) (.nodes nodes)
        (context.withScopes (context.scopes.enter locks)) inner) :
      Builds (.block locks body) nesting (.block locks nodes) context
        (inner.withScopes inner.scopes.leave)

theorem membersTree?_builds {members nesting steps context after}
    (built : membersTree? members context = some (steps, after)) :
    Builds (.members members) nesting (.steps steps) context after := by
  induction members generalizing context steps with
  | nil =>
    cases built
    exact .noMembers
  | cons named rest ih =>
    obtain ⟨_, added, built⟩ := Option.bind_eq_some_iff.mp built
    obtain ⟨_, restBuilt, ⟨⟩⟩ := Option.bind_eq_some_iff.mp built
    exact .moreMembers added (ih restBuilt)

mutual

theorem Expression.builds (value : Expression) {nesting context after tree}
    (built : value.tree? nesting context = some (tree, after)) :
    Builds (.value value) nesting (.operand tree) context after := by
  match value with
  | .literal _ =>
    cases built
    exact .literal
  | .string _ =>
    cases built
    exact .string
  | .named name =>
    obtain ⟨_, found, ⟨⟩⟩ := Option.bind_eq_some_iff.mp built
    exact .named found
  | .access name members position =>
    obtain ⟨_, found, built⟩ := Option.bind_eq_some_iff.mp built
    obtain ⟨_, membersBuilt, ⟨⟩⟩ := Option.bind_eq_some_iff.mp built
    exact .access found (membersTree?_builds membersBuilt)
  | .call name arguments position =>
    obtain ⟨_, argumentsBuilt, built⟩ := Option.bind_eq_some_iff.mp built
    obtain ⟨_, recorded, ⟨⟩⟩ := Option.bind_eq_some_iff.mp built
    exact .call (argumentsTree?_builds arguments argumentsBuilt) recorded
  | .group inner =>
    obtain ⟨isShallow, innerBuilt⟩ := Option.ite_none_right_eq_some.mp built
    exact .group isShallow (inner.builds innerBuilt)
  | .binary operator lhs rhs position =>
    obtain ⟨_, leftBuilt, built⟩ := Option.bind_eq_some_iff.mp built
    obtain ⟨isShallow, built⟩ := Option.ite_none_right_eq_some.mp built
    obtain ⟨_, rightBuilt, built⟩ := Option.bind_eq_some_iff.mp built
    obtain ⟨_, added, ⟨⟩⟩ := Option.bind_eq_some_iff.mp built
    exact .binary (lhs.builds leftBuilt) isShallow (rhs.builds rightBuilt) added

theorem argumentsTree?_builds (values : List Expression) {nesting context after trees}
    (built : argumentsTree? values nesting context = some (trees, after)) :
    Builds (.arguments values) nesting (.operands trees) context after := by
  match values with
  | [] =>
    cases built
    exact .noArguments
  | value :: rest =>
    obtain ⟨_, firstBuilt, built⟩ := Option.bind_eq_some_iff.mp built
    obtain ⟨_, restBuilt, ⟨⟩⟩ := Option.bind_eq_some_iff.mp built
    exact .moreArguments (value.builds firstBuilt) (argumentsTree?_builds rest restBuilt)

end

theorem Context.enclosed?_builds {nesting locks nodes body} {context after : Context}
    (built : context.enclosed? nesting locks (statementsTree? body) = some (nodes, after))
    (insideBuilds : ∀ {opened inner}, statementsTree? body (nesting + 1) opened =
      some (nodes, inner) → Builds (.body body) (nesting + 1) (.nodes nodes) opened inner) :
    Builds (.block locks body) nesting (.block locks nodes) context after := by
  obtain ⟨isShallow, inner, insideBuilt, rfl⟩ := Context.enclosed?_eq_some_iff.mp built
  exact .block isShallow (insideBuilds insideBuilt)

theorem Context.guarded?_builds {nesting condition test nodes body} {context after : Context}
    (built : context.guarded? nesting condition (statementsTree? body) =
      some ((test, nodes), after))
    (insideBuilds : ∀ {opened inner}, statementsTree? body (nesting + 1) opened =
      some (nodes, inner) → Builds (.body body) (nesting + 1) (.nodes nodes) opened inner) :
    ∃ middle, Builds (.value condition) nesting (.operand test) context middle ∧
      Builds (.block 0 body) nesting (.block 0 nodes) middle after := by
  obtain ⟨⟨_, middle⟩, testBuilt, built⟩ := Option.bind_eq_some_iff.mp built
  obtain ⟨_, bodyBuilt, ⟨⟩⟩ := Option.bind_eq_some_iff.mp built
  exact ⟨middle, condition.builds testBuilt, Context.enclosed?_builds bodyBuilt insideBuilds⟩

mutual

theorem Statement.builds (written : Statement) {nesting context after node}
    (built : written.tree? nesting context = some (node, after)) :
    Builds (.statement written) nesting (.node node) context after := by
  match written with
  | .declaration isMutable name declared? value position =>
    obtain ⟨_, valueBuilt, built⟩ := Option.bind_eq_some_iff.mp built
    obtain ⟨_, declared, ⟨⟩⟩ := Option.bind_eq_some_iff.mp built
    exact .declaration (value.builds valueBuilt) declared
  | .assignment name value position =>
    obtain ⟨_, found, built⟩ := Option.bind_eq_some_iff.mp built
    obtain ⟨_, valueBuilt, ⟨⟩⟩ := Option.bind_eq_some_iff.mp built
    exact .assignment found (value.builds valueBuilt)
  | .memberAssignment name members member value position =>
    obtain ⟨_, found, built⟩ := Option.bind_eq_some_iff.mp built
    obtain ⟨_, membersBuilt, built⟩ := Option.bind_eq_some_iff.mp built
    obtain ⟨_, valueBuilt, ⟨⟩⟩ := Option.bind_eq_some_iff.mp built
    exact .memberAssignment found (membersTree?_builds membersBuilt) (value.builds valueBuilt)
  | .ret none position =>
    cases built
    exact .ret
  | .ret (some value) position =>
    obtain ⟨_, valueBuilt, ⟨⟩⟩ := Option.bind_eq_some_iff.mp built
    exact .retValue (value.builds valueBuilt)
  | .call name arguments position =>
    obtain ⟨_, argumentsBuilt, built⟩ := Option.bind_eq_some_iff.mp built
    obtain ⟨_, recorded, ⟨⟩⟩ := Option.bind_eq_some_iff.mp built
    exact .callStatement (.call (argumentsTree?_builds arguments argumentsBuilt) recorded)
  | .conditional arms position =>
    obtain ⟨_, armsBuilt, ⟨⟩⟩ := Option.bind_eq_some_iff.mp built
    exact .conditional (arms.builds armsBuilt)
  | .loop condition body position =>
    obtain ⟨_, loopBuilt, ⟨⟩⟩ := Option.bind_eq_some_iff.mp built
    obtain ⟨_, tests, repeats⟩ := Context.guarded?_builds loopBuilt (statementsTree?_builds body)
    exact .loop tests repeats
  | .sync locks body position =>
    obtain ⟨_, areVisible, built⟩ := Option.bind_eq_some_iff.mp built
    obtain ⟨⟨distinct, few⟩, built⟩ := Option.ite_none_right_eq_some.mp built
    obtain ⟨_, bodyBuilt, ⟨⟩⟩ := Option.bind_eq_some_iff.mp built
    exact .sync areVisible distinct few
      (Context.enclosed?_builds bodyBuilt (statementsTree?_builds body))

theorem Arms.builds (written : Arms) {nesting context after conditions blocks}
    (built : written.tree? nesting context = some ((conditions, blocks), after)) :
    Builds (.arms written) nesting (.arms conditions blocks) context after := by
  match written with
  | .last condition body =>
    obtain ⟨_, armBuilt, ⟨⟩⟩ := Option.bind_eq_some_iff.mp built
    obtain ⟨_, tests, enters⟩ := Context.guarded?_builds armBuilt (statementsTree?_builds body)
    exact .last tests enters
  | .otherwise condition body alternative =>
    obtain ⟨_, armBuilt, built⟩ := Option.bind_eq_some_iff.mp built
    obtain ⟨_, otherBuilt, ⟨⟩⟩ := Option.bind_eq_some_iff.mp built
    obtain ⟨_, tests, enters⟩ := Context.guarded?_builds armBuilt (statementsTree?_builds body)
    exact .otherwise tests enters
      (Context.enclosed?_builds otherBuilt (statementsTree?_builds alternative))
  | .more condition body rest =>
    obtain ⟨_, armBuilt, built⟩ := Option.bind_eq_some_iff.mp built
    obtain ⟨_, restBuilt, ⟨⟩⟩ := Option.bind_eq_some_iff.mp built
    obtain ⟨_, tests, enters⟩ := Context.guarded?_builds armBuilt (statementsTree?_builds body)
    exact .moreArms tests enters (rest.builds restBuilt)

theorem statementsTree?_builds (body : List Statement) {nesting context after nodes}
    (built : statementsTree? body nesting context = some (nodes, after)) :
    Builds (.body body) nesting (.nodes nodes) context after := by
  match body with
  | [] =>
    cases built
    exact .noStatements
  | written :: rest =>
    obtain ⟨_, firstBuilt, built⟩ := Option.bind_eq_some_iff.mp built
    obtain ⟨_, restBuilt, ⟨⟩⟩ := Option.bind_eq_some_iff.mp built
    exact .moreStatements (written.builds firstBuilt) (statementsTree?_builds rest restBuilt)

end

/-! ## Reading -/

theorem locksTree?_names {scopes locks found} (built : locksTree? scopes locks = some found) :
    found.map Lock.name = locks.map WrittenLock.name ∧
      ∀ lock ∈ found, scopes.lookup? lock.name = some lock.slot := by
  induction locks generalizing found with
  | nil =>
    cases built
    exact ⟨rfl, fun _ member => absurd member List.not_mem_nil⟩
  | cons lock rest ih =>
    obtain ⟨slot, isVisible, built⟩ := Option.bind_eq_some_iff.mp built
    obtain ⟨others, othersBuilt, ⟨⟩⟩ := Option.bind_eq_some_iff.mp built
    obtain ⟨namesEq, othersVisible⟩ := ih othersBuilt
    refine ⟨by rw [List.map_cons, List.map_cons, namesEq], ?_⟩
    exact List.forall_mem_cons.mpr ⟨isVisible, othersVisible⟩

/-- What has a tree was read. -/
theorem Builds.reads {part nesting tree context after}
    (builds : Builds part nesting tree context after) : Reads tree context after := by
  induction builds with
  | literal => exact .literal
  | string => exact .string
  | named found => exact .visible found
  | access found _ projected => exact .access found projected
  | call _ recorded given => exact .call given (Context.record?_eq_some_iff.mp recorded)
  | group _ _ inner => exact inner
  | binary _ _ _ added left right =>
    exact .binary left right (Context.temporary?_eq_some_iff.mp added)
  | noMembers => exact .noSteps
  | moreMembers added _ tail => exact .moreSteps (Context.temporary?_eq_some_iff.mp added) tail
  | noArguments => exact .noOperands
  | moreArguments _ _ head tail => exact .moreOperands head tail
  | declaration _ declared initial =>
    exact .declaration initial (Context.declare?_eq_some_iff.mp declared)
  | assignment found _ assigned => exact .assignment found assigned
  | memberAssignment found _ _ projected assigned =>
    exact .memberAssignment found projected assigned
  | ret => exact .ret
  | retValue _ returned => exact .retValue returned
  | callStatement _ invoked => exact .callStatement invoked
  | conditional _ arms => exact .conditional arms
  | loop _ _ tested repeated => exact .loop tested repeated
  | sync areVisible distinct few _ guarded =>
    exact .sync (locksTree?_names areVisible).2 distinct few guarded
  | last _ _ tested entered => exact .arm tested entered .noAlternative
  | otherwise _ _ _ tested entered other => exact .arm tested entered (.alternative other)
  | moreArms _ _ _ tested entered rest => exact .arm tested entered rest
  | noStatements => exact .noNodes
  | moreStatements _ _ head tail => exact .moreNodes head tail
  | block _ _ inside => exact .block inside

end SlotCompiler
