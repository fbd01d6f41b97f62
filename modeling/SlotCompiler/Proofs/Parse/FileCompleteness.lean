import SlotCompiler.Proofs.Parse.FileSoundness
import SlotCompiler.Proofs.Parse.StatementCompleteness

/-!
Contract: every file of the grammar that keeps its conditions is parsed.
-/

namespace SlotCompiler

variable {typeTokens : List Token} {left : Ahead} {closing : Token}

namespace Parser

variable {fuel nesting : Nat} {rest : List Token}

variable {given : Array FieldDeclaration} {seen : Std.HashSet String} {tokens : List Token}

/-! ## Structs -/

theorem takes_field_then {all} {token : Token} {name type}
    (isName : token.content = .identifier name)
    (typed : DerivesType .colon (some type) typeTokens) (isNew : ¬ seen.contains name)
    (following : Takes Input.ahead (do
        if ← accept .comma then
          structFields fuel (given.push ⟨name, type⟩) (seen.insert name)
        else
          let _ ← expect .rightBrace
          return given.push ⟨name, type⟩) ⟨rest, nesting⟩ all left) :
    Takes Input.ahead (structFields (fuel + 1) given seen)
      ⟨token :: (typeTokens ++ rest), nesting⟩ all left := by
  have notClosing : nextKind (token :: (typeTokens ++ rest)) ≠ .rightBrace := by
    rw [nextKind_cons, Token.kind, isName]
    show TokenKind.identifier ≠ .rightBrace
    decide
  rw [structFields]
  refine (takes_accept_other notClosing nesting).bind ?_
  refine (takes_identifier isName _ nesting).bind ?_
  simp only [if_neg isNew]
  cases typed with
  | present isColon isType =>
    refine (takes_expect isColon _ nesting).bind ?_
    exact (takes_typeName isType rest nesting).bind following

theorem takes_structFields {fields} (derives : DerivesFields fields tokens)
    (isSeen : SeenFields given.toList seen)
    (distinct : ((given.toList ++ fields).map FieldDeclaration.name).Nodup)
    (closes : closing.kind = .rightBrace) (enough : (tokens ++ closing :: rest).length ≤ fuel) :
    Takes Input.ahead (structFields fuel given seen) ⟨tokens ++ closing :: rest, nesting⟩
      (given.toList ++ fields).toArray ⟨rest, nesting⟩ := by
  have isNew {name : String} {type : TypeRef} {others : List FieldDeclaration}
      {before : Array FieldDeclaration} {known : Std.HashSet String}
      (isKnown : SeenFields before.toList known)
      (different : ((before.toList ++ ⟨name, type⟩ :: others).map
        FieldDeclaration.name).Nodup) : ¬ known.contains name := by
    rw [isKnown.contains_iff]
    rw [List.map_append, List.nodup_append] at different
    intro member
    exact different.2.2 name member name List.mem_cons_self rfl
  induction derives generalizing given seen fuel with
  | none =>
    obtain _ | fuel := fuel
    · simp at enough
    rw [structFields, List.append_nil, Array.toArray_toList]
    exact (takes_accept closes rest nesting).bind (takes_pure _ _)
  | last isName typed =>
    obtain _ | fuel := fuel
    · simp at enough
    refine takes_field_then isName typed (isNew isSeen distinct) ?_
    have notComma : nextKind (closing :: rest) ≠ .comma := by
      rw [nextKind_cons, closes]
      decide
    refine (takes_accept_other notComma nesting).bind ?_
    rw [← Array.toList_push, Array.toArray_toList]
    exact (takes_expect closes rest nesting).bind (takes_pure _ _)
  | @more _ _ name type others _ _ isName typed isComma _ ih =>
    obtain _ | fuel := fuel
    · simp at enough
    simp only [List.cons_append, List.append_assoc, List.length_cons, List.length_append]
      at enough ⊢
    have fresh := isNew isSeen distinct
    refine takes_field_then isName typed fresh ?_
    refine (takes_accept isComma _ nesting).bind ?_
    rw [← toList_push_append given ⟨name, type⟩ others] at distinct ⊢
    refine ih ?_ distinct ?_
    · rw [Array.toList_push]
      exact isSeen.insert fresh _
    · simp only [List.length_append, List.length_cons]
      omega

theorem takes_structItem {item} (derives : DerivesItem (.struct item) tokens)
    (distinct : (item.fields.map FieldDeclaration.name).Nodup)
    (enough : (tokens ++ rest).length ≤ fuel) :
    Takes Input.ahead (structItem fuel) ⟨tokens ++ rest, nesting⟩ item ⟨rest, nesting⟩ := by
  cases derives with
  | @struct keyword _ _ _ name fields _ isStruct isName opens listed closes =>
    simp only [List.cons_append, List.append_assoc, List.nil_append, List.length_cons] at enough ⊢
    refine (takes_expect isStruct _ nesting).bind ?_
    refine (takes_identifier isName _ nesting).bind ?_
    refine (takes_expect opens _ nesting).bind ?_
    refine (takes_structFields listed seenFields_nil distinct closes (by omega)).bind ?_
    exact takes_pure _ _

end Parser

/-! ## Functions -/

theorem DerivesName.nextKind_mem {isMutable name tokens}
    (derives : DerivesName isMutable name tokens) (rest : List Token) :
    nextKind (tokens ++ rest) ∈ [TokenKind.identifier, .mutKw] := by
  cases derives with
  | plain isName =>
    rw [List.singleton_append, nextKind_cons, Token.kind, isName]
    exact List.mem_cons_self
  | mutable isMut =>
    rw [List.cons_append, nextKind_cons, isMut]
    decide

namespace BodyParser

variable {written : List WrittenParameter}

variable {given : Array Parameter}

variable {fuel nesting : Nat} {tokens rest : List Token}

theorem gives_parameter_then {name isMutable type}
    {build : Slot → Building (Array Parameter)} (named : DerivesName isMutable name tokens)
    (typed : DerivesType .colon (some type) typeTokens)
    (following : ∀ slot, Gives (do
        if ← Parser.accept .comma then
          parameterList fuel (given.push ⟨name, slot, isMutable, type⟩)
        else
          let _ ← Parser.expect .rightParen
          return given.push ⟨name, slot, isMutable, type⟩) ⟨rest, nesting⟩ (build slot) left) :
    Gives (parameterList (fuel + 1) given) ⟨tokens ++ (typeTokens ++ rest), nesting⟩
      (.declare name isMutable >>= build) left := by
  have .present isColon isType := typed
  rw [parameterList]
  refine gives_name_then named fun position => ?_
  refine gives_after (Parser.takes_expect isColon _ nesting) ?_
  refine gives_after (Parser.takes_typeName isType rest nesting) ?_
  exact (gives_declare name isMutable position _).bind following

theorem gives_parameterList (derives : DerivesParameters written tokens) (atLeastOne : written ≠ [])
    (closes : closing.kind = .rightParen) (enough : tokens.length ≤ fuel) :
    Gives (parameterList fuel given) ⟨tokens ++ closing :: rest, nesting⟩
      (return (given.toList ++ (← parametersBuild written)).toArray) ⟨rest, nesting⟩ := by
  induction derives generalizing given fuel with
  | none => contradiction
  | last named typed =>
    have positive := named.length_pos
    rw [List.length_append] at enough
    obtain _ | fuel := fuel
    · omega
    rw [List.append_assoc]
    simp only [parametersBuild, bind_assoc, pure_bind]
    refine gives_parameter_then named typed fun slot => ?_
    have notComma : nextKind (closing :: rest) ≠ .comma := by
      rw [nextKind_cons, closes]
      decide
    rw [← Array.toList_push, Array.toArray_toList]
    refine gives_after (Parser.takes_accept_other notComma nesting) ?_
    exact gives_after (Parser.takes_expect closes rest nesting) (gives_pure _ _)
  | more named typed isComma _ ih =>
    have positive := named.length_pos
    simp only [List.length_append, List.length_cons] at enough
    obtain _ | fuel := fuel
    · omega
    rw [List.append_assoc, List.append_assoc, parametersBuild]
    simp only [bind_assoc, pure_bind]
    refine gives_parameter_then named typed fun slot => ?_
    simp only [← toList_push_append]
    refine gives_after (Parser.takes_accept isComma _ nesting) ?_
    exact ih (List.cons_ne_nil _ _) (by omega)

theorem gives_parameters_then {α : Type} {next : Array Parameter → BodyParser α}
    {build : List Parameter → Building α} (derives : DerivesParameters written tokens)
    (closes : closing.kind = .rightParen) (enough : tokens.length ≤ fuel)
    (following : ∀ parameters : List Parameter,
      Gives (next parameters.toArray) ⟨rest, nesting⟩ (build parameters) left) :
    Gives (do
        let isClosed ← (liftM (Parser.accept .rightParen) : BodyParser Bool)
        let parameters ← if isClosed then pure #[] else parameterList fuel #[]
        next parameters) ⟨tokens ++ closing :: rest, nesting⟩ (parametersBuild written >>= build)
      left := by
  by_cases isNone : written = []
  · subst isNone
    cases derives
    refine gives_after (Parser.takes_accept closes rest nesting) ?_
    exact (gives_pure _ _).after (following [])
  · have notClosed : nextKind (tokens ++ closing :: rest) ≠ .rightParen := by
      intro isClosing
      cases derives with
      | none => contradiction
      | last named | more named =>
        rw [List.append_assoc] at isClosing
        exact absurd (isClosing ▸ named.nextKind_mem _) (by decide)
    refine gives_after (Parser.takes_accept_other notClosed nesting) ?_
    exact (gives_parameterList derives isNone closes enough).bind_form following

theorem gives_signatureAfter (name : String) (position : Position) {returnType?}
    {opening brace : Token} (opens : opening.kind = .leftParen)
    (listed : DerivesParameters written tokens) (closes : closing.kind = .rightParen)
    (returned : DerivesType .arrow returnType? typeTokens) (isBrace : brace.kind = .leftBrace)
    (enough : tokens.length ≤ fuel) :
    Gives (signatureAfter fuel name position)
      ⟨opening :: (tokens ++ closing :: (typeTokens ++ brace :: rest)), nesting⟩
      (return ⟨name, position, ← parametersBuild written, returnType?⟩) ⟨rest, nesting⟩ := by
  have notArrow : nextKind (brace :: rest) ≠ .arrow := by
    rw [nextKind_cons, isBrace]
    decide
  refine gives_after (Parser.takes_expect opens _ nesting) ?_
  refine gives_parameters_then listed closes enough fun parameters => ?_
  refine gives_after (Parser.takes_typeAfter returned notArrow nesting) ?_
  exact gives_after (Parser.takes_expect isBrace rest nesting) (gives_pure _ _)

end BodyParser

namespace Parser

variable {cause : Cause}

variable {input : Input}

variable {fuel nesting : Nat} {tokens rest : List Token}

section Signature

variable {name : String} {position : Position} {written : List WrittenParameter}
  {returnType? : Option TypeRef} {brace : Token}

theorem takes_signature {parameters entered}
    (headed : DerivesHeader name written returnType? position tokens)
    (isBrace : brace.kind = .leftBrace)
    (built : parametersBuild written (.initial name) = .ok (parameters, entered))
    (enough : tokens.length ≤ fuel) :
    Takes Input.ahead (signature fuel) ⟨tokens ++ brace :: rest, nesting⟩
      (⟨name, position, parameters, returnType?⟩, entered) ⟨rest, nesting⟩ := by
  cases headed with
  | @mk keyword _ _ _ _ _ _ _ _ isFunction isName opens listed closes returned =>
    simp only [List.cons_append, List.append_assoc, List.length_cons, List.length_append]
      at enough ⊢
    refine (takes_expect isFunction _ nesting).bind ?_
    refine (takes_identifier isName _ nesting).bind ?_
    intro input isBefore
    obtain ⟨⟨last, left⟩, ran, isAfter⟩ :=
      (BodyParser.gives_signatureAfter name keyword.position opens listed closes returned
        isBrace (by omega : _ ≤ fuel)).takes (Building.bind_of_ok built) ⟨input, .initial name⟩
        (congrArg (·, _) isBefore)
    obtain ⟨aheadEq, rfl⟩ := Prod.mk.inj isAfter
    refine ⟨last, ?_, aheadEq⟩
    simp only [ran]

theorem refuses_signature (headed : DerivesHeader name written returnType? position tokens)
    (isBrace : brace.kind = .leftBrace)
    (failed : parametersBuild written (.initial name) = .error cause)
    (enough : tokens.length ≤ fuel) :
    Refuses Input.ahead (signature fuel) ⟨tokens ++ brace :: rest, nesting⟩ cause := by
  cases headed with
  | @mk keyword _ _ _ _ _ _ _ _ isFunction isName opens listed closes returned =>
    simp only [List.cons_append, List.append_assoc, List.length_cons, List.length_append]
      at enough ⊢
    intro input isBefore
    obtain ⟨afterKeyword, keywordRan, isAfterKeyword⟩ :=
      takes_expect isFunction _ nesting input isBefore
    obtain ⟨afterName, nameRan, isAfterName⟩ :=
      takes_identifier isName _ nesting afterKeyword isAfterKeyword
    obtain ⟨fault, ⟨last, left⟩, ran, isCause⟩ :=
      (BodyParser.gives_signatureAfter name keyword.position opens listed closes returned
        isBrace (by omega : _ ≤ fuel)).refuses (Building.bind_of_error failed)
        ⟨afterName, .initial name⟩ (congrArg (·, _) isAfterName)
    refine ⟨fault, last, ?_, isCause⟩
    refine bind_eq_error_iff.mpr (.inr ⟨_, _, keywordRan, ?_⟩)
    refine bind_eq_error_iff.mpr (.inr ⟨_, _, nameRan, ?_⟩)
    simp only [ran]

end Signature

theorem function_of_body_fault {started signature context fault last}
    (signatureRan : Parser.signature fuel input = .ok (signature, context) started)
    (failed : BodyParser.statements fuel #[] ⟨started, context⟩ = .error fault last) :
    function fuel input = .ok (functionItem signature [] last.context true, some fault)
      (last.input.skipOutOf started.depth) := by
  refine bind_eq_ok_iff.mpr ⟨_, started, signatureRan, ?_⟩
  simp only [functionBody, failed]

section Function

variable {written : WrittenFunction} {parameters : List Parameter} {entered : Context}
  (derives : DerivesItem (.function written) tokens)

include derives

theorem refuses_function
    (failed : parametersBuild written.parameters (.initial written.name) = .error cause)
    (enough : 4 * (tokens ++ rest).length + 3 ≤ fuel) :
    Refuses Input.ahead (function fuel) ⟨tokens ++ rest, 0⟩ cause := by
  cases derives with
  | function headed braced =>
    cases braced with
    | block opens =>
      simp only [List.cons_append, List.append_assoc] at enough ⊢
      rw [List.length_append] at enough
      intro input isBefore
      obtain ⟨fault, later, ran, isCause⟩ :=
        refuses_signature headed opens failed (by omega : _ ≤ fuel) input isBefore
      exact ⟨fault, later, bind_eq_error_iff.mpr (.inl ran), isCause⟩

variable (built : parametersBuild written.parameters (.initial written.name) =
  .ok (parameters, entered))

include built

theorem takes_function {nodes left}
    (bodyBuilt : statementsBuild written.body 0 entered = .ok (nodes, left))
    (enough : 4 * (tokens ++ rest).length + 3 ≤ fuel) :
    Takes Input.ahead (function fuel) ⟨tokens ++ rest, 0⟩
      (functionItem ⟨written.name, written.position, parameters, written.returnType?⟩ nodes left
        false, none) ⟨rest, 0⟩ := by
  have .function headed braced := derives
  have .block opens inside closes := braced
  simp only [List.cons_append, List.append_assoc, List.nil_append] at enough ⊢
  rw [List.length_append, List.length_cons] at enough
  refine (takes_signature headed opens built (by omega)).bind ?_
  intro input isBefore
  have given := @DerivesStatement.isRead _ _ inside fuel 0 _ rest #[] closes (by omega)
  obtain ⟨⟨last, found⟩, ran, isAfter⟩ :=
    given.takes (Building.bind_of_ok bodyBuilt) ⟨input, entered⟩ (congrArg (·, _) isBefore)
  obtain ⟨aheadEq, rfl⟩ := Prod.mk.inj isAfter
  refine ⟨last, ?_, aheadEq⟩
  simp only [functionBody, ran]
  rfl

theorem function_of_refused {cause} {input : Input}
    (failed : statementsBuild written.body 0 entered = .error cause)
    (isBefore : input.ahead = ⟨tokens ++ rest, 0⟩)
    (enough : 4 * (tokens ++ rest).length + 3 ≤ fuel) :
    ∃ item fault later, function fuel input = .ok (item, some fault) later ∧
      item.isBroken = true ∧ fault.cause = cause := by
  have .function headed braced := derives
  have .block opens inside closes := braced
  simp only [List.cons_append, List.append_assoc, List.nil_append] at isBefore enough
  rw [List.length_append, List.length_cons] at enough
  obtain ⟨started, signatureRan, isStarted⟩ :=
    takes_signature headed opens built (by omega : _ ≤ fuel) input isBefore
  have given := @DerivesStatement.isRead _ _ inside fuel 0 _ rest #[] closes (by omega)
  obtain ⟨fault, last, ran, isCause⟩ :=
    given.refuses (Building.bind_of_error failed) ⟨started, entered⟩
      (congrArg (·, entered) isStarted)
  exact ⟨_, fault, _, function_of_body_fault signatureRan ran, rfl, isCause⟩

end Function

end Parser

/-! ## Files -/

def WrittenItem.keyword : WrittenItem → TokenKind
  | .struct _ => .structKw
  | .function _ => .fnKw

theorem DerivesItem.nextKind_eq {item tokens} (derives : DerivesItem item tokens)
    (rest : List Token) : nextKind (tokens ++ rest) = item.keyword := by
  cases derives with
  | struct isStruct => exact isStruct
  | function headed =>
    cases headed with
    | mk isFunction => exact isFunction

namespace Input

variable {parsed : ParsedFile} {input : Input} {budget fuel : Nat} {tokens rest : List Token}

variable {file : File}

theorem itemOrRecover_takes {α : Type} {step} {add : ParsedFile → α → ParsedFile}
    {value before after} (takes : Takes Input.ahead step before value after)
    (isBefore : input.ahead = before) :
    (itemOrRecover step add parsed input).1 = add parsed value ∧
      (itemOrRecover step add parsed input).2.ahead = after := by
  obtain ⟨later, stepRan, isAfter⟩ := takes input isBefore
  simp only [itemOrRecover, stepRan]
  exact ⟨trivial, isAfter⟩

theorem oneItem_of_derives {item} (derives : DerivesItem item tokens)
    (isBefore : input.ahead = ⟨tokens ++ rest, 0⟩) (added : parsed.file.add? item = some file)
    (enough : 4 * (tokens ++ rest).length + 3 ≤ budget) :
    (oneItem budget item.keyword parsed input).1 = ⟨file, parsed.faults⟩ ∧
      (oneItem budget item.keyword parsed input).2.ahead = ⟨rest, 0⟩ := by
  cases item with
  | struct item =>
    obtain ⟨distinct, fileEq⟩ := Option.ite_none_right_eq_some.mp added
    cases fileEq
    rw [oneItem, WrittenItem.keyword, if_pos rfl]
    exact itemOrRecover_takes (Parser.takes_structItem derives distinct (by omega)) isBefore
  | function written =>
    obtain ⟨item, built, fileEq⟩ := Option.bind_eq_some_iff.mp added
    cases fileEq
    rw [oneItem, WrittenItem.keyword, if_neg nofun, if_pos rfl]
    obtain ⟨parameters, entered, nodes, left, parametersBuilt, bodyBuilt, rfl⟩ :=
      WrittenFunction.tree?_eq_some.mp built
    have takes := Parser.takes_function derives (parametersBuild_of_built parametersBuilt)
      (statementsTree?_builds _ bodyBuilt).gives enough
    exact itemOrRecover_takes takes isBefore

theorem itemsWithin_of_derives {items} (derives : DerivesItems items tokens)
    (isBefore : input.ahead = ⟨tokens, 0⟩) (built : items.foldlM File.add? parsed.file = some file)
    (enough : 4 * tokens.length + 3 ≤ budget) (rounds : tokens.length < fuel) :
    (itemsWithin budget fuel parsed input).1 = ⟨file, parsed.faults⟩ := by
  induction derives generalizing parsed input fuel with
  | none =>
    obtain _ | fuel := fuel
    · omega
    cases built
    have isEnd : input.peek.1.kind = .endOfFile := by
      rw [peek_kind, isBefore]
      rfl
    rw [itemsWithin_succ, if_pos isEnd]
  | @more item items tokens others first _ ih =>
    obtain _ | fuel := fuel
    · omega
    rw [List.foldlM_cons] at built
    obtain ⟨middle, added, restBuilt⟩ := Option.bind_eq_some_iff.mp built
    have kindEq : input.peek.1.kind = item.keyword := by
      rw [peek_kind, isBefore]
      exact first.nextKind_eq others
    have notEnd : item.keyword ≠ .endOfFile := by
      cases item with
      | struct | function => exact nofun
    obtain ⟨parsedEq, aheadEq⟩ := oneItem_of_derives first
      ((peek_ahead input).trans isBefore) added enough
    have positive := first.length_pos
    rw [List.length_append] at enough rounds
    rw [itemsWithin_succ, kindEq, if_neg notEnd]
    rw [ih aheadEq (parsedEq ▸ restBuilt) (by omega) (by omega), parsedEq]

end Input

end SlotCompiler
