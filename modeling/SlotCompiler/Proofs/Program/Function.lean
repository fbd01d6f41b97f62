import SlotCompiler.Proofs.Emission.ControlFlow
import SlotCompiler.Proofs.Emission.Layout
import SlotCompiler.Proofs.Emission.Stock
import SlotCompiler.Proofs.Program.TypeDecision

/-!
Contract: what compiling one function gives.
-/

namespace SlotCompiler

variable {types : TypeTable} {item : FunctionItem} {typed : TypedFunction} {entered left : Context}

/-! ## Types -/

/-- A typed function whose body was read from one context to another. -/
structure TypedFunction.Fits (typed : TypedFunction) (types : TypeTable)
    (entered left : Context) : Prop where
  body : Reads (.nodes typed.body) entered left
  checked : Checked ⟨types, typed.returnType?⟩ typed.frame (.nodes typed.body)
  size_eq : typed.frame.size = left.frame.size
  allTyped : ∀ slot, slot.toNat < typed.frame.size → ∃ type, typed.frame.typeOf? slot = some type
  returns : typed.returnType?.isSome → blockAlwaysReturns typed.body = true

private theorem requireReturn_ok {function returnType?}
    (ok : requireReturn function returnType? = .ok ()) (hasResult : returnType?.isSome) :
    blockAlwaysReturns function.body = true := by
  unfold requireReturn at ok
  split at ok
  · contradiction
  · rename_i isReturning
    simpa [hasResult] using isReturning

theorem typeFunction_ok (ok : typeFunction types item = .ok typed) :
    ∃ parameters returnType? frame,
      typeParameters ⟨types, none⟩ item.parameters item.frame #[] = .ok (parameters, frame) ∧
      (resolveBlock ⟨types, returnType?⟩ item.body frame).outcome = .ok () ∧
      requireReturn item returnType? = .ok () ∧
      typed = ⟨parameters, returnType?, (resolveBlock ⟨types, returnType?⟩ item.body frame).tree,
        (resolveBlock ⟨types, returnType?⟩ item.body frame).frame⟩ := by
  obtain ⟨⟨parameters, frame⟩, parametersOk, ok⟩ := except_bind_eq_ok_iff.mp ok
  obtain ⟨returnType?, _, ok⟩ := except_bind_eq_ok_iff.mp ok
  obtain ⟨_, bodyOk, ok⟩ := except_bind_eq_ok_iff.mp ok
  obtain ⟨_, returnsOk, ok⟩ := except_bind_eq_ok_iff.mp ok
  cases ok
  exact ⟨parameters, returnType?, frame, parametersOk, bodyOk, returnsOk, rfl⟩

theorem typeFunction_resolved (read : item.WasRead entered left)
    (ok : typeFunction types item = .ok typed) :
    item.Resolved ⟨types, typed.returnType?⟩ typed.body typed.frame ∧
      requireReturn item typed.returnType? = .ok () := by
  obtain ⟨_, returnType?, _, parametersOk, bodyOk, returnsOk, rfl⟩ := typeFunction_ok ok
  obtain ⟨given, rfl⟩ := typeParameters_eq_giveTypes parametersOk
  exact ⟨read.resolved bodyOk, returnsOk⟩

theorem typeFunction_fits (read : item.WasRead entered left)
    (ok : typeFunction types item = .ok typed) : typed.Fits types entered left := by
  obtain ⟨resolved, returnsOk⟩ := typeFunction_resolved read ok
  refine ⟨resolved.reads read, resolved.checked read, ?_, ?_, ?_⟩
  · rw [resolved.size_eq, read.frame]
  · exact fun slot inFrame => ⟨_, resolved.known slot inFrame⟩
  · intro hasResult
    rw [resolved.body_eq, blockAlwaysReturns_numbered]
    exact requireReturn_ok returnsOk hasResult

theorem TypedFunction.Fits.stock_bounded (fits : typed.Fits types entered left)
    (read : item.WasRead entered left) : Stock.Bounded ⟨typed.frame, #[]⟩ where
  frame_le := by
    rw [fits.size_eq, ← read.frame]
    exact read.frame_size_le
  constants_le := Nat.zero_le _

/-! ## Code -/

def emittedFrame (types : TypeTable) (item : FunctionItem) : Except Diagnostic Variables := do
  let typed ← typeFunction types item
  match emitFunction item.name typed.body typed.returnType? ⟨.empty, typed.frame⟩ with
  | .error fault _ => .error fault
  | .ok _ state => .ok state.frame

/-- The return that ends a function without a result. -/
def closing (returnType? : Option TypeId) : List Instruction :=
  if returnType?.isNone then [.ret] else []

theorem emitFunction_ok {name body returnType? start finish}
    (ran : emitFunction name body returnType? start = .ok () finish) :
    ∃ code, Emits (.nodes body) start.stock code finish.stock ∧
      Appends (code ++ closing returnType?) start finish := by
  obtain ⟨_, state, bodyRan, ran⟩ := bind_eq_ok_iff.mp ran
  obtain ⟨code, emitted, appended⟩ := emitNodes_ok name body bodyRan
  cases returnType? with
  | none =>
    obtain ⟨closed, kept⟩ := Emit.instruction_ok ran
    rw [← kept] at emitted
    exact ⟨code, emitted, appended.trans closed⟩
  | some type =>
    cases ran
    refine ⟨code, emitted, ?_⟩
    rw [closing, if_neg (by simp), List.append_nil]
    exact appended

/-- How a function came about: its typed form, its code, and what emission used
up. -/
structure FunctionCode.ComesFrom (function : FunctionCode) (types : TypeTable)
    (item : FunctionItem) (typed : TypedFunction) (code : List Instruction) (finish : Stock) :
    Prop where
  typedOk : typeFunction types item = .ok typed
  emitted : Emits (.nodes typed.body) ⟨typed.frame, #[]⟩ code finish
  words_eq : function.code.toList = encode (code ++ closing typed.returnType?)
  constants_eq : function.constants = finish.constants
  frameSize_eq : function.frameSize = finish.frame.size
  returnType?_eq : function.returnType? = typed.returnType?
  emittedFrame_eq : emittedFrame types item = .ok finish.frame

theorem compileFunction_comesFrom {layer function}
    (ok : compileFunction types item layer = .ok function) :
    ∃ typed code finish, function.ComesFrom types item typed code finish := by
  obtain ⟨typed, typedOk, ok⟩ := except_bind_eq_ok_iff.mp ok
  cases emission : emitFunction item.name typed.body typed.returnType? ⟨.empty, typed.frame⟩ with
  | error fault state =>
    simp only [emission] at ok
    contradiction
  | ok _ state =>
    simp only [emission] at ok
    cases ok
    obtain ⟨code, emitted, appended⟩ := emitFunction_ok emission
    have emittedFrameEq : emittedFrame types item = .ok state.frame := by
      unfold emittedFrame
      rw [typedOk]
      show (match emitFunction item.name typed.body typed.returnType? ⟨.empty, typed.frame⟩ with
        | .error fault _ => .error fault
        | .ok _ state => .ok state.frame) = Except.ok state.frame
      rw [emission]
    exact ⟨typed, code, state.stock, typedOk, emitted, appended, rfl, rfl, rfl, emittedFrameEq⟩

end SlotCompiler
