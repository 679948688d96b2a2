import FlatCode.Proofs.Convention
import FlatCode.Proofs.Typing.Reference

/-! Functions that would return an object in a register. Calls of them are refused, and so are the
returns that have to make up a value: a bare `return`, the end of a body, a landing pad that has no
handler. A `return` of a value is not checked, so the address of the object is returned. -/
namespace FlatCode
open Code Symbols Ast

namespace Lower
variable {env : Env} {symbol : FunctionSymbol} {ty : Ty}

structure ReturnsObject (table : SymbolTable) (symbol : FunctionSymbol) (ty : Ty) : Prop where
  code : table.codeType symbol.returnType = .ok ty
  aggregate : ty.isAggregate

namespace ReturnsObject

theorem isVoid_eq {table : SymbolTable} (h : ReturnsObject table symbol ty) :
    table.isVoid symbol.returnType = .ok false := by
  obtain ⟨kind, known, represents⟩ := SymbolTable.codeType_iff.1 h.code
  have aggregate := h.aggregate
  rw [SymbolTable.isVoid, known]
  cases represents <;> first | rfl | cases aggregate

variable (h : ReturnsObject env.symbols symbol ty) (s : State)
include h

theorem isVoid_run : isVoid symbol.returnType env s = .ok false s := by
  change answer (env.symbols.isVoid symbol.returnType) s = _
  rw [h.isVoid_eq]
  rfl

theorem codeType_run : codeType symbol.returnType env s = .ok ty s := by
  change answer (env.symbols.codeType symbol.returnType) s = _
  rw [h.code]
  rfl

theorem resultRegister_refused :
    resultRegister symbol env s = .error (.aggregateReturn symbol.returnType) s := by
  refine (run_bind (h.isVoid_run s)).trans ((run_bind (h.codeType_run s)).trans ?_)
  rw [h.aggregate]
  rfl

end ReturnsObject

section Returns
variable (h : ReturnsObject env.symbols env.symbol ty) (direct : env.result = none) (s : State)
include h direct

theorem defaultReturn_refused :
    defaultReturn env s = .error (.aggregateReturn env.symbol.returnType) s := by
  have nothing : Imm.zero? ty = none := by
    have aggregate := h.aggregate
    cases ty <;> first | rfl | cases aggregate
  change (if env.result.isSome then pure none else _ : LowerM (Option Operand)) env s = _
  rw [direct]
  refine (run_bind (h.isVoid_run s)).trans ((run_bind (h.codeType_run s)).trans ?_)
  rw [nothing]
  rfl

theorem returned_unchecked (e : Expr) : returned e env s =
    (do return some (← requireValue e.kind (plan e).value) : LowerM (Option Operand)) env s := by
  have void := h.isVoid_run
  cases env
  cases direct
  refine (run_bind_congr (m := (plan e).value) rfl fun value t => ?_).trans
    (congrFun (congrFun (bind_assoc _ _ _).symm _) s)
  refine (run_bind (void t)).trans ?_
  cases value <;> rfl

/-- A `return` of a value evaluates it, leaves all scopes and returns it. -/
theorem lowerReturn_unchecked (e : Expr) : lowerReturn (some e) env s = (do
    let value ← withTemporaries (do return some (← requireValue e.kind (plan e).value))
    leaveTo 0
    emitReturn value) env s :=
  run_bind_congr (withTemporaries_congr (returned_unchecked h direct _ e)) fun _ _ => rfl

theorem defaultReturn_never : Ensures (fun _ _ => False) (defaultReturn env s) := by
  rw [defaultReturn_refused h direct s]
  trivial

theorem fallOut_passed :
    Ensures (fun _ t => s.draft.endsInTerminator ∧ t.pads = s.pads) (fallOut env s) := by
  refine Ends.known (a := s.draft.endsInTerminator) (t := s) rfl ?_
  cases s.draft.endsInTerminator with
  | true => exact .ret ⟨rfl, rfl⟩
  | false => exact (defaultReturn_never h direct s).seq fun _ _ => False.elim

theorem emitPad_handled (pad : LandingPad) :
    Ensures (fun _ _ => pad.handler.isSome) (emitPad pad env s) := by
  refine (Ends.any _).seq fun _ _ _ => (Ends.any _).seq fun _ t _ => ?_
  cases pad.handler with
  | some _ => exact (Ends.any _).mono fun _ _ _ => rfl
  | none =>
    exact (Ends.any _).seq fun _ u _ => (defaultReturn_never h direct u).seq fun _ _ => False.elim

omit s in
theorem forM_emitPad_handled : ∀ (pads : List LandingPad) (s : State),
    Ensures (fun _ _ => ∀ pad ∈ pads, pad.handler.isSome) (pads.forM emitPad env s)
  | [], _ => .ret (by simp)
  | pad :: pads, s => (emitPad_handled h direct s pad).seq fun _ t first =>
    (forM_emitPad_handled pads t).mono fun _ _ rest => by simpa using ⟨first, rest⟩

theorem finishBody_handled :
    Ensures (fun _ _ => ∀ pad ∈ s.pads.pads, pad.handler.isSome) (finishBody env s) := by
  refine .look ?_
  dsimp only
  split
  · trivial
  · exact (forM_emitPad_handled h direct s.pads.pads.toList _).seq fun _ _ handled =>
      .ret fun pad hp => handled pad (Array.mem_toList_iff.2 hp)

end Returns

/-- The body of the function was written up to a state, where control had come to an end, and every
failure was on its way to a handler. -/
def NeverFallsOut (f : Ast.Function) (env : Env) : Prop :=
  ∃ incoming s exits t, prologue f env .empty = .ok incoming s ∧
    inCompound (lowerStmts f.body)
      { env with result := incoming.result, callerStatus := incoming.callerStatus } s =
        .ok exits t ∧
    t.draft.endsInTerminator ∧ ∀ pad ∈ t.pads.pads, pad.handler.isSome

theorem lowerAll_never_falls_out (f : Ast.Function) (h : ReturnsObject env.symbols env.symbol ty)
    (direct : f.returnsByHiddenSlot = false) :
    Ensures (fun _ _ => NeverFallsOut f env) (lowerAll f env .empty) := by
  refine (prologue_opens f).recorded.seq fun incoming s ⟨⟨_, result, _⟩, received⟩ => ?_
  let inner : Env := { env with result := incoming.result, callerStatus := incoming.callerStatus }
  have h : ReturnsObject inner.symbols inner.symbol ty := h
  have direct : inner.result = none := by simpa [direct] using result
  refine Ends.seq (Ends.inside (Q := fun _ _ => NeverFallsOut f env) ?_) fun _ _ never =>
    (Ends.any _).mono fun _ _ _ => never
  unfold lowerBody
  refine (Ends.any _).recorded.seq fun exits t ⟨_, ran⟩ => ?_
  refine (fallOut_passed h direct t).seq fun _ u ⟨ends, pads⟩ => ?_
  refine (finishBody_handled h direct u).mono fun _ _ handled => ?_
  exact ⟨incoming, s, exits, t, received, ran, ends, pads ▸ handled⟩

def refusedCall (symbol : FunctionSymbol) (object : Option Operand) (arguments : List Plan)
    (isVirtual : Bool) : LowerM (Option Operand) := do
  let operands ← arguments.mapM Plan.operand
  let _ ← statusArgument symbol
  let _ ← callee symbol isVirtual (receiver symbol object arguments operands)
  throw (.aggregateReturn symbol.returnType)

theorem callFunction_refused (h : ReturnsObject env.symbols symbol ty)
    (direct : symbol.returnsByHiddenSlot = false) (object : Option Operand) (arguments : List Plan)
    (isVirtual : Bool) (s : State) :
    callFunction symbol object arguments isVirtual env s =
      refusedCall symbol object arguments isVirtual env s := by
  have noSlot : resultSlot symbol env s = .ok none s := by
    rw [resultSlot, direct]
    rfl
  rw [callFunction, run_bind noSlot]
  refine run_bind_congr rfl fun operands t => run_bind_congr rfl fun status u =>
    run_bind_congr rfl fun target v => ?_
  exact bind_of_error (h.resultRegister_refused v)

end Lower

section Function
open Lower
variable {symbols : SymbolTable} {symbol : FunctionSymbol} {ty : Ty} {f : Ast.Function}

/-- A function that returns an object without a slot of the caller. Where it has to make up a value,
it is refused: if it is lowered, all its returns carry a value, control does not come to the end of
its body, and every failure comes to a handler. A `return` of a value is not checked: what the
expression gives is returned, and that is the address of the object. But every call of the function
is refused. -/
theorem object_return_unchecked (options : Options)
    (known : symbols.functionSymbol f.function = .ok symbol)
    (object : ReturnsObject symbols symbol ty) (direct : f.returnsByHiddenSlot = false) :
    (∀ made, lowerFunction symbols options f = .ok made →
      (∀ (k : Nat) value, made.instrs[k]? = some (.ret value) → value.isSome) ∧
      ∃ labels, LabelScopes.collect f.body = .ok labels ∧
        NeverFallsOut f (.start symbols symbol options labels)) ∧
    (∀ env s, env.symbols = symbols → env.symbol = symbol → env.result = none →
      lowerReturn none env s = .error (.aggregateReturn symbol.returnType) s ∧
      ∀ e, lowerReturn (some e) env s = (do
        let value ← withTemporaries (do return some (← requireValue e.kind (plan e).value))
        leaveTo 0
        emitReturn value) env s) ∧
    (symbol.operator = none → symbol.returnsByHiddenSlot = false →
      ∀ env s object arguments isVirtual rt, env.symbols = symbols →
        call f.function object arguments isVirtual rt env s =
          refusedCall symbol object arguments isVirtual env s) := by
  refine ⟨fun made lowered => ?_, ?_, ?_⟩
  · obtain ⟨symbol', labels, t, known', collected, run⟩ := lowerFunction_run lowered
    obtain rfl : symbol' = symbol := Except.ok.inj (known'.symm.trans known)
    obtain ⟨-, incoming, _, -, takes⟩ := (lowerAll_takes f rfl rfl).of_ok run
    refine ⟨fun k value hr => ?_, labels, collected,
      (lowerAll_never_falls_out f object direct).of_ok run⟩
    rw [takes.returned k value hr, SymbolTable.returnsInRegister, direct]
    simp [Env.start, object.isVoid_eq, Except.toOption]
  · rintro env s rfl rfl result
    exact ⟨bind_of_error (defaultReturn_refused object result s),
      lowerReturn_unchecked object result s⟩
  · rintro ordinary slot env s receiver arguments isVirtual rt rfl
    rw [call_ordinary known ordinary]
    exact callFunction_refused object slot receiver arguments isVirtual s

def pairSymbols : SymbolTable where
  types := #[.void, .classType ⟨"Pair", none, [], false, none⟩]
  functions := #[.plain "main" ⟨1⟩]
  vars := #[⟨"p", ⟨1⟩⟩]

/-- `Pair main() { Pair p; return p; }` -/
def pairMain : Ast.Function :=
  ⟨⟨0⟩, [], [⟨0⟩], [.return_ (some (.localVariable ⟨1⟩ ⟨0⟩))], false, false⟩

/-- The address of `p` is returned. -/
theorem pairMain_returns_address : ∃ made, lowerFunction pairSymbols .default pairMain = .ok made ∧
    made.instrs.back? = some (.ret (some (.reg ⟨0⟩))) ∧
    ∀ (k : Nat) value, made.instrs[k]? = some (.ret value) → value.isSome := by
  have object : ReturnsObject pairSymbols (.plain "main" ⟨1⟩)
      (.struct (some "Pair") []) := ⟨by decide +kernel, rfl⟩
  have lowers : (lowerFunction pairSymbols .default pairMain).toOption.map (·.instrs.back?) =
      some (some (.ret (some (.reg ⟨0⟩)))) := by decide +kernel
  cases lowered : lowerFunction pairSymbols .default pairMain with
  | error e => simp [lowered, Except.toOption] at lowers
  | ok made =>
    rw [lowered] at lowers
    exact ⟨made, rfl, Option.some.inj lowers,
      ((object_return_unchecked .default rfl object rfl).1 made lowered).1⟩

end Function
end FlatCode
