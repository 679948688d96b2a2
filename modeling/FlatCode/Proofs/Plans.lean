import FlatCode.Proofs.StraightLine

/-! What holds of every expression. A property of steps that sequences inherit holds of all the
steps of an expression if it holds of the few that do more than compute. -/
namespace FlatCode.Lower
open Code Symbols Ast List

structure Steps (P : ∀ {α : Type}, LowerM α → Prop) : Prop where
  bind {m : LowerM α} {f : α → LowerM β} : P m → (∀ a, P (f a)) → P (m >>= f)
  derives {known : List Operand} {out : α → List Operand} {m : LowerM α} :
    Derives known out m → P m

/-- Such a property, one of the steps that hand out the branches of a condition, and what may be
called. -/
structure Rules (P : ∀ {α : Type}, LowerM α → Prop) (J : LowerM Branches → Prop)
    (C : Callee → Prop) : Prop extends Steps P where
  register (ty : Ty) : P (liftM (Draft.newRegister ty) : LowerM Register)
  slot (ty : Ty) : P (liftM (Draft.allocSlot ty none) : LowerM Register)
  place (v : VariableId) (role : Role) : P (allocate v role)
  status : P statusSlot
  function {f : FunctionId} {k : FunctionSymbol → LowerM α} :
    (∀ symbol, C (.direct symbol.name) → P (k symbol)) → P (functionSymbol f >>= k)
  indirect (r : Register) : C (.indirect r)
  invoke {callee : Callee} (arguments : List Operand) (dest : Option Register) :
    C callee → P (emit (.call callee arguments dest))
  test : P (testStatus 0)
  debt (object : Operand) (t : TypeId) : P (oweDestructor object t)
  negation {f : FunctionId} {k : FunctionSymbol → LowerM Branches} :
    (∀ symbol, J (k symbol)) → J (functionSymbol f >>= k)
  swap {m : LowerM Branches} : J m → J (do return (← m).swap)
  jumpOn (e : Expr) {value : LowerM (Option Operand)} : P value → J (jumpOn e value)
  connective (x : Bool) {lhs rhs : LowerM Branches} : J lhs → J rhs → J (connective x lhs rhs)
  materialize {jump : LowerM Branches} : J jump → P (materialize jump)

structure Plan.Obeys (P : ∀ {α : Type}, LowerM α → Prop) (J : LowerM Branches → Prop)
    (p : Plan) : Prop where
  value : P p.value
  jump : J p.jump
  address : P p.address

namespace Steps
variable {P : ∀ {α : Type}, LowerM α → Prop} (steps : Steps P)
include steps

theorem pure (a : α) : P (pure a) :=
  steps.derives (show Derives [] (fun _ => []) _ from .pure fun _ h => h)

theorem fail {e : Error} (h : e.IsFault) : P (throw e : LowerM α) :=
  steps.derives (show Derives [] (fun _ => []) _ from .fail h)

theorem derived {known : List Operand} {out : α → List Operand} {m : LowerM α} {f : α → LowerM β}
    (hm : Derives known out m) (hf : ∀ a, P (f a)) : P (m >>= f) :=
  steps.bind (steps.derives hm) hf

theorem mapM {f : α → LowerM β} : ∀ {as : List α}, (∀ a ∈ as, P (f a)) → P (as.mapM f)
  | [], _ => steps.pure []
  | a :: as, h => by
    rw [mapM_cons]
    refine steps.bind (h a mem_cons_self) fun b => ?_
    exact steps.bind (mapM fun a' ha => h a' (mem_cons_of_mem _ ha)) fun _ => steps.pure _

theorem requireValue (kind : String) {value : LowerM (Option Operand)} (h : P value) :
    P (requireValue kind value) := by
  refine steps.bind h fun operand => ?_
  split
  · exact steps.pure _
  · exact steps.fail rfl

end Steps

namespace Rules
variable {P : ∀ {α : Type}, LowerM α → Prop} {J : LowerM Branches → Prop} {C : Callee → Prop}

section Parts
variable (rules : Rules P J C) {value : LowerM (Option Operand)} {arguments : List Plan}
include rules

theorem addressIn (e : Expr) (h : P value) : P (addressIn e value) := by
  refine rules.derived (typeKind_derives e.ty) fun kind => ?_
  split
  · exact rules.requireValue _ h
  · exact rules.requireValue _ h
  · exact rules.fail rfl

theorem operand {p : Plan} (h : p.Obeys P J) : P p.operand := rules.requireValue p.kind h.value

theorem operands (h : ∀ p ∈ arguments, p.Obeys P J) : P (arguments.mapM Plan.operand) :=
  rules.mapM fun p hp => rules.operand (h p hp)

theorem ofPlace (e : Expr) {address : LowerM Operand} (hv : P value) (ha : P address) :
    (Plan.ofPlace e value address).Obeys P J :=
  ⟨hv, rules.jumpOn e hv, ha⟩

theorem ofValue (e : Expr) (h : P value) : (Plan.ofValue e value).Obeys P J :=
  rules.ofPlace e h (rules.addressIn e h)

theorem ofAddress (e : Expr) {address : LowerM Operand} (h : P address) :
    (Plan.ofAddress e address).Obeys P J := by
  refine rules.ofPlace e (rules.bind h fun a => ?_) h
  exact rules.derived (loadValue_derives a e.ty) fun _ => rules.pure _

theorem ofJump (e : Expr) {jump : LowerM Branches} (h : J jump) :
    (Plan.ofJump e jump).Obeys P J :=
  ⟨rules.materialize h, h, rules.addressIn e (rules.materialize h)⟩

theorem applyOperator (op : Operator) (object : Option Operand) (resultTy : TypeId)
    (h : ∀ p ∈ arguments, p.Obeys P J) : P (applyOperator op object arguments resultTy) := by
  have operands : P (operatorOperands op object arguments) := by
    unfold operatorOperands
    split
    · rename_i target rest
      refine rules.bind (h target mem_cons_self).address fun address => ?_
      refine rules.bind (rules.operands fun p hp => ?_) fun _ => rules.pure _
      exact h p (mem_cons_of_mem _ hp)
    · exact rules.bind (rules.operands h) fun _ => rules.pure _
  unfold Lower.applyOperator
  dsimp only
  split
  · exact rules.fail rfl
  · refine rules.bind operands fun _ => rules.derived (plainType_derives _) fun _ => ?_
    refine rules.derived (typeKind_derives _) fun _ => ?_
    exact rules.derives (emitOperator_derives _ _ _ _ _)

theorem resultSlot (symbol : FunctionSymbol) : P (resultSlot symbol) := by
  unfold Lower.resultSlot
  split
  · refine rules.derived (codeType_derives _) fun ty => ?_
    exact rules.bind (rules.slot ty) fun _ => rules.pure _
  · exact rules.pure _

theorem statusArgument (symbol : FunctionSymbol) : P (statusArgument symbol) := by
  unfold Lower.statusArgument
  split
  · exact rules.bind rules.status fun _ => rules.pure _
  · exact rules.pure _

theorem callDest (symbol : FunctionSymbol) (slot : Option Register) : P (callDest symbol slot) := by
  unfold Lower.callDest resultRegister
  split
  · exact rules.pure _
  · refine rules.derived (isVoid_derives _) fun void => ?_
    split
    · exact rules.pure _
    · refine rules.derived (codeType_derives _) fun ty => ?_
      split
      · exact rules.fail rfl
      · exact rules.bind (rules.register ty) fun _ => rules.pure _

theorem callee {symbol : FunctionSymbol} (h : C (.direct symbol.name)) (isVirtual : Bool)
    (object : Option (Operand × TypeId)) {k : Callee → LowerM α} (hk : ∀ c, C c → P (k c)) :
    P (callee symbol isVirtual object >>= k) := by
  unfold Lower.callee
  split
  · split
    · exact rules.fail rfl
    · rw [bind_assoc]
      refine rules.derived (dispatch_derives _ _ _) fun r => ?_
      rw [pure_bind]
      exact hk _ (rules.indirect r)
  · rw [pure_bind]
    exact hk _ h

theorem callFunction {symbol : FunctionSymbol} (known : C (.direct symbol.name))
    (object : Option Operand) (isVirtual : Bool) (h : ∀ p ∈ arguments, p.Obeys P J) :
    P (callFunction symbol object arguments isVirtual) := by
  unfold Lower.callFunction
  refine rules.bind (rules.resultSlot symbol) fun slot => rules.bind (rules.operands h)
    fun operands => rules.bind (rules.statusArgument symbol) fun status =>
    rules.callee known isVirtual _ fun target calls => rules.bind (rules.callDest symbol slot)
    fun dest => rules.bind (rules.invoke _ _ calls) fun _ => rules.bind ?_ fun _ => ?_
  · unfold testCall
    split
    · exact rules.test
    · exact rules.pure _
  · unfold callResult
    split
    · exact rules.bind (rules.debt _ _) fun _ => rules.pure _
    · exact rules.pure _

theorem call (f : FunctionId) (object : Option Operand) (isVirtual : Bool) (resultTy : TypeId)
    (h : ∀ p ∈ arguments, p.Obeys P J) : P (call f object arguments isVirtual resultTy) := by
  refine rules.function fun symbol known => ?_
  split
  · exact rules.applyOperator _ object resultTy h
  · exact rules.callFunction known object isVirtual h

theorem construct (address : Operand) (ctor : FunctionId) (h : ∀ p ∈ arguments, p.Obeys P J) :
    P (construct address ctor arguments) :=
  rules.function fun _ _ => rules.bind (rules.call ctor _ _ _ h) fun _ => rules.pure _

theorem addressOfField {object : Plan} (h : object.Obeys P J) (field : UInt32) :
    P (addressOfField object field) :=
  rules.bind (rules.operand h) fun address =>
    rules.derives (fieldOf_derives object.ty field address)

theorem addressOfTemporary (v : VariableId) (ctor : FunctionId) (destroy : Bool)
    (h : ∀ p ∈ arguments, p.Obeys P J) : P (addressOfTemporary v ctor arguments destroy) := by
  refine rules.bind (rules.place v _) fun location => ?_
  refine rules.bind (rules.construct _ ctor h) fun _ => ?_
  dsimp only
  split
  · exact rules.bind (rules.debt _ _) fun _ => rules.pure _
  · exact rules.pure _

theorem ofUnary (e : Expr) (f : FunctionId) {operand : Plan} (h : operand.Obeys P J) :
    (Plan.ofUnary e f operand).Obeys P J := by
  have value : P (Lower.call f none [operand] false e.ty) :=
    rules.call f none false e.ty (by simpa using h)
  refine ⟨value, rules.negation fun symbol => ?_, rules.addressIn e value⟩
  split
  · exact rules.swap h.jump
  · exact rules.jumpOn e value

end Parts

mutual
theorem plan (rules : Rules P J C) : ∀ e : Expr, (plan e).Obeys P J
  | .literal ty value =>
    rules.ofValue _ (rules.derived (codeType_derives ty) fun _ => rules.pure _)
  | .localVariable ty v | .parameter ty v =>
    rules.ofPlace _ (rules.derives (valueOfVariable_derives v)) (rules.derives (.address v))
  | .memberVariable ty object field =>
    rules.ofAddress _ (rules.addressOfField (rules.plan object) field)
  | .addressOf ty operand =>
    rules.ofValue _ (rules.bind (rules.plan operand).address fun _ => rules.pure _)
  | .dereference ty operand => rules.ofAddress _ (rules.operand (rules.plan operand))
  | .conversion ty f operand =>
    rules.ofValue _ (rules.call f none false ty (by simpa using rules.plan operand))
  | .unary ty f operand => rules.ofUnary _ f (rules.plan operand)
  | .binary ty f lhs rhs => by
    refine rules.ofValue _ (rules.call f none false ty ?_)
    simpa using ⟨rules.plan lhs, rules.plan rhs⟩
  | .call ty f arguments isVirtual =>
    rules.ofValue _ (rules.call f none isVirtual ty (rules.plans arguments))
  | .conjunction ty lhs rhs =>
    rules.ofJump _ (rules.connective true (rules.plan lhs).jump (rules.plan rhs).jump)
  | .disjunction ty lhs rhs =>
    rules.ofJump _ (rules.connective false (rules.plan lhs).jump (rules.plan rhs).jump)
  | .temporary ty v ctor arguments destroy =>
    rules.ofAddress _ (rules.addressOfTemporary v ctor destroy (rules.plans arguments))
theorem plans (rules : Rules P J C) : ∀ es : List Expr, ∀ p ∈ plans es, p.Obeys P J
  | [] => by simp [Lower.plans]
  | e :: es => by
    intro p hp
    rcases mem_cons.1 hp with rfl | hp
    · exact rules.plan e
    · exact rules.plans es p hp
end

theorem initializeAt (rules : Rules P J C) (location : Location) (ctor : FunctionId)
    (arguments : List Expr) : P (initializeAt location ctor arguments) := by
  unfold Lower.initializeAt
  split
  · exact rules.fail rfl
  · exact rules.bind (rules.plan _).address fun address =>
      rules.derives (.emitted rfl rfl fun _ h => h)
  · exact rules.construct _ ctor (rules.plans _)

end Rules
end FlatCode.Lower
