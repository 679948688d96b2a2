import FlatCode.Lower.Call

/-! Lowering of expressions. Each expression has one plan, made from those of its parts. -/
namespace FlatCode.Lower
open Code Symbols Ast

/-- The address of the object a variable names. References and objects of the caller are
found through the pointer in their slot. -/
def addressOfVariable (v : VariableId) : LowerM Operand := do
  let l ← (← get).storage.lookup v
  match l.shape with
  | .value | .pointer => pure l.slot
  | .reference | .byAddress =>
    let r ← Draft.newRegister l.slotType
    emit (.load r l.slot)
    pure r

/-- The value of a variable. What a reference refers to is represented by its address. -/
def valueOfVariable (v : VariableId) : LowerM (Option Operand) := do
  let location ← (← get).storage.lookup v
  let address ← addressOfVariable v
  match location.shape with
  | .reference | .byAddress => pure (some address)
  | .value | .pointer => return some (← loadValue address location.ty)

def addressOfField (object : Plan) (field : UInt32) : LowerM Operand := do
  let address ← object.operand
  let info ← classInfo (← plainType object.ty)
  match info.fields[field.toNat]? with
  | none => throw (.notAddressable "member_variable")
  | some ty =>
    let r ← Draft.newRegister (.ptr (← pointee ty))
    emit (.fieldPtr r address (info.fieldSlot field.toNat))
    pure r

/-- Builds a temporary in its own slot. The expression around it owes the destructor call. -/
def addressOfTemporary (v : VariableId) (ctor : FunctionId) (arguments : List Plan)
    (destroy : Bool) : LowerM Operand := do
  let location ← allocate v .localVariable
  construct location.slot ctor arguments
  if destroy then oweDestructor location.slot location.ty
  pure location.slot

/-- Negation swaps the ways out of its operand; other operators have a value to test. -/
def unaryJump (e : Expr) (f : FunctionId) (operand : Plan) (value : LowerM (Option Operand)) :
    LowerM Branches := do
  if (← functionSymbol f).operator = some .logicalNot then return (← operand.jump).swap
  else jumpOn e value

def Plan.ofUnary (e : Expr) (f : FunctionId) (operand : Plan) : Plan :=
  let value := call f none [operand] false e.ty
  ⟨e.kind, e.ty, value, unaryJump e f operand value, addressIn e value⟩

mutual
def plan : Expr → Plan
  | .literal ty value =>
    .ofValue (.literal ty value) do return some (value.toImm (← codeType ty))
  | .localVariable ty v =>
    .ofPlace (.localVariable ty v) (valueOfVariable v) (addressOfVariable v)
  | .parameter ty v => .ofPlace (.parameter ty v) (valueOfVariable v) (addressOfVariable v)
  | .memberVariable ty object field =>
    .ofAddress (.memberVariable ty object field) (addressOfField (plan object) field)
  | .addressOf ty operand =>
    .ofValue (.addressOf ty operand) do return some (← (plan operand).address)
  | .dereference ty operand => .ofAddress (.dereference ty operand) (plan operand).operand
  | .conversion ty f operand =>
    .ofValue (.conversion ty f operand) (call f none [plan operand] false ty)
  | .unary ty f operand => .ofUnary (.unary ty f operand) f (plan operand)
  | .binary ty f lhs rhs =>
    .ofValue (.binary ty f lhs rhs) (call f none [plan lhs, plan rhs] false ty)
  | .call ty f arguments isVirtual =>
    .ofValue (.call ty f arguments isVirtual) (call f none (plans arguments) isVirtual ty)
  | .conjunction ty lhs rhs =>
    .ofJump (.conjunction ty lhs rhs) (connective true (plan lhs).jump (plan rhs).jump)
  | .disjunction ty lhs rhs =>
    .ofJump (.disjunction ty lhs rhs) (connective false (plan lhs).jump (plan rhs).jump)
  | .temporary ty v ctor arguments destroy =>
    .ofAddress (.temporary ty v ctor arguments destroy)
      (addressOfTemporary v ctor (plans arguments) destroy)
def plans : List Expr → List Plan
  | [] => []
  | e :: es => plan e :: plans es
end

def fullValue (e : Expr) : LowerM (Option Operand) := withTemporaries (plan e).value

/-- Like `fullValue`, where there has to be a value. -/
def fullOperand (e : Expr) : LowerM Operand := withTemporaries (plan e).operand

def condition (e : Expr) : LowerM Branches := fullJump (plan e).jump

end FlatCode.Lower
