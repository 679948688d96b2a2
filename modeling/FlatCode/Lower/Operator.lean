import FlatCode.Lower.Conversion

/-! Operators on primitive types, expanded in place. -/
namespace FlatCode

def Operator.binary? : Operator → Option Code.BinaryOp
  | .add => some .add
  | .subtract => some .sub
  | .multiply => some .mul
  | .divide => some .div
  | .remainder => some .rem
  | .bitwiseAnd => some .and
  | .bitwiseOr => some .or
  | .bitwiseXor => some .xor
  | .shiftLeft => some .shl
  | .shiftRight => some .shr
  | _ => none

def Operator.predicate? : Operator → Option Code.Predicate
  | .equals => some .eq
  | .notEquals => some .ne
  | .lessThan => some .lt
  | .lessThanOrEqualTo => some .le
  | .greaterThan => some .gt
  | .greaterThanOrEqualTo => some .ge
  | _ => none

namespace Lower
open Code Symbols

def emitUnary (op : UnaryOp) (ty : Ty) (operand : Operand) : LowerM Operand := do
  let r ← Draft.newRegister ty
  emit (.unary op r operand)
  pure r

/-- Stores zero at an address, if what it points to has a zero. -/
def emitDefault (failure : Error) (address : Operand) : LowerM Unit := do
  match (← get).draft.operandType? address with
  | some (.ptr ty) =>
    match Imm.zero? ty with
    | some zero => emit (.store address zero)
    | none => throw failure
  | _ => throw failure

/-- A pointer moved by an index. -/
def emitElement (op : Operator) (resultTy : TypeId) (base index : Operand) : LowerM Operand := do
  let index ←
    if op = .subtract then do
      let ty := ((← get).draft.operandType? index).getD (.int .w64)
      emitUnary .negate ty index
    else pure index
  let r ← Draft.newRegister (← codeType resultTy)
  emit (.elementPtr r base index)
  pure r

def emitBinary (op : BinaryOp) (kind : Numeric) (resultTy : TypeId) (lhs rhs : Operand) :
    LowerM Operand := do
  let r ← Draft.newRegister (← codeType resultTy)
  emit (.binary op kind r lhs rhs)
  pure r

def emitCompare (predicate : Predicate) (kind : Numeric) (lhs rhs : Operand) : LowerM Operand := do
  let r ← Draft.newRegister .bool
  emit (.compare predicate kind r lhs rhs)
  pure r

def isPointer : TypeKind → Bool
  | .pointer _ => true
  | _ => false

/-- The code of an operator. `ty` is the type of the first operand and `kind` what it is
without a reference. -/
def emitOperator (op : Operator) (ty : TypeId) (kind : TypeKind) (resultTy : TypeId)
    (operands : List Operand) : LowerM (Option Operand) := do
  let failure := Error.invalidOperator op operands.length ty
  match op, operands with
  | .defaultConstruct, [address] =>
    emitDefault failure address
    pure none
  | .copyConstruct, [address, value] =>
    emit (.store address value)
    pure none
  | .assign, [address, value] =>
    emit (.store address value)
    pure (some address)
  | .unaryPlus, [value] => pure (some value)
  | .negate, [value] => return some (← emitUnary .negate (← codeType resultTy) value)
  | .complement, [value] => return some (← emitUnary .complement (← codeType resultTy) value)
  | .logicalNot, [value] => return some (← emitUnary .not .bool value)
  | .convert, [value] => return some (← convert value ty resultTy)
  | op, [lhs, rhs] =>
    if (op = .add ∨ op = .subtract) ∧ isPointer kind then
      return some (← emitElement op resultTy lhs rhs)
    match op.predicate?, op.binary? with
    | some predicate, _ => return some (← emitCompare predicate (numeric kind) lhs rhs)
    | none, some binary => return some (← emitBinary binary (numeric kind) resultTy lhs rhs)
    | none, none => throw failure
  | _, _ => throw failure

/-- The operands of an operator. The left side of an assignment is written, not read. -/
def operatorOperands (op : Operator) (object : Option Operand) (arguments : List Plan) :
    LowerM (List Operand) := do
  match op, object, arguments with
  | .assign, none, target :: rest =>
    let address ← target.address
    return address :: (← rest.mapM Plan.operand)
  | _, _, _ => return object.toList ++ (← arguments.mapM Plan.operand)

def applyOperator (op : Operator) (object : Option Operand) (arguments : List Plan)
    (resultTy : TypeId) : LowerM (Option Operand) := do
  let supplied := object.toList.length + arguments.length
  if supplied ≠ op.arity then throw (.invalidOperator op supplied resultTy)
  let operands ← operatorOperands op object arguments
  let ty := match arguments with
    | first :: _ => first.ty
    | [] => resultTy
  let kind ← typeKind (← plainType ty)
  emitOperator op ty kind resultTy operands

end Lower
end FlatCode
