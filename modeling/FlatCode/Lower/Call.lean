import FlatCode.Lower.Operator

/-! Calls. Arguments are passed in the order hidden result slot, object, explicit arguments,
exception status; the first, the second and the last only where the function takes them. -/
namespace FlatCode.Lower
open Code Symbols Ast

/-- Goes from an object to the base object that holds the dispatch table pointer. A chain of
bases that goes on for longer than `depth` has none. -/
def findDispatchTable (function : String) :
    (depth : Nat) → Operand → TypeId → LowerM (Operand × ClassInfo)
  | 0, _, _ => throw (.missingDispatchTable function)
  | depth + 1, object, ty => do
    let info ← classInfo ty
    if info.hasDispatchTable then pure (object, info)
    else
      match info.base with
      | none => throw (.missingDispatchTable function)
      | some base =>
        let r ← Draft.newRegister (.ptr (← pointee base))
        emit (.fieldPtr r object 0)
        findDispatchTable function depth r base

def dispatch (symbol : FunctionSymbol) (object : Operand) (objectTy : TypeId) :
    LowerM Register := do
  match symbol.dispatchSlot with
  | none => throw (.notVirtual symbol.name)
  | some slot =>
    let ty := match ← typeKind objectTy with
      | .pointer inner | .reference inner => inner
      | _ => objectTy
    let depth := (← symbols).types.size + 1
    let (owner, info) ← findDispatchTable symbol.name depth object ty
    let tableAddress ← Draft.newRegister (.ptr .dispatchTable)
    emit (.fieldPtr tableAddress owner info.dispatchTableSlot)
    let table ← Draft.newRegister .dispatchTable
    emit (.load table tableAddress)
    let entry ← Draft.newRegister .dispatchTable
    emit (.elementPtr entry table (Imm.int slot.toNat .w64))
    let target ← Draft.newRegister .bytePtr
    emit (.load target entry)
    pure target

def receiver (symbol : FunctionSymbol) (object : Option Operand) (arguments : List Plan)
    (operands : List Operand) : Option (Operand × TypeId) :=
  match object, operands, arguments with
  | some object, _, _ => symbol.owner.map fun owner => (object, owner)
  | none, operand :: _, argument :: _ => some (operand, argument.ty)
  | none, _, _ => none

def callee (symbol : FunctionSymbol) (isVirtual : Bool) (object : Option (Operand × TypeId)) :
    LowerM Callee := do
  if isVirtual then
    match object with
    | none => throw (.notVirtual symbol.name)
    | some (object, ty) => return .indirect (← dispatch symbol object ty)
  else pure (.direct symbol.name)

def resultSlot (symbol : FunctionSymbol) : LowerM (Option Register) := do
  if symbol.returnsByHiddenSlot then
    return some (← Draft.allocSlot (← codeType symbol.returnType) none)
  else pure none

def resultRegister (symbol : FunctionSymbol) : LowerM (Option Register) := do
  if ← isVoid symbol.returnType then pure none
  else
    let ty ← codeType symbol.returnType
    if ty.isAggregate then throw (.aggregateReturn symbol.returnType)
    return some (← Draft.newRegister ty)

/-- The status slot as a last argument, if the function can raise. -/
def statusArgument (symbol : FunctionSymbol) : LowerM (List Operand) := do
  if symbol.canRaise then return [.reg (← statusSlot)] else pure []

def callDest (symbol : FunctionSymbol) (slot : Option Register) : LowerM (Option Register) :=
  if slot.isSome then pure none else resultRegister symbol

def testCall (symbol : FunctionSymbol) : LowerM Unit :=
  if symbol.canRaise then testStatus 0 else pure ()

def callResult (symbol : FunctionSymbol) (slot dest : Option Register) :
    LowerM (Option Operand) :=
  match slot with
  | some slot => do
    oweDestructor slot symbol.returnType
    pure (some slot)
  | none => pure (dest.map Operand.reg)

def callFunction (symbol : FunctionSymbol) (object : Option Operand) (arguments : List Plan)
    (isVirtual : Bool) : LowerM (Option Operand) := do
  let slot ← resultSlot symbol
  let operands ← arguments.mapM Plan.operand
  let status ← statusArgument symbol
  let target ← callee symbol isVirtual (receiver symbol object arguments operands)
  let dest ← callDest symbol slot
  emit (.call target (slot.toList.map Operand.reg ++ object.toList ++ operands ++ status) dest)
  testCall symbol
  callResult symbol slot dest

def call (f : FunctionId) (object : Option Operand) (arguments : List Plan) (isVirtual : Bool)
    (resultTy : TypeId) : LowerM (Option Operand) := do
  let symbol ← functionSymbol f
  match symbol.operator with
  | some op => applyOperator op object arguments resultTy
  | none => callFunction symbol object arguments isVirtual

def construct (address : Operand) (ctor : FunctionId) (arguments : List Plan) : LowerM Unit := do
  let symbol ← functionSymbol ctor
  let _ ← call ctor (some address) arguments false symbol.returnType

end FlatCode.Lower
