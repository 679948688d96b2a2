import FlatCode.Lower.Plan

/-! Conversions between primitive types. -/
namespace FlatCode.Lower
open Code Symbols

/-- A primitive type as a register sees it. -/
inductive Scalar where
  | integer (signed : Bool) (width : IntWidth)
  | float (width : FloatWidth)
  | pointer
  deriving DecidableEq

def scalar? : TypeKind → Option Scalar
  | .bool => some (.integer false .w8)
  | .char => some (.integer false .w32)
  | .integer w => some (.integer true w)
  | .unsignedInteger w => some (.integer false w)
  | .float w => some (.float w)
  | .pointer _ | .reference _ | .functionPointer => some .pointer
  | .void | .classType _ => none

def numeric : TypeKind → Numeric
  | .integer _ => .signed
  | .float _ => .float
  | _ => .unsigned

inductive Conversion where
  /-- The bits stay as they are. -/
  | keep
  | cast (kind : Cast)
  | impossible
  deriving DecidableEq

def conversion : Scalar → Scalar → Conversion
  | .integer signed v, .integer _ w =>
    if v.bytes < w.bytes then .cast (if signed then .signExtend else .zeroExtend)
    else if w.bytes < v.bytes then .cast .truncate
    else .keep
  | .integer signed _, .float _ => .cast (if signed then .signedToFloat else .unsignedToFloat)
  | .float _, .integer signed _ => .cast (if signed then .floatToSigned else .floatToUnsigned)
  | .float v, .float w => .cast (if v.bytes < w.bytes then .floatExtend else .floatTruncate)
  | .pointer, .pointer => .cast .bitcast
  | .pointer, .integer _ _ => .cast .pointerToInteger
  | .integer _ _, .pointer => .cast .integerToPointer
  | .float _, .pointer | .pointer, .float _ => .impossible

/-- Anything but a truth value is true when it is not zero. -/
def convertToBool (value : Operand) (source : TypeId) (sourceKind : TypeKind) : LowerM Operand := do
  match Imm.zero? (← codeType source) with
  | none => throw (.noConversion sourceKind .bool)
  | some zero =>
    let r ← Draft.newRegister .bool
    emit (.compare .ne (numeric sourceKind) r value zero)
    pure r

def convert (value : Operand) (source target : TypeId) : LowerM Operand := do
  let source ← plainType source
  let target ← plainType target
  let sourceKind ← typeKind source
  let targetKind ← typeKind target
  if targetKind = .bool ∧ sourceKind ≠ .bool then convertToBool value source sourceKind
  else
    let ty ← codeType target
    if (← codeType source) = ty then return value
    match scalar? sourceKind, scalar? targetKind with
    | some sourceScalar, some targetScalar =>
      match conversion sourceScalar targetScalar with
      | .keep => pure value
      | .cast kind =>
        let r ← Draft.newRegister ty
        emit (.cast kind r value)
        pure r
      | .impossible => throw (.noConversion sourceKind targetKind)
    | _, _ => throw (.noConversion sourceKind targetKind)

/-- An exception code at the width of the status. -/
def exceptionCode (value : Operand) : LowerM Operand := do
  match value with
  | .imm (.int code _) => pure (Imm.int code .w32)
  | _ =>
    match (← get).draft.operandType? value with
    | none | some (.int .w32) => pure value
    | some (.int w) =>
      let r ← Draft.newRegister .status
      emit (.cast (if w.bytes < 4 then .signExtend else .truncate) r value)
      pure r
    | some ty => throw (.noExceptionCode ty)

end FlatCode.Lower
