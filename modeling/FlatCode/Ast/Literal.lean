import FlatCode.Code.Instr
import FlatCode.Number.Decimal
import FlatCode.Text.Quoted

/-! Literals, the text by which switch cases are told apart, and the immediate a literal
becomes in code. -/
namespace FlatCode.Ast

inductive Literal where
  | bool (value : Bool)
  | char (value : Char)
  | signed (value : Int64)
  | unsigned (value : UInt64)
  | float (value : Binary64)
  | null
  deriving DecidableEq

namespace Literal

def key : Literal → String
  | bool value => toString value
  | char value => Text.quotedChar value
  | signed value => toString value.toInt
  | unsigned value => toString value.toNat
  | float value => value.text
  | null => "null"

def integer? : Literal → Option Int
  | char value => some value.toNat
  | signed value => some value.toInt
  | unsigned value => some value.toNat
  | _ => none

private def widthOr (w : IntWidth) : Code.Ty → IntWidth
  | .int v => v
  | _ => w

/-- The immediate of a literal in the representation of its type. -/
def toImm (ty : Code.Ty) : Literal → Code.Imm
  | bool value => .bool value
  | char value => .int value.toNat (widthOr .w32 ty)
  | signed value =>
    match ty with
    | .float w => .float (.ofInt value.toInt) w
    | _ => .int value.toInt (widthOr .w64 ty)
  | unsigned value =>
    match ty with
    | .float w => .float (.ofNat value.toNat) w
    | _ => .int value.toNat (widthOr .w64 ty)
  | float value =>
    match ty with
    | .float w => .float value w
    | _ => .float value .w64
  | null => .null

end Literal
end FlatCode.Ast
