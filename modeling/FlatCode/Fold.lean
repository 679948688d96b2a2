import FlatCode.Symbols.Table
import FlatCode.Ast.Basic

/-! Folding of expressions that are known when code is written. A result that its type can
not hold does not fold, and neither does a division by zero. -/
namespace FlatCode
open Symbols Ast

inductive Const where
  | bool (value : Bool)
  | int (value : Int)
  deriving DecidableEq

namespace Fold

/-- Why an expression does not fold. -/
inductive Failure where
  | notConstant (kind : String)
  | overflow
  | divisionByZero
  | mismatch (context : String)
  | symbol (cause : Error)
  deriving DecidableEq

def Failure.message : Failure → String
  | notConstant kind => "expression of kind `" ++ kind ++ "` is not a compile time constant"
  | overflow => "constant arithmetic overflows its type"
  | divisionByZero => "constant division by zero"
  | mismatch context => "constant of the wrong kind for `" ++ context ++ "`"
  | symbol cause => cause.message

abbrev Result := Except Failure

def ask (answer : Except Error α) : Result α := answer.mapError Failure.symbol

def truth (context : String) : Const → Result Bool
  | .bool value => .ok value
  | .int _ => .error (.mismatch context)

def integer : Const → Int
  | .bool value => if value then 1 else 0
  | .int value => value

/-- The least and the largest value of an integer type. -/
def range? : TypeKind → Option (Int × Int)
  | .integer w => some (-(Nat.pow 2 (w.bits - 1)), Nat.pow 2 (w.bits - 1) - 1)
  | .unsignedInteger w => some (0, Nat.pow 2 w.bits - 1)
  | .char => some (0, 0x10ffff)
  | _ => none

/-- A value, if its type can hold it. -/
def fit (table : SymbolTable) (value : Int) (ty : TypeId) : Result Const := do
  match range? (← ask (table.typeKind (← ask (table.plainType ty)))) with
  | none => throw (.notConstant "non-integer arithmetic")
  | some (least, largest) =>
    if least ≤ value ∧ value ≤ largest then pure (.int value) else throw .overflow

def convert (table : SymbolTable) (value : Const) (ty : TypeId) : Result Const := do
  match ← ask (table.typeKind (← ask (table.plainType ty))) with
  | .bool => pure (.bool (integer value ≠ 0))
  | _ => fit table (integer value) ty

/-- Intermediate results have 128 bits. -/
def within128 (value : Int) : Result Int :=
  if -(Nat.pow 2 127) ≤ value ∧ value < Nat.pow 2 127 then .ok value else .error .overflow

/-- A bitwise operation on two's complement numbers. -/
def bitwise (f : BitVec 128 → BitVec 128 → BitVec 128) (lhs rhs : Int) : Int :=
  (f (.ofInt 128 lhs) (.ofInt 128 rhs)).toInt

def compare? (op : Operator) (lhs rhs : Int) : Option Bool :=
  match op with
  | .equals => some (lhs = rhs)
  | .notEquals => some (lhs ≠ rhs)
  | .lessThan => some (lhs < rhs)
  | .lessThanOrEqualTo => some (lhs ≤ rhs)
  | .greaterThan => some (lhs > rhs)
  | .greaterThanOrEqualTo => some (lhs ≥ rhs)
  | _ => none

/-- Arithmetic before it is fitted to a type. Division goes toward zero. -/
def arithmetic (kind : String) (op : Operator) (lhs rhs : Int) : Result Int :=
  match op with
  | .add => within128 (lhs + rhs)
  | .subtract => within128 (lhs - rhs)
  | .multiply => within128 (lhs * rhs)
  | .divide => if rhs = 0 then .error .divisionByZero else within128 (lhs.tdiv rhs)
  | .remainder => if rhs = 0 then .error .divisionByZero else within128 (lhs.tmod rhs)
  | .bitwiseAnd => .ok (bitwise (· &&& ·) lhs rhs)
  | .bitwiseOr => .ok (bitwise (· ||| ·) lhs rhs)
  | .bitwiseXor => .ok (bitwise (· ^^^ ·) lhs rhs)
  | _ => .error (.notConstant kind)

def binary (table : SymbolTable) (kind : String) (ty : TypeId) (op : Operator) (lhs rhs : Int) :
    Result Const :=
  match compare? op lhs rhs with
  | some value => .ok (.bool value)
  | none => do
    let value ← arithmetic kind op lhs rhs
    fit table value ty

def unary (table : SymbolTable) (kind : String) (ty : TypeId) (op : Operator) (value : Const) :
    Result Const :=
  match op with
  | .logicalNot => do
    let value ← truth "!" value
    pure (.bool (!value))
  | .unaryPlus => pure value
  | .negate => do
    let negated ← within128 (-integer value)
    fit table negated ty
  | .convert => convert table value ty
  | _ => throw (.notConstant kind)

def operatorOf (table : SymbolTable) (kind : String) (f : FunctionId) : Result Operator := do
  match (← ask (table.functionSymbol f)).operator with
  | some op => pure op
  | none => throw (.notConstant kind)

def literal : Literal → Result Const
  | .bool value => .ok (.bool value)
  | .char value => .ok (.int value.toNat)
  | .signed value => .ok (.int value.toInt)
  | .unsigned value => .ok (.int value.toNat)
  | .float _ | .null => .error (.notConstant "literal")

end Fold

open Fold in
/-- The value of an expression. The right side of a connective counts only if the left side
does not decide. -/
def Ast.Expr.fold (table : SymbolTable) : Expr → Fold.Result Const
  | .literal _ value => Fold.literal value
  | .conjunction _ lhs rhs => do
    if ← truth "&&" (← lhs.fold table) then
      return .bool (← truth "&&" (← rhs.fold table))
    else return .bool false
  | .disjunction _ lhs rhs => do
    if ← truth "||" (← lhs.fold table) then return .bool true
    else return .bool (← truth "||" (← rhs.fold table))
  | .unary ty f operand => do
    let op ← operatorOf table "unary" f
    Fold.unary table "unary" ty op (← operand.fold table)
  | .conversion ty f operand => do
    let op ← operatorOf table "conversion" f
    Fold.unary table "conversion" ty op (← operand.fold table)
  | .binary ty f lhs rhs => do
    let op ← operatorOf table "binary" f
    let lhs ← lhs.fold table
    let rhs ← rhs.fold table
    Fold.binary table "binary" ty op (integer lhs) (integer rhs)
  | e => .error (.notConstant e.kind)

def Ast.Expr.truth? (table : SymbolTable) (e : Expr) : Option Bool :=
  match e.fold table with
  | .ok (.bool value) => some value
  | _ => none

end FlatCode
