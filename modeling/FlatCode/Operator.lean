/-! Operators on primitive types. A call of a function that stands for one of them is
expanded in place. -/
namespace FlatCode

inductive Operator where
  | add | subtract | multiply | divide | remainder
  | bitwiseAnd | bitwiseOr | bitwiseXor | shiftLeft | shiftRight
  | equals | notEquals | lessThan | lessThanOrEqualTo | greaterThan | greaterThanOrEqualTo
  | negate | unaryPlus | complement | logicalNot
  /-- Between numbers, truth values and pointers. -/
  | convert
  /-- Takes the address of the object. -/
  | defaultConstruct
  /-- Takes the address of the object and its value. -/
  | copyConstruct
  /-- Takes the address of the left side and the value of the right one. -/
  | assign
  deriving DecidableEq

namespace Operator

def all : List Operator :=
  [add, subtract, multiply, divide, remainder, bitwiseAnd, bitwiseOr, bitwiseXor, shiftLeft,
   shiftRight, equals, notEquals, lessThan, lessThanOrEqualTo, greaterThan, greaterThanOrEqualTo,
   negate, unaryPlus, complement, logicalNot, convert, defaultConstruct, copyConstruct, assign]

def name : Operator → String
  | add => "add"
  | subtract => "subtract"
  | multiply => "multiply"
  | divide => "divide"
  | remainder => "remainder"
  | bitwiseAnd => "bitwise_and"
  | bitwiseOr => "bitwise_or"
  | bitwiseXor => "bitwise_xor"
  | shiftLeft => "shift_left"
  | shiftRight => "shift_right"
  | equals => "equals"
  | notEquals => "not_equals"
  | lessThan => "less_than"
  | lessThanOrEqualTo => "less_than_or_equal_to"
  | greaterThan => "greater_than"
  | greaterThanOrEqualTo => "greater_than_or_equal_to"
  | negate => "negate"
  | unaryPlus => "unary_plus"
  | complement => "complement"
  | logicalNot => "logical_not"
  | convert => "convert"
  | defaultConstruct => "default_construct"
  | copyConstruct => "copy_construct"
  | assign => "assign"

def ofName? (s : String) : Option Operator := all.find? fun op => op.name = s

def arity : Operator → Nat
  | negate | unaryPlus | complement | logicalNot | convert | defaultConstruct => 1
  | _ => 2

def isComparison : Operator → Bool
  | equals | notEquals | lessThan | lessThanOrEqualTo | greaterThan | greaterThanOrEqualTo => true
  | _ => false

end Operator
end FlatCode
