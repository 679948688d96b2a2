import FlatCode.Ids
import FlatCode.Operator
import FlatCode.Text.Quoted
import FlatCode.Width

/-! What the symbol table knows about types, functions and variables. -/
namespace FlatCode.Symbols

structure ClassInfo where
  name : String
  base : Option TypeId
  fields : List TypeId
  /-- Set on the class that brings virtual functions into its hierarchy. The pointer to
  the table stands right behind the base object. -/
  hasDispatchTable : Bool
  /-- Runs when an object goes out of scope. -/
  destructor : Option FunctionId
  deriving DecidableEq

inductive TypeKind where
  | void
  | bool
  | char
  | integer (width : IntWidth)
  | unsignedInteger (width : IntWidth)
  | float (width : FloatWidth)
  | pointer (pointee : TypeId)
  | reference (referent : TypeId)
  /-- The address of code. -/
  | functionPointer
  | classType (info : ClassInfo)
  deriving DecidableEq

structure FunctionSymbol where
  name : String
  returnType : TypeId
  canRaise : Bool
  returnsByHiddenSlot : Bool
  /-- Expanded in place instead of called. -/
  operator : Option Operator
  /-- The entry in the dispatch table of the owner. -/
  dispatchSlot : Option UInt32
  owner : Option TypeId
  deriving DecidableEq

structure VariableSymbol where
  name : String
  ty : TypeId
  deriving DecidableEq

namespace ClassInfo

/-- Where the table pointer stands in the struct of the class. -/
def dispatchTableSlot (c : ClassInfo) : Nat := if c.base.isSome then 1 else 0

/-- Where a declared field stands in the struct of the class. -/
def fieldSlot (c : ClassInfo) (field : Nat) : Nat :=
  field + (if c.base.isSome then 1 else 0) + if c.hasDispatchTable then 1 else 0

end ClassInfo

def symbolText (name : String) : String := "InternedSymbol(_, " ++ Text.quoted name ++ ")"

def optionText (write : α → String) : Option α → String
  | none => "None"
  | some a => "Some(" ++ write a ++ ")"

def ClassInfo.text (c : ClassInfo) : String :=
  "ClassType \x7b name: " ++ symbolText c.name ++
    ", base: " ++ optionText TypeId.text c.base ++
    ", fields: [" ++ ", ".intercalate (c.fields.map TypeId.text) ++
    "], has_dispatch_table: " ++ toString c.hasDispatchTable ++
    ", destructor: " ++ optionText FunctionId.text c.destructor ++ " \x7d"

def TypeKind.text : TypeKind → String
  | .void => "Void"
  | .bool => "Bool"
  | .char => "Char"
  | .integer w => s!"Integer(I{w.bits})"
  | .unsignedInteger w => s!"UnsignedInteger(U{w.bits})"
  | .float w => s!"Float(F{w.bits})"
  | .pointer t => "Pointer(" ++ t.text ++ ")"
  | .reference t => "Reference(" ++ t.text ++ ")"
  | .functionPointer => "FunctionPointer"
  | .classType c => "Class(" ++ c.text ++ ")"

end FlatCode.Symbols
