import FlatCode.Code.Layout
import FlatCode.Error

/-! The symbol table and the questions asked of it. -/
namespace FlatCode.Symbols
open Code (Ty)

structure SymbolTable where
  types : Array TypeKind
  functions : Array FunctionSymbol
  vars : Array VariableSymbol
  deriving DecidableEq

namespace SymbolTable

def empty : SymbolTable := ⟨#[], #[], #[]⟩

/-- The number of a type, new only if no equal type is known. -/
def insertType (s : SymbolTable) (kind : TypeKind) : SymbolTable × Nat :=
  match s.types.findIdx? (· = kind) with
  | some i => (s, i)
  | none => ({ s with types := s.types.push kind }, s.types.size)

def insertFunction (s : SymbolTable) (f : FunctionSymbol) : SymbolTable × Nat :=
  ({ s with functions := s.functions.push f }, s.functions.size)

def insertVariable (s : SymbolTable) (v : VariableSymbol) : SymbolTable × Nat :=
  ({ s with vars := s.vars.push v }, s.vars.size)

def typeKind (s : SymbolTable) (t : TypeId) : Except Error TypeKind :=
  match s.types[t.index.toNat]? with
  | some kind => .ok kind
  | none => .error (.unknownType t)

def functionSymbol (s : SymbolTable) (f : FunctionId) : Except Error FunctionSymbol :=
  match s.functions[f.index.toNat]? with
  | some symbol => .ok symbol
  | none => .error (.unknownFunction f)

def variableSymbol (s : SymbolTable) (v : VariableId) : Except Error VariableSymbol :=
  match s.vars[v.index.toNat]? with
  | some symbol => .ok symbol
  | none => .error (.unknownVariable v)

/-- What a reference refers to; every other type is plain already. -/
def plainType (s : SymbolTable) (t : TypeId) : Except Error TypeId := do
  match ← s.typeKind t with
  | .reference inner => pure inner
  | _ => pure t

def classInfo (s : SymbolTable) (t : TypeId) : Except Error ClassInfo := do
  match ← s.typeKind t with
  | .classType info => pure info
  | _ => throw (.notAClass t)

def isClass (s : SymbolTable) (t : TypeId) : Except Error Bool := do
  match ← s.typeKind t with
  | .classType _ => pure true
  | _ => pure false

def isVoid (s : SymbolTable) (t : TypeId) : Except Error Bool := do
  match ← s.typeKind t with
  | .void => pure true
  | _ => pure false

/-- The destructor that a value of a type owes. -/
def destructorOf (s : SymbolTable) (t : TypeId) : Except Error (Option FunctionId) := do
  match ← s.typeKind t with
  | .classType info => pure info.destructor
  | _ => pure none

/-- The type behind a pointer: a class by its name, and bytes for `void`. -/
def pointeeBy (s : SymbolTable) (represent : TypeId → Except Error Ty) (t : TypeId) :
    Except Error Ty := do
  match ← s.typeKind t with
  | .void => pure (.int .w8)
  | .classType info => pure (.named info.name)
  | _ => represent t

/-- The representation of a type in code, reached through at most `depth` types. -/
def codeTypeWithin (s : SymbolTable) : (depth : Nat) → TypeId → Except Error Ty
  | 0, t => throw (.endlessType t)
  | depth + 1, t => do
    match ← s.typeKind t with
    | .void => pure .void
    | .bool => pure .bool
    | .char => pure (.int .w32)
    | .integer w => pure (.int w)
    | .unsignedInteger w => pure (.int w)
    | .float w => pure (.float w)
    | .pointer inner => return .ptr (← s.pointeeBy (s.codeTypeWithin depth) inner)
    | .reference inner => return .ptr (← s.pointeeBy (s.codeTypeWithin depth) inner)
    | .functionPointer => pure .bytePtr
    | .classType info => do
      let base ← info.base.toList.mapM (s.codeTypeWithin depth)
      let table := if info.hasDispatchTable then [Ty.dispatchTable] else []
      let fields ← info.fields.mapM (s.codeTypeWithin depth)
      pure (.struct (some info.name) (base ++ table ++ fields))

/-- The representation of a type in code. No chain of different types is longer than the
table, so a type that is not found within it contains itself. -/
def codeType (s : SymbolTable) (t : TypeId) : Except Error Ty :=
  s.codeTypeWithin (s.types.size + 1) t

def pointee (s : SymbolTable) (t : TypeId) : Except Error Ty := s.pointeeBy s.codeType t

def sizeOf (s : SymbolTable) (t : TypeId) : Except Error Nat := do
  return (← s.codeType t).size

end SymbolTable
end FlatCode.Symbols
