import FlatCode.Symbols.Table

/-! Stack slots of variables. A variable gets one slot for the whole function, under a name
that no other slot has. -/
namespace FlatCode
open Code Symbols

/-- How the slot of a variable relates to its value. -/
inductive Shape where
  /-- The slot holds the value. -/
  | value
  /-- The slot holds a pointer, which is the value. -/
  | pointer
  /-- The slot holds the address of what a reference refers to. -/
  | reference
  /-- The slot holds the address of an object of the caller. -/
  | byAddress
  deriving DecidableEq

inductive Role where
  | parameter | localVariable
  deriving DecidableEq

structure Location where
  /-- Holds the address of the slot. -/
  slot : Register
  slotType : Ty
  shape : Shape
  ty : TypeId
  name : String
  deriving DecidableEq

structure Storage where
  locations : List (VariableId × Location)
  /-- The names of all slots. -/
  taken : List String
  /-- The last number tried behind a name. -/
  suffixes : List (String × Nat)
  deriving DecidableEq

namespace Storage

def empty : Storage := ⟨[], [], []⟩

def numbered (name : String) (n : Nat) : String := name ++ toString n

/-- The first number behind `last`, up to `tries` of them, that makes a name free. -/
def freeSuffix (taken : List String) (name : String) (last : Nat) : (tries : Nat) → Nat
  | 0 => last + 1
  | tries + 1 =>
    if taken.contains (numbered name (last + 1)) then freeSuffix taken name (last + 1) tries
    else last + 1

/-- A name for a slot: the one asked for, or else with the first number that makes it free.
Numbers tried for the same name before are all taken. -/
def uniqueName (s : Storage) (name : String) : String × Storage :=
  if s.taken.contains name then
    let last := (s.suffixes.lookup name).getD 0
    let n := freeSuffix s.taken name last s.taken.length
    let unique := numbered name n
    (unique, { s with taken := unique :: s.taken, suffixes := (name, n) :: s.suffixes })
  else (name, { s with taken := name :: s.taken })

def shapeOf (kind : TypeKind) (role : Role) : Shape :=
  match kind, role with
  | .pointer _, _ => .pointer
  | .reference _, _ => .reference
  | .classType _, .parameter => .byAddress
  | _, _ => .value

def slotType (table : SymbolTable) (ty : TypeId) (role : Role) : Except Error Ty := do
  match ← table.typeKind ty, role with
  | .pointer inner, _ => return .ptr (← table.pointee inner)
  | .reference inner, _ => return .ptr (← table.pointee inner)
  | .classType _, .parameter => return .ptr (← table.pointee ty)
  | _, _ => table.codeType ty

def lookup (s : Storage) (v : VariableId) : Except Error Location :=
  match s.locations.lookup v with
  | some l => .ok l
  | none => .error (.unallocatedStorage v)

theorem lookup_ok {s : Storage} {v : VariableId} {l : Location} :
    s.lookup v = .ok l ↔ s.locations.lookup v = some l := by
  unfold lookup
  cases s.locations.lookup v <;> simp

theorem lookup_of_none {s : Storage} {v : VariableId} (h : s.locations.lookup v = none) :
    s.lookup v = .error (.unallocatedStorage v) := by
  simp only [lookup, h]

/-- What a variable needs, before a slot is made for it. -/
def plan (table : SymbolTable) (v : VariableId) (role : Role) :
    Except Error (VariableSymbol × Shape × Ty) := do
  let symbol ← table.variableSymbol v
  let kind ← table.typeKind symbol.ty
  let ty ← slotType table symbol.ty role
  pure (symbol, shapeOf kind role, ty)

end Storage
end FlatCode
