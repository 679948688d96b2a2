import FlatCode.Code.Instr
import FlatCode.Error

/-! Destructor calls that are still owed. Every open scope has a stack of its own, and a way
out of scopes runs them innermost first, each in reverse order of construction. -/
namespace FlatCode

structure Obligation where
  object : Code.Operand
  destructor : FunctionId
  deriving DecidableEq

/-- One stack per open scope, the innermost first; in each, the latest obligation first. -/
structure Cleanups where
  scopes : List (List Obligation)
  deriving DecidableEq

namespace Cleanups

def empty : Cleanups := ⟨[]⟩

def depth (c : Cleanups) : Nat := c.scopes.length

def openScope (c : Cleanups) : Cleanups := ⟨[] :: c.scopes⟩

def closeScope (c : Cleanups) : Except Error Cleanups :=
  match c.scopes with
  | [] => .error .emptyCleanupStack
  | _ :: outer => .ok ⟨outer⟩

def push (c : Cleanups) (o : Obligation) : Except Error Cleanups :=
  match c.scopes with
  | [] => .error .emptyCleanupStack
  | scope :: outer => .ok ⟨(o :: scope) :: outer⟩

/-- What is owed by the scopes from the given depth inwards, in the order of destruction. -/
def pendingFrom (c : Cleanups) (depth : Nat) : List Obligation :=
  (c.scopes.take (c.depth - depth)).flatten

end Cleanups
end FlatCode
