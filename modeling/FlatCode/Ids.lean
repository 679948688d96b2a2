/-! Numbers that name things. Types, functions and variables are numbered by the symbol
table, registers, labels and instructions by the code that is written. -/
namespace FlatCode

structure TypeId where
  index : UInt32
  deriving DecidableEq

structure FunctionId where
  index : UInt32
  deriving DecidableEq

structure VariableId where
  index : UInt32
  deriving DecidableEq

structure Register where
  index : Nat
  deriving DecidableEq

structure Label where
  index : Nat
  deriving DecidableEq

/-- The place of an instruction. -/
structure InstrId where
  index : Nat
  deriving DecidableEq

def TypeId.text (id : TypeId) : String := s!"TypeId({id.index.toNat})"

def FunctionId.text (id : FunctionId) : String := s!"FunctionId({id.index.toNat})"

def VariableId.text (id : VariableId) : String := s!"VariableId({id.index.toNat})"

def Label.text (l : Label) : String := s!"LabelId({l.index})"

def InstrId.text (id : InstrId) : String := s!"InstructionId({id.index})"

end FlatCode
