import FlatCode.Code.Type
import FlatCode.Ids
import FlatCode.Number.Binary64

/-! Instructions of flat code. -/
namespace FlatCode.Code

inductive Imm where
  | int (value : Int) (width : IntWidth)
  | float (value : Binary64) (width : FloatWidth)
  | bool (value : Bool)
  | null
  /-- The address of a function. -/
  | fn (name : String)
  deriving DecidableEq

inductive Operand where
  | imm (value : Imm)
  | reg (register : Register)
  deriving DecidableEq

instance : Coe Imm Operand := ⟨.imm⟩
instance : Coe Register Operand := ⟨.reg⟩

inductive Callee where
  | direct (name : String)
  | indirect (address : Register)
  deriving DecidableEq

inductive UnaryOp where
  | negate | complement | not
  deriving DecidableEq

inductive BinaryOp where
  | add | sub | mul | div | rem | and | or | xor | shl | shr
  deriving DecidableEq

inductive Predicate where
  | eq | ne | lt | le | gt | ge
  deriving DecidableEq

/-- How an operation reads the bits of its operands. -/
inductive Numeric where
  | signed | unsigned | float
  deriving DecidableEq

inductive Cast where
  | truncate | signExtend | zeroExtend | floatTruncate | floatExtend
  | signedToFloat | unsignedToFloat | floatToSigned | floatToUnsigned
  | pointerToInteger | integerToPointer | bitcast
  deriving DecidableEq

inductive Instr where
  | label (label : Label)
  | alloc (dest : Register) (ty : Ty) (name : Option String)
  | load (dest : Register) (source : Operand)
  | store (dest source : Operand)
  | copy (dest source : Operand) (size : Nat)
  | move (dest : Register) (source : Operand)
  | unary (op : UnaryOp) (dest : Register) (operand : Operand)
  | binary (op : BinaryOp) (kind : Numeric) (dest : Register) (lhs rhs : Operand)
  | compare (predicate : Predicate) (kind : Numeric) (dest : Register) (lhs rhs : Operand)
  | cast (kind : Cast) (dest : Register) (operand : Operand)
  | fieldPtr (dest : Register) (source : Operand) (index : Nat)
  | elementPtr (dest : Register) (source index : Operand)
  | call (callee : Callee) (arguments : List Operand) (dest : Option Register)
  /-- Goes to `positive` when the condition is not zero. -/
  | branch (condition : Operand) (positive negative : Option Label)
  | jump (target : Option Label)
  | switch (value : Operand) (cases : List (Imm × Label)) (default : Label)
  | ret (value : Option Operand)
  | comment (text : String)
  deriving DecidableEq

def Imm.zero? : Ty → Option Imm
  | .int w => some (.int 0 w)
  | .float w => some (.float .zero w)
  | .ptr _ => some .null
  | .void | .struct _ _ | .named _ => none

/-- The type of an immediate; a null pointer fits any pointer type. -/
def Imm.type? : Imm → Option Ty
  | .int _ w => some (.int w)
  | .float _ w => some (.float w)
  | .bool _ => some .bool
  | .fn _ => some .bytePtr
  | .null => none

/-- Control never goes on to the next instruction. -/
def Instr.isTerminator : Instr → Bool
  | .jump _ | .switch _ _ _ | .ret _ => true
  | _ => false

def Instr.isComment : Instr → Bool
  | .comment _ => true
  | _ => false

def Instr.directCallee? : Instr → Option String
  | .call (.direct name) _ _ => some name
  | _ => none

def Instr.callsDirectly (name : String) (i : Instr) : Bool := i.directCallee? = some name

/-- A function in flat code. Stack slots come first, and `labels` holds the place of
every label. -/
structure Function where
  name : String
  registers : Array Ty
  arguments : List Register
  instrs : Array Instr
  labels : List InstrId
  landingPads : Nat
  deriving DecidableEq

def Function.directCalls (f : Function) : List String :=
  f.instrs.toList.filterMap Instr.directCallee?

end FlatCode.Code
