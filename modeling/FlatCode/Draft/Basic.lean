import FlatCode.Code.Instr
import FlatCode.Error

/-! A function while its code is being written. Stack slots collect in front of the body,
so a slot can be asked for at any point. -/
namespace FlatCode
open Code

structure Draft where
  /-- The type of every register so far. -/
  registers : Array Ty
  /-- What comes before the body. -/
  entry : Array Instr
  body : Array Instr
  /-- How many labels have been made. -/
  labels : Nat
  deriving DecidableEq

namespace Draft

def empty : Draft := ⟨#[], #[], #[], 0⟩

/-- Changes to a draft. What was written before a failure stays written. -/
abbrev Edit := EStateM Error Draft

def newRegister (ty : Ty) : Edit Register :=
  modifyGet fun d => (⟨d.registers.size⟩, { d with registers := d.registers.push ty })

def newLabel : Edit Label :=
  modifyGet fun d => (⟨d.labels⟩, { d with labels := d.labels + 1 })

def emit (i : Instr) : Edit InstrId :=
  modifyGet fun d => (⟨d.body.size⟩, { d with body := d.body.push i })

def emitEntry (i : Instr) : Edit Unit :=
  modify fun d => { d with entry := d.entry.push i }

def place (l : Label) : Edit Unit := discard (emit (.label l))

/-- A stack slot, and the register that holds its address. -/
def allocSlot (ty : Ty) (name : Option String) : Edit Register := do
  let r ← newRegister (.ptr ty)
  emitEntry (.alloc r ty name)
  pure r

/-- The label of the point reached: the one just placed, or a new one. -/
def hereLabel : Edit Label := do
  match (← get).body.back? with
  | some (.label l) => pure l
  | _ =>
    let l ← newLabel
    place l
    pure l

/-- Whether control can not come past the last instruction. Comments do not count. -/
def endsInTerminator (d : Draft) : Bool :=
  match d.body.findRev? fun i => !i.isComment with
  | some i => i.isTerminator
  | none => false

/-- The type of an operand, where it shows. -/
def operandType? (d : Draft) : Operand → Option Ty
  | .reg r => d.registers[r.index]?
  | .imm value => value.type?

end Draft
end FlatCode
