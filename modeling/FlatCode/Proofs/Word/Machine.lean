import FlatCode.Proofs.Truth.Machine
import FlatCode.Proofs.Word.Basic

/-! A machine that calculates. Its registers hold words of the widths of their types, and code that
mixes widths gets stuck. It neither calls nor touches memory. -/
namespace FlatCode.Code

abbrev Registers := Register → Word

def Imm.word? : Imm → Option Word
  | .int n w => some (.ofInt w n)
  | .bool value => some (.ofBool value)
  | .float _ _ | .null | .fn _ => none

namespace Operand

def word? (registers : Registers) : Operand → Option Word
  | .reg r => some (registers r)
  | .imm value => value.word?

theorem word?_congr {registers registers' : Registers} {x : Operand}
    (h : ∀ r, x = .reg r → registers' r = registers r) :
    x.word? registers' = x.word? registers := by
  cases x with
  | reg r => exact congrArg some (h r rfl)
  | imm v => rfl

end Operand

/-- The word that an instruction calculates, and its register. -/
def Instr.calculates? (types : Array Ty) (registers : Registers) : Instr → Option (Register × Word)
  | .move r x => do
    let a ← x.word? registers
    return (r, a)
  | .unary op r x => do
    let a ← x.word? registers
    return (r, a.unary op)
  | .binary op kind r x y => do
    let a ← x.word? registers
    let b ← y.word? registers
    return (r, ← a.binary op kind b)
  | .compare predicate kind r x y => do
    let a ← x.word? registers
    let b ← y.word? registers
    return (r, ← a.compare predicate kind b)
  | .cast kind r x =>
    match types[r.index]? with
    | some (.int w) => do
      let a ← x.word? registers
      return (r, ← a.cast kind w)
    | _ => none
  | _ => none

end FlatCode.Code

namespace FlatCode.Calculator
open Code

structure Config where
  /-- The place of the next instruction. -/
  place : Nat
  registers : Registers

namespace Config

def goto (m : Config) (place : Nat) : Config := { m with place := place }

def put (m : Config) (r : Register) (x : Word) : Config :=
  ⟨m.place + 1, fun r' => if r' = r then x else m.registers r'⟩

@[simp] theorem put_same (m : Config) (r : Register) (x : Word) : (m.put r x).registers r = x :=
  if_pos rfl

theorem put_other (m : Config) {r r' : Register} (x : Word) (h : r' ≠ r) :
    (m.put r x).registers r' = m.registers r' := if_neg h

end Config

section
variable (code : Array Instr) (types : Array Ty)

/-- One instruction. What is put in a register has the width of its type. -/
def step (m : Config) : Option Config :=
  match code[m.place]? with
  | some (.label _) | some (.comment _) => some (m.goto (m.place + 1))
  | some (.jump (some l)) => (Truth.place? code l).map m.goto
  | some (.branch condition (some positive) (some negative)) => do
    let x ← condition.word? m.registers
    (Truth.place? code (if x.bits = 0 then negative else positive)).map m.goto
  | some i => do
    let (r, x) ← i.calculates? types m.registers
    if types[r.index]? = some (.int x.width) then some (m.put r x) else none
  | none => none

abbrev Reaches (m m' : Config) : Prop := Run.Reaches (step code types) m m'

end

section
variable {code : Array Instr} {types : Array Ty} {m m' m'' : Config}

theorem step_calculates {i : Instr} {r : Register} {x : Word} (hi : code[m.place]? = some i)
    (calculates : i.calculates? types m.registers = some (r, x))
    (typed : types[r.index]? = some (.int x.width)) : step code types m = some (m.put r x) := by
  unfold step
  rw [hi]
  cases i with
  | move | unary | binary | compare | cast =>
    simp only [calculates, Option.bind_eq_bind, Option.bind_some, typed, if_true]
  | _ => cases calculates

end
end FlatCode.Calculator
