import FlatCode.Proofs.Control.Machine

/-! A machine for code that is still being written. It stops at a branch that waits for its
target, and tells which one that is. Calls are logged with the values they pass. What a call
returns, and what is read from memory, is up to the world around the code. -/
namespace FlatCode.Truth
open Code

/-- A call as it is seen from outside. One that goes through a dispatch table has no name. -/
structure Invocation where
  callee : Option String
  arguments : List Nat
  deriving DecidableEq

abbrev Log := List Invocation

structure Config where
  /-- The place of the next instruction. -/
  place : Nat
  registers : Register → Nat
  log : Log

structure World where
  /-- What the last call of a log returns. -/
  results : Log → Nat
  memory : Config → Nat

namespace Config

def value? (m : Config) : Operand → Option Nat
  | .reg r => some (m.registers r)
  | .imm v => v.pattern?

def goto (m : Config) (place : Nat) : Config := { m with place := place }

def put (m : Config) (r : Register) (bits : Nat) : Config :=
  { m with place := m.place + 1, registers := fun r' => if r' = r then bits else m.registers r' }

def invoke (m : Config) (world : World) (call : Invocation) (dest : Option Register) : Config :=
  { place := m.place + 1
    registers := fun r =>
      if dest = some r then world.results (m.log ++ [call]) else m.registers r
    log := m.log ++ [call] }

@[simp] theorem put_same (m : Config) (r : Register) (bits : Nat) :
    (m.put r bits).registers r = bits := if_pos rfl

theorem put_other (m : Config) {r r' : Register} (bits : Nat) (h : r' ≠ r) :
    (m.put r bits).registers r' = m.registers r' := if_neg h

theorem invoke_other (m : Config) (world : World) (call : Invocation) {dest : Option Register}
    {r : Register} (h : dest ≠ some r) :
    (m.invoke world call dest).registers r = m.registers r := if_neg h

theorem value?_congr {m m' : Config} {x : Operand}
    (h : ∀ r, x = .reg r → m'.registers r = m.registers r) : m'.value? x = m.value? x := by
  cases x with
  | reg r => exact congrArg some (h r rfl)
  | imm v => rfl

end Config

def nameOf : Callee → Option String
  | .direct name => some name
  | .indirect _ => none

inductive Next where
  | goes (m : Config)
  /-- Control takes a branch that has no target yet. -/
  | leaves (b : PendingBranch)

section
variable (code : Array Instr) (world : World)

def place? (l : Label) : Option Nat := code.findIdx? (· = .label l)

def cross (m : Config) (b : PendingBranch) : Option Next :=
  (code[b.instr.index]?.bind (Instr.target? b.edge)).bind fun target =>
    match target with
    | none => some (.leaves b)
    | some l => (place? code l).map fun p => .goes (m.goto p)

def edgeOn (bits : Nat) : Edge := if bits = 0 then .negative else .positive

/-- One instruction. There is no step from a return, and none that writes memory. -/
def step (m : Config) : Option Next :=
  match code[m.place]? with
  | some (.label _) | some (.comment _) => some (.goes (m.goto (m.place + 1)))
  | some (.load r _) | some (.fieldPtr r _ _) | some (.elementPtr r _ _) =>
    some (.goes (m.put r (world.memory m)))
  | some (.move r x) => (m.value? x).map fun bits => .goes (m.put r bits)
  | some (.unary .not r x) =>
    (m.value? x).map fun bits => .goes (m.put r (decide (bits = 0)).toNat)
  | some (.call callee arguments dest) =>
    (arguments.mapM m.value?).map fun values =>
      .goes (m.invoke world ⟨nameOf callee, values⟩ dest)
  | some (.branch condition _ _) =>
    (m.value? condition).bind fun bits => cross code m ⟨⟨m.place⟩, edgeOn bits⟩
  | some (.jump _) => cross code m ⟨⟨m.place⟩, .unconditional⟩
  | _ => none

def next? (m : Config) : Option Config :=
  match step code world m with
  | some (.goes m') => some m'
  | _ => none

abbrev Reaches (m m' : Config) : Prop := Run.Reaches (next? code world) m m'

/-- The next step takes a branch that has no target yet. -/
def Leaves (m : Config) (b : PendingBranch) : Prop := step code world m = some (.leaves b)

end

section
variable {code : Array Instr} {world : World} {m m' m'' : Config}

theorem reaches_step (h : step code world m = some (.goes m')) : Reaches code world m m' :=
  .of_step (by rw [next?, h])

theorem Leaves.ends {b : PendingBranch} (h : Leaves code world m b) :
    next? code world m = none := by
  rw [next?, h]

theorem place_lt_of_step {next : Next} (h : step code world m = some next) :
    m.place < code.size := by
  by_cases hlt : m.place < code.size
  · exact hlt
  · unfold step at h
    rw [Array.getElem?_eq_none (by omega)] at h
    cases h

theorem Leaves.inside {b : PendingBranch} (h : Leaves code world m' b)
    (hm' : Reaches code world m m') (hm'' : Reaches code world m m'') :
    m''.place < code.size := by
  obtain ⟨k, hk⟩ := hm'.last h.ends hm''
  cases k with
  | zero =>
    obtain rfl : m'' = m' := by simpa [Run.run] using hk
    exact place_lt_of_step h
  | succ k =>
    obtain ⟨m1, next, -⟩ := Option.bind_eq_some_iff.1 hk
    unfold next? at next
    split at next
    · rename_i hstep
      exact place_lt_of_step hstep
    · cases next

end
end FlatCode.Truth
