import FlatCode.Proofs.Placement
import FlatCode.Proofs.Run

/-! A machine for code that calls and branches. What calls return is up to an oracle, which is
asked with all calls made so far. Memory is left out: such code never looks at it. -/
namespace FlatCode
open Code

structure Call where
  callee : Callee
  arguments : List Operand
  deriving DecidableEq

abbrev History := List Call

/-- What the last call of a history returns. -/
abbrev Oracle := History → Int

def IntWidth.pattern (w : IntWidth) (v : Int) : Nat := (BitVec.ofInt w.bits v).toNat

def Code.Imm.pattern? : Imm → Option Nat
  | .int v w => some (w.pattern v)
  | .bool b => some b.toNat
  | .float _ _ | .null | .fn _ => none

structure Machine where
  /-- The place of the next instruction. -/
  place : Nat
  registers : Register → Nat
  history : History

namespace Machine

def value? (m : Machine) : Operand → Option Nat
  | .reg r => some (m.registers r)
  | .imm v => v.pattern?

def goto (m : Machine) (place : Nat) : Machine := { m with place := place }

def advance (m : Machine) : Machine := m.goto (m.place + 1)

end Machine

def Code.Instr.isIdle : Instr → Bool
  | .label _ | .comment _ | .alloc _ _ _ | .store _ _ => true
  | _ => false

namespace Code.Function
variable (c : Code.Function) (oracle : Oracle)

def resultBits (r : Register) (v : Int) : Nat :=
  match c.registers[r.index]? with
  | some (.int w) => w.pattern v
  | _ => v.toNat

def call (m : Machine) (event : Call) (dest : Option Register) : Machine :=
  let history := m.history ++ [event]
  { place := m.place + 1
    registers := fun r =>
      if dest = some r then c.resultBits r (oracle history) else m.registers r
    history := history }

def follow (m : Machine) (l : Label) : Option Machine :=
  c.labels[l.index]?.map fun p => m.goto p.index

def switchTarget (bits : Nat) (cases : List (Imm × Label)) (default : Label) : Label :=
  ((cases.find? fun entry => entry.1.pattern? = some bits).map Prod.snd).getD default

/-- One instruction. There is no step from a return, nor one that looks at memory. -/
def step (m : Machine) : Option Machine :=
  match c.instrs[m.place]? with
  | some (.label _) | some (.comment _) | some (.alloc _ _ _) | some (.store _ _) => some m.advance
  | some (.call callee arguments dest) => some (c.call oracle m ⟨callee, arguments⟩ dest)
  | some (.branch condition positive negative) =>
    (m.value? condition).bind fun bits =>
      (if bits ≠ 0 then positive else negative).bind (c.follow m)
  | some (.jump target) => target.bind (c.follow m)
  | some (.switch value cases default) =>
    (m.value? value).bind fun bits => c.follow m (switchTarget bits cases default)
  | _ => none

abbrev run (n : Nat) (m : Machine) : Option Machine := Run.run (c.step oracle) n m

abbrev Reaches (m m' : Machine) : Prop := Run.Reaches (c.step oracle) m m'

def AtReturn (m : Machine) : Prop := ∃ value, c.instrs[m.place]? = some (.ret value)

end Code.Function

namespace Code.Function
variable {c : Code.Function} {oracle : Oracle} {m m' m'' : Machine}

theorem AtReturn.step_eq (h : c.AtReturn m) : c.step oracle m = none := by
  obtain ⟨value, hv⟩ := h
  unfold step
  rw [hv]

theorem follow_history {l : Label} (h : c.follow m l = some m') : m'.history = m.history := by
  obtain ⟨p, -, rfl⟩ := Option.map_eq_some_iff.1 h
  rfl

theorem step_history (h : c.step oracle m = some m') : m.history <+: m'.history := by
  have followed {l : Label} (h : c.follow m l = some m') : m.history <+: m'.history :=
    follow_history h ▸ List.prefix_refl _
  unfold step at h
  split at h
  case h_5 =>
    cases h
    exact List.prefix_append _ _
  case h_6 =>
    obtain ⟨bits, -, h⟩ := Option.bind_eq_some_iff.1 h
    obtain ⟨l, -, h⟩ := Option.bind_eq_some_iff.1 h
    exact followed h
  case h_7 | h_8 =>
    obtain ⟨_, -, h⟩ := Option.bind_eq_some_iff.1 h
    exact followed h
  all_goals
    cases h
    try exact List.prefix_refl _

theorem run_history : ∀ {k : Nat} {m : Machine}, c.run oracle k m = some m' →
    m.history <+: m'.history
  | 0, m, h => by
    obtain rfl : m = m' := by simpa [Run.run] using h
    exact List.prefix_refl _
  | k + 1, m, h => by
    obtain ⟨m1, hstep, hrun⟩ := Option.bind_eq_some_iff.1 h
    exact (step_history hstep).trans (run_history hrun)

theorem AtReturn.length_le {j k : Nat} (hj : c.run oracle j m = some m') (halted : c.AtReturn m')
    (hk : c.run oracle k m = some m'') : k ≤ j :=
  Run.length_le hj halted.step_eq hk

variable (c oracle)

def Lasts (n : Nat) (h : History) (m : Machine) : Prop :=
  ∃ k m', n ≤ k ∧ c.run oracle k m = some m' ∧ m'.history = h

variable {c oracle}

theorem Lasts.zero (m : Machine) : c.Lasts oracle 0 m.history m := ⟨0, m, Nat.le_refl 0, rfl, rfl⟩

theorem Lasts.after {n : Nat} {h : History} (k : c.Reaches oracle m m')
    (hm : c.Lasts oracle n h m') : c.Lasts oracle n h m := by
  obtain ⟨i, hi⟩ := k
  obtain ⟨j, m'', hj, hrun, hh⟩ := hm
  exact ⟨i + j, m'', by omega, by rw [run, Run.run_add, hi]; exact hrun, hh⟩

theorem Lasts.after_step {n : Nat} {h : History} (k : c.step oracle m = some m')
    (hm : c.Lasts oracle n h m') : c.Lasts oracle (n + 1) h m := by
  obtain ⟨j, m'', hj, hrun, hh⟩ := hm
  exact ⟨j + 1, m'', by omega, by simpa [Run.run, k] using hrun, hh⟩

theorem Lasts.mono {n n' : Nat} {h : History} (hn : n' ≤ n) (hm : c.Lasts oracle n h m) :
    c.Lasts oracle n' h m := by
  obtain ⟨j, m', hj, rest⟩ := hm
  exact ⟨j, m', by omega, rest⟩

theorem step_idle {i : Instr} (h : c.instrs[m.place]? = some i) (hi : i.isIdle) :
    c.step oracle m = some m.advance := by
  unfold step
  rw [h]
  cases i <;> first | rfl | cases hi

/-- A run for each bound on its length, and whether it has come to a return then. Since the
machine takes at most one step from each configuration, these runs are all it does. -/
def Follows (c : Code.Function) (oracle : Oracle) (m : Machine) (calls : Nat → History × Bool) :
    Prop :=
  ∀ n, match calls n with
    | (h, false) => c.Lasts oracle n h m
    | (h, true) => ∃ m', c.Reaches oracle m m' ∧ m'.history = h ∧ c.AtReturn m'

section Follows
variable {calls : Nat → History × Bool}

theorem Follows.onward (follows : c.Follows oracle m calls) {k : Nat}
    (hk : c.run oracle k m = some m') (n : Nat) (hn : k ≤ n) : ∃ j m'', k ≤ j ∧
      c.run oracle j m = some m'' ∧ m''.history = (calls n).1 ∧
      ((calls n).2 = false → n ≤ j) ∧ ((calls n).2 = true → c.AtReturn m'') := by
  have hf := follows n
  cases hc : calls n with
  | mk h returned =>
    rw [hc] at hf
    cases returned with
    | false =>
      obtain ⟨j, m'', hj, run, history⟩ := hf
      exact ⟨j, m'', by omega, run, history, fun _ => hj, fun absurd => nomatch absurd⟩
    | true =>
      obtain ⟨m'', ⟨j, run⟩, history, atReturn⟩ := hf
      exact ⟨j, m'', atReturn.length_le run hk, run, history, (fun absurd => nomatch absurd),
        fun _ => atReturn⟩

theorem Follows.calls_iff (follows : c.Follows oracle m calls) (h : History) :
    (∃ m', c.Reaches oracle m m' ∧ h <+: m'.history) ↔ ∃ n, h <+: (calls n).1 := by
  constructor
  · rintro ⟨m', ⟨k, hk⟩, made⟩
    obtain ⟨j, m'', hj, run, history, -, -⟩ := follows.onward hk k (Nat.le_refl k)
    refine ⟨k, made.trans ?_⟩
    rw [← history]
    exact run_history (Run.run_between hk run hj)
  · rintro ⟨n, made⟩
    obtain ⟨j, m', -, run, history, -, -⟩ := follows.onward (k := 0) rfl n (Nat.zero_le n)
    exact ⟨m', ⟨j, run⟩, by rw [history]; exact made⟩

theorem Follows.returns_iff (follows : c.Follows oracle m calls) (h : History) :
    (∃ m', c.Reaches oracle m m' ∧ c.AtReturn m' ∧ m'.history = h) ↔
      ∃ n, calls n = (h, true) := by
  constructor
  · rintro ⟨m', ⟨k, hk⟩, atReturn, rfl⟩
    obtain ⟨j, m'', hj, run, history, lasts, -⟩ := follows.onward hk (k + 1) (by omega)
    -- a run that is as long as this one ends where it does
    have hjk : j ≤ k := atReturn.length_le hk run
    obtain rfl : j = k := by omega
    obtain rfl : m' = m'' := by simpa [hk] using run
    refine ⟨j + 1, Prod.ext history.symm ?_⟩
    cases hc : (calls (j + 1)).2 with
    | false => exact absurd (lasts hc) (by omega)
    | true => rfl
  · rintro ⟨n, hn⟩
    have hf := follows n
    rw [hn] at hf
    obtain ⟨m', reaches, history, atReturn⟩ := hf
    exact ⟨m', reaches, atReturn, history⟩

theorem Follows.progress (follows : c.Follows oracle m calls) (reaches : c.Reaches oracle m m') :
    c.AtReturn m' ∨ ∃ m'', c.step oracle m' = some m'' := by
  obtain ⟨k, hk⟩ := reaches
  obtain ⟨j, m'', hj, run, -, lasts, returns⟩ := follows.onward hk (k + 1) (by omega)
  have rest := Run.run_between hk run hj
  cases hlen : j - k with
  | zero =>
    rw [hlen] at rest
    obtain rfl : m' = m'' := by simpa [Run.run] using rest
    cases hc : (calls (k + 1)).2 with
    | false =>
      have := lasts hc
      omega
    | true => exact .inl (returns hc)
  | succ n =>
    rw [hlen] at rest
    obtain ⟨m1, hstep, -⟩ := Option.bind_eq_some_iff.1 rest
    exact .inr ⟨m1, hstep⟩

end Follows

theorem reaches_idle : ∀ (k : Nat) {m : Machine},
    (∀ j, j < k → ∃ i, c.instrs[m.place + j]? = some i ∧ i.isIdle) →
      c.Reaches oracle m (m.goto (m.place + k))
  | 0, m, _ => .refl m
  | k + 1, m, h => by
    obtain ⟨i, hi, idle⟩ := h 0 (by omega)
    have rest : c.Reaches oracle m.advance (m.advance.goto (m.advance.place + k)) := by
      refine reaches_idle k fun j hj => ?_
      obtain ⟨i, hi, idle⟩ := h (j + 1) (by omega)
      exact ⟨i, by rwa [Nat.add_comm j 1, ← Nat.add_assoc] at hi, idle⟩
    have same : m.advance.goto (m.advance.place + k) = m.goto (m.place + (k + 1)) := by
      simp only [Machine.advance, Machine.goto, Nat.add_assoc, Nat.add_comm 1 k]
    rw [← same]
    exact (Run.Reaches.of_step (step_idle hi idle)).trans rest

end Code.Function
end FlatCode
