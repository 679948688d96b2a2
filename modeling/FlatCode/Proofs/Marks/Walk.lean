import Mathlib.Data.List.Basic
import FlatCode.Proofs.Marks.Function

/-! Paths. Control runs from the entry of a function through its code, whatever the branches
decide. On its way it meets what the marks say: at each place one mark is in force, the one in
front of the instruction, or the promise of the label that control has jumped to. -/
namespace FlatCode
open Code Symbols Ast Lower List

namespace Code

inductive Way where
  /-- To the next instruction. -/
  | on
  | edge (e : Edge)
  /-- To one of the labels of a multiway jump. -/
  | choice (l : Label)
  deriving DecidableEq

namespace Function

/-- Control can leave the instruction at `k` this way, and comes to `j`. -/
def Moves (c : Function) (k : Nat) : Way → Nat → Prop
  | .on, j => ∃ i, c.instrs[k]? = some i ∧ i.goesOn ∧ j = k + 1
  | .edge e, j => c.Leads k e j
  | .choice l, j => ∃ i, c.instrs[k]? = some i ∧ l ∈ i.choices ∧ c.labels[l.index]? = some ⟨j⟩

/-- What control can run through from the entry on, and where it comes to. -/
inductive Path (c : Function) : List (Nat × Way) → Nat → Prop where
  | entry : Path c [] 0
  | step {path : List (Nat × Way)} {k j : Nat} {way : Way} :
    Path c path k → c.Moves k way j → Path c (path ++ [(k, way)]) j

end Function
end Code

namespace Marks

variable {path : List (Nat × Way)}

theorem Entry.setup {code : List Instr} {status : Option Register} (h : Entry code status) :
    ∀ i ∈ code, i.isSetup := by
  induction h with
  | nil => simp
  | slot _ ih =>
    intro i hi
    rcases mem_append.1 hi with hi | hi
    · exact ih i hi
    · rw [mem_singleton.1 hi]
      rfl
  | status _ ih =>
    intro i hi
    simp only [mem_append, mem_cons, not_mem_nil, or_false] at hi
    rcases hi with hi | rfl | rfl
    · exact ih i hi
    · rfl
    · rfl

namespace Scene
variable (S : Setting) (P : Scene)

def At (k : Nat) (m : Mark) : Prop :=
  m.phase ≠ .dead ∧
    (m = P.markAt k ∨ ∃ l, P.state.draft.body[k]? = some (.label l) ∧ P.promise l = some m)

inductive Goes : Nat → Mark → Instr → Way → Nat → Mark → Prop where
  | on {k : Nat} {i : Instr} {note : Note} : P.state.draft.body[k]? = some i →
    P.notes[k]? = some note → note.mark.phase ≠ .dead → i.goesOn →
    Fits S P.state P.promise note i (P.markAt (k + 1)) →
    Goes k note.mark i .on (k + 1) (P.markAt (k + 1))
  /-- Behind a label that control has jumped to. -/
  | behind {k : Nat} {l : Label} {m : Mark} : P.state.draft.body[k]? = some (.label l) →
    P.promise l = some m → m.phase ≠ .dead → (P.markAt (k + 1)).phase = m.phase →
      (P.markAt (k + 1)).live = m.live →
    (∀ r ∈ (P.markAt (k + 1)).held, r ∈ m.held) →
    Goes k m (.label l) .on (k + 1) (P.markAt (k + 1))
  | edge {k k' : Nat} {i : Instr} {note : Note} {e : Edge} {l : Label} {q : Mark} :
    P.state.draft.body[k]? = some i → P.notes[k]? = some note →
    Fits S P.state P.promise note i (P.markAt (k + 1)) → i.target? e = some (some l) →
    P.state.draft.body[k']? = some (.label l) → P.promise l = some q → note.mark.Crosses e q →
    Goes k note.mark i (.edge e) k' q
  | choice {k k' : Nat} {i : Instr} {note : Note} {l : Label} {q : Mark} :
    P.state.draft.body[k]? = some i → P.notes[k]? = some note →
    Fits S P.state P.promise note i (P.markAt (k + 1)) → l ∈ i.choices →
    P.state.draft.body[k']? = some (.label l) → P.promise l = some q →
    note.mark.Crosses .unconditional q → Goes k note.mark i (.choice l) k' q

inductive Walk : List (Nat × Way) → Nat → Mark → Prop where
  | start : Walk [] 0 (P.markAt 0)
  | step {path : List (Nat × Way)} {k k' : Nat} {m m' : Mark} {i : Instr} {way : Way} :
    Walk path k m → P.Goes S k m i way k' m' → Walk (path ++ [(k, way)]) k' m'

variable {S P} {k k' : Nat} {m m' : Mark} {i : Instr} {way : Way}

theorem markAt_note {note : Note} (h : P.notes[k]? = some note) : P.markAt k = note.mark := by
  simp [markAt, h]

theorem Typed.note (h : P.Typed S) (hi : P.state.draft.body[k]? = some i) :
    ∃ note, P.notes[k]? = some note ∧ P.markAt k = note.mark ∧
      Fits S P.state P.promise note i (P.markAt (k + 1)) := by
  obtain ⟨lt, -⟩ := Array.getElem?_eq_some_iff.1 hi
  rw [← h.size] at lt
  have hn : P.notes[k]? = some P.notes[k] := Array.getElem?_eq_getElem lt
  exact ⟨_, hn, markAt_note hn, h.fits k i _ hi hn⟩

theorem Typed.fits_at (h : P.Typed S) {note : Note} (hn : P.notes[k]? = some note) :
    ∃ i, P.state.draft.body[k]? = some i ∧ Fits S P.state P.promise note i (P.markAt (k + 1)) := by
  obtain ⟨lt, -⟩ := Array.getElem?_eq_some_iff.1 hn
  rw [h.size] at lt
  have hi : P.state.draft.body[k]? = some P.state.draft.body[k] := Array.getElem?_eq_getElem lt
  exact ⟨_, hi, h.fits k _ note hi hn⟩

theorem Goes.instr (h : P.Goes S k m i way k' m') : P.state.draft.body[k]? = some i := by
  cases h with
  | on hi | behind hi | edge hi | choice hi => exact hi

theorem Goes.arrives (h : P.Goes S k m i way k' m') : P.At k' m' := by
  cases h with
  | on _ _ awake on fits =>
    refine ⟨fun dead => ?_, .inl rfl⟩
    have turn := fits.turn
    rw [dead] at turn
    rcases turn.dead_cases with off | asleep
    · rw [off] at on
      cases on
    · exact awake asleep
  | behind _ _ awake phase _ _ => exact ⟨fun dead => awake (phase.symm.trans dead), .inl rfl⟩
  | edge _ _ _ _ hl hq crosses => exact ⟨crosses.1.awake, .inr ⟨_, hl, hq⟩⟩
  | choice _ _ _ _ hl hq crosses => exact ⟨crosses.1.awake, .inr ⟨_, hl, hq⟩⟩

theorem Typed.start_ordinary (h : P.Typed S) : (P.markAt 0).phase = .ordinary := by
  rcases h.start with dead | ⟨phase, -⟩
  · cases dead.1
  · exact phase.symm

theorem Typed.start_at (h : P.Typed S) : P.At 0 (P.markAt 0) :=
  ⟨by rw [h.start_ordinary]; simp, .inl rfl⟩

theorem Walk.at (h : P.Typed S) (walk : P.Walk S path k m) : P.At k m := by
  cases walk with
  | start => exact h.start_at
  | step _ goes => exact goes.arrives

theorem Typed.goes_on (h : P.Typed S) (there : P.At k m) (hi : P.state.draft.body[k]? = some i)
    (on : i.goesOn) : P.Goes S k m i .on (k + 1) (P.markAt (k + 1)) := by
  obtain ⟨awake, rfl | ⟨l, hl, hq⟩⟩ := there
  · obtain ⟨note, hn, mark, fits⟩ := h.note hi
    rw [mark] at awake ⊢
    exact .on hi hn awake on fits
  · cases hi.symm.trans hl
    obtain ⟨note, -, -, fits⟩ := h.note hi
    obtain ⟨q, hq', phase, live, -, held⟩ := fits.label l rfl
    cases hq.symm.trans hq'
    exact .behind hl hq awake phase.symm live.symm held

theorem At.mark (there : P.At k m) (hi : P.state.draft.body[k]? = some i)
    (plain : ∀ l, i ≠ .label l) : m = P.markAt k := by
  obtain ⟨-, here | ⟨l, hl, -⟩⟩ := there
  · exact here
  · exact absurd (Option.some.inj (hi.symm.trans hl)) (plain l)

end Scene

section Paths
variable {S : Setting} {env : Env} {B Q : Scene} {codes : List (List Instr)} {code : Code.Function}
open Scene
variable {j k : Nat}

def straight (n : Nat) : List (Nat × Way) := (List.range n).map fun k => (k, .on)

def shifted (base : Nat) (path : List (Nat × Way)) : List (Nat × Way) :=
  path.map fun s => (base + s.1, s.2)

theorem straight_succ (n : Nat) : straight (n + 1) = straight n ++ [(n, .on)] := by
  simp [straight, range_succ]

namespace Marked
variable (h : Marked S env B Q codes code)
include h

theorem place {l : Label} {q : Mark} (hq : Q.promise l = some q)
    (hj : code.labels[l.index]? = some ⟨j⟩) :
    ∃ k, j = Q.state.draft.entry.size + k ∧ Q.state.draft.body[k]? = some (.label l) := by
  obtain ⟨made, -⟩ := Array.getElem?_eq_some_iff.1 hq
  rw [h.firm.typed.labels] at made
  obtain ⟨k, hk⟩ := h.accounts.exists_place made
  have place := h.finished.labels k l hk
  rw [hj] at place
  exact ⟨k, by simpa using place, hk⟩

theorem instr (k : Nat) : code.instrs[Q.state.draft.entry.size + k]? = Q.state.draft.body[k]? := by
  rw [h.finished.instrs, Array.getElem?_append_right (by omega), Nat.add_sub_cancel_left]

theorem slot (lt : k < Q.state.draft.entry.size) : code.instrs[k]? = Q.state.draft.entry[k]? := by
  rw [h.finished.instrs, Array.getElem?_append_left lt]

theorem behind_slots {i : Instr} (hi : code.instrs[k]? = some i) (other : i.isSetup = false) :
    Q.state.draft.entry.size ≤ k := by
  refine Nat.le_of_not_lt fun slot => ?_
  rw [h.slot slot] at hi
  have setup := h.firm.books.entry.setup _ (Array.mem_def.1 (Array.mem_of_getElem? hi))
  rw [other] at setup
  cases setup

theorem awake (awake : (Q.markAt k).phase ≠ .dead) :
    ∃ i note, Q.state.draft.body[k]? = some i ∧
      Q.notes[k]? = some note ∧ Q.markAt k = note.mark ∧
      Fits S Q.state Q.promise note i (Q.markAt (k + 1)) := by
  have lt : k < Q.state.draft.body.size := Decidable.byContradiction fun past => awake (by
    have beyond : Q.notes[k]? = none := by
      have := h.firm.typed.size
      exact Array.getElem?_eq_none (by omega)
    simp [markAt, beyond, h.dead])
  have hi : Q.state.draft.body[k]? = some Q.state.draft.body[k] := Array.getElem?_eq_getElem lt
  obtain ⟨note, found⟩ := h.firm.typed.note hi
  exact ⟨_, note, hi, found⟩

theorem step {m : Mark} {way : Way} (there : Q.At k m)
    (moves : code.Moves (Q.state.draft.entry.size + k) way j) :
    ∃ i k' m', j = Q.state.draft.entry.size + k' ∧ Q.Goes S k m i way k' m' := by
  have typed := h.firm.typed
  cases way with
  | on =>
    obtain ⟨i, hi, on, rfl⟩ := moves
    rw [h.instr] at hi
    exact ⟨i, k + 1, _, by omega, typed.goes_on there hi on⟩
  | edge e =>
    obtain ⟨i, l, hi, target, place⟩ := moves
    rw [h.instr] at hi
    obtain ⟨note, hn, mark, fits⟩ := typed.note hi
    obtain ⟨q, hq, crosses⟩ := fits.edge e l target
    obtain ⟨k', rfl, hl⟩ := h.place hq place
    rw [there.mark hi (by rintro l rfl; cases e <;> cases target), mark]
    exact ⟨i, k', q, rfl, .edge hi hn fits target hl hq crosses⟩
  | choice l =>
    obtain ⟨i, hi, chosen, place⟩ := moves
    rw [h.instr] at hi
    obtain ⟨note, hn, mark, fits⟩ := typed.note hi
    obtain ⟨q, hq, crosses⟩ := fits.choice l chosen
    obtain ⟨k', rfl, hl⟩ := h.place hq place
    rw [there.mark hi (by rintro l rfl; cases chosen), mark]
    exact ⟨i, k', q, rfl, .choice hi hn fits chosen hl hq crosses⟩

theorem shown (site : Site) (own : site.isCall = false) :
    ∃ places : List Nat, places.Pairwise (· < ·) ∧ places.length = S.sites.count site ∧
      ∀ k, k ∈ places ↔ ∃ note, Q.notes[k]? = some note ∧ note.origin.site? = some site := by
  refine ⟨Q.notes.toList.findIdxs (fun note => note.origin.site? == some site),
    pairwise_findIdxs, ?_, fun k => ?_⟩
  · rw [length_findIdxs, ← h.calls.count own, Scene.calls, count_filterMap]
  · rw [mem_findIdxs_iff_exists_getElem_pos]
    simp only [beq_iff_eq, Array.getElem_toList, Array.length_toList]
    constructor
    · rintro ⟨lt, shows⟩
      exact ⟨_, Array.getElem?_eq_getElem lt, shows⟩
    · rintro ⟨note, hn, shows⟩
      obtain ⟨lt, rfl⟩ := Array.getElem?_eq_some_iff.1 hn
      exact ⟨lt, shows⟩

theorem straight_on {way : Way} (lt : k < Q.state.draft.entry.size) (moves : code.Moves k way j) :
    way = .on ∧ j = k + 1 := by
  have there : code.instrs[k]? = some Q.state.draft.entry[k] := by
    rw [h.slot lt, Array.getElem?_eq_getElem lt]
  have setup := h.firm.books.entry.setup _ (Array.mem_def.1 (Array.getElem_mem lt))
  generalize Q.state.draft.entry[k] = i at there setup
  cases way with
  | on =>
    obtain ⟨_, _, _, rfl⟩ := moves
    exact ⟨rfl, rfl⟩
  | edge e =>
    obtain ⟨i', l, hi, target, -⟩ := moves
    cases there.symm.trans hi
    cases i <;> cases e <;> cases target <;> cases setup
  | choice l =>
    obtain ⟨i', hi, chosen, -⟩ := moves
    cases there.symm.trans hi
    cases i <;> first | cases chosen; done | cases setup

theorem walk (run : code.Path path j) :
    j < Q.state.draft.entry.size ∧ path = straight j ∨
    ∃ rest k m, path = straight Q.state.draft.entry.size ++ shifted Q.state.draft.entry.size rest ∧
      j = Q.state.draft.entry.size + k ∧ Q.Walk S rest k m := by
  have enter : ∃ rest k m, straight Q.state.draft.entry.size =
      straight Q.state.draft.entry.size ++ shifted Q.state.draft.entry.size rest ∧
      Q.state.draft.entry.size = Q.state.draft.entry.size + k ∧ Q.Walk S rest k m :=
    ⟨[], 0, _, by simp [shifted], by omega, .start⟩
  induction run with
  | entry =>
    by_cases none : Q.state.draft.entry.size = 0
    · right
      rw [none] at enter ⊢
      exact enter
    · exact .inl ⟨by omega, rfl⟩
  | @step path k j way _ moves ih =>
    rcases ih with ⟨lt, rfl⟩ | ⟨rest, k, m, rfl, rfl, walk⟩
    · obtain ⟨rfl, rfl⟩ := h.straight_on lt moves
      rw [← straight_succ]
      by_cases last : k + 1 = Q.state.draft.entry.size
      · rw [last]
        exact .inr enter
      · exact .inl ⟨by omega, rfl⟩
    · obtain ⟨i, k', m', rfl, goes⟩ := h.step (walk.at h.firm.typed) moves
      exact .inr ⟨rest ++ [(k, way)], k', m', by simp [shifted], rfl, .step walk goes⟩

theorem inside (run : code.Path path j) : j < code.instrs.size := by
  rw [h.finished.instrs, Array.size_append]
  rcases h.walk run with ⟨lt, -⟩ | ⟨rest, k, m, -, rfl, walk⟩
  · omega
  · obtain ⟨awake, rfl | ⟨l, hl, -⟩⟩ := walk.at h.firm.typed
    · obtain ⟨i, note, hi, -⟩ := h.awake awake
      exact Nat.add_lt_add_left (Array.getElem?_eq_some_iff.1 hi).1 _
    · exact Nat.add_lt_add_left (Array.getElem?_eq_some_iff.1 hl).1 _

end Marked
end Paths
end Marks
end FlatCode
