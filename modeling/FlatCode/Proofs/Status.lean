import FlatCode.Proofs.Raising

/-! The status at run time. All calls of a function report to one slot. A call that can raise leaves
the slot as it is or stores a code other than zero; besides, only the stores of the code change it.
Then the slot holds zero wherever no failure is under way, and a test of the status tells whether
the call in front of it has failed. -/
namespace FlatCode
open Code Symbols Ast Lower Marks List

namespace Code

structure Config where
  place : Nat
  status : Int
  registers : Register → Int

/-- The operand has this value. Only integers are told apart. -/
def Config.Values (m : Config) : Operand → Int → Prop
  | .imm (.int n _), v => v = n
  | .imm _, _ => True
  | .reg r, v => v = m.registers r

inductive Instr.Leaves (slot : Register) (m : Config) : Instr → Bool → Int → Prop where
  | store {source : Operand} {v : Int} : m.Values source v →
    Leaves slot m (.store (.reg slot) source) false v
  | copy {source : Operand} {size : Nat} {v : Int} :
    Leaves slot m (.copy (.reg slot) source size) false v
  | raises {callee : Callee} {arguments : List Operand} {dest : Option Register} {code : Int} :
    .reg slot ∈ arguments → code ≠ 0 → Leaves slot m (.call callee arguments dest) true code
  | other {i : Instr} {v : Int} : i.address? ≠ some (.reg slot) → v = m.status →
    Leaves slot m i false v

namespace Function
variable (c : Code.Function) (slot : Register)

/-- One instruction is executed. Registers that it writes may hold anything then, unless it loads
the status. -/
structure Executes (m : Config) (i : Instr) (way : Way) (raised : Bool) (m' : Config) : Prop where
  instr : c.instrs[m.place]? = some i
  moves : c.Moves m.place way m'.place
  leaves : i.Leaves slot m raised m'.status
  loads : ∀ r, i = .load r (.reg slot) → m'.registers r = m.status
  keeps : ∀ r, i.dest? ≠ some r → m'.registers r = m.registers r
  decides : ∀ r positive negative, i = .branch (.reg r) positive negative →
    (way = .edge .positive ↔ m.registers r ≠ 0)

/-- A run from the entry, with the places that control has passed and the calls there that have
failed. -/
inductive Runs : List (Nat × Bool) → Config → Prop where
  | entry {m : Config} : m.place = 0 → Runs [] m
  | step {trace : List (Nat × Bool)} {m m' : Config} {i : Instr} {way : Way} {raised : Bool} :
    Runs trace m → c.Executes slot m i way raised m' → Runs (trace ++ [(m.place, raised)]) m'

/-- A failure may be under way here: behind a call, before its test is done; between the store of a
throw and its jump; and at the beginning of a handler, before it has cleared the status. -/
inductive Unsettled (pads : List LandingPad) : Nat → Prop where
  | called {j : Nat} {pad : LandingPad} : pad ∈ pads → c.TestsAt slot j pad.label →
    Unsettled pads (j + 1)
  | loaded {j : Nat} {pad : LandingPad} : pad ∈ pads → c.TestsAt slot j pad.label →
    Unsettled pads (j + 2)
  | thrown {j : Nat} {pad : LandingPad} : pad ∈ pads → c.ThrowsAt slot j pad.label →
    Unsettled pads (j + 1)
  | handler {j : Nat} : c.HandlerAt pads (some slot) j → Unsettled pads j
  | caught {j : Nat} : c.HandlerAt pads (some slot) j → Unsettled pads (j + 1)

/-- The status behaves like this in every run. Its address is never written over. It is zero at each
instruction of the body where no failure is under way, and where it is tested it tells whether the
call just made has failed. -/
structure Settled (entry body : List Instr) (pads : List LandingPad) : Prop where
  kept : ∀ k i, entry.length ≤ k → c.instrs[k]? = some i → i.dest? ≠ some slot
  zero : ∀ trace m, c.Runs slot trace m → entry.length ≤ m.place →
    m.place < entry.length + body.length → ¬ c.Unsettled slot pads m.place → m.status = 0
  reports : ∀ trace m, c.Runs slot trace m → ∀ j, ∀ pad ∈ pads,
    c.TestsAt slot j pad.label → m.place = j + 2 →
      ∃ before raised, trace = before ++ [(j, raised), (j + 1, false)] ∧
        ∀ i way r m', c.Executes slot m i way r m' → (way = .edge .positive ↔ raised = true)

/-- Lowering the function ends in a state whose status slot, if there is one, behaves so. All calls
of the body that can raise report to this slot, and no others. -/
def SettlesFor (symbols : SymbolTable) (options : Options) (f : Ast.Function) : Prop :=
  ∃ env incoming b s codes S origins, Staged symbols options f env incoming b s c ∧
    c.Layout (bodyEnv env incoming) b s codes (f.sites.count .handler) ∧
    S.table = symbols ∧ S.sites = f.sites ∧
    c.Raising S (bodyEnv env incoming) s s.draft.entry.toList b.draft.body.toList origins
      b.pads.pads.toList codes ∧
    ∀ slot, s.status = some slot →
      c.Settled slot s.draft.entry.toList b.draft.body.toList b.pads.pads.toList

end Function
end Code

namespace Marks
open Scene

def Phase.Agrees (trace : List (Nat × Bool)) (m : Config) : Phase → Prop
  | .ordinary => m.status = 0
  | .called _ _ => ∃ before j raised, m.place = j + 1 ∧ trace = before ++ [(j, raised)] ∧
      (m.status ≠ 0 ↔ raised = true)
  | .loaded code _ _ => m.registers code = m.status ∧ ∃ before j raised, m.place = j + 2 ∧
      trace = before ++ [(j, raised), (j + 1, false)] ∧ (m.status ≠ 0 ↔ raised = true)
  | .thrown | .caught | .unwinding => True
  | .dead | .tested _ => False

theorem Leaves.spared {slot : Register} {m : Config} {i : Instr} {raised : Bool} {v : Int}
    (h : i.Leaves slot m raised v) (address : i.address? ≠ some (.reg slot))
    (arguments : ∀ callee arguments dest, i = .call callee arguments dest →
      .reg slot ∉ arguments) : v = m.status ∧ raised = false := by
  cases h with
  | store _ | copy => exact absurd rfl address
  | raises passed _ => exact absurd passed (arguments _ _ _ rfl)
  | other _ same => exact ⟨same, rfl⟩

section Step
variable {S : Setting} {s : State} {slot : Register} {origin : Origin} {phase phase' : Phase}
  {live live' : List Operand} {i : Instr} {m m' : Config} {raised : Bool} {way : Way}
  {trace : List (Nat × Bool)} {code : Code.Function}

theorem Turn.agrees (turn : Turn S s origin phase live i phase' live')
    (status : s.status = some slot) (on : i.goesOn) (agrees : phase.Agrees trace m)
    (runs : code.Executes slot m i .on raised m') (next : m'.place = m.place + 1) :
    phase'.Agrees (trace ++ [(m.place, raised)]) m' := by
  have leaves := runs.leaves
  cases turn with
  | straight straight spares =>
    obtain ⟨same, -⟩ := Leaves.spared leaves (fun hs => spares slot hs status)
      (by rintro _ _ _ rfl; cases straight)
    exact same.trans agrees
  | comment | label =>
    obtain ⟨same, -⟩ := Leaves.spared leaves nofun nofun
    exact same.trans agrees
  | idle _ | entered _ | handler | passed => exact agrees.elim
  | branch | jump _ | switch _ | ret _ | raise _ | test | unwindJump _ | unwindRet _ => cases on
  | call _ spares _ =>
    obtain ⟨same, -⟩ := Leaves.spared leaves nofun
      (by rintro _ _ _ ⟨rfl, rfl, rfl⟩ passed; exact spares slot passed status)
    exact same.trans agrees
  | attempt _ _ =>
    refine ⟨trace, m.place, raised, next, rfl, ?_⟩
    cases leaves with
    | raises _ failed => simpa using failed
    | other _ same =>
      have settled : m.status = 0 := agrees
      simp [same, settled]
  | load slot' =>
    cases status.symm.trans slot'
    obtain ⟨same, quiet⟩ := Leaves.spared leaves nofun nofun
    obtain ⟨before, j, failed, place, rfl, reports⟩ := agrees
    refine ⟨(runs.loads _ rfl).trans same.symm, before, j, failed, by rw [next, place], ?_, ?_⟩
    · rw [place, quiet, append_assoc]
      rfl
    · rwa [same]
  | throw _ => trivial
  | clear slot' =>
    cases status.symm.trans slot'
    cases leaves with
    | store value => exact value
    | other elsewhere _ => exact absurd rfl elsewhere
  | unwindStraight _ _ | unwindCall _ _ => trivial

theorem Fits.agrees {promise : Label → Option Mark} {note : Note} {n q : Mark} {e : Edge}
    (fits : Fits S s promise note i n) (target : i.goesOn = false)
    (agrees : note.mark.phase.Agrees trace m) (crosses : note.mark.Crosses e q)
    (runs : code.Executes slot m i way raised m') (same : way = .edge e ∨ e = .unconditional) :
    q.phase.Agrees (trace ++ [(m.place, raised)]) m' := by
  have crosses := crosses.1
  have turn := fits.turn
  obtain ⟨kept, -⟩ := Leaves.spared runs.leaves (by cases i <;> first | cases target; done | nofun)
    (by rintro _ _ _ rfl; cases target)
  generalize note.mark.phase = phase at crosses agrees turn
  cases phase with
  | ordinary =>
    rw [crosses.1]
    exact kept.trans agrees
  | loaded code objects loss =>
    obtain ⟨pad, next, rfl, -⟩ := turn.of_loaded
    cases e with
    | positive =>
      rw [crosses.1]
      trivial
    | negative =>
      rw [crosses.1]
      obtain ⟨loaded, -⟩ := agrees
      obtain rfl : way = .edge .negative := by simpa using same
      have zero : m.registers code = 0 := by
        simpa using (runs.decides code _ _ rfl).not.1 (by simp)
      exact kept.trans (loaded.symm.trans zero)
    | unconditional => cases crosses
  | thrown | unwinding =>
    rw [crosses.1]
    trivial
  | _ => cases crosses

end Step

section Runs
variable {S : Setting} {env : Env} {B Q : Scene} {codes : List (List Instr)} {code : Code.Function}
  {slot : Register} {trace : List (Nat × Bool)} {m m' : Config}

theorem Entry.clears {code : List Instr} {status : Option Register} (h : Entry code status)
    (slot : Register) (hs : status = some slot) : ∃ p : Nat, p < code.length ∧
      code[p]? = some (.store (.reg slot) noException) ∧
      ∀ (j : Nat) (i : Instr), p < j → code[j]? = some i → i.address? = none := by
  induction h with
  | nil => cases hs
  | @slot code status r ty name _ ih =>
    obtain ⟨p, lt, store, rest⟩ := ih hs
    refine ⟨p, by simp; omega, by rw [getElem?_append_left lt, store], fun j i behind hi => ?_⟩
    by_cases old : j < code.length
    · exact rest j i behind (by rwa [getElem?_append_left old] at hi)
    · rw [getElem?_append_right (by omega)] at hi
      cases mem_singleton.1 (mem_of_getElem? hi)
      rfl
  | @status code slot' ty name _ ih =>
    cases hs
    refine ⟨code.length + 1, by simp, by simp, fun j i behind hi => ?_⟩
    rw [getElem?_append_right (by omega)] at hi
    obtain ⟨n, hn⟩ : ∃ n, j - code.length = n + 2 := ⟨j - code.length - 2, by omega⟩
    simp [hn] at hi

namespace Marked
variable (h : Marked S env B Q codes code)
include h

theorem executes (status : Q.state.status = some slot) {k : Nat} {mark : Mark} (there : Q.At k mark)
    (place : m.place = Q.state.draft.entry.size + k) (agrees : mark.phase.Agrees trace m)
    {i : Instr} {way : Way} {raised : Bool} (runs : code.Executes slot m i way raised m') :
    ∃ k' mark',
      m'.place = Q.state.draft.entry.size + k' ∧ Q.At k' mark' ∧
      mark'.phase.Agrees (trace ++ [(m.place, raised)]) m' := by
  obtain ⟨i', k', mark', place', goes⟩ := h.step there (place ▸ runs.moves)
  obtain rfl : i = i' := by
    have here := runs.instr
    rw [place, h.instr, goes.instr] at here
    exact (Option.some.inj here).symm
  refine ⟨k', mark', place', goes.arrives, ?_⟩
  cases goes with
  | on _ _ _ on fits =>
    exact fits.turn.agrees status on agrees runs (by omega)
  | behind hl _ _ phase _ _ =>
    obtain ⟨same, -⟩ := Leaves.spared runs.leaves nofun nofun
    obtain ⟨note, -, -, fits⟩ := h.firm.typed.note hl
    have behind := fits.turn.of_label
    rw [← phase] at agrees
    rcases behind with here | here | here
    · rw [here] at agrees ⊢
      exact same.trans agrees
    · rw [here]
      trivial
    · rw [here]
      trivial
  | @edge _ _ _ e _ _ _ _ fits target _ _ crosses =>
    refine fits.agrees ?_ agrees crosses runs (.inl rfl)
    cases i <;> first | rfl | (cases e <;> cases target)
  | choice _ _ fits chosen _ _ crosses =>
    refine fits.agrees ?_ agrees crosses runs (.inr rfl)
    cases i <;> first | rfl | cases chosen

/-- A run is on its way through the slots, or at a place of the body that tells what has
happened. -/
theorem runs (status : Q.state.status = some slot) (run : code.Runs slot trace m) :
    ∃ p : Nat, p < Q.state.draft.entry.size ∧
      (m.place < Q.state.draft.entry.size ∧ (p < m.place → m.status = 0) ∨
      ∃ k mark, m.place = Q.state.draft.entry.size + k ∧ Q.At k mark ∧
        mark.phase.Agrees trace m) := by
  obtain ⟨p, lt, store, rest⟩ := h.firm.books.entry.clears slot status
  rw [Array.length_toList] at lt
  refine ⟨p, lt, ?_⟩
  induction run with
  | entry start => exact .inl ⟨by omega, fun behind => by omega⟩
  | @step trace m m' i way raised _ runs ih =>
    rcases ih with ⟨slots, cleared⟩ | ⟨k, mark, place, there, agrees⟩
    · obtain ⟨rfl, next⟩ := h.straight_on slots runs.moves
      have hi := runs.instr
      rw [h.slot slots] at hi
      have settled : p < m'.place → m'.status = 0 := by
        intro behind
        rcases Nat.lt_or_eq_of_le (show p ≤ m.place by omega) with old | here
        · obtain ⟨same, -⟩ := Leaves.spared runs.leaves
            (by rw [rest m.place i old (by simpa using hi)]; nofun)
              fun callee arguments dest call => by
              have setup := h.firm.books.entry.setup i (Array.mem_def.1 (Array.mem_of_getElem? hi))
              rw [call] at setup
              cases setup
          exact same.trans (cleared old)
        · rw [← here, ← Array.getElem?_toList, store] at hi
          cases hi
          cases runs.leaves with
          | store value => exact value
          | other elsewhere _ => exact absurd rfl elsewhere
      by_cases last : m'.place < Q.state.draft.entry.size
      · exact .inl ⟨last, settled⟩
      · refine .inr ⟨0, Q.markAt 0, by omega, h.firm.typed.start_at, ?_⟩
        rw [h.firm.typed.start_ordinary]
        exact settled (by omega)
    · exact .inr (h.executes status there place agrees runs)

theorem no_pad {k : Nat} {l : Label} (hl : B.state.draft.body[k]? = some (.label l)) :
    (Q.markAt (k + 1)).phase ≠ .unwinding := by
  by_cases last : k + 1 < B.notes.size
  · have hn : B.notes[k + 1]? = some B.notes[k + 1] := Array.getElem?_eq_getElem last
    rw [markAt_note (h.writes.notes _ _ hn)]
    exact h.body.raises.calm _ (Array.getElem_mem last)
  · -- the body does not end in a label
    obtain ⟨lt, -⟩ := Array.getElem?_eq_some_iff.1 hl
    rw [← h.body.typed.size] at lt
    obtain ⟨note, -, -, fits⟩ := h.body.typed.note hl
    have turn := fits.turn
    rw [show k + 1 = B.notes.size by omega, markAt_size] at turn
    exact absurd h.closed turn.label_awake

theorem settled (status : Q.state.status = some slot) {k : Nat} {mark : Mark}
    (inside : k < B.state.draft.body.size) (there : Q.At k mark)
    (agrees : mark.phase.Agrees trace m) :
    mark.phase = .ordinary ∨
      code.Unsettled slot B.state.pads.pads.toList (Q.state.draft.entry.size + k) := by
  have typed := h.firm.typed
  obtain ⟨note, hi, hn, hn', fits⟩ := h.body_at (Array.getElem?_eq_getElem inside)
  obtain ⟨-, rfl | ⟨l, hl, hq⟩⟩ := there
  · rw [markAt_note hn'] at agrees ⊢
    have calm := h.body.raises.calm note (Array.mem_of_getElem? hn)
    have turn := fits.turn
    cases phase : note.mark.phase with
    | ordinary => exact .inl rfl
    | dead | tested _ => rw [phase] at agrees; exact agrees.elim
    | unwinding => exact absurd phase calm
    | called objects loss =>
      obtain ⟨j, i, note', rfl, hj, -, turn'⟩ := typed.before hn' (by simp [phase])
      rw [phase] at turn'
      obtain ⟨callee, arguments, dest, rfl, calls, -⟩ := turn'.to_called
      obtain ⟨slot', pad, status', raised, tests⟩ :=
        h.tests hj (by rw [markAt_note hn', phase]) calls
      cases status.symm.trans status'
      rw [h.raised] at raised
      obtain ⟨pad, hp, rfl⟩ := mem_map.1 raised
      exact .inr (.called hp tests)
    | loaded r objects loss =>
      rw [phase] at turn
      obtain ⟨pad, next, branch, -⟩ := turn.of_loaded
      rw [branch] at hi
      have goes : note.mark.phase.pad? (.branch (.reg r) (some pad) (some next)) = some pad := by
        rw [phase]
        rfl
      have raised := mem_raised hn' hi goes
      rw [h.raised] at raised
      obtain ⟨pad, hp, rfl⟩ := mem_map.1 raised
      obtain ⟨slot', status', ⟨j, here, tests⟩ | ⟨j, here, value, -, jump⟩⟩ :=
        h.raises_at hn' hi goes
      · cases status.symm.trans status'
        rw [here]
        exact .inr (.loaded hp tests)
      · rw [← here, h.instr, hi] at jump
        cases jump
    | thrown =>
      rw [phase] at turn
      obtain ⟨⟨pad, jump⟩, -⟩ := turn.of_thrown
      rw [jump] at hi
      have raised := mem_raised hn' hi (by rw [phase]; rfl)
      rw [h.raised] at raised
      obtain ⟨pad, hp, rfl⟩ := mem_map.1 raised
      obtain ⟨slot', j, status', rfl, throws⟩ := h.throws_at hn' hi phase
      cases status.symm.trans status'
      exact .inr (.thrown hp throws)
    | caught =>
      obtain ⟨j, i, note', rfl, hj, hn0, turn'⟩ := typed.before hn' (by simp [phase])
      rw [phase] at turn'
      obtain ⟨l, rfl⟩ := turn'.to_caught
      have handler := h.caught_at hj (by rw [markAt_note hn', phase])
      rw [status] at handler
      exact .inr (.caught handler)
  · have hb := Array.getElem?_eq_getElem inside
    rw [Option.some.inj (hi.symm.trans hl)] at hb fits
    have behind := h.phase_behind hl hq
    rcases fits.turn.of_label with here | here | here
    · exact .inl (behind.symm.trans here)
    · have handler := h.caught_at hl here
      rw [status] at handler
      exact .inr (.handler handler)
    · exact absurd here (h.no_pad hb)

theorem reports (status : Q.state.status = some slot) (run : code.Runs slot trace m) {j : Nat}
    {pad : LandingPad} (hp : pad ∈ B.state.pads.pads.toList) (tests : code.TestsAt slot j pad.label)
    (place : m.place = j + 2) : ∃ before raised, trace = before ++ [(j, raised), (j + 1, false)] ∧
      ∀ i way r m', code.Executes slot m i way r m' → (way = .edge .positive ↔ raised = true) := by
  obtain ⟨_, _, _, value, next, -, -, branch, -⟩ := tests
  obtain ⟨k, note, i, here, hn, hi, goes⟩ :=
    h.goes_pad hp ⟨_, branch, .inl ⟨.positive, rfl⟩⟩
  have same := branch
  rw [here, h.instr, hi] at same
  cases same
  obtain ⟨objects, loss, phase⟩ : ∃ objects loss, note.mark.phase = .loaded value objects loss := by
    rcases Phase.pad?_cases goes with ⟨r, objects, loss, _, _, phase, -⟩ | ⟨-, same⟩
    · obtain ⟨note', hn', -, fits⟩ := h.firm.typed.note hi
      cases hn.symm.trans hn'
      have turn := fits.turn
      rw [phase] at turn
      obtain ⟨_, _, same, -⟩ := turn.of_loaded
      cases same
      exact ⟨objects, loss, phase⟩
    · cases same
  obtain ⟨_, lt, ⟨slots, -⟩ | ⟨k', mark, place', there, agrees⟩⟩ := h.runs status run
  · omega
  obtain rfl : k = k' := by omega
  rw [there.mark hi nofun, markAt_note hn, phase] at agrees
  obtain ⟨loaded, before, j', raised, place', rfl, failed⟩ := agrees
  obtain rfl : j = j' := by omega
  refine ⟨before, raised, rfl, fun i way r m' runs => ?_⟩
  have there := runs.instr
  rw [place, branch] at there
  cases there
  rw [runs.decides value _ _ rfl, loaded]
  exact failed

theorem zero (status : Q.state.status = some slot) (run : code.Runs slot trace m)
    (behind : Q.state.draft.entry.size ≤ m.place)
    (inside : m.place < Q.state.draft.entry.size + B.state.draft.body.size)
    (settled : ¬ code.Unsettled slot B.state.pads.pads.toList m.place) : m.status = 0 := by
  obtain ⟨_, lt, ⟨slots, -⟩ | ⟨k, mark, place, there, agrees⟩⟩ := h.runs status run
  · omega
  rw [place] at settled
  rcases h.settled status (by omega) there agrees with ordinary | unsettled
  · rw [ordinary] at agrees
    exact agrees
  · exact absurd unsettled settled

theorem address_kept (status : Q.state.status = some slot) {k : Nat} {i : Instr}
    (behind : Q.state.draft.entry.size ≤ k) (hi : code.instrs[k]? = some i) :
    i.dest? ≠ some slot := by
  obtain ⟨k, rfl⟩ := Nat.exists_eq_add_of_le behind
  rw [h.instr] at hi
  obtain ⟨note, -, -, fits⟩ := h.firm.typed.note hi
  exact fun dest => fits.apart slot dest status

end Marked
end Runs
end Marks

section Function
variable {symbols : SymbolTable} {options : Options} {f : Ast.Function} {code : Code.Function}

/-- The status slot of a function holds zero wherever no failure is under way in its body, and each
test reports exactly whether the call in front of it has failed. -/
theorem lowerFunction_settles (h : lowerFunction symbols options f = .ok code) :
    code.SettlesFor symbols options f := by
  obtain ⟨env, incoming, B, Q, codes, staged, -, marked⟩ :=
    lowerFunction_marked h false fun follows => nomatch follows
  refine ⟨env, incoming, B.state, Q.state, codes, _, _, staged, marked.layout, rfl, rfl,
    marked.raising, fun slot status => ⟨fun k i behind hi => ?_,
      fun trace m run behind inside settled => ?_,
      fun trace m run j pad hp tests place => marked.reports status run hp tests place⟩⟩
  · exact marked.address_kept status (by simpa using behind) hi
  · exact marked.zero status run (by simpa using behind) (by simpa using inside) settled

theorem guardedLoop_settles : ∃ code, lowerFunction guardSymbols .default guardedLoop = .ok code ∧
    code.SettlesFor guardSymbols .default guardedLoop := by
  obtain ⟨code, lowered⟩ := guardedLoop_lowers
  exact ⟨code, lowered, lowerFunction_settles lowered⟩

end Function
end FlatCode
