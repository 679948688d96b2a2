import Mathlib.Data.List.Induction
import Mathlib.Data.List.Nodup
import FlatCode.Proofs.Layout

/-! Raising. A call that can fail is followed by a test of the status, and a throw by a jump; both
go to a landing pad of their own. The pads stand behind the body, in the order of the places that go
to them, and each consists of its destructor calls and a way out. -/
namespace FlatCode
open Code Symbols Ast Lower Marks List

namespace Code.Function
variable (c : Code.Function)

/-- The call at `k` reports to the slot. Behind it the status is loaded and tested: if it tells of a
failure, control goes to the pad. -/
def TestsAt (slot : Register) (k : Nat) (pad : Label) : Prop :=
  ∃ callee arguments dest code next,
    c.instrs[k]? = some (.call callee (arguments ++ [.reg slot]) dest) ∧
    c.instrs[k + 1]? = some (.load code (.reg slot)) ∧
    c.instrs[k + 2]? = some (.branch (.reg code) (some pad) (some next)) ∧
    c.instrs[k + 3]? = some (.label next)

def ThrowsAt (slot : Register) (k : Nat) (pad : Label) : Prop :=
  ∃ code, c.instrs[k]? = some (.store (.reg slot) code) ∧
    c.instrs[k + 1]? = some (.jump (some pad))

def RaisesAt (slot : Register) (k : Nat) (pad : Label) : Prop :=
  (∃ j, k = j + 2 ∧ c.TestsAt slot j pad) ∨ ∃ j, k = j + 1 ∧ c.ThrowsAt slot j pad

def GoesTo (k : Nat) (l : Label) : Prop :=
  ∃ i, c.instrs[k]? = some i ∧ ((∃ e, i.target? e = some (some l)) ∨ l ∈ i.choices)

/-- Code with a landing pad for each place that can raise. Each instruction of the body has an
origin, which says what a call is made for. -/
structure Raising (S : Marks.Setting) (env : Env) (s : State) (entry body : List Instr)
    (origins : List Origin) (pads : List LandingPad) (codes : List (List Instr)) : Prop where
  parts : c.instrs.toList = entry ++ (body ++ codes.flatten)
  slots : Entry entry s.status
  each : origins.length = body.length
  shown : Site.Done S.sites (origins.filterMap Origin.site?)
  /-- A call reports and is tested exactly if the function that it calls can raise. -/
  calls : ∀ k callee arguments dest, body[k]? = some (.call callee arguments dest) →
    ∃ origin raises, origins[k]? = some origin ∧ Calls S s origin callee arguments raises ∧
      if raises then ∃ slot, ∃ pad ∈ pads, s.status = some slot ∧
        c.TestsAt slot (entry.length + k) pad.label
      else ∀ slot, s.status = some slot → .reg slot ∉ arguments
  /-- There is one store and jump for each throw of the tree. -/
  throws : ∃ places : List Nat, places.Pairwise (· < ·) ∧ places.length = S.sites.count .throw_ ∧
    ∀ k, k ∈ places ↔ ∃ slot, ∃ pad ∈ pads, s.status = some slot ∧ c.ThrowsAt slot k pad.label
  /-- The places that raise, in order, go to the landing pads. -/
  places : ∃ places : List Nat, places.Pairwise (· < ·) ∧
    List.Forall₂ (fun k pad => ∃ slot, s.status = some slot ∧ c.RaisesAt slot k pad.label)
      places pads ∧
    ∀ k, ∀ pad ∈ pads, c.GoesTo k pad.label → k ∈ places
  count : c.landingPads = pads.length
  fresh : (pads.map LandingPad.label).Nodup
  single : ∀ pad ∈ pads, ∃ k, ∀ k', c.GoesTo k' pad.label ↔ k' = k
  pads : List.Forall₂ (PadCode env s) pads codes

end Code.Function

namespace Marks
open Scene
variable {k : Nat} {note : Note} {i : Instr}

theorem exists_places (l : List (Option α)) : ∃ places : List Nat, places.Pairwise (· < ·) ∧
    (∀ k ∈ places, k < l.length) ∧
    List.Forall₂ (fun k a => l[k]? = some (some a)) places (l.filterMap id) ∧
    ∀ k a, l[k]? = some (some a) → k ∈ places := by
  induction l using List.reverseRecOn with
  | nil => exact ⟨[], .nil, by simp, .nil, by simp⟩
  | append_singleton l x ih =>
    obtain ⟨places, sorted, inside, found, all⟩ := ih
    have old {k : Nat} (lt : k < l.length) : (l ++ [x])[k]? = l[k]? := getElem?_append_left lt
    have found' : List.Forall₂ (fun k a => (l ++ [x])[k]? = some (some a)) places
        (l.filterMap id) :=
      found.imp fun k a hk => (old (getElem?_eq_some_iff.1 hk).1).trans hk
    cases x with
    | none =>
      refine ⟨places, sorted, fun k hk => ?_, ?_, fun k a hk => ?_⟩
      · have := inside k hk
        simp
        omega
      · simpa using found'
      · by_cases lt : k < l.length
        · exact all k a (by rwa [old lt] at hk)
        · rw [getElem?_append_right (by omega)] at hk
          cases mem_singleton.1 (mem_of_getElem? hk)
    | some a =>
      refine ⟨places ++ [l.length], ?_, fun k hk => ?_, ?_, fun k b hk => ?_⟩
      · refine pairwise_append.2 ⟨sorted, by simp, fun k hk j hj => ?_⟩
        rw [mem_singleton.1 hj]
        exact inside k hk
      · rcases mem_append.1 hk with hk | hk
        · have := inside k hk
          simp
          omega
        · rw [mem_singleton.1 hk]
          simp
      · rw [filterMap_append]
        exact rel_append found' (.cons (by simp) .nil)
      · by_cases lt : k < l.length
        · exact mem_append_left _ (all k b (by rwa [old lt] at hk))
        · have last : k < (l ++ [some a]).length := (List.getElem?_eq_some_iff.1 hk).1
          have : k = l.length := by simp at last; omega
          simp [this]

/-- In front of a place where something is going on stands the instruction that has led there. -/
theorem Scene.Typed.before {S : Setting} {P : Scene} (h : P.Typed S) (hn : P.notes[k]? = some note)
    (unusual : note.mark.phase ≠ .ordinary) :
    ∃ j i note', k = j + 1 ∧ P.state.draft.body[j]? = some i ∧ P.notes[j]? = some note' ∧
      Turn S P.state note'.origin note'.mark.phase note'.mark.live i note.mark.phase
        note.mark.live := by
  cases k with
  | zero =>
    have start := h.start_ordinary
    rw [markAt_note hn] at start
    exact absurd start unusual
  | succ j =>
    obtain ⟨lt, -⟩ := Array.getElem?_eq_some_iff.1 hn
    have hn' : P.notes[j]? = some P.notes[j] := Array.getElem?_eq_getElem (by omega)
    obtain ⟨i, hi, fits⟩ := h.fits_at hn'
    have turn := fits.turn
    rw [markAt_note hn] at turn
    exact ⟨j, i, _, rfl, hi, hn', turn⟩

theorem Scene.raised_at {P : Scene} {l : Label} :
    (List.zipWith (fun note i => note.mark.phase.pad? i) P.notes.toList
      P.state.draft.body.toList)[k]? = some (some l) ↔
    ∃ note i, P.notes[k]? = some note ∧ P.state.draft.body[k]? = some i ∧
      note.mark.phase.pad? i = some l := by
  rw [getElem?_zipWith]
  simp only [Array.getElem?_toList]
  cases P.notes[k]? <;> cases P.state.draft.body[k]? <;> simp

theorem Fits.pad? {S : Setting} {s : State} {promise : Label → Option Mark} {n q : Mark}
    (h : Fits S s promise note i n) {l : Label} (hq : promise l = some q)
    (unwinding : q.phase = .unwinding) (goes : (∃ e, i.target? e = some (some l)) ∨ l ∈ i.choices) :
    note.mark.phase.pad? i = some l := by
  have turn := h.turn
  rcases goes with ⟨e, target⟩ | chosen
  · obtain ⟨q', hq', crosses, -⟩ := h.edge e l target
    cases hq.symm.trans hq'
    generalize note.mark.phase = phase at turn crosses
    cases phase with
    | loaded code objects loss =>
      obtain ⟨pad, next, rfl, -⟩ := turn.of_loaded
      cases e with
      | positive =>
        cases target
        rfl
      | negative => cases unwinding.symm.trans crosses.1
      | unconditional => cases crosses
    | thrown =>
      obtain ⟨⟨pad, rfl⟩, -⟩ := turn.of_thrown
      cases e <;> cases target
      rfl
    | ordinary | unwinding => cases unwinding.symm.trans crosses.1
    | _ => cases crosses
  · obtain ⟨q', hq', crosses, -⟩ := h.choice l chosen
    cases hq.symm.trans hq'
    generalize note.mark.phase = phase at turn crosses
    cases phase with
    | thrown =>
      obtain ⟨⟨pad, rfl⟩, -⟩ := turn.of_thrown
      cases chosen
    | ordinary | unwinding => cases unwinding.symm.trans crosses.1
    | _ => cases crosses

section Raising
variable {S : Setting} {env : Env} {B Q : Scene} {codes : List (List Instr)} {code : Code.Function}

theorem labels_sublist {pads : List LandingPad} {codes : List (List Instr)}
    (h : List.Forall₂ (fun pad code => code.head? = some (.label pad.label)) pads codes) :
    (pads.map LandingPad.label).Sublist (codes.flatten.filterMap Instr.placed?) := by
  induction h with
  | nil => exact .slnil
  | @cons pad code _ codes head _ ih =>
    obtain ⟨rest, rfl⟩ : ∃ rest, code = .label pad.label :: rest := by
      cases code with
      | nil => cases head
      | cons i rest => exact ⟨rest, by cases head; rfl⟩
    have first : Instr.placed? (.label pad.label) = some pad.label := rfl
    rw [flatten_cons, filterMap_append, filterMap_cons_some first, map_cons]
    exact (ih.trans (sublist_append_right _ _)).cons_cons _

namespace Marked
variable (h : Marked S env B Q codes code)
include h

theorem tests {callee : Callee} {arguments : List Operand} {dest : Option Register}
    {objects : List Operand} {loss : Option (List Operand)}
    (hi : Q.state.draft.body[k]? = some (.call callee arguments dest))
    (phase : (Q.markAt (k + 1)).phase = .called objects loss) {origin : Origin}
    (calls : Calls S Q.state origin callee arguments true) :
    ∃ slot pad, Q.state.status = some slot ∧ pad ∈ Q.raised ∧
      code.TestsAt slot (Q.state.draft.entry.size + k) pad := by
  obtain ⟨slot, front, status, rfl⟩ := calls.reports rfl
  obtain ⟨load, note1, h1, -, mark1, fits1⟩ := h.awake (k := k + 1) (by rw [phase]; simp)
  have turn1 := fits1.turn
  rw [← mark1, phase] at turn1
  obtain ⟨slot', r, status', rfl, loaded, -⟩ := turn1.of_called
  cases status.symm.trans status'
  obtain ⟨branch, note2, h2, hn2, mark2, fits2⟩ := h.awake (k := k + 1 + 1) (by rw [loaded]; simp)
  have turn2 := fits2.turn
  rw [← mark2, loaded] at turn2
  obtain ⟨pad, next, rfl, tested, -⟩ := turn2.of_loaded
  obtain ⟨label, note3, h3, -, mark3, fits3⟩ := h.awake (k := k + 1 + 1 + 1) (by rw [tested]; simp)
  have turn3 := fits3.turn
  rw [← mark3, tested] at turn3
  obtain ⟨rfl, -⟩ := turn3.of_tested
  refine ⟨slot, pad, status, mem_raised hn2 h2 (by rw [← mark2, loaded]; rfl),
    callee, front, dest, r, next, ?_, ?_, ?_, ?_⟩
  · rw [h.instr, hi]
  · rw [Nat.add_assoc, h.instr, h1]
  · rw [Nat.add_assoc, h.instr, h2]
  · rw [Nat.add_assoc, h.instr, h3]

theorem throws_at {pad : Label} (hn : Q.notes[k]? = some note)
    (hi : Q.state.draft.body[k]? = some (.jump (some pad))) (thrown : note.mark.phase = .thrown) :
    ∃ slot j, Q.state.status = some slot ∧ k = j + 1 ∧
      code.ThrowsAt slot (Q.state.draft.entry.size + j) pad := by
  obtain ⟨j, i, note', rfl, hj, -, turn⟩ := h.firm.typed.before hn (by simp [thrown])
  rw [thrown] at turn
  obtain ⟨slot, value, status, -, rfl⟩ := turn.to_thrown
  refine ⟨slot, j, status, rfl, value, by rw [h.instr, hj], ?_⟩
  rw [Nat.add_assoc, h.instr, hi]

theorem raises_at {pad : Label} (hn : Q.notes[k]? = some note)
    (hi : Q.state.draft.body[k]? = some i) (goes : note.mark.phase.pad? i = some pad) :
    ∃ slot, Q.state.status = some slot ∧
      code.RaisesAt slot (Q.state.draft.entry.size + k) pad := by
  have typed := h.firm.typed
  rcases Phase.pad?_cases goes with ⟨r, objects, _, _, _, phase, rfl⟩ | ⟨phase, rfl⟩
  · obtain ⟨j, load, note1, rfl, -, hn1, turn1⟩ := typed.before hn (by simp [phase])
    rw [phase] at turn1
    obtain ⟨-, -, called, -⟩ := turn1.to_loaded
    obtain ⟨j, call, note0, rfl, h0, -, turn0⟩ := typed.before hn1 (by simp [called])
    rw [called] at turn0
    obtain ⟨callee, arguments, dest, rfl, calls, -⟩ := turn0.to_called
    obtain ⟨slot, pad, status, -, tests⟩ :=
      h.tests h0 (by rw [markAt_note hn1, called]) calls
    obtain ⟨_, _, _, _, _, -, -, branch, -⟩ := id tests
    rw [Nat.add_assoc, h.instr] at branch
    cases hi.symm.trans branch
    exact ⟨slot, status, .inl ⟨_, by omega, tests⟩⟩
  · obtain ⟨slot, j, status, rfl, throws⟩ := h.throws_at hn hi phase
    exact ⟨slot, status, .inr ⟨_, by omega, throws⟩⟩

theorem fresh : (B.state.pads.pads.toList.map LandingPad.label).Nodup := by
  have placed : Q.state.draft.placed.Nodup := by
    have all := h.accounts.labels.nodup_iff.2
      (List.Pairwise.map _ (fun a b hab => by simpa using hab) nodup_range)
    exact (nodup_append.1 all).1
  unfold Draft.placed at placed
  rw [h.writes.body, filterMap_append] at placed
  exact (nodup_append.1 placed).2.1.sublist
    (labels_sublist (h.pads.imp fun _ _ made => made.head))

theorem goes_pad {j : Nat} {pad : LandingPad} (hp : pad ∈ B.state.pads.pads.toList)
    (goes : code.GoesTo j pad.label) :
    ∃ k note i, j = Q.state.draft.entry.size + k ∧ Q.notes[k]? = some note ∧
      Q.state.draft.body[k]? = some i ∧ note.mark.phase.pad? i = some pad.label := by
  obtain ⟨i, hi, way⟩ := goes
  have moves : i.isSetup = false := by
    rcases way with ⟨e, target⟩ | chosen
    · cases i <;> first | rfl | (cases e <;> cases target)
    · cases i <;> first | rfl | cases chosen
  obtain ⟨k, rfl⟩ := Nat.exists_eq_add_of_le (h.behind_slots hi moves)
  rw [h.instr] at hi
  obtain ⟨note, hn, -, fits⟩ := h.firm.typed.note hi
  obtain ⟨⟨q, hq, unwinding⟩, -⟩ := h.promised hp
  exact ⟨k, note, i, rfl, hn, hi, fits.pad? hq unwinding way⟩

theorem places_raise : ∃ places : List Nat,
    places.Pairwise (· < ·) ∧
    List.Forall₂ (fun k pad => (∃ slot, Q.state.status = some slot ∧
        code.RaisesAt slot k pad.label) ∧ code.GoesTo k pad.label)
      places B.state.pads.pads.toList ∧
    ∀ k, ∀ pad ∈ B.state.pads.pads.toList, code.GoesTo k pad.label → k ∈ places := by
  obtain ⟨places, sorted, -, found, all⟩ := exists_places (List.zipWith
    (fun note i => note.mark.phase.pad? i) Q.notes.toList Q.state.draft.body.toList)
  change List.Forall₂ _ places Q.raised at found
  rw [h.raised] at found
  refine ⟨places.map (Q.state.draft.entry.size + ·),
    sorted.map _ fun a b lt => Nat.add_lt_add_left lt _, ?_, fun j pad hp goes => ?_⟩
  · rw [forall₂_map_left_iff]
    refine (forall₂_map_right_iff.1 found).imp fun k pad hk => ?_
    obtain ⟨note, i, hn, hi, goes⟩ := raised_at.1 hk
    refine ⟨h.raises_at hn hi goes, i, by rw [h.instr, hi], .inl ?_⟩
    rcases Phase.pad?_cases goes with ⟨_, _, _, _, _, -, rfl⟩ | ⟨-, rfl⟩
    · exact ⟨.positive, rfl⟩
    · exact ⟨.unconditional, rfl⟩
  · obtain ⟨k, note, i, rfl, hn, hi, pad?⟩ := h.goes_pad hp goes
    exact mem_map.2 ⟨k, all k _ (raised_at.2 ⟨note, i, hn, hi, pad?⟩), rfl⟩

theorem single_way {pad : LandingPad} (hp : pad ∈ B.state.pads.pads.toList) :
    ∃ k, ∀ k', code.GoesTo k' pad.label ↔ k' = k := by
  obtain ⟨places, sorted, found, all⟩ := h.places_raise
  obtain ⟨n, hn⟩ := mem_iff_getElem?.1 hp
  obtain ⟨lt, rfl⟩ := List.getElem?_eq_some_iff.1 hn
  have same := found.length_eq
  have at_ := forall₂_iff_get.1 found
  refine ⟨places.get ⟨n, by omega⟩, fun k' => ⟨fun goes => ?_, ?_⟩⟩
  · obtain ⟨n', hn'⟩ := mem_iff_getElem?.1 (all k' _ hp goes)
    obtain ⟨lt', rfl⟩ := List.getElem?_eq_some_iff.1 hn'
    -- both places go to the same label, so they belong to the same pad
    have there := (at_.2 n' lt' (by omega)).2
    obtain ⟨k, note, i, here, hnote, hi, goes1⟩ := h.goes_pad hp goes
    obtain ⟨k', note', i', here', hnote', hi', goes2⟩ :=
      h.goes_pad (getElem_mem (by omega)) there
    obtain rfl : k = k' := by
      have : Q.state.draft.entry.size + k = Q.state.draft.entry.size + k' := here.symm.trans here'
      omega
    cases hnote.symm.trans hnote'
    cases hi.symm.trans hi'
    have labels := Option.some.inj (goes1.symm.trans goes2)
    have one : n < (B.state.pads.pads.toList.map LandingPad.label).length := by simpa using lt
    have other : n' < (B.state.pads.pads.toList.map LandingPad.label).length := by
      rw [length_map]
      omega
    have index : n = n' := (List.Nodup.getElem_inj_iff h.fresh).1
      (show (B.state.pads.pads.toList.map LandingPad.label)[n] =
        (B.state.pads.pads.toList.map LandingPad.label)[n'] by simpa using labels)
    simp [index]
  · rintro rfl
    exact (at_.2 n (by omega) lt).2

theorem body_at (hi : B.state.draft.body[k]? = some i) :
    ∃ note, Q.state.draft.body[k]? = some i ∧
      B.notes[k]? = some note ∧ Q.notes[k]? = some note ∧
      Fits S Q.state Q.promise note i (Q.markAt (k + 1)) := by
  have hi' : Q.state.draft.body[k]? = some i := by
    rw [← Array.getElem?_toList, h.writes.body,
      getElem?_append_left (by simpa using (Array.getElem?_eq_some_iff.1 hi).1)]
    simpa using hi
  obtain ⟨note, hn, -⟩ := h.body.typed.note hi
  obtain ⟨note', hn', -, fits⟩ := h.firm.typed.note hi'
  have same := h.writes.notes k note hn
  cases same.symm.trans hn'
  exact ⟨note, hi', hn, same, fits⟩

theorem calls_at {callee : Callee} {arguments : List Operand} {dest : Option Register}
    (hi : B.state.draft.body[k]? = some (.call callee arguments dest)) :
    ∃ origin raises, (B.notes.toList.map Note.origin)[k]? = some origin ∧
      Calls S Q.state origin callee arguments raises ∧
      if raises then ∃ slot, ∃ pad ∈ B.state.pads.pads.toList, Q.state.status = some slot ∧
        code.TestsAt slot (Q.state.draft.entry.toList.length + k) pad.label
      else ∀ slot, Q.state.status = some slot → .reg slot ∉ arguments := by
  obtain ⟨note, hi, hn, -, fits⟩ := h.body_at hi
  have calm := h.body.raises.calm note (Array.mem_of_getElem? hn)
  have turn := fits.turn
  have there : (B.notes.toList.map Note.origin)[k]? = some note.origin := by simp [hn]
  generalize note.origin = origin, note.mark.phase = phase, note.mark.live = live at turn calm there
  generalize after : (Q.markAt (k + 1)).phase = phase', (Q.markAt (k + 1)).live = live' at turn
  cases turn with
  | straight straight _ | unwindStraight straight _ => cases straight
  | unwindCall _ _ => exact absurd rfl calm
  | call calls spares _ =>
    exact ⟨_, _, there, calls, by simpa using fun slot status hs => spares slot hs status⟩
  | attempt calls _ =>
    obtain ⟨slot, pad, status, raised, tests⟩ := h.tests hi after calls
    rw [h.raised] at raised
    obtain ⟨pad, hp, rfl⟩ := mem_map.1 raised
    exact ⟨_, _, there, calls, by
      simpa using ⟨slot, pad, by simpa using hp, status, by simpa using tests⟩⟩

theorem throws : ∃ places : List Nat,
    places.Pairwise (· < ·) ∧ places.length = S.sites.count .throw_ ∧
    ∀ k, k ∈ places ↔ ∃ slot, ∃ pad ∈ B.state.pads.pads.toList, Q.state.status = some slot ∧
      code.ThrowsAt slot k pad.label := by
  obtain ⟨places, sorted, count, all⟩ := h.shown .throw_ rfl
  have typed := h.firm.typed
  have pred : ∀ k ∈ places, ∃ j, k = j + 1 ∧ ∃ slot, ∃ pad ∈ B.state.pads.pads.toList,
      Q.state.status = some slot ∧
      code.ThrowsAt slot (Q.state.draft.entry.size + j) pad.label := by
    intro k hk
    obtain ⟨note, hn, shows⟩ := (all k).1 hk
    obtain ⟨i, hi, fits⟩ := typed.fits_at hn
    have thrown := fits.turn.of_throw shows
    have turn := fits.turn
    rw [thrown] at turn
    obtain ⟨⟨pad, jump⟩, -⟩ := turn.of_thrown
    rw [jump] at hi
    have raised := mem_raised hn hi (by rw [thrown]; rfl)
    rw [h.raised] at raised
    obtain ⟨pad, hp, rfl⟩ := mem_map.1 raised
    obtain ⟨slot, j, status, rfl, throws⟩ := h.throws_at hn hi thrown
    exact ⟨j, rfl, slot, pad, hp, status, throws⟩
  refine ⟨places.map fun k => Q.state.draft.entry.size + (k - 1), ?_, by rw [length_map, count],
    fun j => ⟨fun hj => ?_, ?_⟩⟩
  · refine pairwise_map.2 (sorted.imp_of_mem fun ha hb lt => ?_)
    obtain ⟨a, rfl, -⟩ := pred _ ha
    obtain ⟨b, rfl, -⟩ := pred _ hb
    omega
  · obtain ⟨k, hk, rfl⟩ := mem_map.1 hj
    obtain ⟨j, rfl, throws⟩ := pred k hk
    exact throws
  · rintro ⟨slot, pad, hp, status, value, store, jump⟩
    obtain ⟨k, note, i, here, hn, hi, goes⟩ := h.goes_pad hp ⟨_, jump, .inl ⟨.unconditional, rfl⟩⟩
    rw [here, h.instr, hi] at jump
    cases jump
    obtain ⟨_, _, _, _, _, -, branch⟩ | ⟨thrown, -⟩ := Phase.pad?_cases goes
    · cases branch
    obtain ⟨_, k, -, rfl, -⟩ := h.throws_at hn hi thrown
    obtain ⟨note', hn', -, fits⟩ := typed.note hi
    cases hn.symm.trans hn'
    have turn := fits.turn
    rw [thrown] at turn
    refine mem_map.2 ⟨k + 1, (all _).2 ⟨note, hn, ?_⟩, by omega⟩
    rw [turn.of_thrown.2]
    rfl

theorem shown_body :
    Site.Done S.sites ((B.notes.toList.map Note.origin).filterMap Origin.site?) := by
  obtain ⟨made, hmade, done⟩ := h.writes.calls
  have whole := h.calls
  rw [hmade, done.eq_nil, append_nil] at whole
  rwa [filterMap_map]

theorem raising :
    code.Raising S env Q.state Q.state.draft.entry.toList B.state.draft.body.toList
      (B.notes.toList.map Note.origin) B.state.pads.pads.toList codes := by
  obtain ⟨places, sorted, found, all⟩ := h.places_raise
  refine ⟨h.layout.parts, h.firm.books.entry, ?_, h.shown_body,
    fun k callee arguments dest hi => ?_,
    h.throws, ⟨places, sorted, found.imp fun _ _ both => both.1, all⟩, h.count, h.fresh,
    fun pad hp => h.single_way hp, h.pads⟩
  · simp [h.body.typed.size]
  · exact h.calls_at (by simpa using hi)

end Marked
end Raising
end Marks

section Function
variable {symbols : SymbolTable} {options : Options} {f : Ast.Function} {code : Code.Function}

end Function
end FlatCode
