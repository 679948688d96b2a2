import FlatCode.Proofs.Marks.Walk

/-! How the code of a function is laid out. Labels stand where the table says, jumps go to labels,
and control comes to a landing pad or a handler only by a jump. -/
namespace FlatCode
open Code Symbols Ast Lower Marks List

namespace Code

def Instr.isStore : Instr → Bool
  | .store _ _ => true
  | _ => false

namespace Function
variable (c : Code.Function)

def lastBefore (k : Nat) : Option Instr :=
  (c.instrs.toList.take k).reverse.find? fun i => !i.isComment

def PadAt (pads : List LandingPad) (k : Nat) : Prop :=
  ∃ pad ∈ pads, c.instrs[k]? = some (.label pad.label)

/-- A handler starts here: behind a label the status is cleared. (A store that is followed by a
jump to a landing pad belongs to a throw, whatever it stores.) -/
def HandlerAt (pads : List LandingPad) (status : Option Register) (k : Nat) : Prop :=
  ∃ l slot, c.instrs[k]? = some (.label l) ∧ status = some slot ∧
    c.instrs[k + 1]? = some (.store (.reg slot) noException) ∧
    ∀ pad ∈ pads, c.instrs[k + 2]? ≠ some (.jump (some pad.label))

/-- Control runs into the instruction at `k` from the one in front of it. -/
def FallsInto (k : Nat) : Prop := ∃ path j, c.Path path j ∧ c.Moves j .on k

/-- Code that consists of slots, a body and landing pads, in this order, and has so many handlers.
The slots are those of the last state `s`, and the pads those that have been noted in `b`, behind
the body. -/
structure Layout (env : Env) (b s : State) (codes : List (List Instr)) (tries : Nat) : Prop where
  parts : c.instrs.toList = s.draft.entry.toList ++ (b.draft.body.toList ++ codes.flatten)
  entry : Entry s.draft.entry.toList s.status
  count : c.landingPads = b.pads.pads.size
  pads : List.Forall₂ (PadCode env s) b.pads.pads.toList codes
  /-- Each label of the table stands at one place, the one that the table gives. -/
  places : ∀ j < c.labels.length, ∃ p, c.labels[j]? = some ⟨p⟩ ∧
    ∀ k : Nat, c.instrs[k]? = some (.label ⟨j⟩) ↔ k = p
  labels : ∀ (k : Nat) l, c.instrs[k]? = some (.label l) → l.index < c.labels.length
  /-- All targets are set. -/
  targets : ∀ (k : Nat) i e target, c.instrs[k]? = some i → i.target? e = some target →
    ∃ l, target = some l ∧ l.index < c.labels.length
  choices : ∀ (k : Nat) i, c.instrs[k]? = some i → ∀ l ∈ i.choices, l.index < c.labels.length
  slots : ∀ i ∈ s.draft.entry, (∃ r ty name, i = .alloc r ty name) ∨ i.isStore
  store : (s.draft.entry.toList.filter Instr.isStore).length ≤ 1
  last : ∃ i, c.lastBefore c.instrs.size = some i ∧ ((∃ t, i = .jump t) ∨ ∃ value, i = .ret value)
  handlers : ∃ starts : List Nat, starts.Pairwise (· < ·) ∧ starts.length = tries ∧
    ∀ k, k ∈ starts ↔ c.HandlerAt b.pads.pads.toList s.status k
  /-- Landing pads and handlers stand behind code that control does not run past. -/
  barred : ∀ k, c.PadAt b.pads.pads.toList k ∨ c.HandlerAt b.pads.pads.toList s.status k →
    ∃ i, c.lastBefore k = some i ∧ i.isTerminator
  /-- A landing pad with a handler goes to where a handler starts. -/
  handled : ∀ pad ∈ b.pads.pads, ∀ l, pad.handler = some l →
    ∃ k, c.HandlerAt b.pads.pads.toList s.status k ∧ c.instrs[k]? = some (.label l)

/-- The code is what lowering the function has laid out. Control never runs past its end, and comes
to a landing pad or a handler only by a jump. -/
def LaidOut (symbols : SymbolTable) (options : Options) (f : Ast.Function) : Prop :=
  ∃ env incoming b s codes, Staged symbols options f env incoming b s c ∧
    c.Layout (bodyEnv env incoming) b s codes (f.sites.count .handler) ∧
    (∀ path k, c.Path path k → k < c.instrs.size) ∧
    ∀ k, c.PadAt b.pads.pads.toList k ∨ c.HandlerAt b.pads.pads.toList s.status k →
      ¬ c.FallsInto k

end Function
end Code

namespace Marks
open Scene
variable {s : State} {i : Instr} {k : Nat} {l : Label} {code : List Instr} {pad : LandingPad}

section Dead
variable {S : Setting} {P : Scene}

theorem Turn.terminates {origin : Origin} {phase : Phase} {live live' : List Operand}
    (h : Turn S s origin phase live i .dead live') (plain : i.isComment = false) :
    i.isTerminator = true := by
  cases h with
  | idle => cases plain
  | entered h => simp at h
  | _ => rfl

theorem Turn.comment_dead {origin : Origin} {phase : Phase} {live live' : List Operand}
    (h : Turn S s origin phase live i .dead live') (comment : i.isComment = true) :
    phase = .dead := by
  cases h with
  | idle => rfl
  | entered h => simp at h
  | _ => cases comment

/-- Where control does not come, a terminator stands in front, but for comments. -/
theorem Scene.Typed.closes (h : P.Typed S) : ∀ k ≤ P.state.draft.body.size,
    (P.markAt k).phase = .dead →
    ∃ i, (P.state.draft.body.toList.take k).reverse.find? (fun i => !i.isComment) = some i ∧
      i.isTerminator
  | 0, _, dead => by
    rcases h.start with asleep | ⟨phase, -⟩
    · cases asleep.1
    · cases phase.trans dead
  | k + 1, bound, dead => by
    have hi : P.state.draft.body[k]? = some P.state.draft.body[k] := Array.getElem?_eq_getElem bound
    obtain ⟨note, -, mark, fits⟩ := h.note hi
    have turn := fits.turn
    rw [dead] at turn
    have split : (P.state.draft.body.toList.take (k + 1)).reverse =
        P.state.draft.body[k] :: (P.state.draft.body.toList.take k).reverse := by
      rw [take_add_one, reverse_append]
      simp [hi]
    rw [split]
    cases comment : P.state.draft.body[k].isComment with
    | false => exact ⟨_, by simp [comment], turn.terminates comment⟩
    | true =>
      have before := turn.comment_dead comment
      rw [← mark] at before
      obtain ⟨i, hi, terminates⟩ := h.closes k (by omega) before
      exact ⟨i, by simpa [find?_cons, comment] using hi, terminates⟩

theorem Scene.Typed.entered (h : P.Typed S) (hl : P.state.draft.body[k]? = some (.label l))
    (unusual : (P.markAt (k + 1)).phase ≠ .ordinary) : (P.markAt k).phase = .dead := by
  obtain ⟨note, -, mark, fits⟩ := h.note hl
  have turn := fits.turn
  rw [mark]
  generalize note.origin = origin, note.mark.phase = phase, note.mark.live = live,
    (P.markAt (k + 1)).phase = phase', (P.markAt (k + 1)).live = live' at turn unusual
  cases turn with
  | entered _ | handler => rfl
  | straight straight _ => cases straight
  | unwindStraight straight _ => cases straight
  | label => exact absurd rfl unusual
  | passed => exact absurd rfl unusual

end Dead

theorem Entry.stores {status : Option Register} (h : Entry code status) :
    (code.filter Instr.isStore).length = if status.isSome then 1 else 0 := by
  induction h with
  | nil => rfl
  | slot _ ih => simpa [Instr.isStore] using ih
  | status _ ih =>
    rw [filter_append, length_append, ih]
    rfl

theorem Scene.mem_raised {P : Scene} {note : Note} (hn : P.notes[k]? = some note)
    (hi : P.state.draft.body[k]? = some i) (pad : note.mark.phase.pad? i = some l) :
    l ∈ P.raised := by
  refine mem_filterMap.2 ⟨some l, mem_of_getElem? (i := k) ?_, rfl⟩
  rw [getElem?_zipWith]
  simp [hn, hi, pad]

theorem PadCode.head {env : Env} (h : PadCode env s pad code) :
    code.head? = some (.label pad.label) := by
  cases h <;> rfl

theorem PadCode.ends {env : Env} (h : PadCode env s pad code) :
    ∃ front i, code = front ++ [i] ∧ i.isComment = false ∧
      i.choices = [] := by
  cases h with
  | handled _ _ => exact ⟨_, _, (cons_append ..).symm, rfl, rfl⟩
  | @returned calls copy value _ _ _ =>
    refine ⟨.label pad.label :: (calls ++ (copy ++ (returning env value).dropLast)), .ret value, ?_,
      rfl, rfl⟩
    simp [returning]

section Layout
variable {S : Setting} {env : Env} {B Q : Scene} {codes : List (List Instr)} {code : Code.Function}
  {q : Mark}

theorem Laid.single_end (h : Laid S env B Q codes) : ¬ Q.state.draft.EndsInSwitch := by
  intro ends
  rcases codes.eq_nil_or_concat with rfl | ⟨before, last, rfl⟩
  · refine h.single (ends.of_body (Array.toList_inj.1 ?_))
    simpa using h.writes.body
  · have tail := forall₂_drop_append _ before [last] (concat_eq_append ▸ h.pads)
    obtain ⟨pad, _, made, -, -⟩ := forall₂_cons_right_iff.1 tail
    obtain ⟨front, i, rfl, comment, single⟩ := made.ends
    have back : Q.state.draft.body.back? = some i := by
      rw [← Array.getLast?_toList, h.writes.body]
      simp
    rcases ends.back back with is | choices
    · rw [comment] at is
      cases is
    · exact choices single

theorem endsInSwitch_of_last {d : Draft} {value : Operand} {cases : List (Imm × Label)}
    {default : Label} (last : d.body.toList.reverse.find? (fun i => !i.isComment) =
      some (.switch value cases default)) : d.EndsInSwitch := by
  obtain ⟨-, after, before, split, comments⟩ := find?_eq_some_iff_append.1 last
  have whole : d.body.toList = before.reverse ++ .switch value cases default :: after.reverse := by
    rw [← reverse_reverse d.body.toList, split]
    simp
  refine ⟨before.length, value, cases, default, ?_, fun j i behind hi => ?_⟩
  · rw [← Array.getElem?_toList, whole]
    simp
  · rw [← Array.getElem?_toList, whole, getElem?_append_right (by simp; omega)] at hi
    obtain ⟨n, hn⟩ : ∃ n, j - before.reverse.length = n + 1 :=
      ⟨j - before.length - 1, by simp; omega⟩
    rw [hn, getElem?_cons_succ] at hi
    simpa using comments i (mem_reverse.1 (mem_of_getElem? hi))

namespace Marked
variable (h : Marked S env B Q codes code)
include h

theorem raised : Q.raised = B.state.pads.labels :=
  h.writes.raised.trans h.body.raises.raised

theorem promised (hp : pad ∈ B.state.pads.pads.toList) :
    (∃ q, Q.promise pad.label = some q ∧ q.phase = .unwinding) ∧
    ∀ l, pad.handler = some l → ∃ q, Q.promise l = some q ∧ q.phase = .caught := by
  have fits := (h.body.books.pads pad (Array.mem_toList_iff.1 hp)).mono h.writes.toLater
  obtain ⟨below, ⟨q, hq, dead | ⟨phase, -⟩⟩, -, handler⟩ := fits.promised
  · cases dead.1
  refine ⟨⟨q, hq, phase.symm⟩, fun l hl => ?_⟩
  rw [hl] at handler
  obtain ⟨q', hq', dead | ⟨phase', -⟩⟩ := handler
  · cases dead.1
  · exact ⟨q', hq', phase'.symm⟩

theorem phase_behind (hl : Q.state.draft.body[k]? = some (.label l)) (hq : Q.promise l = some q) :
    (Q.markAt (k + 1)).phase = q.phase := by
  obtain ⟨note, -, -, fits⟩ := h.firm.typed.note hl
  obtain ⟨q', hq', phase, -⟩ := fits.label l rfl
  cases hq.symm.trans hq'
  exact phase.symm

theorem pad_dead (there : code.PadAt B.state.pads.pads.toList (Q.state.draft.entry.size + k)) :
    (Q.markAt k).phase = .dead ∧ k < Q.state.draft.body.size := by
  obtain ⟨pad, hp, hl⟩ := there
  rw [h.instr] at hl
  obtain ⟨⟨q, hq, phase⟩, -⟩ := h.promised hp
  refine ⟨h.firm.typed.entered hl ?_, (Array.getElem?_eq_some_iff.1 hl).1⟩
  rw [h.phase_behind hl hq, phase]
  simp

theorem caught_of
    (there : code.HandlerAt B.state.pads.pads.toList Q.state.status
      (Q.state.draft.entry.size + k)) :
    ∃ l, Q.state.draft.body[k]? = some (.label l) ∧ (Q.markAt (k + 1)).phase = .caught := by
  obtain ⟨l, slot, hl, status, hs, apart⟩ := there
  rw [h.instr] at hl
  rw [Nat.add_assoc, h.instr] at hs
  obtain ⟨note, -, mark, fits⟩ := h.firm.typed.note hs
  refine ⟨l, hl, ?_⟩
  rcases fits.turn.of_store status with ⟨-, thrown⟩ | ⟨caught, -⟩
  · -- a throw goes on to a landing pad
    obtain ⟨i, note', hi, hn', mark', fits'⟩ := h.awake (k := k + 1 + 1) (by rw [thrown]; simp)
    have turn := fits'.turn
    rw [← mark', thrown] at turn
    obtain ⟨⟨pad, rfl⟩, -⟩ := turn.of_thrown
    have raised : pad ∈ Q.raised := mem_raised hn' hi (by rw [← mark', thrown]; rfl)
    rw [h.raised] at raised
    obtain ⟨pad', hp, rfl⟩ := mem_map.1 raised
    exact absurd (by rw [Nat.add_assoc, h.instr]; exact hi) (apart pad' hp)
  · rw [mark, caught]

theorem caught_at (hk : Q.state.draft.body[k]? = some (.label l))
    (behind : (Q.markAt (k + 1)).phase = .caught) :
    code.HandlerAt B.state.pads.pads.toList Q.state.status (Q.state.draft.entry.size + k) := by
  obtain ⟨i, note, hi, -, mark, fits⟩ := h.awake (k := k + 1) (by rw [behind]; simp)
  have turn := fits.turn
  rw [← mark, behind] at turn
  obtain ⟨slot, status, rfl, cleared, -⟩ := turn.of_caught
  refine ⟨l, slot, by rw [h.instr, hk], status, by rw [Nat.add_assoc, h.instr, hi],
    fun pad hp hj => ?_⟩
  -- no ordinary jump goes to a landing pad
  rw [Nat.add_assoc, h.instr] at hj
  obtain ⟨note', -, mark', fits'⟩ := h.firm.typed.note hj
  obtain ⟨q', hq', crosses, -⟩ := fits'.edge .unconditional pad.label rfl
  obtain ⟨⟨q'', hq'', phase⟩, -⟩ := h.promised hp
  cases hq'.symm.trans hq''
  rw [← mark', cleared] at crosses
  cases phase.symm.trans crosses.1

theorem handler_dead
    (there : code.HandlerAt B.state.pads.pads.toList Q.state.status
      (Q.state.draft.entry.size + k)) :
    (Q.markAt k).phase = .dead ∧ k < Q.state.draft.body.size := by
  obtain ⟨l, hl, caught⟩ := h.caught_of there
  exact ⟨h.firm.typed.entered hl (by simp [caught]), (Array.getElem?_eq_some_iff.1 hl).1⟩

theorem handler_at (hq : Q.promise l = some q) (caught : q.phase = .caught) :
    ∃ k, code.HandlerAt B.state.pads.pads.toList Q.state.status k ∧
      code.instrs[k]? = some (.label l) := by
  obtain ⟨made, -⟩ := Array.getElem?_eq_some_iff.1 hq
  rw [h.firm.typed.labels] at made
  obtain ⟨k, hk⟩ := h.accounts.exists_place made
  exact ⟨_, h.caught_at hk ((h.phase_behind hk hq).trans caught), by rw [h.instr, hk]⟩

theorem handler_iff :
    code.HandlerAt B.state.pads.pads.toList Q.state.status (Q.state.draft.entry.size + k) ↔
      ∃ note, Q.notes[k]? = some note ∧ note.origin.site? = some .handler := by
  constructor
  · intro there
    obtain ⟨l, hl, caught⟩ := h.caught_of there
    obtain ⟨note, hn, -, fits⟩ := h.firm.typed.note hl
    refine ⟨note, hn, ?_⟩
    have turn := fits.turn
    rw [caught] at turn
    rw [turn.of_label_caught]
    rfl
  · rintro ⟨note, hn, shows⟩
    obtain ⟨i, hi, fits⟩ := h.firm.typed.fits_at hn
    obtain ⟨l, rfl, caught⟩ := fits.turn.of_handler shows
    exact h.caught_at hi caught

theorem lastBefore_of
    (found : (Q.state.draft.body.toList.take k).reverse.find? (fun i => !i.isComment) = some i) :
    code.lastBefore (Q.state.draft.entry.size + k) = some i := by
  unfold Code.Function.lastBefore
  rw [h.finished.instrs, Array.toList_append, ← Array.length_toList, take_length_add_append,
    reverse_append, find?_append, found]
  rfl

theorem barred (bound : k ≤ Q.state.draft.body.size) (dead : (Q.markAt k).phase = .dead) :
    ∃ i, code.lastBefore (Q.state.draft.entry.size + k) = some i ∧ i.isTerminator := by
  obtain ⟨i, found, terminates⟩ := h.firm.typed.closes k bound dead
  exact ⟨i, h.lastBefore_of found, terminates⟩

theorem last : ∃ i,
    code.lastBefore code.instrs.size = some i ∧ ((∃ t, i = .jump t) ∨ ∃ value, i = .ret value) := by
  have dead : (Q.markAt Q.state.draft.body.size).phase = .dead := by
    rw [← h.firm.typed.size]
    simp [markAt, h.dead]
  have size : code.instrs.size = Q.state.draft.entry.size + Q.state.draft.body.size := by
    rw [h.finished.instrs, Array.size_append]
  obtain ⟨i, found, terminates⟩ := h.firm.typed.closes _ (Nat.le_refl _) dead
  refine ⟨i, ?_, ?_⟩
  · rw [size]
    exact h.lastBefore_of found
  · rw [← Array.length_toList, take_length] at found
    cases i with
    | jump t => exact .inl ⟨t, rfl⟩
    | ret value => exact .inr ⟨value, rfl⟩
    | switch _ _ _ => exact absurd (endsInSwitch_of_last found) h.toLaid.single_end
    | _ => cases terminates

theorem label_at (hl : code.instrs[k]? = some (.label l)) :
    ∃ k', k = Q.state.draft.entry.size + k' ∧ Q.state.draft.body[k']? = some (.label l) := by
  by_cases slot : k < Q.state.draft.entry.size
  · rw [h.slot slot] at hl
    have setup := h.firm.books.entry.setup _ (Array.mem_def.1 (Array.mem_of_getElem? hl))
    cases setup
  · refine ⟨k - Q.state.draft.entry.size, by omega, ?_⟩
    rw [← h.instr]
    rwa [Nat.add_sub_cancel' (by omega)]

theorem places (j : Nat) (made : j < code.labels.length) :
    ∃ p, code.labels[j]? = some ⟨p⟩ ∧ ∀ k : Nat, code.instrs[k]? = some (.label ⟨j⟩) ↔ k = p := by
  rw [h.labels] at made
  obtain ⟨k, hk⟩ := h.accounts.exists_place made
  refine ⟨_, h.finished.labels k ⟨j⟩ hk, fun k' => ⟨fun hl => ?_, ?_⟩⟩
  · obtain ⟨k'', rfl, there⟩ := h.label_at hl
    rw [h.accounts.place_unique there hk]
  · rintro rfl
    rw [h.instr, hk]

theorem promised_lt (hq : Q.promise l = some q) : l.index < code.labels.length := by
  obtain ⟨made, -⟩ := Array.getElem?_eq_some_iff.1 hq
  rwa [h.firm.typed.labels, ← h.labels] at made

theorem note_at (hi : code.instrs[k]? = some i) (moves : i.isSetup = false) : ∃ k' note,
      Q.state.draft.body[k']? = some i ∧ Fits S Q.state Q.promise note i (Q.markAt (k' + 1)) := by
  obtain ⟨k', rfl⟩ := Nat.exists_eq_add_of_le (h.behind_slots hi moves)
  rw [h.instr] at hi
  obtain ⟨note, -, -, fits⟩ := h.firm.typed.note hi
  exact ⟨k', note, hi, fits⟩

theorem targets {e : Edge} {target : Option Label} (hi : code.instrs[k]? = some i)
    (ht : i.target? e = some target) :
    ∃ l, target = some l ∧ l.index < code.labels.length := by
  have moves : i.isSetup = false := by
    cases i <;> first | rfl | (cases e <;> cases ht)
  obtain ⟨k', note, hi', fits⟩ := h.note_at hi moves
  cases target with
  | none =>
    have unset : Q.state.draft.Open ⟨⟨k'⟩, e⟩ := by simp [Draft.Open, hi', ht]
    cases (h.accounts.mem_iff _).2 unset
  | some l =>
    obtain ⟨q, hq, -⟩ := fits.edge e l ht
    exact ⟨l, rfl, h.promised_lt hq⟩

theorem choices (hi : code.instrs[k]? = some i) (hl : l ∈ i.choices) :
    l.index < code.labels.length := by
  have moves : i.isSetup = false := by
    cases i <;> first | rfl | cases hl
  obtain ⟨k', note, -, fits⟩ := h.note_at hi moves
  obtain ⟨q, hq, -⟩ := fits.choice l hl
  exact h.promised_lt hq

theorem start_dead {j : Nat}
    (there : code.PadAt B.state.pads.pads.toList j ∨
      code.HandlerAt B.state.pads.pads.toList Q.state.status j) :
    ∃ k, j = Q.state.draft.entry.size + k ∧ (Q.markAt k).phase = .dead ∧
      k < Q.state.draft.body.size := by
  obtain ⟨l, hl⟩ : ∃ l, code.instrs[j]? = some (.label l) := by
    rcases there with ⟨pad, -, hl⟩ | ⟨l, -, hl, -⟩
    · exact ⟨_, hl⟩
    · exact ⟨l, hl⟩
  obtain ⟨k, rfl, -⟩ := h.label_at hl
  rcases there with pad | handler
  · exact ⟨k, rfl, h.pad_dead pad⟩
  · exact ⟨k, rfl, h.handler_dead handler⟩

theorem handlers :
    ∃ starts : List Nat, starts.Pairwise (· < ·) ∧ starts.length = S.sites.count .handler ∧
      ∀ k, k ∈ starts ↔ code.HandlerAt B.state.pads.pads.toList Q.state.status k := by
  obtain ⟨places, sorted, count, all⟩ := h.shown .handler rfl
  refine ⟨places.map (Q.state.draft.entry.size + ·), ?_, by rw [length_map, count],
    fun k => ⟨fun hk => ?_, fun there => ?_⟩⟩
  · exact sorted.map _ fun a b lt => Nat.add_lt_add_left lt _
  · obtain ⟨k, there, rfl⟩ := mem_map.1 hk
    exact h.handler_iff.2 ((all k).1 there)
  · obtain ⟨k, rfl, -⟩ := h.start_dead (.inr there)
    exact mem_map.2 ⟨k, (all k).2 (h.handler_iff.1 there), rfl⟩

theorem layout :
    code.Layout env B.state Q.state codes (S.sites.count .handler) := by
  refine ⟨?_, h.firm.books.entry, h.count, h.pads, h.places, fun k l hl => ?_,
    fun k i e target hi ht => h.targets hi ht, fun k i hi l hl => h.choices hi hl,
    fun i hi => ?_, ?_, h.last, h.handlers, fun k there => ?_, fun pad hp l hl => ?_⟩
  · rw [h.finished.instrs, Array.toList_append, h.writes.body]
  · obtain ⟨k', -, hl⟩ := h.label_at hl
    rw [h.labels]
    exact h.accounts.label_lt hl
  · have setup := h.firm.books.entry.setup i (Array.mem_def.1 hi)
    cases i with
    | alloc r ty name => exact .inl ⟨r, ty, name, rfl⟩
    | store _ _ => exact .inr rfl
    | _ => cases setup
  · rw [h.firm.books.entry.stores]
    split <;> omega
  · obtain ⟨k, rfl, dead, bound⟩ := h.start_dead there
    exact h.barred (Nat.le_of_lt bound) dead
  · obtain ⟨q, hq, caught⟩ := (h.promised (Array.mem_def.1 hp)).2 l hl
    exact h.handler_at hq caught

theorem not_into
    (there : code.PadAt B.state.pads.pads.toList k ∨
      code.HandlerAt B.state.pads.pads.toList Q.state.status k) : ¬ code.FallsInto k := by
  obtain ⟨k, rfl, dead, -⟩ := h.start_dead there
  rintro ⟨path, j, run, moves⟩
  rcases h.walk run with ⟨lt, -⟩ | ⟨rest, j, m, -, rfl, walk⟩
  · obtain ⟨_, _, _, next⟩ := moves
    obtain rfl : k = 0 := by omega
    exact h.firm.typed.start_at.1 dead
  · obtain ⟨i, k', m', next, goes⟩ := h.step (walk.at h.firm.typed) moves
    obtain rfl : k = k' := by omega
    cases goes with
    | on hi _ awake on fits => exact (Goes.on (S := S) hi ‹_› awake on fits).arrives.1 dead
    | behind _ _ awake phase _ _ => exact awake (phase.symm.trans dead)

end Marked
end Layout
end Marks

section Function
variable {symbols : SymbolTable} {options : Options} {f : Ast.Function} {code : Code.Function}

/-- The code of a function is laid out as slots, body and landing pads, with each label at its place
and each target set, and with a handler for each that the tree has. -/
theorem lowerFunction_laid_out (h : lowerFunction symbols options f = .ok code) :
    code.LaidOut symbols options f := by
  obtain ⟨env, incoming, B, Q, codes, staged, -, marked⟩ :=
    lowerFunction_marked h false fun follows => nomatch follows
  exact ⟨env, incoming, B.state, Q.state, codes, staged, marked.layout,
    fun path k run => marked.inside run, fun k there => marked.not_into there⟩

theorem guardedLoop_laid_out : ∃ code, lowerFunction guardSymbols .default guardedLoop = .ok code ∧
    code.LaidOut guardSymbols .default guardedLoop := by
  obtain ⟨code, lowered⟩ := guardedLoop_lowers
  exact ⟨code, lowered, lowerFunction_laid_out lowered⟩

end Function
end FlatCode
