import FlatCode.Proofs.Marks.Scene

/-! Edits of a scene. Each edit of the draft has a counterpart for its marks: an instruction at
the end with its note, a label with its promise, a target that is set. They keep the marks fit. -/
namespace FlatCode.Marks
open Code Symbols Ast Lower Array

namespace Setting
variable {S : Setting} {s : State}

theorem Widens.of_code (body : Array Instr) (labels : Nat) :
    S.Widens s { s with draft := { s.draft with body := body, labels := labels } } :=
  .of_same rfl rfl rfl rfl

end Setting

namespace Scene

variable {l : Label} {pads : List Label}

def note (P : Scene) (origin : Origin) : Note := ⟨⟨.ordinary, P.held, P.live⟩, origin⟩

def push (P : Scene) (note : Note) (i : Instr) (n : Mark) : Scene :=
  { state := { P.state with draft := { P.state.draft with body := P.state.draft.body.push i } }
    notes := P.notes.push note
    promises := P.promises
    mark := n
    held := n.held
    live := n.live }

def withLabel (P : Scene) (q : Mark) : Scene :=
  { P with
    state := { P.state with draft := { P.state.draft with labels := P.state.draft.labels + 1 } }
    promises := P.promises.push q }

def relax (P : Scene) (l : Label) (n : Mark) : Scene :=
  { P with
    promises := P.promises.setIfInBounds l.index n
    mark := n
    held := n.held
    live := n.live }

def patch (P : Scene) (b : PendingBranch) (l : Label) : Scene :=
  { P with
    state := { P.state with
      draft := { P.state.draft with
        body := P.state.draft.body.modify b.instr.index (Instr.setTarget l b.edge) } } }

def widen (P : Scene) (t : State) : Scene := { P with state := t }

def keep (P : Scene) (held : List Register) (live : List Operand) : Scene :=
  { P with held := held, live := live }

variable {S : Setting} {P : Scene} {note : Note} {i : Instr} {n q : Mark}

theorem markAt_push (k : Nat) : (P.push note i n).markAt k =
    if k < P.notes.size then P.markAt k else if k = P.notes.size then note.mark else n := by
  unfold markAt push
  rw [getElem?_push]
  by_cases lt : k < P.notes.size
  · have ne : k ≠ P.notes.size := by omega
    simp [lt, ne]
  · by_cases eq : k = P.notes.size
    · simp [eq]
    · simp [lt, eq]

theorem markAt_size : P.markAt P.notes.size = P.mark := by
  simp [markAt]

theorem promise_withLabel (l : Label) : (P.withLabel q).promise l =
    if l.index = P.promises.size then some q else P.promise l := by
  unfold promise withLabel
  rw [getElem?_push]

theorem promise_new : (P.withLabel q).promise ⟨P.promises.size⟩ = some q := by
  simp [promise_withLabel]

theorem promise_old {q' : Mark} (h : P.promise l = some q') :
    (P.withLabel q).promise l = some q' := by
  obtain ⟨lt, -⟩ := Array.getElem?_eq_some_iff.1 h
  rw [promise_withLabel, if_neg (Nat.ne_of_lt lt)]
  exact h

theorem raised_push (size : P.notes.size = P.state.draft.body.size) :
    (P.push note i n).raised = P.raised ++ (note.mark.phase.pad? i).toList := by
  unfold raised push
  simp only [toList_push]
  rw [List.zipWith_append (by simpa using size), List.filterMap_append]
  cases hp : note.mark.phase.pad? i <;> simp [hp]

theorem Raises.push (h : P.Raises pads) (size : P.notes.size = P.state.draft.body.size)
    (calm : note.mark.phase ≠ .unwinding) :
    (P.push note i n).Raises (pads ++ (note.mark.phase.pad? i).toList) := by
  refine ⟨by rw [raised_push size, h.raised], fun note' hn => ?_⟩
  rcases mem_push.1 hn with hn | rfl
  · exact h.calm note' hn
  · exact calm

theorem Raises.push_none (h : P.Raises pads) (size : P.notes.size = P.state.draft.body.size)
    (calm : note.mark.phase ≠ .unwinding) (none : note.mark.phase.pad? i = none) :
    (P.push note i n).Raises pads := by
  have pushed := h.push (i := i) (n := n) size calm
  rwa [none, Option.toList_none, List.append_nil] at pushed

theorem Raises.frame {Q : Scene} (h : P.Raises pads) (notes : Q.notes = P.notes)
    (body : Q.state.draft.body = P.state.draft.body) : Q.Raises pads := by
  refine ⟨?_, notes ▸ h.calm⟩
  rw [← h.raised]
  unfold Scene.raised
  rw [notes, body]

theorem calls_push : (P.push note i n).calls = P.calls ++ note.origin.site?.toList := by
  unfold calls push
  cases hs : note.origin.site? <;> simp [hs]

theorem mem_notes_push {note' : Note} :
    note' ∈ (P.push note i n).notes ↔ note' ∈ P.notes ∨ note' = note := by
  simp [push]

section Typed

theorem Typed.push (h : P.Typed S) (le : P.mark.le note.mark)
    (fits : Fits S P.state P.promise note i n) : (P.push note i n).Typed S := by
  refine ⟨?_, h.labels, ?_, fun k j note' hj hnote => ?_⟩
  · simp [Scene.push, h.size]
  · refine Mark.le_trans h.start ?_
    rw [markAt_push]
    split
    · exact Mark.le_refl _
    · have none : P.notes.size = 0 := by omega
      have start : P.markAt 0 = P.mark := by rw [← none, markAt_size]
      rw [start, if_pos none.symm]
      exact le
  · refine Fits.widen (s := P.state) ?_ (.of_code _ _)
    change (P.state.draft.body.push i)[k]? = some j at hj
    change (P.notes.push note)[k]? = some note' at hnote
    rw [getElem?_push] at hj hnote
    rw [markAt_push]
    by_cases last : k = P.notes.size
    · rw [if_pos last] at hnote
      rw [if_pos (last.trans h.size)] at hj
      cases hj
      cases hnote
      rw [if_neg (by omega), if_neg (by omega)]
      exact fits
    · rw [if_neg last] at hnote
      rw [if_neg (by rwa [← h.size])] at hj
      have old := h.fits k j note' hj hnote
      obtain ⟨lt, -⟩ := Array.getElem?_eq_some_iff.1 hnote
      by_cases before : k + 1 < P.notes.size
      · rw [if_pos before]
        exact old
      · have end_ : k + 1 = P.notes.size := by omega
        rw [end_, markAt_size] at old
        rw [if_neg before, if_pos end_]
        exact old.le le

theorem Typed.widen (h : P.Typed S) {t : State} (w : S.Widens P.state t)
    (body : t.draft.body = P.state.draft.body) (labels : t.draft.labels = P.state.draft.labels) :
    (P.widen t).Typed S := by
  refine ⟨h.size.trans (congrArg Array.size body.symm), h.labels.trans labels.symm, h.start,
    fun k i note hi hn => ?_⟩
  change t.draft.body[k]? = some i at hi
  rw [body] at hi
  exact (h.fits k i note hi hn).widen w

theorem Typed.withLabel (h : P.Typed S) : (P.withLabel q).Typed S := by
  refine ⟨h.size, ?_, h.start, fun k i note hi hn => ?_⟩
  · simp [Scene.withLabel, h.labels]
  · refine Fits.widen (s := P.state) ?_ (.of_code _ _)
    have fits := h.fits k i note hi hn
    refine fits.repromise (fun l q' hq' => ⟨q', promise_old hq', q'.le_refl⟩) ?_
    rintro l rfl
    obtain ⟨q', hq', -⟩ := fits.label l rfl
    rw [promise_old hq', hq']

theorem Typed.patch (h : P.Typed S) {b : PendingBranch} {note : Note}
    (hn : P.notes[b.instr.index]? = some note) (ordinary : note.mark.phase = .ordinary)
    (hq : P.promise l = some q) (crosses : note.mark.Crosses b.edge q) :
    (P.patch b l).Typed S := by
  refine ⟨?_, h.labels, h.start, fun k i note' hi hnote => ?_⟩
  · simp [Scene.patch, h.size]
  · refine Fits.widen (s := P.state) ?_ (.of_code _ _)
    change (P.state.draft.body.modify b.instr.index (Instr.setTarget l b.edge))[k]? = some i at hi
    rw [getElem?_modify] at hi
    split at hi
    · rename_i same
      subst same
      obtain ⟨old, hold, rfl⟩ := Option.map_eq_some_iff.1 hi
      cases hn.symm.trans hnote
      exact (h.fits _ old note hold hn).set ordinary hq crosses
    · exact h.fits k i note' hi hnote

theorem promise_relax (made : l.index < P.promises.size) (l' : Label) :
    (P.relax l n).promise l' = if l' = l then some n else P.promise l' := by
  obtain ⟨j⟩ := l
  obtain ⟨k⟩ := l'
  unfold promise Scene.relax
  by_cases same : j = k
  · subst same
    simp [made]
  · simp [same, Ne.symm same]

theorem Typed.promise_back (h : P.Typed S) (last : P.state.draft.body.back? = some (.label l)) :
    ∃ q, P.promise l = some q ∧
      q.phase = P.mark.phase ∧ q.live = P.mark.live ∧ ∀ r ∈ P.mark.held, r ∈ q.held := by
  obtain ⟨lt, -⟩ := Array.getElem?_eq_some_iff.1 last
  obtain ⟨note, hn⟩ : ∃ note, P.notes[P.state.draft.body.size - 1]? = some note :=
    ⟨_, getElem?_eq_getElem (by rw [h.size]; exact lt)⟩
  obtain ⟨q, hq, phase, live, -, held⟩ := (h.fits _ _ note last hn).label l rfl
  have end_ : P.state.draft.body.size - 1 + 1 = P.notes.size := by rw [h.size]; omega
  rw [end_, markAt_size] at phase live held
  exact ⟨q, hq, phase, live, held⟩

theorem Typed.less (h : P.Typed S) (last : P.state.draft.body.back? = some (.label l))
    (le : P.mark.le n) (l' : Label) (q' : Mark) (hq' : P.promise l' = some q') :
    ∃ q, (P.relax l n).promise l' = some q ∧ q'.le q := by
  obtain ⟨q, hq, phase, live, held⟩ := h.promise_back last
  rw [promise_relax (Array.getElem?_eq_some_iff.1 hq).1]
  split
  · rename_i same
    subst same
    cases hq.symm.trans hq'
    exact ⟨n, rfl, Mark.le_trans (.inr ⟨phase, live, held⟩) le⟩
  · exact ⟨q', hq', q'.le_refl⟩

/-- The label just placed may promise what is known at the end, and the mark there may say less. -/
theorem Typed.relax (h : P.Typed S) (last : P.state.draft.body.back? = some (.label l))
    (phase : P.mark.phase = n.phase) (live : P.mark.live = n.live)
    (held : ∀ r ∈ n.held, r ∈ P.mark.held)
    (unique : ∀ k, P.state.draft.body[k]? = some (.label l) → k + 1 = P.state.draft.body.size) :
    (P.relax l n).Typed S := by
  obtain ⟨q, hq, -⟩ := h.promise_back last
  have le : P.mark.le n := .inr ⟨phase, live, held⟩
  have set := promise_relax (P := P) (n := n) (Array.getElem?_eq_some_iff.1 hq).1
  have marks (k : Nat) : (P.markAt k).le ((P.relax l n).markAt k) := by
    unfold markAt Scene.relax
    cases P.notes[k]? with
    | some note => exact Mark.le_refl _
    | none => exact le
  refine ⟨h.size, by simp [Scene.relax, h.labels], Mark.le_trans h.start (marks 0),
    fun k i note hi hn => ?_⟩
  have fits := (h.fits k i note hi hn).le (marks (k + 1))
  by_cases here : i = .label l
  · subst here
    have end_ : k + 1 = P.notes.size := by rw [h.size]; exact unique k hi
    have mark : (P.relax l n).markAt (k + 1) = n := by
      rw [end_]
      simp [markAt, Scene.relax]
    rw [mark] at fits ⊢
    refine ⟨fits.reads, fits.bounds, fits.holds, fits.turn, fun e l' hl' => ?_,
      fun l' hl' => (nomatch hl'), fun l' hl' => ?_, fits.apart⟩
    · cases e <;> cases hl'
    · cases hl'
      obtain ⟨q', hq', -, -, before, after⟩ := fits.label l rfl
      cases hq.symm.trans hq'
      exact ⟨n, by simp [set], rfl, rfl, before.imp_right fun sub r hr => sub r (after r hr),
        fun r hr => hr⟩
  · refine fits.repromise (h.less last le) fun l' hl' => ?_
    rw [set, if_neg]
    rintro rfl
    exact here hl'

end Typed
end Scene
end FlatCode.Marks
