import FlatCode.Proofs.Marks.Edit

/-! Scenes stay in order. For each edit of a scene, the books and the lives of objects agree with
the marks as before. -/
namespace FlatCode
open Code Symbols Ast Lower Array

namespace Code.Instr

theorem eq_of_setTarget_switch {i : Instr} {l : Label} {e : Edge} {value : Operand}
    {cases : List (Imm × Label)} {default : Label}
    (h : i.setTarget l e = .switch value cases default) : i = .switch value cases default := by
  cases i <;> cases e <;> first | exact h | cases h

theorem isComment_setTarget (i : Instr) (l : Label) (e : Edge) :
    (i.setTarget l e).isComment = i.isComment := by
  cases i <;> cases e <;> rfl

end Code.Instr

namespace Draft.EndsInSwitch
variable {d d' : Draft} {i : Instr}

theorem of_push (h : d'.EndsInSwitch) (single : i.choices = []) (body : d'.body = d.body.push i) :
    d.EndsInSwitch := by
  obtain ⟨k, value, cases, default, hk, rest⟩ := h
  rw [body] at hk rest
  have lt : k < d.body.size := by
    rw [getElem?_push] at hk
    split at hk
    · cases hk
      cases single
    · exact (Array.getElem?_eq_some_iff.1 hk).1
  have old {j : Nat} (hj : j < d.body.size) : (d.body.push i)[j]? = d.body[j]? := by
    rw [getElem?_push, if_neg (Nat.ne_of_lt hj)]
  refine ⟨k, value, cases, default, (old lt).symm.trans hk, fun j i' after hi' => ?_⟩
  exact rest j i' after ((old (Array.getElem?_eq_some_iff.1 hi').1).trans hi')

theorem of_body (h : d'.EndsInSwitch) (body : d'.body = d.body) : d.EndsInSwitch := by
  unfold EndsInSwitch at h ⊢
  rwa [body] at h

theorem of_patch {b : PendingBranch} {l : Label} (h : d'.EndsInSwitch)
    (body : d'.body = d.body.modify b.instr.index (Instr.setTarget l b.edge)) :
    d.EndsInSwitch := by
  obtain ⟨k, value, cases, default, hk, rest⟩ := h
  rw [body] at hk rest
  refine ⟨k, value, cases, default, ?_, fun j i after hi => ?_⟩
  · rw [getElem?_modify] at hk
    split at hk
    · obtain ⟨i, hi, same⟩ := Option.map_eq_some_iff.1 hk
      rw [hi, ← Instr.eq_of_setTarget_switch same]
    · exact hk
  · by_cases here : b.instr.index = j
    · have comment := rest j (i.setTarget l b.edge) after
        (by simp [getElem?_modify, here, hi])
      rwa [Instr.isComment_setTarget] at comment
    · exact rest j i after (by simpa [getElem?_modify, here] using hi)

theorem back (h : d.EndsInSwitch) (last : d.body.back? = some i) :
    i.isComment ∨ i.choices ≠ [] := by
  obtain ⟨k, value, cases, default, hk, rest⟩ := h
  obtain ⟨lt, -⟩ := Array.getElem?_eq_some_iff.1 hk
  by_cases here : k = d.body.size - 1
  · cases (here ▸ hk).symm.trans last
    exact .inr (by simp [Instr.choices])
  · exact .inl (rest _ _ (by omega) last)

end Draft.EndsInSwitch

namespace Marks

structure SameBooks (s t : State) : Prop where
  entry : t.draft.entry = s.draft.entry
  storage : t.storage = s.storage
  cleanups : t.cleanups = s.cleanups
  pads : t.pads = s.pads
  gotos : t.gotos = s.gotos
  status : t.status = s.status

namespace Scene
variable {S : Setting} {P Q : Scene} {a : List Site} {note : Note} {i : Instr} {n q : Mark}

theorem Books.mono (h : P.Books S) (later : P.Later S Q)
    (entry : Entry Q.state.draft.entry.toList Q.state.status)
    (allocs : ∀ i ∈ Q.state.draft.entry, i ∈ P.state.draft.entry ∨
      ∀ r, i.dest? = some r → r.index < Q.state.draft.registers.size)
    (slots : ∀ v l, Q.state.location? v = some l → P.state.location? v = some l ∨
      Q.Keeps S (.reg l.slot))
    (owed : ∀ o ∈ Q.state.cleanups.pendingFrom 0, o ∈ P.state.cleanups.pendingFrom 0 ∨
      Q.Owes S o)
    (pads : ∀ pad ∈ Q.state.pads.pads, pad ∈ P.state.pads.pads ∨ Q.PadFits S pad)
    (placed : S.follows = false → ∀ p ∈ Q.state.gotos.placed, p ∈ P.state.gotos.placed ∨
      Q.Promises p.2 ⟨.ordinary, [], []⟩)
    (waiting : ∀ p ∈ Q.state.gotos.pending, ∀ b ∈ p.2,
      (∃ p' ∈ P.state.gotos.pending, b ∈ p'.2) ∨ S.follows = false ∧ Q.Carries b [] []) :
    Q.Books S := by
  refine ⟨entry, fun i hi r hr => ?_, h.housed.trans later.widens.houses, fun v l hl => ?_,
    fun o ho => ?_, fun pad hp => ?_, fun loose p hp => ?_, fun p hp b hb => ?_⟩
  · rcases allocs i hi with hi | bound
    · exact Nat.lt_of_lt_of_le (h.allocs i hi r hr) later.widens.registers
    · exact bound r hr
  · rcases slots v l hl with hl | keeps
    · exact (h.slots v l hl).mono later
    · exact keeps
  · rcases owed o ho with ho | owes
    · exact (h.owed o ho).mono later
    · exact owes
  · rcases pads pad hp with hp | fits
    · exact (h.pads pad hp).mono later
    · exact fits
  · rcases placed loose p hp with hp | promises
    · exact (h.placed loose p hp).mono later
    · exact promises
  · rcases waiting p hp b hb with ⟨p', hp', hb⟩ | carries
    · obtain ⟨loose, carries⟩ := h.waiting p' hp' b hb
      exact ⟨loose, carries.mono later⟩
    · exact carries

theorem Books.frame (h : P.Books S) (later : P.Later S Q) (same : SameBooks P.state Q.state) :
    Q.Books S := by
  obtain ⟨entry, storage, cleanups, pads, gotos, status⟩ := same
  refine h.mono later (by rw [entry, status]; exact h.entry) (fun i hi => .inl (entry ▸ hi))
    (fun v l hl => .inl ?_) (fun o ho => .inl (cleanups ▸ ho)) (fun pad hp => .inl (pads ▸ hp))
    (fun _ p hp => .inl (gotos ▸ hp)) (fun p hp b hb => .inl ⟨p, gotos ▸ hp, hb⟩)
  unfold State.location? at hl ⊢
  rwa [storage] at hl

theorem Lived.frame (h : P.Lived S) (notes : Q.notes = P.notes) (w : S.Widens P.state Q.state)
    (owed : Q.Stacked S (S.alive Q.state.cleanups)) : Q.Lived S := by
  refine ⟨?_, ?_, ?_, owed, fun follows note hn o ho => ?_, fun k note hn x hx => ?_⟩
  · rw [notes]
    exact h.once
  · rw [notes]
    intro note hn r hr
    obtain ⟨lt, apart⟩ := h.apart note hn r hr
    refine ⟨Nat.lt_of_lt_of_le lt w.registers, fun v l hl same => ?_⟩
    rcases w.houses.added v l hl with old | ⟨new, -, -⟩
    · exact apart v l old same
    · rw [same] at new
      omega
  · rw [notes]
    exact h.built
  · rw [notes] at hn
    rcases h.due follows note hn o ho with ⟨v, l, hl, object⟩ | result
    · exact .inl ⟨v, l, w.houses.stays v l hl, object⟩
    · exact .inr (notes ▸ result)
  · rw [notes] at hn
    obtain ⟨j, rfl, _, made, call, v, ctor, symbol, slot, o, lt, hj, built, hk, destroys, temp,
      between⟩ := h.left k note hn x hx
    refine ⟨j, rfl, _, made, call, v, ctor, symbol, slot, o, lt, ?_, built, ?_, destroys,
      temp.widen w, ?_⟩ <;> rw [notes] <;> assumption

def FreeSlot (P : Scene) (r : Register) : Prop :=
  r.index < P.state.draft.registers.size ∧ (∀ v l, P.state.location? v = some l → l.slot ≠ r) ∧
    ∀ note ∈ P.notes, note.origin.slot? ≠ some r

theorem later_push : P.Later S (P.push note i n) := by
  refine ⟨fun k note' hk => ?_, fun l q hq => ⟨q, hq, q.le_refl⟩, .of_code _ _⟩
  obtain ⟨lt, -⟩ := Array.getElem?_eq_some_iff.1 hk
  change (P.notes.push note)[k]? = some note'
  rw [getElem?_push, if_neg (Nat.ne_of_lt lt)]
  exact hk

theorem Lived.push (h : P.Lived S) (live : ∀ x ∈ note.mark.live, P.Built S x)
    (slot : ∀ r, note.origin.slot? = some r → P.FreeSlot r)
    (due : S.follows = true → ∀ o, note.origin = .destructor o → P.Due S o)
    (left : ∀ x ∈ note.mark.phase.left, ∃ j, P.notes.size = j + 1 ∧ P.LeavesOut S j x) :
    (P.push note i n).Lived S := by
  have found {k : Nat} {note' : Note} (hk : (P.notes.push note)[k]? = some note') :
      P.notes[k]? = some note' ∨ k = P.notes.size ∧ note' = note := by
    rw [getElem?_push] at hk
    split at hk
    · rename_i last
      exact .inr ⟨last, (Option.some.inj hk).symm⟩
    · exact .inl hk
  have old {k : Nat} {note' : Note} (hk : P.notes[k]? = some note') :
      (P.notes.push note)[k]? = some note' := by
    obtain ⟨lt, -⟩ := Array.getElem?_eq_some_iff.1 hk
    rw [getElem?_push, if_neg (Nat.ne_of_lt lt)]
    exact hk
  refine ⟨fun j k note1 note2 r hj hk hr hr' => ?_, fun note' hn r hr => ?_,
    fun k note' hk x hx => ?_, h.owed.mono later_push, fun follows note' hn o ho => ?_,
    fun k note' hk x hx => ?_⟩
  · rcases found hj with first | ⟨rfl, rfl⟩
    · rcases found hk with second | ⟨-, rfl⟩
      · exact h.once j k note1 note2 r first second hr hr'
      · exact absurd hr ((slot r hr').2.2 note1 (mem_of_getElem? first))
    · rcases found hk with second | ⟨rfl, -⟩
      · exact absurd hr' ((slot r hr).2.2 note2 (mem_of_getElem? second))
      · rfl
  · rcases mem_notes_push.1 hn with hn | rfl
    · exact h.apart note' hn r hr
    · exact ⟨(slot r hr).1, (slot r hr).2.1⟩
  · rcases found hk with hk | ⟨rfl, rfl⟩
    · obtain ⟨j, note'', lt, hj, built⟩ := h.built k note' hk x hx
      exact ⟨j, note'', lt, old hj, built⟩
    · obtain ⟨note'', hn, built⟩ := live x hx
      obtain ⟨j, hj⟩ := mem_iff_getElem?.1 hn
      obtain ⟨lt, -⟩ := Array.getElem?_eq_some_iff.1 hj
      exact ⟨j, note'', lt, old hj, built⟩
  · have before : P.Due S o := by
      rcases mem_notes_push.1 hn with hn | rfl
      · exact h.due follows note' hn o ho
      · exact due follows o ho
    rcases before with var | ⟨note'', hn'', result⟩
    · exact .inl var
    · exact .inr ⟨note'', mem_notes_push.2 (.inl hn''), result⟩
  · rcases found hk with hk | ⟨rfl, rfl⟩
    · obtain ⟨j, rfl, leaves⟩ := h.left k note' hk x hx
      exact ⟨j, rfl, leaves.mono later_push⟩
    · obtain ⟨j, size, leaves⟩ := left x hx
      exact ⟨j, size, leaves.mono later_push⟩

section Later

theorem later_widen {t : State} (w : S.Widens P.state t) : P.Later S (P.widen t) :=
  ⟨fun _ _ h => h, fun _ q h => ⟨q, h, q.le_refl⟩, w⟩

theorem later_withLabel : P.Later S (P.withLabel q) :=
  ⟨fun _ _ h => h, fun _ q' h => ⟨q', promise_old h, q'.le_refl⟩, .of_code _ _⟩

theorem later_patch {b : PendingBranch} {l : Label} : P.Later S (P.patch b l) :=
  ⟨fun _ _ h => h, fun _ q h => ⟨q, h, q.le_refl⟩, .of_code _ _⟩

theorem later_keep {held : List Register} {live : List Operand} : P.Later S (P.keep held live) :=
  ⟨fun _ _ h => h, fun _ q h => ⟨q, h, q.le_refl⟩, .refl _⟩

end Later

structure Extends (S : Setting) (P : Scene) (origin : Origin) (Q : Scene) : Prop extends
    P.Later S Q where
  held : ∀ r ∈ P.held, r ∈ Q.held
  calls : Q.calls = P.calls ++ origin.site?.toList
  slots : ∀ note ∈ Q.notes, ∀ r, note.origin.slot? = some r →
    note ∈ P.notes ∨ origin.slot? = some r
  switch : Q.state.draft.EndsInSwitch → P.state.draft.EndsInSwitch

namespace Extends
variable {O : Scene} {origin : Origin}

theorem leads (h : P.Extends S origin Q) (before : O.Leads S a P)
    (fresh : ∀ r, origin.slot? = some r → O.state.draft.registers.size ≤ r.index) :
    O.Leads S (a ++ origin.site?.toList) Q := by
  refine ⟨⟨before.toLater.trans h.toLater, fun r hr => h.held r (before.held r hr), ?_,
    fun note hn r hr => ?_⟩, fun ends => before.switch (h.switch ends)⟩
  · obtain ⟨made, hmade, sub⟩ := before.calls
    exact ⟨made ++ origin.site?.toList, by rw [h.calls, hmade, List.append_assoc],
      sub.append (.refl _)⟩
  · rcases h.slots note hn r hr with hn | slot
    · exact before.slots note hn r hr
    · exact .inr (fresh r slot)

theorem leads_of_none (h : P.Extends S origin Q) (none : origin.slot? = none) :
    P.Leads S origin.site?.toList Q :=
  h.leads (.refl P) fun r hr => by simp [none] at hr

theorem then_plain (h : P.Extends S .plain Q) {R : Scene} (k : Q.Extends S origin R) :
    P.Extends S origin R := by
  refine ⟨h.toLater.trans k.toLater, fun r hr => k.held r (h.held r hr), ?_,
    fun note hn r hr => ?_, fun ends => h.switch (k.switch ends)⟩
  · rw [k.calls, h.calls]
    simp [Origin.site?]
  · rcases k.slots note hn r hr with hn | slot
    · rcases h.slots note hn r hr with hn | slot
      · exact .inl hn
      · cases slot
    · exact .inr slot

theorem plain_then (h : P.Extends S origin Q) {R : Scene} (k : Q.Extends S .plain R) :
    P.Extends S origin R := by
  refine ⟨h.toLater.trans k.toLater, fun r hr => k.held r (h.held r hr), ?_,
    fun note hn r hr => ?_, fun ends => h.switch (k.switch ends)⟩
  · rw [k.calls, h.calls]
    simp [Origin.site?]
  · rcases k.slots note hn r hr with hn | slot
    · exact h.slots note hn r hr
    · cases slot

theorem of_notes (h : P.Later S Q) (held : ∀ r ∈ P.held, r ∈ Q.held)
    (notes : Q.notes = P.notes)
    (switch : Q.state.draft.EndsInSwitch → P.state.draft.EndsInSwitch) :
    P.Extends S .plain Q := by
  refine ⟨h, held, ?_, fun note hn _ _ => .inl (notes ▸ hn), switch⟩
  rw [Scene.calls, notes]
  simp [Origin.site?, Scene.calls]

end Extends

theorem extends_push (held : ∀ r ∈ P.held, r ∈ n.held) (single : i.choices = []) :
    P.Extends S note.origin (P.push note i n) := by
  refine ⟨later_push, held, calls_push, fun note' hn r hr => ?_,
    fun ends => ends.of_push single rfl⟩
  rcases mem_notes_push.1 hn with hn | rfl
  · exact .inl hn
  · exact .inr hr

theorem extends_note {origin : Origin} (held : ∀ r ∈ P.held, r ∈ n.held)
    (single : i.choices = []) : P.Extends S origin (P.push (P.note origin) i n) := by
  have pushed : P.Extends S (P.note origin).origin (P.push (P.note origin) i n) :=
    extends_push held single
  exact pushed

theorem extends_push_as (origin : Origin) (same : note.origin = origin)
    (held : ∀ r ∈ P.held, r ∈ n.held) (single : i.choices = []) :
    P.Extends S origin (P.push note i n) := by
  have pushed : P.Extends S note.origin (P.push note i n) := extends_push held single
  rwa [same] at pushed

theorem follows_push (site : note.origin.site? = none) (slot : note.origin.slot? = none)
    (held : ∀ r ∈ P.held, r ∈ n.held) : P.Follows S [] (P.push note i n) := by
  refine ⟨later_push, held, ⟨[], by rw [calls_push, site]; rfl, .refl _⟩, fun note' hn r hr => ?_⟩
  rcases mem_notes_push.1 hn with hn | rfl
  · exact .inl hn
  · rw [slot] at hr
    cases hr

theorem leads_push (site : note.origin.site? = none) (slot : note.origin.slot? = none)
    (single : i.choices = []) (held : ∀ r ∈ P.held, r ∈ n.held) :
    P.Leads S [] (P.push note i n) :=
  ⟨follows_push site slot held, fun ends => ends.of_push single rfl⟩

section Firm

theorem Typed.label_fresh (h : P.Typed S) {l : Label} (new : P.promise l = none) (k : Nat) :
    P.state.draft.body[k]? ≠ some (.label l) := by
  intro hk
  obtain ⟨lt, -⟩ := Array.getElem?_eq_some_iff.1 hk
  obtain ⟨note, hn⟩ : ∃ note, P.notes[k]? = some note :=
    ⟨_, getElem?_eq_getElem (by rw [h.size]; exact lt)⟩
  obtain ⟨q, hq, -⟩ := (h.fits k _ note hk hn).label l rfl
  rw [new] at hq
  cases hq

theorem Firm.push (h : P.Firm S) (le : P.mark.le note.mark)
    (fits : Fits S P.state P.promise note i n)
    (held : ∀ r ∈ n.held, r ∈ P.held ∨ P.state.Usable r)
    (before : ∀ x ∈ note.mark.live, P.Built S x)
    (after : ∀ x ∈ n.live, x ∈ note.origin.objects S ∨ P.Built S x)
    (slot : ∀ r, note.origin.slot? = some r → P.FreeSlot r)
    (tail : ∀ l q, i = .label l → P.promise l = some q → q.held ≠ [] →
      ∀ k : Nat, P.state.draft.body[k]? ≠ some (.label l))
    (due : S.follows = true → ∀ o, note.origin = .destructor o → P.Due S o)
    (left : ∀ x ∈ note.mark.phase.left, ∃ j, P.notes.size = j + 1 ∧ P.LeavesOut S j x) :
    (P.push note i n).Firm S := by
  have later : P.Later S (P.push note i n) := later_push
  refine ⟨h.typed.push le fits, fun l q last hq ne k hk => ?_, fun r hr => ?_, fun x hx => ?_,
    h.books.frame later ⟨rfl, rfl, rfl, rfl, rfl, rfl⟩, h.lived.push before slot due left⟩
  · change (P.state.draft.body.push i).back? = _ at last
    change (P.state.draft.body.push i)[k]? = _ at hk
    change k + 1 = (P.state.draft.body.push i).size
    rw [back?_push] at last
    rw [getElem?_push] at hk
    split at hk
    · simp [*]
    · exact absurd hk (tail l q (Option.some.inj last) hq ne k)
  · rcases held r hr with hr | hr
    · exact h.held r hr
    · exact hr
  · rcases after x hx with hx | hx
    · exact ⟨note, mem_notes_push.2 (.inr rfl), hx⟩
    · exact hx.mono later

theorem Firm.widen (h : P.Firm S) {t : State} (w : S.Widens P.state t)
    (body : t.draft.body = P.state.draft.body) (labels : t.draft.labels = P.state.draft.labels)
    (books : (P.widen t).Books S) (owed : P.Stacked S (S.alive t.cleanups)) :
    (P.widen t).Firm S := by
  refine ⟨h.typed.widen w body labels, ?_, fun r hr => ?_, h.live, books,
    h.lived.frame rfl w (owed.mono (later_widen w))⟩
  · change ∀ l q, t.draft.body.back? = some (.label l) → P.promise l = some q → q.held ≠ [] →
      ∀ k : Nat, t.draft.body[k]? = some (.label l) → k + 1 = t.draft.body.size
    rw [body]
    exact h.tail
  · obtain ⟨lt, spared⟩ := h.held r hr
    exact ⟨Nat.lt_of_lt_of_le lt w.registers, w.spares lt spared⟩

theorem Firm.withLabel (h : P.Firm S) : (P.withLabel q).Firm S := by
  refine ⟨h.typed.withLabel, fun l q' last hq' ne => ?_, h.held, h.live,
    h.books.frame later_withLabel ⟨rfl, rfl, rfl, rfl, rfl, rfl⟩,
    h.lived.frame rfl (.of_code _ _) (h.lived.owed.mono later_withLabel)⟩
  obtain ⟨old, hold, -⟩ := h.typed.promise_back last
  obtain rfl : old = q' := Option.some.inj ((promise_old hold).symm.trans hq')
  exact h.tail l old last hold ne

end Firm
end Scene
end Marks
end FlatCode
