import FlatCode.Proofs.StraightLine

/-! What was written stays. Lowering only adds code, and changes what is there by setting
targets that were not set; landing pads, the place of the status and those of variables stay as
they are. So what is read off the code at one point holds of the finished code. -/
namespace FlatCode
open Code Symbols Ast Array
variable {i : Instr} {d : Draft}

namespace Code.Instr

def isPlain : Instr → Bool
  | .switch _ _ _ | .comment _ | .alloc _ _ _ => false
  | _ => true

def Settles : Instr → Instr → Prop
  | .branch c p n, j => ∃ p' n', j = .branch c p' n' ∧ (∀ l, p = some l → p' = some l) ∧
      ∀ l, n = some l → n' = some l
  | .jump t, j => ∃ t', j = .jump t' ∧ ∀ l, t = some l → t' = some l
  | i, j => j = i

namespace Settles

theorem refl (i : Instr) : i.Settles i := by
  cases i with
  | branch c p n => exact ⟨p, n, rfl, fun _ h => h, fun _ h => h⟩
  | jump t => exact ⟨t, rfl, fun _ h => h⟩
  | _ => rfl

theorem trans {j k : Instr} (h : i.Settles j) (h' : j.Settles k) : i.Settles k := by
  cases i with
  | branch c p n =>
    obtain ⟨p', n', rfl, hp, hn⟩ := h
    obtain ⟨p'', n'', rfl, hp', hn'⟩ := h'
    exact ⟨p'', n'', rfl, fun l hl => hp' l (hp l hl), fun l hl => hn' l (hn l hl)⟩
  | jump t =>
    obtain ⟨t', rfl, ht⟩ := h
    obtain ⟨t'', rfl, ht'⟩ := h'
    exact ⟨t'', rfl, fun l hl => ht' l (ht l hl)⟩
  | _ =>
    cases h
    exact h'

theorem eq_of_set {j : Instr} (h : i.Settles j) (set : ∀ e, i.target? e ≠ some none) : j = i := by
  cases i with
  | branch c p n =>
    obtain ⟨p', n', rfl, hp, hn⟩ := h
    cases p with
    | none => exact absurd rfl (set .positive)
    | some p =>
      cases n with
      | none => exact absurd rfl (set .negative)
      | some n => rw [hp p rfl, hn n rfl]
  | jump t =>
    obtain ⟨t', rfl, ht⟩ := h
    cases t with
    | none => exact absurd rfl (set .unconditional)
    | some t => rw [ht t rfl]
  | _ => exact h

end Settles

theorem settles_setTarget {e : Edge} (h : i.target? e = some none) (l : Label) :
    i.Settles (i.setTarget l e) := by
  cases i with
  | branch c p n =>
    cases e with
    | positive =>
      simp only [target?, Option.some.injEq] at h
      exact ⟨some l, n, rfl, by simp [h], fun _ hl => hl⟩
    | negative =>
      simp only [target?, Option.some.injEq] at h
      exact ⟨p, some l, rfl, fun _ hl => hl, by simp [h]⟩
    | unconditional => exact .refl _
  | jump t =>
    cases e with
    | unconditional =>
      simp only [target?, Option.some.injEq] at h
      exact ⟨some l, rfl, by simp [h]⟩
    | _ => exact .refl _
  | _ => cases e <;> cases h

end Code.Instr

namespace Draft

variable {d' : Draft}

def Open (d : Draft) (b : PendingBranch) : Prop :=
  d.body[b.instr.index]?.bind (Instr.target? b.edge) = some none

/-- The second draft continues the first one. What was written stays, but for targets that
have been set. -/
structure Later (d d' : Draft) : Prop where
  body : ∀ (k : Nat) (i : Instr), d.body[k]? = some i → ∃ j, d'.body[k]? = some j ∧ i.Settles j
  entry : ∃ added : Array Instr, d'.entry = d.entry ++ added ∧ ∀ i ∈ added, i.isSetup
  registers : ∃ added : Array Ty, d'.registers = d.registers ++ added
  labels : d.labels ≤ d'.labels

namespace Later

theorem keeps {k : Nat} (h : d.Later d') (hi : d.body[k]? = some i)
    (set : ∀ e, i.target? e ≠ some none) : d'.body[k]? = some i := by
  obtain ⟨j, hj, settles⟩ := h.body k i hi
  rw [hj, settles.eq_of_set set]

theorem refl (d : Draft) : d.Later d :=
  ⟨fun _ i h => ⟨i, h, .refl i⟩, ⟨#[], by simp, by simp⟩, ⟨#[], by simp⟩, Nat.le_refl _⟩

theorem trans {d'' : Draft} (h : d.Later d') (h' : d'.Later d'') : d.Later d'' := by
  obtain ⟨slots, hslots, setup⟩ := h.entry
  obtain ⟨slots', hslots', setup'⟩ := h'.entry
  obtain ⟨types, htypes⟩ := h.registers
  obtain ⟨types', htypes'⟩ := h'.registers
  refine ⟨fun k i hi => ?_, ⟨slots ++ slots', ?_, ?_⟩, ⟨types ++ types', ?_⟩,
    Nat.le_trans h.labels h'.labels⟩
  · obtain ⟨j, hj, hij⟩ := h.body k i hi
    obtain ⟨j', hj', hjj⟩ := h'.body k j hj
    exact ⟨j', hj', hij.trans hjj⟩
  · rw [hslots', hslots, append_assoc]
  · intro i hi
    rcases mem_append.1 hi with hi | hi
    · exact setup i hi
    · exact setup' i hi
  · rw [htypes', htypes, append_assoc]

theorem size_le (h : d.Later d') : d.body.size ≤ d'.body.size := by
  by_cases hpos : 0 < d.body.size
  · have hlt : d.body.size - 1 < d.body.size := by omega
    obtain ⟨j, hj, -⟩ := h.body (d.body.size - 1) d.body[d.body.size - 1]
      (getElem?_eq_getElem hlt)
    obtain ⟨hlt', -⟩ := Array.getElem?_eq_some_iff.1 hj
    omega
  · omega

theorem append (code : Array Instr) : d.Later { d with body := d.body ++ code } := by
  refine ⟨fun k i hi => ⟨i, ?_, .refl i⟩, ⟨#[], by simp, by simp⟩, ⟨#[], by simp⟩, Nat.le_refl _⟩
  obtain ⟨hlt, -⟩ := Array.getElem?_eq_some_iff.1 hi
  rw [getElem?_append_left hlt]
  exact hi

theorem push (i : Instr) : d.Later { d with body := d.body.push i } := by
  exact append #[i]

theorem set {b : PendingBranch} (h : d.Open b) (l : Label) :
    d.Later { d with body := d.body.modify b.instr.index (Instr.setTarget l b.edge) } := by
  refine ⟨fun k i hi => ?_, ⟨#[], by simp, by simp⟩, ⟨#[], by simp⟩, Nat.le_refl _⟩
  rw [getElem?_modify]
  by_cases hk : b.instr.index = k
  · subst hk
    have ht : i.target? b.edge = some none := by simpa [Open, hi] using h
    exact ⟨_, by simp [hi], Instr.settles_setTarget ht l⟩
  · exact ⟨i, by simp [hk, hi], .refl i⟩

end Later

/-- The second draft comes from the first one by small edits of the code. -/
inductive Trace : Draft → Draft → Prop
  | refl (d : Draft) : Trace d d
  | trans {d d' d'' : Draft} (h : Trace d d') (k : Trace d' d'') : Trace d d''
  | label (d : Draft) : Trace d { d with labels := d.labels + 1 }
  | push (d : Draft) {i : Instr} (h : i.isPlain) : Trace d { d with body := d.body.push i }
  | aim {d : Draft} {b : PendingBranch} (h : d.Open b) (l : Label) :
    Trace d { d with body := d.body.modify b.instr.index (Instr.setTarget l b.edge) }

theorem Later.label (d : Draft) : d.Later { d with labels := d.labels + 1 } :=
  ⟨fun _ i h => ⟨i, h, .refl i⟩, ⟨#[], by simp, by simp⟩, ⟨#[], by simp⟩, Nat.le_succ _⟩

theorem Trace.later (h : d.Trace d') : d.Later d' := by
  induction h with
  | refl d => exact .refl d
  | trans _ _ h k => exact h.trans k
  | label d => exact .label d
  | push d _ => exact .push _
  | aim h l => exact .set h l

def Traced (m : Edit α) : Prop := ∀ d, Ends (fun _ => True) (fun _ d' => d.Trace d') (m d)

def Adds (m : Edit α) : Prop := ∀ d, Ends (fun _ => True) (fun _ d' => d.Later d') (m d)

theorem Traced.adds {m : Edit α} (h : Traced m) : Adds m :=
  fun d => (h d).mono fun _ _ k => k.later

namespace Traced

theorem pure (a : α) : Traced (pure a) := fun d => .refl d

theorem fail (e : Error) : Traced (throw e : Edit α) := fun _ => trivial

theorem bind {m : Edit α} {f : α → Edit β} (hm : Traced m) (hf : ∀ a, Traced (f a)) :
    Traced (m >>= f) :=
  fun d => (hm d).next fun a d' h => (hf a d').mono fun _ _ h' => h.trans h'

end Traced

theorem newLabel_traced : Traced newLabel := fun d => .label d

theorem emit_traced (h : i.isPlain) : Traced (emit i) := fun d => .push d h

theorem emit_adds (i : Instr) : Adds (emit i) := fun _ => .push i

theorem place_traced (l : Label) : Traced (place l) := fun d => .push d rfl

theorem get_bind (k : Draft → Edit α) (d : Draft) : (get >>= k) d = k d d := rfl

theorem hereLabel_cases (d : Draft) :
    (∃ l, d.body.back? = some (.label l) ∧ hereLabel d = .ok l d) ∨
    (∀ l, d.body.back? ≠ some (.label l)) ∧ hereLabel d = .ok ⟨d.labels⟩
      { d with labels := d.labels + 1, body := d.body.push (.label ⟨d.labels⟩) } := by
  cases hb : d.body.back? with
  | none =>
    refine .inr ⟨by simp, ?_⟩
    rw [hereLabel, get_bind, hb]
    rfl
  | some i =>
    cases i with
    | label l =>
      refine .inl ⟨l, rfl, ?_⟩
      rw [hereLabel, get_bind, hb]
      rfl
    | _ =>
      refine .inr ⟨by simp, ?_⟩
      rw [hereLabel, get_bind, hb]
      rfl

theorem hereLabel_traced : Traced hereLabel := by
  intro d
  obtain ⟨l, -, hl⟩ | ⟨-, hl⟩ := hereLabel_cases d
  · rw [hl]
    exact .refl d
  · rw [hl]
    exact (Trace.label d).trans (.push { d with labels := d.labels + 1 } rfl)

theorem patch_open {b : PendingBranch} (h : d.Open b) (l : Label) :
    patch l b d = .ok ⟨⟩
      { d with body := d.body.modify b.instr.index (Instr.setTarget l b.edge) } := by
  unfold Open at h
  rw [patch, get_bind, h]
  rfl

/-- A branch that waits is pointed at the label, and one that does not wait is refused. -/
theorem patch_ends {b : PendingBranch} {l : Label} {Q : Unit → Draft → Prop}
    (h : d.Open b →
      Q ⟨⟩ { d with body := d.body.modify b.instr.index (Instr.setTarget l b.edge) }) :
    Ends (fun e => e.isInternal = true) Q (patch l b d) := by
  cases ht : d.body[b.instr.index]?.bind (Instr.target? b.edge) with
  | none =>
    rw [patch, get_bind, ht]
    exact rfl
  | some target =>
    cases target with
    | none =>
      rw [patch_open ht]
      exact h ht
    | some _ =>
      rw [patch, get_bind, ht]
      exact rfl

theorem patch_traced (l : Label) (b : PendingBranch) : Traced (patch l b) :=
  fun _ => (patch_ends fun waits => .aim waits l).anyError

theorem forM_patch_traced (l : Label) : ∀ pending : Pending, Traced (pending.forM (patch l))
  | [] => .pure _
  | b :: pending => (patch_traced l b).bind fun _ => forM_patch_traced l pending

theorem backpatch_traced (pending : Pending) (l : Label) : Traced (backpatch pending l) := by
  unfold backpatch
  split
  · exact .fail _
  · exact forM_patch_traced l pending

theorem resolveHere_traced (pending : Pending) : Traced (resolveHere pending) := by
  unfold resolveHere
  split
  · exact .pure _
  · exact hereLabel_traced.bind fun l => (backpatch_traced pending l).bind fun _ => .pure _

theorem resolveRequiredHere_traced (pending : Pending) : Traced (resolveRequiredHere pending) := by
  unfold resolveRequiredHere
  split
  · exact .fail _
  · exact hereLabel_traced.bind fun l => (backpatch_traced pending l).bind fun _ => .pure _

theorem resolveTo_traced (pending : Pending) (l : Label) : Traced (resolveTo pending l) := by
  unfold resolveTo
  split
  · exact .pure _
  · exact backpatch_traced pending l

theorem pendingJump_traced : Traced pendingJump := (emit_traced rfl).bind fun _ => .pure _

end Draft

namespace Lower

variable {s t : State}

structure State.Later (s t : State) : Prop where
  draft : s.draft.Later t.draft
  pads : ∃ added : Array LandingPad, t.pads.pads = s.pads.pads ++ added
  status : ∀ slot, s.status = some slot → t.status = some slot
  locations : ∀ v l, s.location? v = some l → t.location? v = some l

namespace State.Later

theorem refl (s : State) : s.Later s :=
  ⟨.refl _, ⟨#[], by simp⟩, fun _ h => h, fun _ _ h => h⟩

theorem trans {u : State} (h : s.Later t) (k : t.Later u) : s.Later u := by
  obtain ⟨pads, hpads⟩ := h.pads
  obtain ⟨pads', hpads'⟩ := k.pads
  exact ⟨h.draft.trans k.draft, ⟨pads ++ pads', by rw [hpads', hpads, append_assoc]⟩,
    fun r hr => k.status r (h.status r hr), fun v l hl => k.locations v l (h.locations v l hl)⟩

theorem of_draft (h : s.draft.Later d) (c : Cleanups) (g : Gotos) (n : Nat) :
    s.Later { s with draft := d, cleanups := c, gotos := g, compounds := n } :=
  ⟨h, ⟨#[], by simp⟩, fun _ h => h, fun _ _ h => h⟩

theorem of_cleanups (s : State) (c : Cleanups) : s.Later { s with cleanups := c } :=
  of_draft (.refl _) c s.gotos s.compounds

theorem emptied (h : s.Later t) : State.Later { s with pads := .empty } { t with pads := .empty } :=
  ⟨h.draft, ⟨#[], by simp⟩, h.status, h.locations⟩

end State.Later

theorem State.Adds.later {table : SymbolTable} {p : Instr → Bool} (h : s.Adds table p t) :
    s.Later t := by
  refine ⟨⟨fun k i hi => ⟨i, ?_, .refl i⟩, h.entry, h.registers, Nat.le_of_eq h.labels.symm⟩,
    ⟨#[], by rw [h.pads]; simp⟩, h.status, h.houses.stays⟩
  obtain ⟨added, hbody, -⟩ := h.body
  obtain ⟨hlt, -⟩ := Array.getElem?_eq_some_iff.1 hi
  rw [hbody, getElem?_append_left hlt]
  exact hi

end Lower
end FlatCode
