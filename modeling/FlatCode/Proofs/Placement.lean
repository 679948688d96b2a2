import FlatCode.Proofs.Complete

/-! Where things stand in the finished code. The body of a draft is found in the finished code
behind the slots, with its targets set, and a label leads to the place it was put at. So what is
known of a draft at some point while it is written tells where control goes in the end. -/
namespace FlatCode
open Code List
variable {i : Instr} {l : Label} {d : Draft}

namespace Code.Instr

variable {j : Instr}

theorem Settles.target (h : i.Settles j) {e : Edge} (ht : i.target? e = some (some l)) :
    j.target? e = some (some l) := by
  cases i with
  | branch c p n =>
    obtain ⟨p', n', rfl, hp, hn⟩ := h
    cases e with
    | positive => exact congrArg some (hp l (by simpa [target?] using ht))
    | negative => exact congrArg some (hn l (by simpa [target?] using ht))
    | unconditional => cases ht
  | jump t =>
    obtain ⟨t', rfl, ht'⟩ := h
    cases e with
    | unconditional => exact congrArg some (ht' l (by simpa [target?] using ht))
    | _ => cases ht
  | _ => cases e <;> cases ht

theorem Settles.same (h : i.Settles j) :
    j.isComment = i.isComment ∧ j.isTerminator = i.isTerminator := by
  cases i with
  | branch c p n =>
    obtain ⟨p', n', rfl, -, -⟩ := h
    exact ⟨rfl, rfl⟩
  | jump t =>
    obtain ⟨t', rfl, -⟩ := h
    exact ⟨rfl, rfl⟩
  | _ =>
    cases h
    exact ⟨rfl, rfl⟩

end Code.Instr

namespace Draft

variable {d' : Draft}

section Terminators

def closes : List Instr → Bool
  | [] => false
  | i :: before => if i.isComment then closes before else i.isTerminator

theorem endsInTerminator_eq (d : Draft) :
    d.endsInTerminator = closes d.body.toList.reverse := by
  unfold endsInTerminator
  rw [Array.findRev?_eq_find?_reverse, ← Array.find?_toList, Array.toList_reverse]
  induction d.body.toList.reverse with
  | nil => rfl
  | cons i before ih =>
    rw [find?_cons]
    cases hi : i.isComment with
    | false => simp [closes, hi]
    | true => simpa [closes, hi] using ih

theorem closes_push (a : Array Instr) (i : Instr) : closes (a.push i).toList.reverse =
    if i.isComment then closes a.toList.reverse else i.isTerminator := by
  simp [closes]

theorem endsInTerminator_pushed (h : d'.body = d.body.push i) :
    d'.endsInTerminator = if i.isComment then d.endsInTerminator else i.isTerminator := by
  rw [endsInTerminator_eq, h, closes_push, endsInTerminator_eq]

theorem closes_of_open : ∀ {code : List Instr}, (∀ i ∈ code, i.isTerminator = false) →
    closes code = false
  | [], _ => rfl
  | i :: before, h => by
    rw [closes]
    split
    · exact closes_of_open fun j hj => h j (mem_cons_of_mem i hj)
    · exact h i mem_cons_self

theorem closes_congr : ∀ {code code' : List Instr},
    code.map (fun i => (i.isComment, i.isTerminator)) =
      code'.map (fun i => (i.isComment, i.isTerminator)) → closes code = closes code'
  | [], [], _ => rfl
  | [], _ :: _, h => by simp at h
  | _ :: _, [], h => by simp at h
  | i :: code, j :: code', h => by
    simp only [map_cons, List.cons.injEq, Prod.mk.injEq] at h
    obtain ⟨⟨comment, terminator⟩, rest⟩ := h
    simp only [closes, comment, terminator, closes_congr rest]

theorem Later.endsInTerminator_eq (h : d.Later d') (size : d'.body.size = d.body.size) :
    d'.endsInTerminator = d.endsInTerminator := by
  rw [Draft.endsInTerminator_eq, Draft.endsInTerminator_eq]
  refine closes_congr ?_
  rw [map_reverse, map_reverse]
  congr 1
  apply ext_getElem?
  intro k
  rw [getElem?_map, getElem?_map, Array.getElem?_toList, Array.getElem?_toList]
  cases hi : d.body[k]? with
  | none =>
    have hk : d.body.size ≤ k := by simpa using hi
    have hk' : d'.body[k]? = none := by simpa [size] using hk
    rw [hk']
  | some i =>
    obtain ⟨j, hj, hij⟩ := h.body k i hi
    rw [hj]
    simp [hij.same]

end Terminators

section Edges

def Targets (d : Draft) (b : PendingBranch) (l : Label) : Prop :=
  d.body[b.instr.index]?.bind (Instr.target? b.edge) = some (some l)

theorem Targets.later {b : PendingBranch} (h : d.Targets b l) (hd : d.Later d') :
    d'.Targets b l := by
  unfold Targets at h ⊢
  cases hi : d.body[b.instr.index]? with
  | none => simp [hi] at h
  | some i =>
    obtain ⟨j, hj, hij⟩ := hd.body _ i hi
    rw [hi] at h
    rw [hj]
    exact hij.target h

structure Marked (d : Draft) (l : Label) (d' : Draft) : Prop where
  later : d.Later d'
  label : d'.body.back? = some (.label l)
  size : d'.body.size = d.body.size ∨ d'.body.size = d.body.size + 1

namespace Marked
variable {d d' : Draft} {l : Label}

theorem place (h : d.Marked l d') : ∃ k, k + 1 = d'.body.size ∧ d'.body[k]? = some (.label l) := by
  have found := h.label
  rw [Array.back?_eq_getElem?] at found
  obtain ⟨hlt, -⟩ := Array.getElem?_eq_some_iff.1 found
  exact ⟨d'.body.size - 1, by omega, found⟩

theorem goesOn (h : d.Marked l d') : d'.endsInTerminator = false := by
  have first : d'.body.toList.reverse.head? = some (.label l) := by
    rw [head?_reverse, Array.getLast?_toList, h.label]
  rw [endsInTerminator_eq]
  cases hc : d'.body.toList.reverse with
  | nil => rfl
  | cons i before =>
    rw [hc, head?_cons, Option.some.injEq] at first
    rw [first]
    rfl

end Marked

theorem hereLabel_marked (d : Draft) :
    Ensures (fun l d' => d.Marked l d') (hereLabel d) := by
  have later := hereLabel_traced.adds d
  obtain ⟨l, hl, hd⟩ | ⟨-, hd⟩ := hereLabel_cases d
  · rw [hd] at later ⊢
    exact ⟨later, hl, .inl rfl⟩
  · rw [hd] at later ⊢
    exact ⟨later, by simp, .inr (by simp)⟩

structure Set (d : Draft) (pending : Pending) (l : Label) (d' : Draft) : Prop where
  later : d.Later d'
  size : d'.body.size = d.body.size
  targets : ∀ b ∈ pending, d'.Targets b l

theorem patch_set (l : Label) (b : PendingBranch) (d : Draft) :
    Ensures (fun _ d' => d.Set [b] l d') (patch l b d) := by
  refine (patch_ends fun waits => ⟨.set waits l, by simp, fun b' hb' => ?_⟩).anyError
  obtain rfl : b' = b := by simpa using hb'
  unfold Open at waits
  unfold Targets
  cases hi : d.body[b'.instr.index]? with
  | none => simp [hi] at waits
  | some i =>
    have hi' : i.target? b'.edge = some none := by simpa [hi] using waits
    simp [Array.getElem?_modify, hi, Instr.target?_setTarget, hi']

theorem forM_patch_set (l : Label) : ∀ (pending : Pending) (d : Draft),
    Ensures (fun _ d' => d.Set pending l d') (pending.forM (patch l) d)
  | [], d => ⟨.refl d, rfl, by simp⟩
  | b :: pending, d => by
    refine (patch_set l b d).next fun _ d' h => ?_
    refine (forM_patch_set l pending d').mono fun _ d'' k => ?_
    refine ⟨h.later.trans k.later, k.size.trans h.size, fun b' hb' => ?_⟩
    rcases mem_cons.1 hb' with rfl | hb'
    · exact (h.targets _ mem_cons_self).later k.later
    · exact k.targets b' hb'

theorem resolveTo_set (pending : Pending) (l : Label) (d : Draft) :
    Ensures (fun _ d' => d.Set pending l d') (resolveTo pending l d) := by
  unfold resolveTo backpatch
  cases pending with
  | nil => exact ⟨.refl d, rfl, by simp⟩
  | cons b pending => exact forM_patch_set l (b :: pending) d

inductive Joined (d : Draft) (pending : Pending) : Draft → Prop where
  | none : pending = [] → Joined d pending d
  | here (l : Label) (d' : Draft) : d.Marked l d' → (∀ b ∈ pending, d'.Targets b l) →
      Joined d pending d'

theorem resolveHere_joined (pending : Pending) (d : Draft) :
    Ensures (fun _ d' => d.Joined pending d') (resolveHere pending d) := by
  unfold resolveHere
  cases pending with
  | nil => exact .none rfl
  | cons b pending =>
    refine (hereLabel_marked d).next fun l d' h => ?_
    refine Ends.next (P := fun _ d'' => d'.Set (b :: pending) l d'')
      (forM_patch_set l (b :: pending) d') fun _ d'' k => ?_
    refine .here l d'' ⟨h.later.trans k.later, ?_, ?_⟩ k.targets
    · obtain ⟨j, hj, hl⟩ := h.place
      obtain ⟨i, hi, rfl⟩ := k.later.body j _ hl
      rw [Array.back?_eq_getElem?, k.size, ← hj]
      exact hi
    · rw [k.size]
      exact h.size

namespace Joined
variable {d d' : Draft} {pending : Pending}

theorem later (h : d.Joined pending d') : d.Later d' := by
  cases h with
  | none _ => exact .refl d
  | here l _ marked _ => exact marked.later

theorem goesOn (h : d.Joined pending d') (hd : d.endsInTerminator = false) :
    d'.endsInTerminator = false := by
  cases h with
  | none _ => exact hd
  | here l _ marked _ => exact marked.goesOn

end Joined
end Edges
end Draft

def Code.Function.Leads (c : Code.Function) (k : Nat) (e : Edge) (p : Nat) : Prop :=
  ∃ i l, c.instrs[k]? = some i ∧ i.target? e = some (some l) ∧ c.labels[l.index]? = some ⟨p⟩

namespace Draft

structure Inside (d : Draft) (c : Code.Function) (base : Nat) : Prop where
  instr : ∀ (k : Nat) (i : Instr), d.body[k]? = some i →
    ∃ j, c.instrs[base + k]? = some j ∧ i.Settles j
  label : ∀ (k : Nat) (l : Label), d.body[k]? = some (.label l) →
    c.labels[l.index]? = some ⟨base + k⟩
  register : ∀ (k : Nat) (ty : Ty), d.registers[k]? = some ty → c.registers[k]? = some ty

theorem Finished.inside {c : Code.Function} (h : d.Finished c) : d.Inside c d.entry.size := by
  refine ⟨fun k i hi => ⟨i, ?_, .refl i⟩, h.labels, fun k ty hk => ?_⟩
  · rw [h.instrs, Array.getElem?_append_right (by omega)]
    simpa using hi
  · rw [h.registers]
    exact hk

namespace Inside
variable {d d' : Draft} {c : Code.Function} {base : Nat}

theorem earlier (h : d'.Inside c base) (hd : d.Later d') : d.Inside c base := by
  refine ⟨fun k i hi => ?_, fun k l hl => ?_, fun k ty hk => h.register k ty ?_⟩
  · obtain ⟨j, hj, hij⟩ := hd.body k i hi
    obtain ⟨j', hj', hjj⟩ := h.instr k j hj
    exact ⟨j', hj', hij.trans hjj⟩
  · obtain ⟨j, hj, rfl⟩ := hd.body k _ hl
    exact h.label k l hj
  · obtain ⟨added, hadded⟩ := hd.registers
    obtain ⟨hlt, -⟩ := Array.getElem?_eq_some_iff.1 hk
    rw [hadded, Array.getElem?_append_left hlt]
    exact hk

theorem pushed (h : d'.Inside c base) (body : d'.body = d.body.push i) :
    ∃ j, c.instrs[base + d.body.size]? = some j ∧ i.Settles j :=
  h.instr _ i (by rw [body]; simp)

theorem leads {b : PendingBranch} {k : Nat} (h : d.Inside c base) (target : d.Targets b l)
    (place : c.labels[l.index]? = some ⟨k⟩) :
    c.Leads (base + b.instr.index) b.edge k := by
  unfold Targets at target
  cases hi : d.body[b.instr.index]? with
  | none => simp [hi] at target
  | some i =>
    rw [hi] at target
    obtain ⟨j, hj, hij⟩ := h.instr _ i hi
    exact ⟨j, l, hj, hij.target target, place⟩

end Inside
end Draft
end FlatCode
