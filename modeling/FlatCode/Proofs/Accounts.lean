import FlatCode.Proofs.Growth.Basic

/-! The books of a draft. A target that is not set yet is an entry of exactly one list of
waiting branches, and a label that was made is placed once or still owed by somebody. Edits
of a draft keep these books. -/
namespace FlatCode
open Code List
variable {i : Instr}

namespace Code.Instr

def openEdges : Instr → List Edge
  | .branch _ none none => [.positive, .negative]
  | .branch _ none (some _) => [.positive]
  | .branch _ (some _) none => [.negative]
  | .jump none => [.unconditional]
  | _ => []

theorem mem_openEdges (i : Instr) (e : Edge) : e ∈ i.openEdges ↔ i.target? e = some none := by
  cases i with
  | branch c p n => cases p <;> cases n <;> cases e <;> simp [openEdges, target?]
  | jump t => cases t <;> cases e <;> simp [openEdges, target?]
  | _ => cases e <;> simp [openEdges, target?]

theorem nodup_openEdges (i : Instr) : i.openEdges.Nodup := by
  cases i with
  | branch c p n => cases p <;> cases n <;> simp [openEdges]
  | jump t => cases t <;> simp [openEdges]
  | _ => simp [openEdges]

def placed? : Instr → Option Label
  | .label l => some l
  | _ => none

def isSettled (i : Instr) : Bool := i.openEdges.isEmpty && i.placed?.isNone

theorem isSettled_iff : i.isSettled ↔ i.openEdges = [] ∧ i.placed? = none := by
  simp [isSettled]

theorem isSettled_of_straight (h : i.isStraight) : i.isSettled := by
  cases i <;> first | rfl | cases h

theorem target?_setTarget (i : Instr) (l : Label) (e e' : Edge) :
    (i.setTarget l e).target? e' =
      if e' = e then (i.target? e').map fun _ => some l else i.target? e' := by
  cases i with
  | branch c p n => cases e <;> cases e' <;> simp [setTarget, target?]
  | jump t => cases e <;> cases e' <;> simp [setTarget, target?]
  | _ => cases e <;> cases e' <;> simp [setTarget, target?]

theorem placed?_setTarget (i : Instr) (l : Label) (e : Edge) :
    (i.setTarget l e).placed? = i.placed? := by
  cases i with
  | branch c p n => cases e <;> rfl
  | jump t => cases e <;> rfl
  | _ => cases e <;> rfl

end Code.Instr

namespace Draft

variable {b : PendingBranch}

def placed (d : Draft) : List Label := d.body.toList.filterMap Instr.placed?

/-- The books of a draft: `live` lists the targets that are not set, each once, and the labels
made are those placed and those `owed`, each once. -/
structure Accounts (d : Draft) (live : Pending) (owed : List Label) : Prop where
  nodup : live.Nodup
  mem_iff : ∀ b, b ∈ live ↔ d.Open b
  labels : (d.placed ++ owed).Perm ((List.range d.labels).map Label.mk)

theorem accounts_empty : empty.Accounts [] [] :=
  ⟨nodup_nil, by simp [Open, empty], by simp [placed, empty]⟩

namespace Accounts
variable {d : Draft} {live live' : Pending} {owed owed' : List Label}

theorem perm (h : d.Accounts live owed) (hl : live.Perm live') (ho : owed.Perm owed') :
    d.Accounts live' owed' :=
  ⟨hl.nodup_iff.1 h.nodup, fun b => by rw [← hl.mem_iff, h.mem_iff],
    (ho.append_left d.placed).symm.trans h.labels⟩

theorem congr {d' : Draft} (h : d.Accounts live owed) (body : d'.body = d.body)
    (labels : d'.labels = d.labels) : d'.Accounts live owed := by
  refine ⟨h.nodup, fun b => ?_, ?_⟩
  · rw [h.mem_iff]
    unfold Open
    rw [body]
  · have perm := h.labels
    unfold placed at perm ⊢
    rwa [body, labels]

theorem index_lt (h : d.Accounts live owed) (hb : b ∈ live) : b.instr.index < d.body.size := by
  have ho := (h.mem_iff b).1 hb
  unfold Open at ho
  by_cases hlt : b.instr.index < d.body.size
  · exact hlt
  · simp [Array.getElem?_eq_none (Nat.le_of_not_lt hlt)] at ho

def opened (d : Draft) (i : Instr) : Pending := i.openEdges.map fun e => ⟨⟨d.body.size⟩, e⟩

theorem open_push (i : Instr) (b : PendingBranch) :
    Open { d with body := d.body.push i } b ↔ d.Open b ∨ b ∈ opened d i := by
  obtain ⟨⟨k⟩, e⟩ := b
  simp only [Open, opened, Array.getElem?_push, mem_map, PendingBranch.mk.injEq,
    InstrId.mk.injEq]
  by_cases hk : k = d.body.size
  · subst hk
    simp [← Instr.mem_openEdges]
  · simp only [hk, if_false]
    constructor
    · exact Or.inl
    · rintro (h | ⟨_, _, h, _⟩)
      · exact h
      · exact absurd h.symm hk

theorem push (h : d.Accounts live (i.placed?.toList ++ owed)) :
    Accounts { d with body := d.body.push i } (live ++ opened d i) owed := by
  refine ⟨?_, ?_, ?_⟩
  · refine nodup_append.2 ⟨h.nodup, ?_, ?_⟩
    · exact List.Pairwise.map _ (fun e e' he => by simpa using he) i.nodup_openEdges
    · intro b hb b' hb' heq
      subst heq
      have hlt := h.index_lt hb
      obtain ⟨e, -, rfl⟩ := mem_map.1 hb'
      exact Nat.lt_irrefl _ hlt
  · intro b
    rw [mem_append, h.mem_iff, open_push]
  · have perm := h.labels
    rw [← append_assoc] at perm
    unfold placed at perm ⊢
    rw [Array.toList_push, filterMap_append]
    cases hp : i.placed? <;> simpa [hp] using perm

theorem filterMap_modify {f : α → α} {g : α → Option β} (h : ∀ a, g (f a) = g a) :
    ∀ (as : List α) (k : Nat), (as.modify k f).filterMap g = as.filterMap g
  | [], _ => by simp
  | a :: as, 0 => by simp [filterMap_cons, h]
  | a :: as, k + 1 => by simp [filterMap_cons, filterMap_modify h as k]

theorem set (h : d.Accounts (b :: live) owed) (l : Label) :
    Accounts { d with body := d.body.modify b.instr.index (Instr.setTarget l b.edge) }
      live owed := by
  obtain ⟨hb, hn⟩ := nodup_cons.1 h.nodup
  refine ⟨hn, fun c => ?_, ?_⟩
  · have hc := h.mem_iff c
    rw [mem_cons] at hc
    obtain ⟨⟨k⟩, e⟩ := b
    obtain ⟨⟨k'⟩, e'⟩ := c
    simp only [Open, Array.getElem?_modify] at hc ⊢
    by_cases hk : k = k'
    · subst hk
      cases hi : d.body[k]? with
      | none => simpa [hi] using fun hm => hc.1 (.inr hm)
      | some i =>
        by_cases he : e' = e
        · subst he
          simp [Instr.target?_setTarget, hb]
        · have hne : (⟨⟨k⟩, e'⟩ : PendingBranch) ≠ ⟨⟨k⟩, e⟩ := by simpa using he
          simpa [hi, Instr.target?_setTarget, he] using hc
    · have hne : (⟨⟨k'⟩, e'⟩ : PendingBranch) ≠ ⟨⟨k⟩, e⟩ := by
        intro heq
        exact hk (by simpa using (congrArg (fun c : PendingBranch => c.instr.index) heq).symm)
      simpa [hk, hne] using hc
  · have perm := h.labels
    unfold placed at perm ⊢
    suffices hp : (d.body.modify b.instr.index (Instr.setTarget l b.edge)).toList.filterMap
        Instr.placed? = d.body.toList.filterMap Instr.placed? by
      simpa only [hp] using perm
    rw [Array.toList_modify]
    exact filterMap_modify (Instr.placed?_setTarget · l b.edge) _ _

end Accounts

section Edits
variable {d : Draft} {live : Pending} {owed : List Label} {pending : Pending}

theorem newLabel_accounts (h : d.Accounts live owed) :
    Ends Error.IsFault (fun l d' => d'.Accounts live (l :: owed)) (newLabel d) := by
  refine ⟨h.nodup, h.mem_iff, ?_⟩
  have perm := h.labels
  change (d.placed ++ ⟨d.labels⟩ :: owed).Perm ((List.range (d.labels + 1)).map Label.mk)
  rw [range_succ, map_append]
  exact perm_middle.trans ((perm.cons _).trans (perm_append_singleton _ _).symm)

theorem place_accounts {l : Label} (h : d.Accounts live (l :: owed)) :
    Ends Error.IsFault (fun _ d' => d'.Accounts live owed) (place l d) := by
  have push : Accounts _ (live ++ []) owed := Accounts.push (i := .label l) h
  rwa [append_nil] at push

theorem hereLabel_accounts (h : d.Accounts live owed) :
    Ends Error.IsFault (fun _ d' => d'.Accounts live owed) (hereLabel d) := by
  obtain ⟨l, -, hl⟩ | ⟨-, hl⟩ := hereLabel_cases d
  · rw [hl]
    exact h
  · rw [hl]
    exact place_accounts (l := ⟨d.labels⟩) (newLabel_accounts h)

theorem patch_accounts (h : d.Accounts (b :: live) owed) (l : Label) :
    Ends Error.IsFault (fun _ d' => d'.Accounts live owed) (patch l b d) := by
  rw [patch_open ((h.mem_iff b).1 mem_cons_self)]
  exact h.set l

theorem forM_patch_accounts (l : Label) : ∀ {d : Draft} (pending : Pending),
    d.Accounts (pending ++ live) owed →
      Ends Error.IsFault (fun _ d' => d'.Accounts live owed) (pending.forM (patch l) d)
  | _, [], h => h
  | _, _ :: pending, h => (patch_accounts h l).next fun _ _ h' => forM_patch_accounts l pending h'

theorem backpatch_accounts (nonempty : pending ≠ []) (h : d.Accounts (pending ++ live) owed)
    (l : Label) :
    Ends Error.IsFault (fun _ d' => d'.Accounts live owed) (backpatch pending l d) := by
  unfold backpatch
  rw [if_neg (by simpa using nonempty)]
  exact forM_patch_accounts l pending h

theorem resolveRequiredHere_accounts (nonempty : pending ≠ [])
    (h : d.Accounts (pending ++ live) owed) :
    Ends Error.IsFault (fun _ d' => d'.Accounts live owed) (resolveRequiredHere pending d) := by
  unfold resolveRequiredHere
  rw [if_neg (by simpa using nonempty)]
  refine (hereLabel_accounts h).next fun l d' h' => ?_
  exact (backpatch_accounts nonempty h' l).next fun _ _ h'' => h''

theorem resolveHere_accounts (h : d.Accounts (pending ++ live) owed) :
    Ends Error.IsFault (fun _ d' => d'.Accounts live owed) (resolveHere pending d) := by
  unfold resolveHere
  cases pending with
  | nil => exact h
  | cons b pending =>
    refine (hereLabel_accounts h).next fun l d' h' => ?_
    exact (backpatch_accounts (by simp) h' l).next fun _ _ h'' => h''

theorem resolveTo_accounts (h : d.Accounts (pending ++ live) owed) (l : Label) :
    Ends Error.IsFault (fun _ d' => d'.Accounts live owed) (resolveTo pending l d) := by
  unfold resolveTo
  cases pending with
  | nil => exact h
  | cons b pending => exact backpatch_accounts (by simp) h l

theorem pendingJump_accounts (h : d.Accounts live owed) :
    Ends Error.IsFault (fun jump d' => d'.Accounts (live ++ jump) owed) (pendingJump d) :=
  Accounts.push (i := .jump none) h

end Edits
end Draft
end FlatCode
