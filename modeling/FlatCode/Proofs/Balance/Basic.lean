import FlatCode.Proofs.Accounts
import FlatCode.Proofs.Growth.Trace

/-! The books of lowering. Branches wait in lists that are handed from statement to statement,
or for a name; labels are owed by the construct that made them, or by a landing pad. Every
step of lowering, started with balanced books and inside a scope, ends with balanced books or
with a fault of the tree. -/
namespace FlatCode
open Code Symbols Ast

namespace Cleanups

theorem push_eq (o : Obligation) : ∀ {c : Cleanups}, 0 < c.depth → c.push o = .ok (c.grow [o])
  | ⟨[]⟩, h => absurd h (Nat.lt_irrefl 0)
  | ⟨_ :: _⟩, _ => rfl

end Cleanups

def Gotos.jumps (g : Gotos) : Pending := g.pending.flatMap Prod.snd

def LandingPads.labels (t : LandingPads) : List Label := t.pads.toList.map LandingPad.label

@[simp] theorem LandingPads.labels_note (t : LandingPads) (l : Label) (handler : Option Label)
    (cleanups : List Obligation) : (t.note l handler cleanups).labels = t.labels ++ [l] := by
  simp [labels, note]

namespace Lower

namespace State

/-- The books balance: `live` lists the branches in flight, and `owed` the labels that the
constructs around this place still have to place. -/
structure Balanced (s : State) (live : Pending) (owed : List Label) : Prop where
  accounts : s.draft.Accounts (live ++ s.gotos.jumps) (owed ++ s.pads.labels)
  names : (s.gotos.pending.map Prod.fst).Nodup

structure Keeps (s : State) (live : Pending) (owed : List Label) (t : State) : Prop where
  balanced : t.Balanced live owed
  cleanups : t.cleanups = s.cleanups

structure Gains (s : State) (live : Pending) (owed : List Label) (t : State) : Prop where
  balanced : t.Balanced live owed
  cleanups : s.cleanups.Grows t.cleanups

namespace Balanced
variable {s t : State} {live live' : Pending} {owed owed' : List Label}

theorem perm (h : s.Balanced live owed) (hl : live.Perm live') (ho : owed.Perm owed') :
    s.Balanced live' owed' :=
  ⟨h.accounts.perm (hl.append_right _) (ho.append_right _), h.names⟩

theorem reorder (h : s.Balanced live owed) (hl : live.Perm live') : s.Balanced live' owed :=
  h.perm hl (.refl _)

theorem congr (h : s.Balanced live owed) (draft : t.draft = s.draft) (gotos : t.gotos = s.gotos)
    (pads : t.pads = s.pads) : t.Balanced live owed := by
  refine ⟨?_, ?_⟩
  · rw [draft, gotos, pads]
    exact h.accounts
  · rw [gotos]
    exact h.names

theorem append (h : s.Balanced live owed) {added : Array Instr}
    (body : t.draft.body = s.draft.body ++ added)
    (settled : ∀ i ∈ added, i.isSettled)
    (labels : t.draft.labels = s.draft.labels) (gotos : t.gotos = s.gotos)
    (pads : t.pads = s.pads) : t.Balanced live owed := by
  suffices accounts : ∀ (code : List Instr) (d : Draft),
      (∀ i ∈ code, i.isSettled) → ∀ {live owed},
      d.Accounts live owed → Draft.Accounts { d with body := d.body ++ code.toArray } live owed by
    have h' := accounts added.toList s.draft (by simpa using settled) h.accounts
    refine ⟨?_, by rw [gotos]; exact h.names⟩
    rw [gotos, pads]
    exact h'.congr (by simpa using body) labels
  intro code
  induction code with
  | nil =>
    intro d _ live owed h
    simpa using h
  | cons i code ih =>
    intro d hs live owed h
    obtain ⟨hopen, hplaced⟩ := Instr.isSettled_iff.1 (hs i List.mem_cons_self)
    have pushed : Draft.Accounts { d with body := d.body.push i } live owed := by
      have owing : d.Accounts live (i.placed?.toList ++ owed) := by simpa [hplaced] using h
      simpa [Draft.Accounts.opened, hopen] using owing.push
    have rest := ih { d with body := d.body.push i }
      (fun j hj => hs j (List.mem_cons_of_mem _ hj)) pushed
    have split : d.body ++ (i :: code).toArray = d.body.push i ++ code.toArray := by
      apply Array.toList_inj.1
      simp
    rw [split]
    exact rest

end Balanced

namespace Keeps
variable {s t u : State} {live live' : Pending} {owed owed' : List Label}

theorem refl (h : s.Balanced live owed) : s.Keeps live owed s := ⟨h, rfl⟩

theorem trans (h : s.Keeps live owed t) (k : t.Keeps live' owed' u) : s.Keeps live' owed' u :=
  ⟨k.balanced, k.cleanups.trans h.cleanups⟩

theorem gains (h : s.Keeps live owed t) : s.Gains live owed t :=
  ⟨h.balanced, by rw [h.cleanups]; exact .refl _⟩

theorem reorder (h : s.Keeps live owed t) (hl : live.Perm live') : s.Keeps live' owed t :=
  ⟨h.balanced.reorder hl, h.cleanups⟩

theorem depth_eq (h : s.Keeps live owed t) : t.cleanups.depth = s.cleanups.depth := by
  rw [h.cleanups]

end Keeps

namespace Gains
variable {s t u : State} {live live' : Pending} {owed owed' : List Label}

theorem trans (h : s.Gains live owed t) (k : t.Gains live' owed' u) : s.Gains live' owed' u :=
  ⟨k.balanced, h.cleanups.trans k.cleanups⟩

theorem reorder (h : s.Gains live owed t) (hl : live.Perm live') : s.Gains live' owed t :=
  ⟨h.balanced.reorder hl, h.cleanups⟩

theorem depth_eq (h : s.Gains live owed t) : t.cleanups.depth = s.cleanups.depth :=
  h.cleanups.depth_eq

end Gains

theorem Adds.keeps {table : SymbolTable} {s t : State} (h : s.Adds table Instr.isSettled t)
    {live : Pending}
    {owed : List Label} (hb : s.Balanced live owed) : s.Keeps live owed t := by
  obtain ⟨added, body, settled⟩ := h.body
  exact ⟨hb.append body settled h.labels h.gotos h.pads, h.cleanups⟩

end State

section Steps
variable {env : Env} {s : State} {live : Pending} {owed : List Label} {m : LowerM α}
  {pending : Pending}

theorem Adding.keeps (h : Adding Instr.isSettled m) (hb : s.Balanced live owed) :
    Ends Error.IsFault (fun _ t => s.Keeps live owed t) (m env s) :=
  (h env s).mono fun _ _ ht => ht.keeps hb

theorem StraightLine.settled (h : StraightLine m) : Adding Instr.isSettled m :=
  h.mono fun _ hi => Instr.isSettled_of_straight (Instr.isStraight_of_inline hi)

theorem StraightLine.keeps (h : StraightLine m) (hb : s.Balanced live owed) :
    Ends Error.IsFault (fun _ t => s.Keeps live owed t) (m env s) :=
  h.settled.keeps hb

theorem edit_keeps {m : Draft.Edit α} {l : α → Pending} {o : α → List Label}
    (h : Ends Error.IsFault (fun a d => d.Accounts (l a ++ s.gotos.jumps) (o a ++ s.pads.labels))
      (m s.draft)) (hb : s.Balanced live owed) :
    Ends Error.IsFault (fun a t => s.Keeps (l a) (o a) t) ((liftM m : LowerM α) env s) :=
  Ends.edited (h.mono fun _ _ hd => ⟨⟨hd, hb.names⟩, rfl⟩)

theorem emit_keeps {i : Instr} (hi : i.isSettled) (hb : s.Balanced live owed) :
    Ends Error.IsFault (fun _ t => s.Keeps live owed t) (emit i env s) :=
  (Adding.emit hi).keeps hb

theorem emitBranch_keeps {i : Instr} (hplaced : i.placed? = none) (hb : s.Balanced live owed) :
    Ends Error.IsFault (fun k t => s.Keeps ((i.openEdges.map fun e => ⟨k, e⟩) ++ live) owed t)
      ((liftM (Draft.emit i) : LowerM InstrId) env s) := by
  refine ⟨⟨?_, hb.names⟩, rfl⟩
  have before : s.draft.Accounts (live ++ s.gotos.jumps)
      (i.placed?.toList ++ (owed ++ s.pads.labels)) := by simpa [hplaced] using hb.accounts
  exact before.push.perm (by unfold Draft.Accounts.opened; grind) (.refl _)

theorem place_keeps {l : Label} (hb : s.Balanced live (l :: owed)) :
    Ends Error.IsFault (fun _ t => s.Keeps live owed t)
      ((liftM (Draft.place l) : LowerM Unit) env s) :=
  edit_keeps (Draft.place_accounts hb.accounts) hb

theorem newLabel_keeps (hb : s.Balanced live owed) :
    Ends Error.IsFault (fun l t => s.Keeps live (l :: owed) t)
      ((liftM Draft.newLabel : LowerM Label) env s) :=
  edit_keeps (l := fun _ => live) (o := (· :: owed)) (Draft.newLabel_accounts hb.accounts) hb

theorem hereLabel_keeps (hb : s.Balanced live owed) :
    Ends Error.IsFault (fun _ t => s.Keeps live owed t)
      ((liftM Draft.hereLabel : LowerM Label) env s) :=
  edit_keeps (Draft.hereLabel_accounts hb.accounts) hb

theorem pendingJump_keeps (hb : s.Balanced live owed) :
    Ends Error.IsFault (fun jump t => s.Keeps (jump ++ live) owed t)
      ((liftM Draft.pendingJump : LowerM Pending) env s) := by
  refine edit_keeps (l := fun jump => jump ++ live) (o := fun _ => owed) ?_ hb
  refine (Draft.pendingJump_accounts hb.accounts).mono fun jump d h => ?_
  exact h.perm (by grind) (.refl _)

theorem resolveHere_keeps (hb : s.Balanced (pending ++ live) owed) :
    Ends Error.IsFault (fun _ t => s.Keeps live owed t) (resolveHere pending env s) := by
  refine (edit_keeps (l := fun _ => live) (o := fun _ => owed) ?_ hb).seq
    fun _ t ht => Ends.ret ht
  exact Draft.resolveHere_accounts (hb.accounts.perm (by grind) (.refl _))

theorem resolveRequiredHere_keeps (nonempty : pending ≠ [])
    (hb : s.Balanced (pending ++ live) owed) :
    Ends Error.IsFault (fun _ t => s.Keeps live owed t)
      ((liftM (Draft.resolveRequiredHere pending) : LowerM Label) env s) := by
  refine edit_keeps (l := fun _ => live) (o := fun _ => owed) ?_ hb
  exact Draft.resolveRequiredHere_accounts nonempty (hb.accounts.perm (by grind) (.refl _))

theorem resolveTo_keeps (hb : s.Balanced (pending ++ live) owed) (l : Label) :
    Ends Error.IsFault (fun _ t => s.Keeps live owed t)
      ((liftM (Draft.resolveTo pending l) : LowerM Unit) env s) := by
  refine edit_keeps (l := fun _ => live) (o := fun _ => owed) ?_ hb
  exact Draft.resolveTo_accounts (hb.accounts.perm (by grind) (.refl _)) l

end Steps

end Lower
end FlatCode
