import FlatCode.Proofs.Marks.Emit

/-! Labels and branches. A label promises what is known where it stands, and a branch may be
pointed at it if it brings that much. -/
namespace FlatCode.Marks
open Code Symbols Ast Lower Array
variable {l : Label}

namespace Scene
variable {S : Setting} {P Q : Scene} {n q : Mark} {held : List Register} {live : List Operand}

theorem Promises.get (h : P.Promises l ⟨.ordinary, held, live⟩) :
    ∃ held', P.promise l = some ⟨.ordinary, held', live⟩ ∧ ∀ r ∈ held', r ∈ held := by
  obtain ⟨⟨phase, held', live'⟩, hq, dead | ⟨rfl, rfl, sub⟩⟩ := h
  · cases dead.1
  · exact ⟨held', hq, sub⟩

theorem Promises.of_eq (h : P.promise l = some q) : P.Promises l q :=
  ⟨q, h, q.le_refl⟩

section Keep

theorem Firm.keep (h : P.Firm S) (sub : ∀ r ∈ held, r ∈ P.held) {live : List Operand}
    (built : ∀ x ∈ live, P.Built S x) : (P.keep held live).Firm S :=
  ⟨⟨h.typed.size, h.typed.labels, h.typed.start, h.typed.fits⟩, h.tail,
    fun r hr => h.held r (sub r hr), built,
    h.books.frame later_keep ⟨rfl, rfl, rfl, rfl, rfl, rfl⟩,
    h.lived.frame rfl (.refl _) (h.lived.owed.mono later_keep)⟩

theorem Sound.keep (h : P.Sound S) (sub : ∀ r ∈ held, r ∈ P.held) :
    (P.keep held P.live).Sound S := by
  refine ⟨h.toFirm.keep sub h.live, ?_, h.closed, h.raises.frame rfl rfl⟩
  rcases h.mark with dead | ⟨phase, live, held⟩
  · exact .inl dead
  · exact .inr ⟨phase, live, fun r hr => held r (sub r hr)⟩

theorem Follows.keep {a : List Site} (h : P.Follows S a Q) :
    P.Follows S a (Q.keep P.held Q.live) :=
  ⟨⟨h.notes, h.promises, h.widens⟩, fun _ hr => hr, h.calls, h.slots⟩

theorem Leads.keep {a : List Site} (h : P.Leads S a Q) : P.Leads S a (Q.keep P.held Q.live) :=
  ⟨h.toFollows.keep, h.switch⟩

end Keep

section Patch
variable {b : PendingBranch} {l : Label}

theorem raised_patch {note : Note} (hn : P.notes[b.instr.index]? = some note)
    (ordinary : note.mark.phase = .ordinary) : (P.patch b l).raised = P.raised := by
  refine congrArg (List.filterMap id) ?_
  apply List.ext_getElem?
  intro k
  simp only [List.getElem?_zipWith, Scene.patch, getElem?_toList, getElem?_modify]
  by_cases same : b.instr.index = k
  · subst same
    rw [hn, if_pos rfl]
    cases P.state.draft.body[b.instr.index]? with
    | none => rfl
    | some i => simp [ordinary, Phase.pad?]
  · rw [if_neg same]

theorem Sound.patch (h : P.Sound S) (waits : P.state.draft.Open b)
    (carries : P.Carries b held live) (promises : P.Promises l ⟨.ordinary, held, live⟩) :
    (P.patch b l).Sound S := by
  obtain ⟨note, hn, ordinary, hlive, hheld⟩ := carries
  obtain ⟨held', hq, sub⟩ := promises.get
  have later : P.state.draft.Later (P.patch b l).state.draft := .set waits l
  have labels {k : Nat} {l' : Label} (hk : (P.patch b l).state.draft.body[k]? = some (.label l')) :
      P.state.draft.body[k]? = some (.label l') := by
    have hk' := hk
    change (P.state.draft.body.modify b.instr.index (Instr.setTarget l b.edge))[k]? = _ at hk'
    rw [getElem?_modify] at hk'
    split at hk'
    · obtain ⟨i, hi, heq⟩ := Option.map_eq_some_iff.1 hk'
      have placed := Instr.placed?_setTarget i l b.edge
      rw [heq] at placed
      cases i with
      | label l'' =>
        cases placed
        exact hi
      | _ => cases placed
    · exact hk'
  have size : (P.patch b l).state.draft.body.size = P.state.draft.body.size := by
    simp [Scene.patch]
  have typed : (P.patch b l).Typed S := by
    refine h.typed.patch hn ordinary hq ⟨?_, fun r hr => hheld r (sub r hr)⟩
    rw [ordinary]
    exact ⟨rfl, hlive.symm⟩
  refine ⟨⟨typed, fun l' q last hq' ne k hk => ?_, h.held, h.live,
    h.books.frame later_patch ⟨rfl, rfl, rfl, rfl, rfl, rfl⟩,
    h.lived.frame rfl (.of_code _ _) (h.lived.owed.mono later_patch)⟩, h.mark,
      fun ends => h.closed ?_, ?_⟩
  · have last := labels last
    rw [size, ← back?_eq_getElem?] at last
    rw [size]
    exact h.tail l' q last hq' ne k (labels hk)
  · rwa [← later.endsInTerminator_eq size]
  · exact ⟨(raised_patch hn ordinary).trans h.raises.raised, h.raises.calm⟩

end Patch

section Here

theorem later_relax (h : P.Typed S) (last : P.state.draft.body.back? = some (.label l))
    (phase : P.mark.phase = n.phase) (live : P.mark.live = n.live)
    (held : ∀ r ∈ n.held, r ∈ P.mark.held) :
    P.Later S (P.relax l n) :=
  ⟨fun _ _ h => h, h.less last (.inr ⟨phase, live, held⟩), .refl _⟩

theorem Sound.ordinary_of_label (h : P.Sound S)
    (last : P.state.draft.body.back? = some (.label l)) :
    P.mark.phase = .ordinary ∧ P.mark.live = P.live ∧ ∀ r ∈ P.held, r ∈ P.mark.held := by
  rcases h.mark with dead | known
  · have found := last
    obtain ⟨lt, -⟩ := Array.getElem?_eq_some_iff.1 found
    obtain ⟨note, hn⟩ : ∃ note, P.notes[P.state.draft.body.size - 1]? = some note :=
      ⟨_, getElem?_eq_getElem (by rw [h.typed.size]; exact lt)⟩
    have turn := (h.typed.fits _ _ note found hn).turn
    have end_ : P.state.draft.body.size - 1 + 1 = P.notes.size := by rw [h.typed.size]; omega
    rw [end_, markAt_size] at turn
    exact absurd dead.1 turn.label_awake
  · exact known

theorem Sound.relax (h : P.Sound S) (last : P.state.draft.body.back? = some (.label l))
    (unique : ∀ k : Nat, P.state.draft.body[k]? = some (.label l) → k + 1 =
      P.state.draft.body.size) :
    (P.relax l ⟨.ordinary, P.held, P.live⟩).Sound S ∧
      P.Later S (P.relax l ⟨.ordinary, P.held, P.live⟩) ∧
      (P.relax l ⟨.ordinary, P.held, P.live⟩).promise l = some ⟨.ordinary, P.held, P.live⟩ := by
  obtain ⟨phase, live, held⟩ := h.ordinary_of_label last
  obtain ⟨q, hq, -⟩ := h.typed.promise_back last
  have later : P.Later S (P.relax l ⟨.ordinary, P.held, P.live⟩) :=
    later_relax h.typed last phase live held
  have set := promise_relax (P := P) (n := ⟨.ordinary, P.held, P.live⟩)
    (Array.getElem?_eq_some_iff.1 hq).1
  refine ⟨⟨⟨h.typed.relax last phase live held unique, fun l' q' last' _ _ => ?_, h.held, h.live,
    h.books.frame later ⟨rfl, rfl, rfl, rfl, rfl, rfl⟩,
    h.lived.frame rfl (.refl _) (h.lived.owed.mono later)⟩,
    .inr ⟨rfl, rfl, fun _ hr => hr⟩, fun ends => ?_, h.raises.frame rfl rfl⟩, later, by simp [set]⟩
  · cases last.symm.trans last'
    exact unique
  · rw [h.closed ends] at phase
    cases phase

end Here
end Scene

section Labels
variable {S : Setting} {P : Scene} {env : Env} {held : List Register} {live : List Operand}
open Scene
variable {pending : Pending}

theorem newLabel_arrives (h : P.Sound S) (q : Mark) :
    Arrives S P [] (fun l Q => P.Stands P.held P.live Q ∧ Q.promise l = some q)
      ((liftM Draft.newLabel : LowerM Label) env P.state) := by
  refine ⟨P.withLabel q, rfl, ⟨h.toFirm.withLabel, h.mark, h.closed, h.raises.frame rfl rfl⟩,
    .of_notes later_withLabel (fun _ hr => hr) rfl fun h => h, ⟨rfl, rfl, rfl⟩, ?_⟩
  rw [← h.typed.labels]
  exact promise_new

theorem place_arrives (h : P.Sound S) (idle : P.held = [])
    (promised : P.Promises l ⟨.ordinary, [], P.live⟩) :
    Arrives S P [] (fun _ Q => P.Stands [] P.live Q ∧ ¬ Q.state.draft.EndsInSwitch)
      ((liftM (Draft.place l) : LowerM Unit) env P.state) := by
  obtain ⟨held, hq, sub⟩ := promised.get
  obtain rfl : held = [] := List.eq_nil_iff_forall_not_mem.2 fun r hr => nomatch sub r hr
  rw [← idle] at hq
  exact ⟨_, rfl, h.push_label hq fun ne => absurd idle ne, leads_push rfl rfl rfl fun _ hr => hr,
    ⟨idle, rfl, rfl⟩, fun ends =>
      by simpa [Instr.choices, Instr.isComment] using ends.back back?_push⟩

theorem hereLabel_arrives (h : P.Sound S) :
    Arrives S P [] (fun l Q => P.Stands P.held P.live Q ∧
        Q.Promises l ⟨.ordinary, P.held, P.live⟩)
      ((liftM Draft.hereLabel : LowerM Label) env P.state) := by
  refine Ends.edited ?_
  obtain ⟨l, last, hl⟩ | ⟨-, hl⟩ := Draft.hereLabel_cases P.state.draft
  · rw [hl]
    obtain ⟨phase, live, held⟩ := h.ordinary_of_label last
    obtain ⟨q, hq, hphase, hlive, hheld⟩ := h.typed.promise_back last
    by_cases none : q.held = []
    · exact ⟨P, rfl, h, .refl P, ⟨rfl, rfl, rfl⟩, q, hq,
        .inr ⟨(hphase.trans phase).symm, (hlive.trans live).symm, by simp [none]⟩⟩
    · obtain ⟨sound, later, promised⟩ := h.relax last (h.tail l q last hq none)
      exact ⟨P.relax l _, rfl, sound, .of_notes later (fun _ hr => hr) rfl fun h => h,
        ⟨rfl, rfl, rfl⟩,
        .of_eq promised⟩
  · rw [hl]
    have made := promise_new (P := P) (q := ⟨.ordinary, P.held, P.live⟩)
    rw [h.typed.labels] at made
    have sound : (P.withLabel ⟨.ordinary, P.held, P.live⟩).Sound S :=
      ⟨h.toFirm.withLabel, h.mark, h.closed, h.raises.frame rfl rfl⟩
    have absent : P.promise ⟨P.state.draft.labels⟩ = none := by
      simp [promise, ← h.typed.labels]
    refine ⟨_, rfl, sound.push_label made fun _ => h.typed.label_fresh absent,
      .trans (.of_notes later_withLabel (fun _ hr => hr) rfl fun h => h)
        (leads_push rfl rfl rfl fun _ hr => hr), ⟨rfl, rfl, rfl⟩, ?_⟩
    exact .of_eq made

theorem patch_arrives (h : P.Sound S) {b : PendingBranch} (carries : P.Carries b held live)
    (promises : P.Promises l ⟨.ordinary, held, live⟩) :
    Arrives S P [] (fun _ Q => P.Stands P.held P.live Q)
      ((liftM (Draft.patch l b) : LowerM Unit) env P.state) := by
  refine Ends.edited (Draft.patch_ends fun waits => ?_).anyError
  exact ⟨_, rfl, h.patch waits carries promises, .of_notes later_patch (fun _ hr => hr) rfl
    (·.of_patch rfl), rfl, rfl, rfl⟩

theorem Scene.Stands.trans {Q R : Scene} {held' : List Register} {live' : List Operand}
    (h : P.Stands held live Q) (k : Q.Stands held' live' R) : P.Stands held' live' R :=
  ⟨k.held, k.live, k.cleanups.trans h.cleanups⟩

theorem Scene.Stands.same {Q R : Scene} (h : P.Stands held live Q) (k : Q.Stands Q.held Q.live R) :
    P.Stands held live R :=
  h.trans ⟨k.held.trans h.held, k.live.trans h.live, k.cleanups⟩

theorem forM_patch_arrives : ∀ (pending : Pending) {P : Scene}, P.Sound S →
    (∀ b ∈ pending, P.Carries b held live) → P.Promises l ⟨.ordinary, held, live⟩ →
    Arrives S P [] (fun _ Q => P.Stands P.held P.live Q)
      ((liftM (pending.forM (Draft.patch l)) : LowerM Unit) env P.state)
  | [], P, h, _, _ => ⟨P, rfl, h, .refl P, rfl, rfl, rfl⟩
  | b :: pending, P, h, carries, promises => by
    change Arrives S P [] _
      ((liftM (Draft.patch l b >>= fun _ =>
        pending.forM (Draft.patch l)) : LowerM Unit) env P.state)
    rw [Lower.lift_bind]
    refine (patch_arrives h (carries b List.mem_cons_self) promises).next
      fun _ Q sound leads stands => ?_
    refine (forM_patch_arrives pending sound (fun b' hb' => ?_) (promises.mono leads.toLater)).mono
      fun _ R _ _ stands' => ?_
    · exact (carries b' (List.mem_cons_of_mem b hb')).mono leads.toLater
    · exact stands.same stands'

theorem backpatch_arrives (h : P.Sound S) (carries : ∀ b ∈ pending, P.Carries b held live)
    (promises : P.Promises l ⟨.ordinary, held, live⟩) :
    Arrives S P [] (fun _ Q => P.Stands P.held P.live Q)
      ((liftM (Draft.backpatch pending l) : LowerM Unit) env P.state) := by
  unfold Draft.backpatch
  split
  · exact trivial
  · exact forM_patch_arrives pending h carries promises

theorem resolveTo_arrives (h : P.Sound S) (carries : ∀ b ∈ pending, P.Carries b held live)
    (promises : P.Promises l ⟨.ordinary, held, live⟩) :
    Arrives S P [] (fun _ Q => P.Stands P.held P.live Q)
      ((liftM (Draft.resolveTo pending l) : LowerM Unit) env P.state) := by
  unfold Draft.resolveTo
  split
  · exact ⟨P, rfl, h, .refl P, rfl, rfl, rfl⟩
  · exact backpatch_arrives h carries promises

theorem resolveHere_arrives (h : P.Sound S) (carries : ∀ b ∈ pending, P.Carries b P.held P.live) :
    Arrives S P [] (fun _ Q => P.Stands P.held P.live Q) (resolveHere pending env P.state) := by
  unfold resolveHere Draft.resolveHere
  split
  · exact ⟨P, rfl, h, .refl P, rfl, rfl, rfl⟩
  · rw [Lower.lift_bind, bind_assoc]
    refine (hereLabel_arrives h).next fun l Q sound leads ⟨stands, promises⟩ => ?_
    rw [Lower.lift_bind, bind_assoc]
    refine (backpatch_arrives sound (fun b hb => (carries b hb).mono leads.toLater) promises).next
      fun _ R sound' leads' stands' => ?_
    exact ⟨R, rfl, sound', .refl R, stands.same stands'⟩

end Labels
end FlatCode.Marks
