import FlatCode.Proofs.Balance.Basic

/-! Ways out of scopes keep the books. -/
namespace FlatCode.Lower
open Code Symbols Ast

theorem emitDestructor_settled (o : Obligation) : Adding Instr.isSettled (emitDestructor o) := by
  refine (functionSymbol_straight _).settled.bind fun symbol => ?_
  split
  · exact statusSlot_straight.settled.bind fun _ => (Adding.emit rfl).bind fun _ => .pure _
  · exact (Adding.emit rfl).bind fun _ => .pure _

theorem emitTrace_settled (function : String) : Adding Instr.isSettled (emitTrace function) := by
  refine .ask fun env => ?_
  split
  · exact .ask fun _ => .emit rfl
  · exact .pure _

theorem emitReturn_settled (value : Option Operand) :
    Adding Instr.isSettled (emitReturn value) :=
  (emitTrace_settled _).bind fun _ => .emit rfl

section Unwind
variable {env : Env} {s : State} {live : Pending} {owed : List Label}

theorem notePad_keeps (destroyed : Nat) (hb : s.Balanced live owed) :
    Ends Error.IsFault (fun _ t => s.Keeps live owed t) (notePad destroyed env s) := by
  refine .ask (Ends.look ((newLabel_keeps hb).seq fun l t ht => ?_))
  -- the label goes from the step that made it to the table of pads
  refine ⟨⟨ht.balanced.accounts.perm (.refl _) ?_, ht.balanced.names⟩, ht.cleanups⟩
  rw [LandingPads.labels_note]
  grind

theorem testStatus_keeps (destroyed : Nat) (hb : s.Balanced live owed) :
    Ends Error.IsFault (fun _ t => s.Keeps live owed t) (testStatus destroyed env s) := by
  refine (statusSlot_straight.keeps hb).seq fun slot s1 h1 => ?_
  refine ((Adding.newRegister _).keeps h1.balanced).seq fun code s2 h2 => ?_
  refine (emit_keeps rfl h2.balanced).seq fun _ s3 h3 => ?_
  refine (notePad_keeps destroyed h3.balanced).seq fun pad s4 h4 => ?_
  -- the branch leaves one target open, which is set at once
  refine (emitBranch_keeps rfl h4.balanced).seq fun branch s5 h5 => ?_
  refine (resolveRequiredHere_keeps (by simp [Instr.openEdges]) h5.balanced).seq
    fun _ s6 h6 => .ret ?_
  exact ((((h1.trans h2).trans h3).trans h4).trans h5).trans h6

theorem emitCleanups_keeps : ∀ (owing : List Obligation) (destroyed : Nat) {s : State},
    s.Balanced live owed →
      Ends Error.IsFault (fun _ t => s.Keeps live owed t) (emitCleanups destroyed owing env s)
  | [], _, _, hb => .ret (.refl hb)
  | o :: owing, destroyed, s, hb => by
    unfold emitCleanups
    refine ((emitDestructor_settled o).keeps hb).seq fun raises t ht => ?_
    dsimp only
    split
    · refine (testStatus_keeps _ ht.balanced).seq fun _ u hu => ?_
      exact (emitCleanups_keeps owing _ hu.balanced).mono fun _ v hv => (ht.trans hu).trans hv
    · exact (emitCleanups_keeps owing _ ht.balanced).mono fun _ v hv => ht.trans hv

theorem leaveTo_keeps (depth : Nat) (hb : s.Balanced live owed) :
    Ends Error.IsFault (fun _ t => s.Keeps live owed t) (leaveTo depth env s) :=
  Ends.look (emitCleanups_keeps _ 0 hb)

theorem State.Balanced.inScope (hb : s.Balanced live owed) : s.inScope.Balanced live owed :=
  hb.congr rfl rfl rfl

theorem State.depth_inScope (s : State) : 0 < s.inScope.cleanups.depth := Nat.succ_pos _

theorem dropScope_keeps {t : State} (h : s.inScope.Gains live owed t) :
    Ends Error.IsFault (fun _ u => s.Keeps live owed u) (dropScope env t) := by
  obtain ⟨added, hadded⟩ := h.cleanups
  refine .look (Ends.seq (P := fun c u => c = s.cleanups ∧ u = t) ?_ ?_)
  · rw [hadded]
    exact ⟨rfl, rfl⟩
  · rintro _ _ ⟨rfl, rfl⟩
    exact .put ⟨h.balanced.congr rfl rfl rfl, rfl⟩

theorem closeScope_keeps {t : State} (h : s.inScope.Gains live owed t) :
    Ends Error.IsFault (fun _ u => s.Keeps live owed u) (closeScope env t) := by
  have hdepth : t.cleanups.depth ≠ 0 := by
    rw [h.depth_eq]
    exact Nat.succ_ne_zero _
  refine .look ?_
  dsimp only
  rw [if_neg hdepth]
  refine .known (t := t) rfl ?_
  split
  · exact dropScope_keeps h
  · refine (leaveTo_keeps _ h.balanced).seq fun _ u hu => ?_
    exact dropScope_keeps (h.trans hu.gains)

end Unwind

end FlatCode.Lower
