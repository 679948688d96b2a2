import FlatCode.Proofs.Balance.Unwind
import FlatCode.Proofs.Plans

/-! Expressions keep the books. A condition hands out the branches that leave it; everything
else leaves the lists as they are. -/
namespace FlatCode.Lower
open Code Symbols Ast List
variable {m : LowerM α} {value : LowerM (Option Operand)} {jump : LowerM Branches}

def Steady (m : LowerM α) : Prop :=
  ∀ ⦃env s live owed⦄, s.Balanced live owed → 0 < s.cleanups.depth →
    Ends Error.IsFault (fun _ t => s.Gains live owed t) (m env s)

def Branches.Coherent (b : Branches) : Prop :=
  (b.constant = some true → b.onFalse = []) ∧ (b.constant = some false → b.onTrue = [])

def Forking (m : LowerM Branches) : Prop :=
  ∀ ⦃env s live owed⦄, s.Balanced live owed → 0 < s.cleanups.depth →
    Ends Error.IsFault (fun b t => s.Gains (b.onTrue ++ b.onFalse ++ live) owed t ∧ b.Coherent)
      (m env s)

theorem Adding.steady (h : Adding Instr.isSettled m) : Steady m :=
  fun _ _ _ _ hb _ => (h.keeps hb).mono fun _ _ ht => ht.gains

theorem StraightLine.steady (h : StraightLine m) : Steady m :=
  fun _ _ _ _ hb _ => (h.keeps hb).mono fun _ _ ht => ht.gains

namespace Steady

theorem bind {f : α → LowerM β} (hm : Steady m) (hf : ∀ a, Steady (f a)) : Steady (m >>= f) := by
  intro env s live owed hb hd
  refine (hm hb hd).seq fun a t ht => ?_
  exact (hf a ht.balanced (by rw [ht.depth_eq]; exact hd)).mono fun _ _ hu => ht.trans hu

theorem pure (a : α) : Steady (pure a) := (Adding.pure a).steady

theorem ask {f : Env → LowerM α} (h : ∀ env, Steady (f env)) : Steady (read >>= f) :=
  fun env _ _ _ hb hd => .ask (h env hb hd)

theorem of_keeps
    (h : ∀ ⦃env s live owed⦄, s.Balanced live owed →
      Ends Error.IsFault (fun _ t => s.Keeps live owed t) (m env s))
    : Steady m :=
  fun _ _ _ _ hb _ => (h hb).mono fun _ _ ht => ht.gains

theorem testStatus (destroyed : Nat) : Steady (testStatus destroyed) :=
  of_keeps fun _ _ _ _ => testStatus_keeps destroyed

theorem emitDestructor (o : Obligation) : Steady (emitDestructor o) :=
  (emitDestructor_settled o).steady

theorem owe (o : Obligation) : Steady (owe o) := by
  intro env s live owed hb hd
  refine .look (Ends.seq (P := fun c t => c = s.cleanups.grow [o] ∧ t = s) ?_ ?_)
  · rw [Cleanups.push_eq o hd]
    exact ⟨rfl, rfl⟩
  · rintro _ _ ⟨rfl, rfl⟩
    exact .put ⟨hb.congr rfl rfl rfl, [o], rfl⟩

theorem oweDestructor (object : Operand) (t : TypeId) : Steady (oweDestructor object t) := by
  refine (destructorOf_derives t).straight.steady.bind fun destructor => ?_
  split
  · exact owe _
  · exact pure _

end Steady

theorem steady_steps : Steps @Steady where
  bind := .bind
  derives h := h.straight.steady

section Conditions
variable {env : Env} {s : State} {live : Pending} {owed : List Label}

theorem withTemporaries_keeps (h : Steady m) (hb : s.Balanced live owed) :
    Ends Error.IsFault (fun _ t => s.Keeps live owed t) (withTemporaries m env s) := by
  refine .known (t := s.inScope) rfl ?_
  refine (h hb.inScope s.depth_inScope).seq fun a t ht => ?_
  exact (closeScope_keeps ht).seq fun _ u hu => .ret hu

theorem splice_keeps {pending : Pending} (owing : List Obligation)
    (hb : s.Balanced (pending ++ live) owed) :
    Ends Error.IsFault (fun p t => s.Keeps (p ++ live) owed t ∧ (pending = [] → p = []))
      (splice pending owing env s) := by
  cases pending with
  | nil => exact ⟨.refl hb, fun _ => rfl⟩
  | cons b pending =>
    refine (resolveHere_keeps hb).seq fun _ t ht => ?_
    refine (emitCleanups_keeps owing 0 ht.balanced).seq fun _ u hu => ?_
    refine (pendingJump_keeps hu.balanced).mono fun jump v hv => ⟨?_, by simp⟩
    exact (ht.trans hu).trans hv

theorem fullJump_keeps (h : Forking jump) (hb : s.Balanced live owed) :
    Ends Error.IsFault (fun b t => s.Keeps (b.onTrue ++ b.onFalse ++ live) owed t ∧ b.Coherent)
      (fullJump jump env s) := by
  refine .look (Ends.known (t := s.inScope) rfl ?_)
  refine (h hb.inScope s.depth_inScope).seq fun b t ⟨ht, coherent⟩ => .look ?_
  generalize t.cleanups.pendingFrom s.cleanups.depth = owing
  cases owing with
  | nil => exact (dropScope_keeps ht).seq fun _ u hu => .ret ⟨hu, coherent⟩
  | cons o owing =>
    have hb1 : t.Balanced (b.onTrue ++ (b.onFalse ++ live)) owed := ht.balanced.reorder (by grind)
    refine (splice_keeps _ hb1).seq fun onTrue u ⟨hu, emptyTrue⟩ => ?_
    have hb2 : u.Balanced (b.onFalse ++ (onTrue ++ live)) owed := hu.balanced.reorder (by grind)
    refine (splice_keeps _ hb2).seq fun onFalse v ⟨hv, emptyFalse⟩ => ?_
    refine (dropScope_keeps ((ht.trans hu.gains).trans hv.gains)).seq fun _ w hw => ?_
    refine .ret ⟨hw.reorder (by grind), fun hc => ?_, fun hc => ?_⟩
    · exact emptyFalse (coherent.1 hc)
    · exact emptyTrue (coherent.2 hc)

end Conditions

namespace Forking

theorem jumpOn (e : Expr) (h : Steady value) : Forking (jumpOn e value) := by
  intro env s live owed hb hd
  refine .table ?_
  cases e.truth? env.symbols with
  | some truth =>
    refine (pendingJump_keeps hb).seq fun jump t ht => .ret ?_
    cases truth with
    | true =>
      exact ⟨by simpa [Branches.known] using ht.gains, by simp [Branches.Coherent, Branches.known]⟩
    | false =>
      exact ⟨by simpa [Branches.known] using ht.gains, by simp [Branches.Coherent, Branches.known]⟩
  | none =>
    refine (steady_steps.requireValue e.kind h hb hd).seq fun condition t ht => ?_
    refine (emitBranch_keeps rfl ht.balanced).seq fun branch u hu => .ret ?_
    exact ⟨ht.trans hu.gains, fun hc => (by cases hc), fun hc => (by cases hc)⟩

theorem swap {m : LowerM Branches} (h : Forking m) :
    Forking (do return (← m).swap) := by
  intro env s live owed hb hd
  refine (h hb hd).seq fun b t ⟨ht, coherent⟩ => .ret ⟨ht.reorder ?_, ?_, ?_⟩
  · exact List.Perm.append_right _ perm_append_comm
  · simpa [Branches.swap] using coherent.2
  · simpa [Branches.swap] using coherent.1

theorem connective (x : Bool) {lhs rhs : LowerM Branches} (hl : Forking lhs) (hr : Forking rhs) :
    Forking (connective x lhs rhs) := by
  intro env s live owed hb _
  refine (fullJump_keeps hl hb).seq fun left t ⟨ht, coherent⟩ => ?_
  have empty : left.constant = some x → left.side (!x) = [] := by
    cases x with
    | true => exact coherent.1
    | false => exact coherent.2
  split
  · rename_i hc
    refine .ret ?_
    cases x with
    | true =>
      refine ⟨?_, fun h => (by cases h), fun _ => rfl⟩
      simpa [Branches.alone, coherent.2 hc] using ht.gains
    | false =>
      refine ⟨?_, fun _ => rfl, fun h => (by cases h)⟩
      simpa [Branches.alone, coherent.1 hc] using ht.gains
  · have hb1 : t.Balanced (left.side x ++ (left.side (!x) ++ live)) owed :=
      ht.balanced.reorder (by cases x <;> grind [Branches.side])
    refine (resolveHere_keeps hb1).seq fun _ u hu => ?_
    refine (fullJump_keeps hr hu.balanced).seq ?_
    rintro right v ⟨hv, coherent'⟩
    refine .ret ⟨((ht.trans hu).trans hv).gains.reorder ?_, ?_⟩
    · cases x <;> simp [Branches.joined] <;> grind
    by_cases hc : left.constant = some x
    · have none := empty hc
      cases x <;> simp_all [Branches.Coherent, Branches.joined]
    · cases x <;> simp [Branches.Coherent, Branches.joined, hc]

end Forking

section Materialize
variable {env : Env} {s : State} {live : Pending} {owed : List Label} {b : Branches}

theorem trueSide_keeps (r : Register) (hb : s.Balanced (b.onTrue ++ (b.onFalse ++ live)) owed) :
    Ends Error.IsFault (fun done t => s.Keeps (done ++ (b.onFalse ++ live)) owed t)
      (trueSide b r env s) := by
  unfold trueSide
  cases hT : b.onTrue with
  | nil =>
    rw [hT] at hb
    exact .ret (.refl hb)
  | cons x xs =>
    rw [hT] at hb
    refine (resolveHere_keeps hb).seq fun _ t ht => ?_
    refine (emit_keeps rfl ht.balanced).seq fun _ u hu => ?_
    split
    · exact .ret (ht.trans hu)
    · exact (pendingJump_keeps hu.balanced).mono fun _ v hv => (ht.trans hu).trans hv

theorem falseSide_keeps (r : Register) (hb : s.Balanced (b.onFalse ++ live) owed) :
    Ends Error.IsFault (fun _ t => s.Keeps live owed t) (falseSide b r env s) := by
  unfold falseSide
  split
  · rename_i he
    rw [isEmpty_iff.1 he] at hb
    exact .ret (.refl hb)
  · refine (resolveHere_keeps hb).seq fun _ t ht => ?_
    exact (emit_keeps rfl ht.balanced).mono fun _ u hu => ht.trans hu

end Materialize

theorem Forking.materialize (h : Forking jump) : Steady (materialize jump) := by
  intro env s live owed hb hd
  unfold Lower.materialize
  refine (h hb hd).seq fun b s1 ⟨h1, _⟩ => ?_
  refine ((Adding.newRegister _).keeps h1.balanced).seq fun r s2 h2 => ?_
  have hb2 : s2.Balanced (b.onTrue ++ (b.onFalse ++ live)) owed := h2.balanced.reorder (by grind)
  refine (trueSide_keeps r hb2).seq fun done s3 h3 => ?_
  -- the jump over the false side waits until that side is written
  have hb3 : s3.Balanced (b.onFalse ++ (done ++ live)) owed := h3.balanced.reorder (by grind)
  refine (falseSide_keeps r hb3).seq fun _ s4 h4 => ?_
  refine (resolveHere_keeps h4.balanced).seq fun _ s5 h5 => .ret ?_
  exact h1.trans (((h2.trans h3).trans h4).trans h5).gains

structure Plan.Sound (p : Plan) : Prop where
  value : Steady p.value
  jump : Forking p.jump
  address : Steady p.address

theorem steady_rules : Rules @Steady Forking fun _ => True where
  toSteps := steady_steps
  register ty := (Adding.newRegister ty).steady
  slot ty := StraightLine.steady (.allocSlot ty)
  place v role := (allocate_straight v role).steady
  status := statusSlot_straight.steady
  function h := (functionSymbol_straight _).steady.bind fun symbol => h symbol trivial
  indirect _ := trivial
  invoke _ _ _ := .of_keeps fun _ _ _ _ => emit_keeps rfl
  test := .testStatus 0
  debt := .oweDestructor
  negation h env s live owed hb hd := by
    refine ((functionSymbol_straight _).keeps hb).seq fun symbol t ht => ?_
    have hd' : 0 < t.cleanups.depth := by rw [ht.depth_eq]; exact hd
    exact (h symbol ht.balanced hd').mono fun _ _ ⟨hu, hc⟩ => ⟨ht.gains.trans hu, hc⟩
  swap := .swap
  jumpOn e _ h := .jumpOn e h
  connective x _ _ hl hr := hl.connective x hr
  materialize := Forking.materialize

theorem plan_sound (e : Expr) : (plan e).Sound :=
  have h := steady_rules.plan e
  ⟨h.value, h.jump, h.address⟩

theorem operand_steady (e : Expr) : Steady (plan e).operand :=
  steady_rules.operand (steady_rules.plan e)

section Full
variable {env : Env} {s : State} {live : Pending} {owed : List Label}

theorem fullValue_keeps (e : Expr) (hb : s.Balanced live owed) :
    Ends Error.IsFault (fun _ t => s.Keeps live owed t) (fullValue e env s) :=
  withTemporaries_keeps (plan_sound e).value hb

theorem fullOperand_keeps (e : Expr) (hb : s.Balanced live owed) :
    Ends Error.IsFault (fun _ t => s.Keeps live owed t) (fullOperand e env s) :=
  withTemporaries_keeps (operand_steady e) hb

theorem condition_keeps (e : Expr) (hb : s.Balanced live owed) :
    Ends Error.IsFault (fun b t => s.Keeps (b.onTrue ++ b.onFalse ++ live) owed t)
      (condition e env s) :=
  (fullJump_keeps (plan_sound e).jump hb).mono fun _ _ h => h.1

end Full
end FlatCode.Lower
