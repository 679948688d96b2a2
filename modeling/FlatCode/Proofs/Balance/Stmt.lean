import FlatCode.Proofs.Balance.Expr

/-! Statements keep the books. A statement hands out the jumps that leave it, and the statement
around it takes them over. -/
namespace FlatCode
open List

namespace Gotos
variable {g : Gotos}

theorem jumps_perm (name : String) (h : (g.pending.map Prod.fst).Nodup) :
    g.jumps.Perm (g.waiting name ++ (g.withoutPending name).flatMap Prod.snd) := by
  unfold jumps waiting withoutPending
  generalize g.pending = pending at h
  induction pending with
  | nil => simp
  | cons p rest ih =>
    obtain ⟨key, list⟩ := p
    rw [map_cons, nodup_cons] at h
    by_cases hk : key = name
    · subst hk
      have absent : rest.filter (fun p => p.1 ≠ key) = rest := by
        refine filter_eq_self.2 fun p hp => ?_
        have : p.1 ≠ key := fun he => h.1 (mem_map.2 ⟨p, hp, he⟩)
        simpa using this
      rw [filter_cons_of_neg (by simp), absent]
      simp
    · have hk' : (name == key) = false := by simpa using fun he => hk he.symm
      have := ih h.2
      simp only [flatMap_cons, lookup_cons, hk', filter_cons, hk, ne_eq,
        not_false_eq_true, decide_true, if_true] at this ⊢
      grind

theorem names_withoutPending (name : String) (h : (g.pending.map Prod.fst).Nodup) :
    ((g.withoutPending name).map Prod.fst).Nodup ∧
      name ∉ (g.withoutPending name).map Prod.fst := by
  constructor
  · exact h.sublist (filter_sublist.map _)
  · simp [withoutPending]

end Gotos

namespace Lower
open Code Symbols Ast
variable {env : Env} {m : LowerM Exits} {s : State} {live : Pending} {owed : List Label}

def Exits.all (x : Exits) : Pending := x.next ++ x.breaks ++ x.continues

def Exits.Fits (x : Exits) (env : Env) : Prop :=
  (env.breakDepth = .none → x.breaks = []) ∧ (env.loopDepth = .none → x.continues = [])

theorem Exits.Fits.append {x y : Exits} (hx : x.Fits env) (hy : y.Fits env) :
    (x ++ y).Fits env := by
  constructor
  · intro h
    change x.breaks ++ y.breaks = []
    rw [hx.1 h, hy.1 h]
    rfl
  · intro h
    change x.continues ++ y.continues = []
    rw [hx.2 h, hy.2 h]
    rfl

theorem Exits.fits_ofNext (next : Pending) (env : Env) : (Exits.ofNext next).Fits env :=
  ⟨fun _ => rfl, fun _ => rfl⟩

theorem Exits.fits_none (env : Env) : Exits.none.Fits env := ⟨fun _ => rfl, fun _ => rfl⟩

theorem Exits.all_append (x y : Exits) : (x ++ y).all.Perm (x.all ++ y.all) := by
  change ((x.next ++ y.next) ++ (x.breaks ++ y.breaks) ++ (x.continues ++ y.continues)).Perm _
  unfold Exits.all
  grind

theorem Exits.all_ofNext (next : Pending) : (Exits.ofNext next).all = next := by
  simp [Exits.all, Exits.ofNext]

/-- A statement: it hands out its exits and leaves all other lists as they are. -/
def Walks (m : LowerM Exits) : Prop :=
  ∀ ⦃env s live owed⦄, s.Balanced live owed → 0 < s.cleanups.depth →
    Ends Error.IsFault (fun x t => s.Gains (x.all ++ live) owed t ∧ x.Fits env) (m env s)

/-- A list of statements: each begins where the one before it ends, so no jump is left that
goes to whatever follows. -/
def WalksAll (m : LowerM Exits) : Prop :=
  ∀ ⦃env s live owed⦄, s.Balanced live owed → 0 < s.cleanups.depth →
    Ends Error.IsFault (fun x t => s.Gains (x.all ++ live) owed t ∧ x.Fits env ∧ x.next = [])
      (m env s)

section Parts
variable {env : Env} {s : State} {live : Pending} {owed : List Label}

theorem settle_keeps {x : Exits} (hb : s.Balanced (x.all ++ live) owed) :
    Ends Error.IsFault (fun y t => s.Keeps (y.all ++ live) owed t ∧
      y = { x with next := [] }) (settle x env s) := by
  have hb' : s.Balanced (x.next ++ (x.breaks ++ x.continues ++ live)) owed :=
    hb.reorder (by unfold Exits.all; grind)
  refine (resolveHere_keeps hb').seq fun _ t ht => .ret ⟨?_, rfl⟩
  simpa [Exits.all] using ht

theorem inCompound_keeps (h : WalksAll m) (hb : s.Balanced live owed) :
    Ends Error.IsFault (fun x t => s.Keeps (x.all ++ live) owed t ∧ x.Fits env ∧ x.next = [])
      (inCompound m env s) := by
  let entered : State := { s with compounds := s.compounds + 1 }
  have hb1 : entered.inScope.Balanced live owed := hb.congr rfl rfl rfl
  refine .look (Ends.known (t := entered.inScope) rfl ?_)
  refine (Ends.inside (h hb1 entered.depth_inScope)).seq fun x t ⟨ht, fits⟩ => ?_
  exact (closeScope_keeps ht).seq fun _ u hu => .ret ⟨⟨hu.balanced, hu.cleanups⟩, fits⟩

theorem jumpOver_keeps (hb : s.Balanced live owed) :
    Ends Error.IsFault (fun past t => s.Keeps (past ++ live) owed t) (jumpOver env s) := by
  refine .known (t := s) rfl ?_
  split
  · exact .ret (.refl hb)
  · exact pendingJump_keeps hb

theorem jumpTo_keeps (l : Label) (hb : s.Balanced live owed) :
    Ends Error.IsFault (fun _ t => s.Keeps live owed t) (jumpTo l env s) :=
  emit_keeps rfl hb

theorem comment_settled (name : String) : Adding Instr.isSettled (comment name) := by
  refine .ask fun env => ?_
  split
  · exact .emit rfl
  · exact .pure _

end Parts

theorem Walks.straight {m : LowerM Unit} (h : Steady m) : Walks (straight m) := by
  intro env s live owed hb hd
  exact (h hb hd).seq fun _ t ht => .ret ⟨ht, Exits.fits_none env⟩

theorem Walks.straight_of_keeps {m : LowerM Unit} (h : ∀ ⦃env s live owed⦄,
    s.Balanced live owed → Ends Error.IsFault (fun _ t => s.Keeps live owed t) (m env s)) :
    Walks (Lower.straight m) :=
  .straight (.of_keeps h)

section Simple

theorem lowerConstruction_steady (v : VariableId) (ctor : FunctionId) (arguments : List Expr) :
    Steady (lowerConstruction v ctor arguments) := by
  refine (allocate_straight v _).steady.bind fun location => ?_
  refine Steady.bind ?_ fun _ => .oweDestructor _ _
  exact .of_keeps fun _ _ _ _ =>
    withTemporaries_keeps (steady_rules.initializeAt location ctor arguments)

theorem lowerAssignment_steady (target value : Expr) : Steady (lowerAssignment target value) := by
  refine .of_keeps fun _ _ _ _ => withTemporaries_keeps ?_
  refine (plan_sound target).address.bind fun address => ?_
  refine (operand_steady value).bind fun value => ?_
  exact (storeValue_derives _ _ _).straight.steady

theorem lowerDestruction_steady (object : Expr) (destructor : FunctionId) :
    Steady (lowerDestruction object destructor) := by
  refine .of_keeps fun _ _ _ _ => withTemporaries_keeps ?_
  refine (plan_sound object).address.bind fun address => ?_
  refine (Steady.emitDestructor _).bind fun raises => ?_
  split
  · exact .testStatus 0
  · exact .pure _

theorem returned_steady (e : Expr) : Steady (returned e) := by
  refine .ask fun env => ?_
  split
  · refine (steady_steps.requireValue e.kind (plan_sound e).value).bind
      fun value => .ask fun env => ?_
    exact (storeValue_derives _ _ _).straight.steady.bind fun _ => .pure _
  · refine (plan_sound e).value.bind fun value => .ask fun env => ?_
    refine (isVoid_derives _).straight.steady.bind fun void => ?_
    split
    · exact .pure _
    · exact (steady_steps.requireValue e.kind (.pure value)).bind fun _ => .pure _

theorem lowerReturn_steady (e : Option Expr) : Steady (lowerReturn e) := by
  have leave : ∀ value : Option Operand, Steady (do leaveTo 0; emitReturn value) := fun value =>
    (Steady.of_keeps fun _ _ _ _ => leaveTo_keeps 0).bind fun _ =>
      (emitReturn_settled value).steady
  unfold lowerReturn
  split
  · refine Steady.bind (.of_keeps fun _ _ _ _ => withTemporaries_keeps ?_) leave
    exact returned_steady _
  · exact defaultReturn_straight.steady.bind leave

theorem lowerThrow_steady (e : Expr) : Steady (lowerThrow e) := by
  refine Steady.bind (.of_keeps fun _ _ _ _ => fullOperand_keeps e) fun value => ?_
  refine (exceptionCode_derives value).straight.steady.bind fun code => ?_
  refine statusSlot_straight.steady.bind fun slot => ?_
  refine (Adding.emit rfl).steady.bind fun _ => ?_
  refine Steady.bind (.of_keeps fun _ _ _ _ => notePad_keeps 0) fun pad => ?_
  exact .of_keeps fun _ _ _ _ => jumpTo_keeps pad

theorem lowerGotoCase_steady {find : CaseMap → Except Error CaseTarget}
    (h : ∀ cases, ReportsFaults (find cases)) : Steady (lowerGotoCase find) := by
  refine .ask fun env => ?_
  split
  · refine (Adding.fail ?_).steady
    rfl
  · refine (Adding.answered (h _)).steady.bind fun target => ?_
    refine Steady.bind (.of_keeps fun _ _ _ _ => leaveTo_keeps _) fun _ => ?_
    exact .of_keeps fun _ _ _ _ => jumpTo_keeps _

theorem lowerGoto_steady (label : String) : Steady (lowerGoto label) := by
  refine .ask fun env => (Adding.answered (env.labels.scopesOf_faults label)).steady.bind
    fun ids => .ask fun env => Steady.bind (.of_keeps fun _ _ _ _ => leaveTo_keeps _) fun _ => ?_
  refine .of_keeps fun env s live owed hb => .look ?_
  cases s.gotos.placed.lookup label with
  | some l => exact jumpTo_keeps l hb
  | none =>
    have jumped := Draft.pendingJump_accounts hb.accounts
    obtain ⟨nodup, fresh⟩ := Gotos.names_withoutPending label hb.names
    refine ⟨⟨?_, ?_⟩, rfl⟩
    · refine jumped.perm ?_ (.refl _)
      have split := Gotos.jumps_perm label hb.names
      simp only [Gotos.jumps, Gotos.await, flatMap_append, flatMap_cons, flatMap_nil] at split ⊢
      grind
    · simp only [Gotos.await]
      grind

theorem placeName_steady (name : String) : Steady (placeName name) := by
  refine .of_keeps fun env s live owed hb => .look ?_
  split
  · exact (rfl : (Error.duplicateLabel name).isInternal = false)
  · have split := Gotos.jumps_perm name hb.names
    obtain ⟨nodup, -⟩ := Gotos.names_withoutPending name hb.names
    refine .drafted (Draft.hereLabel_accounts hb.accounts) fun l d hd => ?_
    have waiting : d.Accounts (s.gotos.waiting name ++ (live ++
        (s.gotos.withoutPending name).flatMap Prod.snd)) (owed ++ s.pads.labels) :=
      hd.perm (by grind) (.refl _)
    exact .drafted (Draft.resolveTo_accounts waiting l) fun _ _ ht => ⟨⟨ht, nodup⟩, rfl⟩

theorem jumpOut_walks {depth? : Env → Option Nat} {missing : Error} {exits : Pending → Exits}
    (fault : missing.IsFault) (all : ∀ jump, (exits jump).all = jump)
    (fits : ∀ env jump, depth? env ≠ none → (exits jump).Fits env) :
    Walks (jumpOut depth? missing exits) := by
  intro env s live owed hb _
  refine .ask ?_
  cases hd : depth? env with
  | none => exact fault
  | some depth =>
    refine (leaveTo_keeps depth hb).seq fun _ t ht => ?_
    refine (pendingJump_keeps ht.balanced).seq fun jump u hu => .ret ⟨?_, fits env jump ?_⟩
    · rw [all]
      exact (ht.trans hu).gains
    · simp [hd]

theorem lowerBreak_walks : Walks lowerBreak :=
  jumpOut_walks rfl (by simp [Exits.all]) fun _ _ inside => ⟨inside.elim, fun _ => rfl⟩

theorem lowerContinue_walks : Walks lowerContinue :=
  jumpOut_walks rfl (by simp [Exits.all]) fun _ _ inside => ⟨fun _ => rfl, inside.elim⟩

end Simple

section Control
variable {body : LowerM Exits}

theorem lowerIf_walks (e : Expr) {then_ : LowerM Exits} (h : Walks then_) :
    Walks (lowerIf e then_) := by
  intro env s live owed hb hd
  refine (condition_keeps e hb).seq fun c t ht => ?_
  have hb1 : t.Balanced (c.onTrue ++ (c.onFalse ++ live)) owed := ht.balanced.reorder (by grind)
  refine (resolveHere_keeps hb1).seq fun _ u hu => ?_
  have hdu : 0 < u.cleanups.depth := by rw [(ht.trans hu).depth_eq]; exact hd
  refine (h hu.balanced hdu).seq fun x v ⟨hv, fits⟩ => .ret ⟨?_, ?_⟩
  · refine ((ht.trans hu).gains.trans hv).reorder ?_
    have := Exits.all_append x (.ofNext c.onFalse)
    rw [Exits.all_ofNext] at this
    grind
  · exact fits.append (Exits.fits_ofNext _ env)

theorem lowerIfElse_walks (e : Expr) {then_ else_ : LowerM Exits} (ht : Walks then_)
    (he : Walks else_) : Walks (lowerIfElse e then_ else_) := by
  intro env s live owed hb hd
  refine (condition_keeps e hb).seq fun c s1 h1 => ?_
  have hb1 : s1.Balanced (c.onTrue ++ (c.onFalse ++ live)) owed := h1.balanced.reorder (by grind)
  refine (resolveHere_keeps hb1).seq fun _ s2 h2 => ?_
  have hd2 : 0 < s2.cleanups.depth := by rw [(h1.trans h2).depth_eq]; exact hd
  refine (ht h2.balanced hd2).seq fun left s3 ⟨h3, leftFits⟩ => ?_
  refine (jumpOver_keeps h3.balanced).seq fun past s4 h4 => ?_
  have hb4 : s4.Balanced (c.onFalse ++ (left.all ++ past ++ live)) owed :=
    h4.balanced.reorder (by grind)
  refine (resolveHere_keeps hb4).seq fun _ s5 h5 => ?_
  have h := (((h1.trans h2).gains.trans h3).trans h4.gains).trans h5.gains
  have hd5 : 0 < s5.cleanups.depth := by rw [h.depth_eq]; exact hd
  refine (he h5.balanced hd5).seq fun right s6 ⟨h6, rightFits⟩ => .ret ⟨?_, ?_⟩
  · refine (h.trans h6).reorder ?_
    have outer := Exits.all_append (left ++ .ofNext past) right
    have inner := Exits.all_append left (.ofNext past)
    rw [Exits.all_ofNext] at inner
    grind
  · exact (leftFits.append (Exits.fits_ofNext _ env)).append rightFits

theorem inLoop_gains (h : Walks body) (hb : s.Balanced live owed) (hd : 0 < s.cleanups.depth) :
    Ends Error.IsFault (fun x t => s.Gains (x.all ++ live) owed t) (inLoop body env s) :=
  Ends.look (Ends.inside ((h hb hd).mono fun _ _ hx => hx.1))

theorem goBack_keeps (head : Label) (hb : s.Balanced live owed) :
    Ends Error.IsFault (fun _ t => s.Keeps live owed t) (goBack head env s) := by
  refine .known (a := s.draft.endsInTerminator) (t := s) rfl ?_
  split
  · exact .ret (.refl hb)
  · exact jumpTo_keeps head hb

theorem lowerWhile_walks (e : Expr) (h : Walks body) : Walks (lowerWhile e body) := by
  intro env s live owed hb hd
  refine (hereLabel_keeps hb).seq fun head s1 h1 => ?_
  refine (condition_keeps e h1.balanced).seq fun c s2 h2 => ?_
  have hb2 : s2.Balanced (c.onTrue ++ (c.onFalse ++ live)) owed := h2.balanced.reorder (by grind)
  refine (resolveHere_keeps hb2).seq fun _ s3 h3 => ?_
  have k3 := (h1.trans h2).trans h3
  have hd3 : 0 < s3.cleanups.depth := by rw [k3.depth_eq]; exact hd
  refine (inLoop_gains h h3.balanced hd3).seq fun x s4 h4 => ?_
  have hb4 : s4.Balanced (x.next ++ x.continues ++ (c.onFalse ++ x.breaks ++ live)) owed :=
    h4.balanced.reorder (by unfold Exits.all; grind)
  refine (resolveTo_keeps hb4 head).seq fun _ s5 h5 => ?_
  have k5 := (k3.gains.trans h4).trans h5.gains
  refine (goBack_keeps head h5.balanced).seq fun _ s6 h6 => .ret ⟨?_, Exits.fits_ofNext _ env⟩
  simpa [Exits.all_ofNext] using k5.trans h6.gains

theorem lowerDoWhile_walks (e : Expr) (h : Walks body) : Walks (lowerDoWhile body e) := by
  intro env s live owed hb hd
  refine (hereLabel_keeps hb).seq fun top s1 h1 => ?_
  have hd1 : 0 < s1.cleanups.depth := by rw [h1.depth_eq]; exact hd
  refine (inLoop_gains h h1.balanced hd1).seq fun x s2 h2 => ?_
  have hb2 : s2.Balanced (x.next ++ x.continues ++ (x.breaks ++ live)) owed :=
    h2.balanced.reorder (by unfold Exits.all; grind)
  refine (resolveHere_keeps hb2).seq fun _ s3 h3 => ?_
  refine (condition_keeps e h3.balanced).seq fun c s4 h4 => ?_
  have hb4 : s4.Balanced (c.onTrue ++ (c.onFalse ++ x.breaks ++ live)) owed :=
    h4.balanced.reorder (by grind)
  refine (resolveTo_keeps hb4 top).seq fun _ s5 h5 => .ret ⟨?_, Exits.fits_ofNext _ env⟩
  rw [Exits.all_ofNext]
  exact (((h1.gains.trans h2).trans h3.gains).trans h4.gains).trans h5.gains

theorem loopCondition_keeps (e : Option Expr) (hb : s.Balanced live owed) :
    Ends Error.IsFault (fun leave t => s.Keeps (leave ++ live) owed t)
      (loopCondition e env s) := by
  cases e with
  | none => exact .ret (.refl hb)
  | some e =>
    refine (condition_keeps e hb).seq fun c t ht => ?_
    have hb1 : t.Balanced (c.onTrue ++ (c.onFalse ++ live)) owed := ht.balanced.reorder (by grind)
    exact (resolveHere_keeps hb1).seq fun _ u hu => .ret (ht.trans hu)

theorem lowerIncrement_keeps (increment : Option Expr) (hb : s.Balanced live owed) :
    Ends Error.IsFault (fun _ t => s.Keeps live owed t) (lowerIncrement increment env s) := by
  cases increment with
  | none => exact .ret (.refl hb)
  | some increment => exact (fullValue_keeps increment hb).seq fun _ _ ht => .ret ht

theorem lowerFor_walks {init : LowerM Exits} (hi : Walks init) (e increment : Option Expr)
    (h : Walks body) : Walks (lowerFor init e increment body) := by
  intro env s live owed hb hd
  unfold lowerFor withTemporaries
  simp only [bind_assoc]
  refine .known (t := s.inScope) rfl ?_
  refine (hi hb.inScope s.depth_inScope).seq fun x s1 ⟨h1, fits⟩ => ?_
  refine (settle_keeps h1.balanced).seq fun before s2 ⟨h2, hbefore⟩ => ?_
  refine (hereLabel_keeps h2.balanced).seq fun head s3 h3 => ?_
  refine (loopCondition_keeps e h3.balanced).seq fun leave s4 h4 => ?_
  have k4 := ((h1.trans h2.gains).trans h3.gains).trans h4.gains
  have hd4 : 0 < s4.cleanups.depth := by rw [k4.depth_eq]; exact s.depth_inScope
  refine (inLoop_gains h h4.balanced hd4).seq fun y s5 h5 => ?_
  have hb5 : s5.Balanced (y.next ++ y.continues ++ (leave ++ y.breaks ++ (before.all ++ live)))
      owed := h5.balanced.reorder (by simp only [Exits.all]; grind)
  refine (resolveHere_keeps hb5).seq fun _ s6 h6 => ?_
  refine (lowerIncrement_keeps increment h6.balanced).seq fun _ s7 h7 => ?_
  have k7 := ((k4.trans h5).trans h6.gains).trans h7.gains
  refine (jumpTo_keeps head h7.balanced).seq fun _ s8 h8 => ?_
  refine (resolveHere_keeps h8.balanced).seq fun _ s9 h9 => ?_
  refine (closeScope_keeps ((k7.trans h8.gains).trans h9.gains)).seq fun _ t ht => ?_
  refine .ret ⟨ht.gains, ?_⟩
  rw [hbefore]
  exact fits

theorem enterHandler_keeps {handler : Label} (hb : s.Balanced live (handler :: owed)) :
    Ends Error.IsFault (fun _ t => s.Keeps live owed t) (enterHandler handler env s) := by
  refine (place_keeps hb).seq fun _ s1 h1 => ?_
  refine (statusSlot_straight.keeps h1.balanced).seq fun status s2 h2 => ?_
  exact (emit_keeps rfl h2.balanced).mono fun _ s3 h3 => (h1.trans h2).trans h3

theorem lowerTry_walks {handler : LowerM Exits} (hbody : Walks body) (hhandler : Walks handler) :
    Walks (lowerTry body handler) := by
  intro env s live owed hb hd
  refine (newLabel_keeps hb).seq fun label s1 h1 => ?_
  have hd1 : 0 < s1.cleanups.depth := by rw [h1.depth_eq]; exact hd
  refine .seq (Ends.look (Ends.inside (hbody h1.balanced hd1))) fun left s2 ⟨h2, leftFits⟩ => ?_
  refine (jumpOver_keeps h2.balanced).seq fun past s3 h3 => ?_
  refine (enterHandler_keeps h3.balanced).seq fun _ s4 h4 => ?_
  have k := (h1.gains.trans h2).trans (h3.trans h4).gains
  have hd4 : 0 < s4.cleanups.depth := by rw [k.depth_eq]; exact hd
  refine (hhandler h4.balanced hd4).seq fun right t ⟨ht, rightFits⟩ => .ret ⟨?_, ?_⟩
  · refine (k.trans ht).reorder ?_
    have outer := Exits.all_append (left ++ right) (.ofNext past)
    have inner := Exits.all_append left right
    rw [Exits.all_ofNext] at outer
    grind
  · exact (leftFits.append rightFits).append (Exits.fits_ofNext _ env)

end Control

section Switch

theorem buildFrom_accounts : ∀ {d : Draft} {owed : List Label} (m : CaseMap)
    (clause : Nat) (clauses : List Clause), d.Accounts live owed →
      Ends Error.IsFault (fun found d' => d'.Accounts live (found.2 ++ owed) ∧
        found.2.length = clauses.length) (m.buildFrom clause clauses d)
  | _, _, _, _, [], h => ⟨h, rfl⟩
  | d, owed, m, clause, .mk kind body :: rest, h => by
    refine (Draft.newLabel_accounts h).next fun label d' hd' => ?_
    cases hm : CaseMap.addClause clause label kind m with
    | error e m' => exact (CaseMap.addClause_faults m clause label kind).of_error hm
    | ok _ m' =>
      refine (buildFrom_accounts m' (clause + 1) rest hd').next fun found d'' ⟨hd'', hl⟩ => ?_
      exact ⟨hd''.perm (.refl _) perm_middle, by simpa using hl⟩

theorem build_keeps (clauses : List Clause) (hb : s.Balanced live owed) :
    Ends Error.IsFault (fun found t => s.Keeps live (found.2 ++ owed) t ∧
      found.2.length = clauses.length)
      ((liftM (CaseMap.build clauses) : LowerM (CaseMap × List Label)) env s) := by
  refine .edited ((buildFrom_accounts .empty 0 clauses hb.accounts).mono fun found d ⟨hd, hl⟩ => ?_)
  exact ⟨⟨⟨hd.perm (.refl _) (by grind), hb.names⟩, rfl⟩, hl⟩

def WalksClauses (clauses : List Clause) : Prop :=
  ∀ ⦃labels env s live owed⦄, labels.length = clauses.length → s.Balanced live (labels ++ owed) →
    0 < s.cleanups.depth →
    Ends Error.IsFault (fun x t => s.Gains (x.all ++ live) owed t ∧ x.Fits env ∧ x.next = [])
      (lowerClauses clauses labels env s)

theorem chooseCase_keeps (e : Expr) (cases : CaseMap) (hb : s.Balanced live owed) :
    Ends Error.IsFault (fun past t => s.Keeps live (past :: owed) t)
      (chooseCase e cases env s) := by
  unfold chooseCase switchOn
  simp only [bind_assoc, pure_bind]
  refine (fullOperand_keeps e hb).seq fun value s1 h1 => ?_
  refine ((codeType_derives e.ty).straight.keeps h1.balanced).seq fun ty s2 h2 => ?_
  refine (newLabel_keeps h2.balanced).seq fun past s3 h3 => ?_
  exact (emit_keeps rfl h3.balanced).seq fun _ s4 h4 =>
    .ret (((h1.trans h2).trans h3).trans h4)

theorem lowerSwitch_walks (e : Expr) {clauses : List Clause} (h : WalksClauses clauses) :
    Walks (lowerSwitch e clauses (lowerClauses clauses)) := by
  intro env s live owed hb hd
  refine (build_keeps clauses hb).seq fun found s1 ⟨h1, hl⟩ => ?_
  obtain ⟨cases, labels⟩ := found
  refine (chooseCase_keeps e cases h1.balanced).seq fun past s2 h2 => ?_
  have k := h1.trans h2
  have hb2 : s2.Balanced live (labels ++ (past :: owed)) := h2.balanced.perm (.refl _) (by grind)
  have hd2 : 0 < s2.cleanups.depth := by rw [k.depth_eq]; exact hd
  refine .seq (Ends.look (Ends.inside (h hl hb2 hd2))) fun x s3 ⟨h3, fits, hnext⟩ => ?_
  refine (place_keeps h3.balanced).seq fun _ t ht => .ret ⟨?_, fun _ => rfl, fits.2⟩
  refine ((k.gains.trans h3).trans ht.gains).reorder ?_
  simp [Exits.all, hnext]

end Switch

theorem Walks.compound (h : WalksAll m) : Walks (inCompound m) :=
  fun _ _ _ _ hb _ => (inCompound_keeps h hb).mono fun _ _ hx => ⟨hx.1.gains, hx.2.1⟩

theorem Walks.commented (name : String) (h : Walks m) : Walks (do comment name; m) := by
  intro env s live owed hb hd
  refine ((comment_settled name).keeps hb).seq fun _ t ht => ?_
  have hd' : 0 < t.cleanups.depth := by rw [ht.depth_eq]; exact hd
  exact (h ht.balanced hd').mono fun _ _ hx => ⟨ht.gains.trans hx.1, hx.2⟩

theorem Walks.labeled (label : String) (h : Walks m) : Walks (do let _ ← placeName label; m) := by
  intro env s live owed hb hd
  refine (placeName_steady label hb hd).seq fun _ t ht => ?_
  have hd' : 0 < t.cleanups.depth := by rw [ht.depth_eq]; exact hd
  exact (h ht.balanced hd').mono fun _ _ hx => ⟨ht.trans hx.1, hx.2⟩

theorem Walks.none : Walks (pure .none) :=
  fun env _ _ _ hb _ => .ret ⟨(State.Keeps.refl hb).gains, Exits.fits_none env⟩

-- follows the recursion of `lowerStmt`; all the work is in the lemma for each statement
mutual
theorem lowerStmt_walks : ∀ st : Stmt, Walks (lowerStmt st)
  | .compound body => (Walks.compound (lowerStmts_walks body)).commented _
  | .expression e => by
    refine (Walks.straight_of_keeps fun _ _ _ _ hb => ?_).commented _
    exact .discarded (fullValue_keeps e hb)
  | .construction v ctor arguments =>
    (Walks.straight (lowerConstruction_steady v ctor arguments)).commented _
  | .assignment target value => (Walks.straight (lowerAssignment_steady target value)).commented _
  | .ifElse e then_ none => (lowerIf_walks e (lowerStmt_walks then_)).commented _
  | .ifElse e then_ (some else_) =>
    (lowerIfElse_walks e (lowerStmt_walks then_) (lowerStmt_walks else_)).commented _
  | .whileLoop e body => (lowerWhile_walks e (lowerStmt_walks body)).commented _
  | .doWhile body e => (lowerDoWhile_walks e (lowerStmt_walks body)).commented _
  | .forLoop none e increment body =>
    (lowerFor_walks .none e increment (lowerStmt_walks body)).commented _
  | .forLoop (some init) e increment body =>
    (lowerFor_walks (lowerStmt_walks init) e increment (lowerStmt_walks body)).commented _
  | .switch e clauses => (lowerSwitch_walks e (lowerClauses_walks clauses)).commented _
  | .return_ e => (Walks.straight (lowerReturn_steady e)).commented _
  | .break_ => lowerBreak_walks.commented _
  | .continue_ => lowerContinue_walks.commented _
  | .labeled label statement => ((lowerStmt_walks statement).labeled label).commented _
  | .goto label => (Walks.straight (lowerGoto_steady label)).commented _
  | .gotoCase value =>
    (Walks.straight (lowerGotoCase_steady fun m => m.get_faults value)).commented _
  | .gotoDefault => (Walks.straight (lowerGotoCase_steady requireDefault_faults)).commented _
  | .destruction object destructor =>
    (Walks.straight (lowerDestruction_steady object destructor)).commented _
  | .try_ body handler =>
    (lowerTry_walks (.compound (lowerStmts_walks body))
      (.compound (lowerStmts_walks handler))).commented _
  | .throw_ e => (Walks.straight (lowerThrow_steady e)).commented _
  | .empty => Walks.none.commented _
theorem lowerStmts_walks : ∀ body : List Stmt, WalksAll (lowerStmts body)
  | [] => by
    intro env s live owed hb hd
    exact .ret ⟨(State.Keeps.refl hb).gains, Exits.fits_none env, rfl⟩
  | st :: rest => by
    intro env s live owed hb hd
    refine (lowerStmt_walks st hb hd).seq fun x s1 ⟨h1, fits⟩ => ?_
    refine (settle_keeps h1.balanced).seq fun first s2 ⟨h2, hfirst⟩ => ?_
    have k := h1.trans h2.gains
    have hd2 : 0 < s2.cleanups.depth := by rw [k.depth_eq]; exact hd
    refine (lowerStmts_walks rest h2.balanced hd2).seq fun y t ⟨ht, fits', hnext⟩ => ?_
    refine .ret ⟨(k.trans ht).reorder ?_, ?_, ?_⟩
    · have := Exits.all_append first y
      grind
    · refine Exits.Fits.append ?_ fits'
      rw [hfirst]
      exact fits
    · change first.next ++ y.next = []
      rw [hnext, hfirst]
      rfl
theorem lowerClauses_walks : ∀ clauses : List Clause, WalksClauses clauses
  | [] => by
    intro labels env s live owed hl hb hd
    obtain rfl : labels = [] := length_eq_zero_iff.1 hl
    rw [lowerClauses]
    · exact .ret ⟨(State.Keeps.refl hb).gains, Exits.fits_none env, rfl⟩
    · simp
  | .mk kind body :: rest => by
    intro labels env s live owed hl hb hd
    obtain ⟨label, labels, rfl⟩ := exists_cons_of_length_eq_add_one hl
    refine (place_keeps hb).seq fun _ s1 h1 => ?_
    refine (inCompound_keeps (lowerStmts_walks body) h1.balanced).seq
      fun first s2 ⟨h2, fits, hfirst⟩ => ?_
    have k := h1.trans h2
    have hd2 : 0 < s2.cleanups.depth := by rw [k.depth_eq]; exact hd
    refine (lowerClauses_walks rest (by simpa using hl) h2.balanced hd2).seq
      fun y t ⟨ht, fits', hnext⟩ => ?_
    refine .ret ⟨(k.gains.trans ht).reorder ?_, fits.append fits', ?_⟩
    · have := Exits.all_append first y
      grind
    · change first.next ++ y.next = []
      rw [hnext, hfirst]
      rfl
end

end Lower
end FlatCode
