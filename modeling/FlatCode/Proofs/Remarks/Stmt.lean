import FlatCode.Proofs.Remarks.Expr

/-! Statements in two runs. Where only the first run writes a comment, the labels that either run
makes there correspond. -/
namespace FlatCode
open Code Symbols Ast
variable {g g' : Gotos}

section Names
variable {T : Ties} {P : α → β → Prop}

theorem lookup_tied {as : List (String × α)} {bs : List (String × β)}
    (h : List.Forall₂ (fun p q => p.1 = q.1 ∧ P p.2 q.2) as bs) (name : String) :
    Option.Rel P (as.lookup name) (bs.lookup name) := by
  induction h with
  | nil => exact .none
  | @cons p q as bs same _ ih =>
    rw [List.lookup_cons, List.lookup_cons, ← same.1]
    cases name == p.1 with
    | true => exact .some same.2
    | false => exact ih

namespace Gotos.Tied
variable {g g' : Gotos}

theorem waiting (h : g.Tied T g') (name : String) : T.Waits (g.waiting name) (g'.waiting name) := by
  unfold Gotos.waiting
  obtain ⟨hx, hy⟩ | ⟨_, _, hx, hy, waits⟩ := Lower.rel_cases (lookup_tied h.pending name) <;>
    rw [hx, hy]
  · exact .nil
  · exact waits

theorem withoutPending (h : g.Tied T g') (name : String) :
    List.Forall₂ (fun p q => p.1 = q.1 ∧ T.Waits p.2 q.2) (g.withoutPending name)
      (g'.withoutPending name) := by
  have pending := h.pending
  unfold Gotos.withoutPending
  generalize g.pending = as at pending ⊢
  generalize g'.pending = bs at pending ⊢
  induction pending with
  | nil => exact .nil
  | @cons p q ps qs same _ ih =>
    rw [List.filter_cons, List.filter_cons, ← same.1]
    split
    · exact .cons same ih
    · exact ih

end Gotos.Tied

inductive Answers (P : α → β → Prop) : Except Error α → Except Error β → Prop
  | ok {a : α} {b : β} (h : P a b) : Answers P (.ok a) (.ok b)
  | error (e : Error) : Answers P (.error e) (.error e)

end Names

namespace Lower

variable {l l' : Label}

section Cases
variable {T U : Ties} {m m' : CaseMap}

theorem CasesTied.find? (h : CasesTied T m m') (key : String) :
    Option.Rel (CaseTied T) (m.find? key) (m'.find? key) := by
  have cases := h.cases
  rw [CaseMap.find?_eq, CaseMap.find?_eq]
  generalize m.cases = cs at cases ⊢
  generalize m'.cases = cs' at cases ⊢
  induction cases with
  | nil => exact .none
  | @cons c c' cs cs' same _ ih =>
    rw [List.find?_cons, List.find?_cons, ← same.value]
    split
    · exact .some same
    · exact ih

theorem CasesTied.get (h : CasesTied T m m') (value : Literal) :
    Answers (CaseTied T) (m.get value) (m'.get value) := by
  unfold CaseMap.get
  obtain ⟨hx, hy⟩ | ⟨_, _, hx, hy, same⟩ := rel_cases (h.find? value.key) <;>
    rw [hx, hy]
  · exact .error _
  · exact .ok same

theorem CasesTied.requireDefault (h : CasesTied T m m') :
    Answers (CaseTied T) (requireDefault m) (requireDefault m') := by
  unfold Lower.requireDefault
  obtain ⟨hx, hy⟩ | ⟨_, _, hx, hy, same⟩ := rel_cases h.default <;>
    rw [hx, hy]
  · exact .error _
  · exact .ok same

theorem CasesTied.insert (h : CasesTied T m m') {c c' : CaseTarget} (same : CaseTied T c c') :
    Together Same (fun _ => CasesTied T) U (CaseMap.insert c m) (CaseMap.insert c' m') := by
  rw [CaseMap.insert_eq, CaseMap.insert_eq, ← same.value]
  obtain ⟨hx, hy⟩ | ⟨_, _, hx, hy, -⟩ := rel_cases (h.find? c.value.key) <;>
    rw [hx, hy]
  · exact ⟨U, .refl U, ⟨List.rel_append h.cases (.cons same .nil), h.default⟩, rfl⟩
  · exact .inl rfl

theorem CasesTied.setDefault (h : CasesTied T m m') {c c' : CaseTarget} (same : CaseTied T c c') :
    Together Same (fun _ => CasesTied T) U (CaseMap.setDefault c m) (CaseMap.setDefault c' m') := by
  unfold CaseMap.setDefault
  obtain ⟨hx, hy⟩ | ⟨_, _, hx, hy, -⟩ := rel_cases h.default <;>
    rw [hx, hy]
  · exact ⟨U, .refl U, ⟨h.cases, .some same⟩, rfl⟩
  · exact .inl rfl

theorem CasesTied.addClause (h : CasesTied T m m') (clause : Nat) (hl : T.Joins l l')
    (kind : ClauseKind) :
    Together Same (fun _ => CasesTied T) U (CaseMap.addClause clause l kind m)
      (CaseMap.addClause clause l' kind m') := by
  cases kind with
  | default => exact h.setDefault ⟨hl, rfl, rfl⟩
  | case values =>
    induction values generalizing U m m' with
    | nil => exact ⟨U, .refl U, h, rfl⟩
    | cons value values ih =>
      have same : CaseTied T ⟨l, clause, value⟩ ⟨l', clause, value⟩ := ⟨hl, rfl, rfl⟩
      exact Together.next (h.insert same) fun U _ _ _ _ _ _ _ tied _ => ih tied

theorem buildFrom_agrees : ∀ (clauses : List Clause) {T : Ties} {m m' : CaseMap} (clause : Nat),
    CasesTied T m m' → Draft.Agree T
      (fun U x x' => CasesTied U x.1 x'.1 ∧ List.Forall₂ U.Joins x.2 x'.2)
      (m.buildFrom clause clauses) (m'.buildFrom clause clauses)
  | [], _, _, _, _, h => .pure fun _ later => ⟨h.mono later, .nil⟩
  | .mk kind _ :: rest, T, m, m', clause, h => by
    refine Draft.newLabel_agrees.bind fun U l l' later hl => ?_
    have added := (h.mono later).addClause (U := U) clause hl kind
    generalize CaseMap.addClause clause l kind m = x at added ⊢
    generalize CaseMap.addClause clause l' kind m' = y at added ⊢
    cases x <;> cases y
    case error.error => exact .fail added
    case ok.error | error.ok => exact added.elim
    case ok.ok =>
      obtain ⟨-, -, tied, -⟩ := added
      refine (buildFrom_agrees rest (clause + 1) tied).bind fun X found found' later' both => ?_
      exact .pure fun Y more => ⟨both.1.mono more,
        .cons ((later'.trans more).joins hl) (both.2.imp fun _ _ => more.joins)⟩

end Cases

structure ExitsTied (T : Ties) (x x' : Exits) : Prop where
  next : T.Waits x.next x'.next
  breaks : T.Waits x.breaks x'.breaks
  continues : T.Waits x.continues x'.continues

namespace ExitsTied
variable {T : Ties} {x x' y y' : Exits}

theorem none : ExitsTied T .none .none := ⟨.nil, .nil, .nil⟩

theorem ofNext {p p' : Pending} (h : T.Waits p p') : ExitsTied T (.ofNext p) (.ofNext p') :=
  ⟨h, .nil, .nil⟩

theorem append (hx : ExitsTied T x x') (hy : ExitsTied T y y') :
    ExitsTied T (x ++ y) (x' ++ y') :=
  ⟨hx.next.append hy.next, hx.breaks.append hy.breaks, hx.continues.append hy.continues⟩

theorem mono {U : Ties} (later : T.Later U) (h : ExitsTied T x x') : ExitsTied U x x' :=
  ⟨later.waits h.next, later.waits h.breaks, later.waits h.continues⟩

end ExitsTied

section Around
variable {T : Ties} {V : Ties → α → α' → Prop} {m : LowerM α} {m' : LowerM α'}

theorem inCompound_agrees (mono : ∀ U X a a', U.Later X → V U a a' → V X a a')
    (h : Agree T V m m') : Agree T V (inCompound m) (inCompound m') := by
  have inner (scope scope' : ActiveScope) (same : scope' = scope) : Agree T V
      (withReader (fun env => { env with scopes := env.scopes ++ [scope] }) m >>= fun a =>
        closeScope >>= fun _ => pure a)
      (withReader (fun env => { env with scopes := env.scopes ++ [scope'] }) m' >>= fun a =>
        closeScope >>= fun _ => pure a) := by
    refine (Agree.inside (fun U env env' _ around => ?_) h).bind fun U a a' _ value =>
      (closeScope_mirrored U).seq fun X _ later => .pure fun Y later' =>
        mono U Y a a' (later.trans later') value
    exact { around with scopes := by rw [around.scopes, same] }
  intro U env env' s t later around tied
  have entered : State.Tied U
      { s with compounds := s.compounds + 1, cleanups := s.cleanups.openScope }
      { t with compounds := t.compounds + 1, cleanups := t.cleanups.openScope } :=
    { tied with
      compounds := congrArg (· + 1) tied.compounds
      cleanups := congrArg Cleanups.openScope tied.cleanups }
  exact inner ⟨⟨s.compounds⟩, s.cleanups.depth⟩ ⟨⟨t.compounds⟩, t.cleanups.depth⟩
    (by rw [tied.compounds, tied.cleanups]) U env env' _ _ later around entered

theorem inLoop_agrees (h : Agree T V m m') : Agree T V (inLoop m) (inLoop m') := by
  refine .look fun U s t later tied => ?_
  rw [tied.cleanups]
  refine .inside (fun X env env' _ around => ?_) (h.later later)
  exact { around with breakDepth := rfl, loopDepth := rfl }

theorem inSwitch_agrees {cases cases' : CaseMap} (hc : CasesTied T cases cases')
    (h : Agree T V m m') : Agree T V (inSwitch cases m) (inSwitch cases' m') := by
  refine .look fun U s t later tied => ?_
  rw [tied.cleanups]
  refine .inside (fun X env env' more around => ?_) (h.later later)
  exact { around with
    breakDepth := rfl
    switch := .some ⟨hc.mono (later.trans more), rfl⟩ }

theorem inRegion_agrees {handler handler' : Label} (hl : T.Joins handler handler')
    (h : Agree T V m m') : Agree T V (inRegion handler m) (inRegion handler' m') := by
  refine .look fun U s t later tied => ?_
  rw [tied.cleanups]
  refine .inside (fun X env env' more around => ?_) (h.later later)
  exact { around with region := .some ⟨(later.trans more).joins hl, rfl⟩ }

end Around

section Parts
variable {T : Ties}

theorem inCompound_mirrored {m : LowerM Exits} (h : Mirrored ExitsTied m) :
    Mirrored ExitsTied (inCompound m) :=
  fun T => inCompound_agrees (fun _ _ _ _ => .mono) (h T)

theorem comment_mirrored (name : String) : Mirrored Same (comment name) := by
  intro T U env env' s t _ around tied
  have options := around.options
  change Together Same State.Tied U
    ((if env.options.debugComments then emit (.comment name) else pure ⟨⟩) env s)
    ((if env'.options.debugComments then emit (.comment name) else pure ⟨⟩) env' t)
  cases hx : U.extra with
  | comments returns =>
    rw [hx] at options
    rw [options.2, if_neg Bool.false_ne_true]
    split
    · exact ⟨U, .refl U, { tied with draft := { tied.draft with
        body := tied.draft.body.remark hx name } }, rfl⟩
    · exact ⟨U, .refl U, tied, rfl⟩
  | traces =>
    rw [hx] at options
    rw [options.2.2]
    split
    · exact ⟨U, .refl U, { tied with draft := { tied.draft with
        body := tied.draft.body.comment hx name } }, rfl⟩
    · exact ⟨U, .refl U, tied, rfl⟩

theorem Mirrored.commented {m : LowerM Exits} (h : Mirrored ExitsTied m) (name : String) :
    Mirrored ExitsTied (comment name >>= fun _ => m) :=
  (comment_mirrored name).seq fun _ => h

theorem settle_agrees {x x' : Exits} (h : ExitsTied T x x') :
    Agree T ExitsTied (settle x) (settle x') :=
  (resolveHere_agrees h.next).seq fun _ _ later => .pure fun _ later' =>
    ⟨.nil, (later.trans later').waits h.breaks, (later.trans later').waits h.continues⟩

theorem straight_mirrored {m : LowerM Unit} (h : Mirrored Same m) :
    Mirrored ExitsTied (straight m) :=
  h.seq fun _ => .ret fun _ => .none

theorem jumpOver_mirrored : Mirrored Ties.Waits jumpOver := by
  refine endsInTerminator_mirrored.seq fun ends => ?_
  split
  · exact .ret fun _ => .nil
  · exact pendingJump_mirrored

theorem jumpTo_agrees (h : T.Joins l l') : Agree T Same (jumpTo l) (jumpTo l') :=
  emit_agrees fun _ later => .jump (.some (later.joins h))

theorem place_agrees (h : T.Joins l l') :
    Agree T Same (liftM (Draft.place l) : LowerM Unit) (liftM (Draft.place l')) :=
  .edited (Draft.place_agrees h)

theorem resolveTo_agrees {pending pending' : Pending} (h : T.Waits pending pending')
    (hl : T.Joins l l') : Agree T Same (liftM (Draft.resolveTo pending l) : LowerM Unit)
      (liftM (Draft.resolveTo pending' l')) :=
  .edited (Draft.resolveTo_agrees h hl)

theorem goBack_agrees (h : T.Joins l l') : Agree T Same (goBack l) (goBack l') := by
  refine (endsInTerminator_mirrored T).seq fun U ends later => ?_
  split
  · exact .pure fun _ _ => rfl
  · exact jumpTo_agrees (later.joins h)

theorem loopCondition_mirrored : ∀ e : Option Expr, Mirrored Ties.Waits (loopCondition e)
  | none => .ret fun _ => .nil
  | some e => (condition_mirrored e).bind fun _ _ _ tied => (resolveHere_agrees tied.onTrue).seq
      fun _ _ later => .pure fun _ later' => (later.trans later').waits tied.onFalse

theorem lowerIncrement_mirrored : ∀ e : Option Expr, Mirrored Same (lowerIncrement e)
  | none => .pure _
  | some e => (fullValue_mirrored e).seq fun _ => .pure _

theorem enterHandler_agrees (h : T.Joins l l') : Agree T Same (enterHandler l) (enterHandler l') :=
  (place_agrees h).seq fun U _ _ => (statusSlot_mirrored U).seq fun X _ _ => emit_mirrored rfl X

theorem lowerConstruction_mirrored (v : VariableId) (ctor : FunctionId) (arguments : List Expr) :
    Mirrored Same (lowerConstruction v ctor arguments) := by
  refine (allocate_mirrored v _).seq fun location => ?_
  refine (withTemporaries_mirrored fun T => ?_).seq fun _ => oweDestructor_mirrored _ _
  exact (agree_rules T).initializeAt location ctor arguments

theorem lowerAssignment_mirrored (target value : Expr) :
    Mirrored Same (lowerAssignment target value) :=
  withTemporaries_mirrored <| (address_mirrored target).seq fun _ =>
    (operand_mirrored value).seq fun _ => (storeValue_derives _ _ _).mirrored

theorem returned_mirrored (e : Expr) : Mirrored Carried (returned e) := by
  intro T U env env' s t _ around tied
  have value := value_mirrored e
  rw [returned, read_bind, read_bind, around.result]
  cases hidden : env.result with
  | some slot =>
    have carried : Carried U none none := around.carries_none (.inl (by rw [hidden]; rfl))
    refine Agree.seq ((agree_steps U).requireValue _ (value U)) (fun X operand later => ?_)
      U env env' s t (.refl U) around tied
    refine .ask fun Y env env' later' around => ?_
    rw [around.symbol]
    exact ((storeValue_derives _ _ _).mirrored Y).seq fun _ _ later'' => .pure fun _ last =>
      carried.mono (((later.trans later').trans later'').trans last)
  | none =>
    refine Together.next (value U U env env' s t (.refl U) around tied) ?_
    rintro X found found' s1 t1 - - later tied' rfl
    have around := around.mono later
    change Together Carried State.Tied X ((isVoid env.symbol.returnType >>= _) env s1)
      ((isVoid env'.symbol.returnType >>= _) env' t1)
    rw [around.symbol]
    refine isVoid_together around fun void known => ?_
    cases void with
    | true => exact ⟨X, .refl X, tied', around.carries_none (.inr known)⟩
    | false =>
      cases found with
      | some operand => exact ⟨X, .refl X, tied', around.carries_some hidden known operand⟩
      | none => exact .inl rfl

theorem lowerReturn_mirrored (e : Option Expr) : Mirrored Same (lowerReturn e) := by
  have leaving (T : Ties) (value value' : Option Operand) (h : Carried T value value') :
      Agree T Same (do leaveTo 0; emitReturn value) (do leaveTo 0; emitReturn value') :=
    (leaveTo_mirrored 0 T).seq fun _ _ later => (h.mono later).emitReturn_agrees
  cases e with
  | none => exact defaultReturn_mirrored.bind leaving
  | some e =>
    exact Mirrored.bind (V := Carried) (withTemporaries_kept .mono (returned_mirrored e)) leaving

theorem jumpOut_mirrored {depth? : Env → Option Nat} {missing : Error} {exits : Pending → Exits}
    (same : ∀ T env env', env.Tied T env' → depth? env' = depth? env)
    (tied : ∀ T p p', T.Waits p p' → ExitsTied T (exits p) (exits p')) :
    Mirrored ExitsTied (jumpOut depth? missing exits) := by
  refine .ask fun T env env' around => ?_
  rw [same T env env' around]
  split
  · exact .fail _
  · exact (leaveTo_mirrored _ T).seq fun U _ _ =>
      (pendingJump_mirrored U).bind fun X p p' _ waits =>
      .pure fun Y later => tied Y p p' (later.waits waits)

theorem lowerBreak_mirrored : Mirrored ExitsTied lowerBreak :=
  jumpOut_mirrored (fun _ _ _ around => around.breakDepth) fun _ _ _ waits => ⟨.nil, waits, .nil⟩

theorem lowerContinue_mirrored : Mirrored ExitsTied lowerContinue :=
  jumpOut_mirrored (fun _ _ _ around => around.loopDepth) fun _ _ _ waits => ⟨.nil, .nil, waits⟩

theorem setGotos_agrees (h : g.Tied T g') :
    Agree T Same (modify fun s => { s with gotos := g } : LowerM PUnit)
      (modify fun s => { s with gotos := g' }) :=
  .modify fun _ _ _ later tied => { tied with gotos := h.mono later }

theorem lowerGoto_mirrored (label : String) : Mirrored Same (lowerGoto label) := by
  refine .ask fun T env env' around => ?_
  rw [around.labels]
  refine (Agree.answered _).seq fun U ids _ => .ask fun U env env' _ around => ?_
  rw [around.scopes]
  refine (leaveTo_mirrored _ U).seq fun U _ _ => .look fun U s t _ tied => ?_
  obtain ⟨hx, hy⟩ | ⟨_, _, hx, hy, hl⟩ := rel_cases (lookup_tied tied.gotos.placed label) <;>
    rw [hx, hy]
  · refine (pendingJump_mirrored U).bind fun X j j' later waits => setGotos_agrees ?_
    have h := tied.gotos.mono later
    exact ⟨h.placed, List.rel_append (h.withoutPending label)
      (.cons ⟨rfl, (h.waiting label).append waits⟩ .nil)⟩
  · exact jumpTo_agrees hl

theorem placeName_mirrored (name : String) : Mirrored Ties.Joins (placeName name) := by
  refine .look fun T s t tied => ?_
  have known : (t.gotos.placed.lookup name).isSome = (s.gotos.placed.lookup name).isSome := by
    obtain ⟨hx, hy⟩ | ⟨_, _, hx, hy, -⟩ := rel_cases (lookup_tied tied.gotos.placed name) <;>
      rw [hx, hy]
    rfl
  rw [known]
  split
  · exact .fail _
  · refine (hereLabel_mirrored T).bind fun U l l' later hl => ?_
    have h := tied.gotos.mono later
    refine (resolveTo_agrees (h.waiting name) hl).seq fun X _ later => ?_
    have h := h.mono later
    have hl := later.joins hl
    have placed : (s.gotos.place name l).Tied X (t.gotos.place name l') :=
      ⟨.cons ⟨rfl, hl⟩ h.placed, h.withoutPending name⟩
    exact (setGotos_agrees placed).seq fun Y _ later => .pure fun Z more =>
      (later.trans more).joins hl

theorem lowerGotoCase_mirrored {find : CaseMap → Except Error CaseTarget}
    (h : ∀ T m m', CasesTied T m m' → Answers (CaseTied T) (find m) (find m')) :
    Mirrored Same (lowerGotoCase find) := by
  refine .ask fun T env env' around => ?_
  obtain ⟨hx, hy⟩ | ⟨a, b, hx, hy, tied, depth⟩ := rel_cases around.switch
  · rw [hx, hy]
    exact .fail _
  · rw [hx, hy]
    have found := h T a.cases b.cases tied
    dsimp only
    rw [← depth]
    generalize find a.cases = x at found ⊢
    generalize find b.cases = y at found ⊢
    cases found with
    | error e => exact .fail e
    | @ok c c' same =>
      exact (leaveTo_mirrored a.depth T).seq fun U _ later => jumpTo_agrees (later.joins same.label)

theorem lowerDestruction_mirrored (object : Expr) (destructor : FunctionId) :
    Mirrored Same (lowerDestruction object destructor) := by
  refine withTemporaries_mirrored ((address_mirrored object).seq fun _ =>
    (emitDestructor_mirrored _).seq fun raises => ?_)
  split
  · exact testStatus_mirrored 0
  · exact .pure _

theorem lowerThrow_mirrored (e : Expr) : Mirrored Same (lowerThrow e) :=
  (fullOperand_mirrored e).seq fun _ => (exceptionCode_derives _).mirrored.seq fun _ =>
    statusSlot_mirrored.seq fun _ => (emit_mirrored rfl).seq fun _ =>
      (notePad_mirrored 0).bind fun _ _ _ h => jumpTo_agrees h

theorem build_mirrored (clauses : List Clause) :
    Mirrored (fun T x x' => CasesTied T x.1 x'.1 ∧ List.Forall₂ T.Joins x.2 x'.2)
      (liftM (CaseMap.build clauses) : LowerM (CaseMap × List Label)) :=
  .edited fun _ => buildFrom_agrees clauses 0 ⟨.nil, .none⟩

theorem chooseCase_agrees (e : Expr) {cases cases' : CaseMap} (h : CasesTied T cases cases') :
    Agree T Ties.Joins (chooseCase e cases) (chooseCase e cases') := by
  have operands : Agree T (fun U x x' => x.1 = x'.1 ∧ x.2.1 = x'.2.1 ∧ U.Joins x.2.2 x'.2.2)
      (switchOn e) (switchOn e) :=
    (fullOperand_mirrored e T).seq fun U value _ =>
      ((codeType_derives e.ty).mirrored U).seq fun X ty _ =>
      (newLabel_mirrored X).bind fun Y l l' _ hl => .pure fun Z later => ⟨rfl, rfl, later.joins hl⟩
  refine operands.bind fun U x x' later same => ?_
  obtain ⟨value, ty, past⟩ := x
  obtain ⟨value', ty', past'⟩ := x'
  obtain ⟨rfl, rfl, hl⟩ := same
  refine (emit_agrees fun X later' => ?_).seq fun X _ later' => .pure fun Y more =>
    (later'.trans more).joins hl
  have tied := h.mono (later.trans later')
  refine .switch value ?_ ?_
  · rw [List.forall₂_map_left_iff, List.forall₂_map_right_iff]
    exact tied.cases.imp fun c c' same => ⟨by rw [same.value], same.label⟩
  · obtain ⟨hx, hy⟩ | ⟨a, b, hx, hy, same⟩ := rel_cases tied.default
    · rw [hx, hy]
      exact later'.joins hl
    · rw [hx, hy]
      exact same.label

end Parts

section Statements
variable {then_ else_ body init handler : LowerM Exits}

theorem lowerIf_mirrored (e : Expr) (h : Mirrored ExitsTied then_) :
    Mirrored ExitsTied (lowerIf e then_) := by
  refine (condition_mirrored e).bind fun T c c' tied => (resolveHere_agrees tied.onTrue).seq
    fun U _ later => (h U).bind fun X x x' later' exits => .pure fun Y more => ?_
  have all := (later.trans later').trans more
  exact (exits.mono more).append (.ofNext (all.waits tied.onFalse))

theorem lowerIfElse_mirrored (e : Expr) (ht : Mirrored ExitsTied then_)
    (he : Mirrored ExitsTied else_) :
    Mirrored ExitsTied (lowerIfElse e then_ else_) := by
  refine (condition_mirrored e).bind fun T c c' tied => (resolveHere_agrees tied.onTrue).seq
    fun U _ l1 => (ht U).bind fun X left left' l2 hleft => (jumpOver_mirrored X).bind
    fun Y past past' l3 hpast => ?_
  refine (resolveHere_agrees ((l1.trans (l2.trans l3)).waits tied.onFalse)).seq fun Z _ l4 =>
    (he Z).bind fun W right right' l5 hright => .pure fun O l6 => ?_
  have last := l4.trans (l5.trans l6)
  exact ((hleft.mono (l3.trans last)).append (.ofNext (last.waits hpast))).append (hright.mono l6)

theorem lowerWhile_mirrored (e : Expr) (h : Mirrored ExitsTied body) :
    Mirrored ExitsTied (lowerWhile e body) := by
  unfold lowerWhile
  refine hereLabel_mirrored.bind fun T head head' hl => (condition_mirrored e T).bind
    fun U c c' l1 tied => (resolveHere_agrees tied.onTrue).seq fun X _ l2 =>
    (inLoop_agrees (h X)).bind fun Y x x' l3 exits => ?_
  have hl := (l1.trans (l2.trans l3)).joins hl
  refine (resolveTo_agrees (exits.next.append exits.continues) hl).seq fun Z _ l4 =>
    (goBack_agrees (l4.joins hl)).seq fun W _ l5 => .pure fun O l6 => .ofNext ?_
  have last := l4.trans (l5.trans l6)
  exact (((l2.trans l3).trans last).waits tied.onFalse).append (last.waits exits.breaks)

theorem lowerDoWhile_mirrored (e : Expr) (h : Mirrored ExitsTied body) :
    Mirrored ExitsTied (lowerDoWhile body e) := by
  refine hereLabel_mirrored.bind fun T top top' hl => (inLoop_agrees (h T)).bind
    fun U x x' l1 exits => (resolveHere_agrees (exits.next.append exits.continues)).seq
    fun X _ l2 => (condition_mirrored e X).bind fun Y c c' l3 tied => ?_
  have hl := (l1.trans (l2.trans l3)).joins hl
  refine (resolveTo_agrees tied.onTrue hl).seq fun Z _ l4 => .pure fun W l5 => .ofNext ?_
  have last := l4.trans l5
  exact (last.waits tied.onFalse).append (((l2.trans l3).trans last).waits exits.breaks)

theorem lowerFor_mirrored (e increment : Option Expr) (hi : Mirrored ExitsTied init)
    (hb : Mirrored ExitsTied body) : Mirrored ExitsTied (lowerFor init e increment body) := by
  refine withTemporaries_kept ExitsTied.mono <| hi.bind fun T x x' first =>
    (settle_agrees first).bind
    fun U before before' l1 hbefore => (hereLabel_mirrored U).bind fun X head head' l2 hl =>
    (loopCondition_mirrored e X).bind fun Y leave leave' l3 waits => (inLoop_agrees (hb Y)).bind
    fun Z x x' l4 exits => (resolveHere_agrees (exits.next.append exits.continues)).seq
    fun W _ l5 => (lowerIncrement_mirrored increment W).seq fun O _ l6 => ?_
  have after := l4.trans (l5.trans l6)
  refine (jumpTo_agrees ((l3.trans after).joins hl)).seq fun Q _ l7 => ?_
  have out := (after.trans l7).waits waits
  have breaks := ((l5.trans l6).trans l7).waits exits.breaks
  refine (resolveHere_agrees (out.append breaks)).seq fun A _ l8 => .pure fun B l9 => ?_
  have last := l7.trans (l8.trans l9)
  exact hbefore.mono ((l2.trans l3).trans (after.trans last))

theorem lowerSwitch_mirrored (e : Expr) (clauses : List Clause) {body : List Label → LowerM Exits}
    (h : ∀ T ls ls', List.Forall₂ T.Joins ls ls' → Agree T ExitsTied (body ls) (body ls')) :
    Mirrored ExitsTied (lowerSwitch e clauses body) := by
  unfold lowerSwitch
  refine (build_mirrored clauses).bind fun T found found' both => (chooseCase_agrees e both.1).bind
    fun U past past' l1 hl => ?_
  have labels := both.2.imp fun _ _ => l1.joins
  refine (inSwitch_agrees (both.1.mono l1) (h U _ _ labels)).bind fun X x x' l2 exits => ?_
  refine (place_agrees (l2.joins hl)).seq fun Y _ l3 => .pure fun Z l4 => ?_
  have last := l3.trans l4
  exact ⟨last.waits exits.breaks, .nil, last.waits exits.continues⟩

theorem lowerTry_mirrored (hb : Mirrored ExitsTied body) (hh : Mirrored ExitsTied handler) :
    Mirrored ExitsTied (lowerTry body handler) := by
  unfold lowerTry
  refine newLabel_mirrored.bind fun T l l' hl => (inRegion_agrees hl (hb T)).bind
    fun U left left' l1 hleft => (jumpOver_mirrored U).bind fun X past past' l2 hpast =>
    (enterHandler_agrees ((l1.trans l2).joins hl)).seq fun Y _ l3 => (hh Y).bind
    fun Z right right' l4 hright => .pure fun W l5 => ?_
  have last := l3.trans (l4.trans l5)
  exact ((hleft.mono (l2.trans last)).append (hright.mono l5)).append
    (.ofNext (last.waits hpast))

mutual
theorem lowerStmt_mirrored : ∀ s : Stmt, Mirrored ExitsTied (lowerStmt s)
  | .compound body => (inCompound_mirrored (lowerStmts_mirrored body)).commented _
  | .expression e => (straight_mirrored fun T => (fullValue_mirrored e T).discarded).commented _
  | .construction v ctor arguments =>
    (straight_mirrored (lowerConstruction_mirrored v ctor arguments)).commented _
  | .assignment target value =>
    (straight_mirrored (lowerAssignment_mirrored target value)).commented _
  | .ifElse e then_ none => (lowerIf_mirrored e (lowerStmt_mirrored then_)).commented _
  | .ifElse e then_ (some else_) =>
    (lowerIfElse_mirrored e (lowerStmt_mirrored then_) (lowerStmt_mirrored else_)).commented _
  | .whileLoop e body => (lowerWhile_mirrored e (lowerStmt_mirrored body)).commented _
  | .doWhile body e => (lowerDoWhile_mirrored e (lowerStmt_mirrored body)).commented _
  | .forLoop none e increment body =>
    (lowerFor_mirrored e increment (.ret fun _ => .none) (lowerStmt_mirrored body)).commented _
  | .forLoop (some init) e increment body =>
    (lowerFor_mirrored e increment (lowerStmt_mirrored init) (lowerStmt_mirrored body)).commented _
  | .switch e clauses => (lowerSwitch_mirrored e clauses (lowerClauses_agrees clauses)).commented _
  | .return_ e => (straight_mirrored (lowerReturn_mirrored e)).commented _
  | .break_ => lowerBreak_mirrored.commented _
  | .continue_ => lowerContinue_mirrored.commented _
  | .labeled label statement =>
    ((placeName_mirrored label).bind fun T _ _ _ => lowerStmt_mirrored statement T).commented _
  | .goto label => (straight_mirrored (lowerGoto_mirrored label)).commented _
  | .gotoCase value =>
    (straight_mirrored (lowerGotoCase_mirrored fun _ _ _ h => h.get value)).commented _
  | .gotoDefault =>
    (straight_mirrored (lowerGotoCase_mirrored fun _ _ _ h => h.requireDefault)).commented _
  | .destruction object destructor =>
    (straight_mirrored (lowerDestruction_mirrored object destructor)).commented _
  | .try_ body handler => (lowerTry_mirrored (inCompound_mirrored (lowerStmts_mirrored body))
      (inCompound_mirrored (lowerStmts_mirrored handler))).commented _
  | .throw_ e => (straight_mirrored (lowerThrow_mirrored e)).commented _
  | .empty => Mirrored.commented (.ret fun _ => .none) _
theorem lowerStmts_mirrored : ∀ body : List Stmt, Mirrored ExitsTied (lowerStmts body)
  | [] => .ret fun _ => .none
  | s :: rest => by
    refine (lowerStmt_mirrored s).bind fun T x x' exits => (settle_agrees exits).bind
      fun U first first' _ hfirst => (lowerStmts_mirrored rest U).bind fun X y y' later hy =>
      .pure fun Y more => (hfirst.mono (later.trans more)).append (hy.mono more)
theorem lowerClauses_agrees : ∀ (clauses : List Clause) (T : Ties) (ls ls' : List Label),
    List.Forall₂ T.Joins ls ls' →
      Agree T ExitsTied (lowerClauses clauses ls) (lowerClauses clauses ls')
  | [], _, _, _, _ => .pure fun _ _ => .none
  | .mk _ _ :: _, _, _, _, .nil => by
    rw [lowerClauses]
    · exact .pure fun _ _ => .none
    · simp
  | .mk _ body :: rest, T, l :: ls, l' :: ls', .cons hl labels => by
    refine (place_agrees hl).seq fun U _ l1 =>
      (inCompound_mirrored (lowerStmts_mirrored body) U).bind
      fun X first first' l2 hfirst => ?_
    refine (lowerClauses_agrees rest X ls ls' (labels.imp fun _ _ => (l1.trans l2).joins)).bind
      fun Y y y' l3 hy => .pure fun Z l4 => (hfirst.mono (l3.trans l4)).append (hy.mono l4)
end

end Statements
end Lower
end FlatCode
