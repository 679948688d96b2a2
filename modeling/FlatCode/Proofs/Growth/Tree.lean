import FlatCode.Ast.Walk
import FlatCode.Proofs.Growth.Trace
import FlatCode.Proofs.Plans

/-! The small edits of the steps that follow the tree. -/
namespace FlatCode
open List

/-- The variables that a statement builds in the scope around it, the last one first. -/
def Ast.Stmt.exposed : Stmt → List VariableId
  | .construction v _ _ => [v]
  | .labeled _ s => s.exposed
  | .ifElse _ then_ none => then_.exposed
  | .ifElse _ then_ (some else_) => else_.exposed ++ then_.exposed
  | .whileLoop _ body => body.exposed
  | .doWhile body _ => body.exposed
  | _ => []

namespace Lower
open Code Symbols Ast
variable {may : Effect → Prop} {value : LowerM (Option Operand)}

theorem traced_steps (may : Effect → Prop) : Steps fun m => Traced may m where
  bind := .bind
  derives h := h.straight.traced

theorem splice_traced (pending : Pending) (owed : List Obligation) :
    Traced may (splice pending owed) := by
  unfold splice
  split
  · exact .pure _
  · exact (resolveHere_traced _).bind fun _ => (emitCleanups_traced owed 0).bind fun _ =>
      pendingJump_traced

section Conditions
variable {jump lhs rhs : LowerM Branches}

theorem fullJump_traced (h : Traced (owing may) jump) : Traced may (fullJump jump) := by
  intro env s
  refine .look (Ends.known (t := s.inScope) rfl ?_)
  refine (h env s.inScope).seq fun b t ht => .look ?_
  -- whatever is written on the ways out, the scope is dropped last
  have closed {u : State} (hu : t.Trace env.symbols (owing may) u) (b : Branches) :
      Ensures (fun _ v => s.Trace env.symbols may v)
        ((do dropScope; pure b : LowerM Branches) env u) := by
    refine (dropScope_ends (ht.trans hu).grows).seq ?_
    rintro _ _ rfl
    exact .ret (.scope (ht.trans hu))
  cases t.cleanups.pendingFrom s.cleanups.depth with
  | nil => exact closed (.refl t) _
  | cons o owed =>
    have spliced (pending : Pending) : Traced (owing may) (splice pending (o :: owed)) :=
      splice_traced pending _
    refine (spliced b.onTrue env t).seq fun _ u hu => ?_
    exact (spliced b.onFalse env u).seq fun _ v hv => closed (hu.trans hv) _

theorem connective_traced (x : Bool) (hl : Traced (owing may) lhs) (hr : Traced (owing may) rhs) :
    Traced may (connective x lhs rhs) := by
  refine (fullJump_traced hl).bind fun left => ?_
  split
  · exact .pure _
  · exact (resolveHere_traced _).bind fun _ => (fullJump_traced hr).bind fun _ => .pure _

theorem trueSide_traced (b : Branches) (r : Register) : Traced may (trueSide b r) := by
  unfold trueSide
  split
  · exact .pure _
  · refine (resolveHere_traced _).bind fun _ => (emit_traced rfl).bind fun _ => ?_
    split
    · exact .pure _
    · exact pendingJump_traced

theorem falseSide_traced (b : Branches) (r : Register) : Traced may (falseSide b r) := by
  unfold falseSide
  split
  · exact .pure _
  · exact (resolveHere_traced _).bind fun _ => emit_traced rfl

theorem materialize_traced (h : Traced may jump) : Traced may (materialize jump) := by
  unfold materialize
  exact h.bind fun b => (newRegister_traced _).bind fun r => (trueSide_traced b r).bind fun _ =>
    (falseSide_traced b r).bind fun _ => (resolveHere_traced _).bind fun _ => .pure _

theorem jumpOn_traced (e : Expr) (h : Traced may value) : Traced may (jumpOn e value) := by
  refine symbols_straight.traced.bind fun table => ?_
  split
  · exact pendingJump_traced.bind fun _ => .pure _
  · exact ((traced_steps may).requireValue _ h).bind fun _ =>
      (Traced.edited (Draft.emit_traced rfl)).bind
      fun _ => .pure _

end Conditions

theorem traced_rules (may : Effect → Prop) :
    Rules (fun m => Traced (owing may) m) (Traced (owing may)) fun _ => True where
  toSteps := traced_steps _
  register := newRegister_traced
  slot ty := StraightLine.traced (.allocSlot ty)
  place v role := (allocate_straight v role).traced
  status := statusSlot_straight.traced
  function h := (functionSymbol_straight _).traced.bind fun symbol => h symbol trivial
  indirect _ := trivial
  invoke _ _ _ := emit_traced rfl
  test := testStatus_traced 0
  debt := oweDestructor_traced
  negation := (functionSymbol_straight _).traced.bind
  swap h := h.bind fun _ => .pure _
  jumpOn e _ h := jumpOn_traced e h
  connective x _ _ hl hr := (connective_traced x hl hr).weaken
  materialize := materialize_traced

/-- All three ways of lowering an expression are made of small edits. -/
theorem plan_traced (e : Expr) :
    (plan e).Obeys (fun m => Traced (owing may) m) (Traced (owing may)) :=
  (traced_rules may).plan e

theorem operand_traced (e : Expr) : Traced (owing may) (plan e).operand :=
  (traced_rules may).operand (plan_traced e)

theorem fullValue_traced (e : Expr) : Traced may (fullValue e) :=
  withTemporaries_traced (plan_traced e).value

theorem fullOperand_traced (e : Expr) : Traced may (fullOperand e) :=
  withTemporaries_traced (operand_traced e)

theorem condition_traced (e : Expr) : Traced may (condition e) :=
  fullJump_traced (plan_traced e).jump

theorem CaseMap.buildFrom_traced : ∀ (clauses : List Clause) (m : CaseMap) (clause : Nat),
    Draft.Traced (m.buildFrom clause clauses)
  | [], _, _ => .pure _
  | .mk kind _ :: rest, m, clause => by
    refine Draft.newLabel_traced.bind fun label => ?_
    split
    · exact .fail _
    · exact (buildFrom_traced rest _ _).bind fun _ => .pure _

section Statements
variable {m n : LowerM Exits}

theorem settle_traced (x : Exits) : Traced may (settle x) :=
  (resolveHere_traced _).bind fun _ => .pure _

theorem inCompound_traced {m : LowerM α} (enters : may .compound) (h : Traced (owing may) m) :
    Traced may (inCompound m) := by
  intro env s
  have entered : s.Trace env.symbols may { s with compounds := s.compounds + 1 } :=
    .compound s enters
  refine .look (Ends.seq
    (P := fun _ t => t = State.inScope { s with compounds := s.compounds + 1 }) rfl ?_)
  rintro _ _ rfl
  refine .seq (Ends.inside (h _ _)) fun a t ht => ?_
  refine (closeScope_ends (c := s.cleanups) ht.grows).seq ?_
  rintro _ _ ⟨v, hv, rfl⟩
  exact .ret (entered.trans (.scope (ht.trans (hv.mono fun _ => False.elim))))

theorem inSwitch_traced (cases : CaseMap) (h : Traced may m) : Traced may (inSwitch cases m) :=
  .look fun _ => h.inside fun _ => rfl

theorem inRegion_traced (handler : Label) (h : Traced may m) : Traced may (inRegion handler m) :=
  .look fun _ => h.inside fun _ => rfl

theorem jumpOver_traced : Traced may jumpOver := by
  refine endsInTerminator_traced.bind fun ends => ?_
  split
  · exact .pure _
  · exact pendingJump_traced

theorem jumpTo_traced (l : Label) : Traced may (jumpTo l) := emit_traced rfl

theorem goBack_traced (head : Label) : Traced may (goBack head) := by
  refine endsInTerminator_traced.bind fun ends => ?_
  split
  · exact .pure _
  · exact jumpTo_traced head

theorem place_traced (l : Label) : Traced may (liftM (Draft.place l) : LowerM Unit) :=
  .edited (Draft.place_traced l)

theorem hereLabel_traced : Traced may (liftM Draft.hereLabel : LowerM Label) :=
  .edited Draft.hereLabel_traced

theorem newLabel_traced : Traced may (liftM Draft.newLabel : LowerM Label) :=
  .edited Draft.newLabel_traced

theorem resolveTo_traced (pending : Pending) (l : Label) :
    Traced may (liftM (Draft.resolveTo pending l) : LowerM Unit) :=
  .edited (Draft.resolveTo_traced pending l)

theorem lowerConstruction_traced (v : VariableId) (ctor : FunctionId) (arguments : List Expr) :
    Traced (owing may) (lowerConstruction v ctor arguments) :=
  (allocate_straight v _).traced.bind fun location =>
    (withTemporaries_traced ((traced_rules _).initializeAt location ctor arguments)).bind fun _ =>
      oweDestructor_traced _ _

theorem lowerAssignment_traced (target value : Expr) : Traced may (lowerAssignment target value) :=
  withTemporaries_traced <| (plan_traced target).address.bind fun _ =>
    (operand_traced value).bind fun _ => (storeValue_derives _ _ _).straight.traced

theorem lowerIf_traced (e : Expr) (h : Traced may m) : Traced may (lowerIf e m) :=
  (condition_traced e).bind fun _ => (resolveHere_traced _).bind fun _ => h.bind fun _ => .pure _

theorem lowerIfElse_traced (e : Expr) (hm : Traced may m) (hn : Traced may n) :
    Traced may (lowerIfElse e m n) :=
  (condition_traced e).bind fun _ => (resolveHere_traced _).bind fun _ => hm.bind fun _ =>
    jumpOver_traced.bind fun _ => (resolveHere_traced _).bind fun _ => hn.bind fun _ => .pure _

theorem lowerWhile_traced (e : Expr) (h : Traced may m) : Traced may (lowerWhile e m) := by
  unfold lowerWhile
  exact hereLabel_traced.bind fun _ => (condition_traced e).bind fun _ =>
    (resolveHere_traced _).bind fun _ => h.inLoop.bind fun _ => (resolveTo_traced _ _).bind fun _ =>
      (goBack_traced _).bind fun _ => .pure _

theorem lowerDoWhile_traced (e : Expr) (h : Traced may m) : Traced may (lowerDoWhile m e) :=
  hereLabel_traced.bind fun _ => h.inLoop.bind fun _ => (resolveHere_traced _).bind
    fun _ => (condition_traced e).bind fun _ => (resolveTo_traced _ _).bind fun _ => .pure _

theorem loopCondition_traced : ∀ e : Option Expr, Traced may (loopCondition e)
  | none => .pure _
  | some e => (condition_traced e).bind fun _ => (resolveHere_traced _).bind fun _ => .pure _

theorem lowerIncrement_traced : ∀ e : Option Expr, Traced may (lowerIncrement e)
  | none => .pure _
  | some e => (fullValue_traced e).bind fun _ => .pure _

theorem lowerFor_traced (e increment : Option Expr) (hm : Traced (owing may) m)
    (hn : Traced (owing may) n) : Traced may (lowerFor m e increment n) :=
  withTemporaries_traced <| hm.bind fun x => (settle_traced x).bind fun _ =>
    hereLabel_traced.bind fun _ => (loopCondition_traced e).bind fun _ => hn.inLoop.bind fun _ =>
      (resolveHere_traced _).bind fun _ => (lowerIncrement_traced increment).bind fun _ =>
        (jumpTo_traced _).bind fun _ => (resolveHere_traced _).bind fun _ => .pure _

theorem switchOn_traced (e : Expr) : Traced may (switchOn e) :=
  (fullOperand_traced e).bind fun _ => (codeType_derives _).straight.traced.bind fun _ =>
    newLabel_traced.bind fun _ => .pure _

theorem switchOn_type (e : Expr) (env : Env) (s : State) :
    Ensures (fun on _ => env.symbols.codeType e.ty = .ok on.2.1)
      (switchOn e env s) := by
  refine (Ends.any _).seq fun value t _ => ?_
  refine .seq (P := fun ty _ => env.symbols.codeType e.ty = .ok ty) ?_ fun ty u typed => ?_
  · exact .table (Ends.answered (fun _ h => h) fun _ _ => trivial)
  · exact (Ends.any _).seq fun past v _ => .ret typed

theorem chooseCase_traced {e : Expr} {clauses : List Clause} {cases : CaseMap} {labels : List Label}
    {d d' : Draft} (h : may (.choose e clauses))
    (built : CaseMap.build clauses d = .ok (cases, labels) d') :
    Traced may (chooseCase e cases) := by
  intro env s
  have on : Traced may (switchOn e) := switchOn_traced e
  refine ((on env s).and (switchOn_type e env s)).seq ?_
  rintro ⟨value, ty, past⟩ t ⟨trace, typed⟩
  exact trace.trans (.choose t h built typed value past)

theorem CaseMap.buildFrom_length :
    ∀ (clauses : List Clause) (m : CaseMap) (clause : Nat) (d : Draft),
    Ensures (fun found _ => found.2.length = clauses.length)
      (m.buildFrom clause clauses d)
  | [], _, _, _ => rfl
  | .mk kind _ :: rest, m, clause, d => by
    refine (Ends.any _).next fun label d' _ => ?_
    cases CaseMap.addClause clause label kind m with
    | error e m' => trivial
    | ok _ m' => exact (buildFrom_length rest m' _ d').next fun found _ h => congrArg (· + 1) h

theorem build_traced (clauses : List Clause) :
    Traced may (liftM (CaseMap.build clauses) : LowerM (CaseMap × List Label)) :=
  .edited (CaseMap.buildFrom_traced clauses .empty 0)

theorem build_found (clauses : List Clause) (env : Env) (s : State) :
    Ensures (fun found _ => found.2.length = clauses.length ∧
      ∃ d d', CaseMap.build clauses d = .ok found d')
      ((liftM (CaseMap.build clauses) : LowerM (CaseMap × List Label)) env s) :=
  Ends.edited ((CaseMap.buildFrom_length clauses .empty 0 s.draft).recorded.mono
    fun _ d' ⟨length, run⟩ => ⟨length, s.draft, d', run⟩)

theorem lowerSwitch_traced {e : Expr} {clauses : List Clause} {body : List Label → LowerM Exits}
    (h : may (.choose e clauses)) (hb : ∀ labels, Traced may (body labels)) :
    Traced may (lowerSwitch e clauses body) := by
  unfold lowerSwitch
  intro env s
  have build : Traced may (liftM (CaseMap.build clauses) : LowerM (CaseMap × List Label)) :=
    build_traced clauses
  refine ((build env s).and (build_found clauses env s)).seq ?_
  rintro ⟨cases, labels⟩ t ⟨trace, -, d, d', run⟩
  refine Ends.mono ?_ fun _ _ later => trace.trans later
  exact ((chooseCase_traced h run).bind fun past => (inSwitch_traced cases (hb labels)).bind
    fun exits => (place_traced past).bind fun _ => .pure _) env t

theorem returned_traced (e : Expr) : Traced (owing may) (returned e) := by
  refine .ask fun env => ?_
  split
  · exact ((traced_steps _).requireValue _ (plan_traced e).value).bind fun _ => .ask fun _ =>
      (storeValue_derives _ _ _).straight.traced.bind fun _ => .pure _
  · refine (plan_traced e).value.bind fun value => .ask fun _ =>
      (isVoid_derives _).straight.traced.bind fun void => ?_
    split
    · exact .pure _
    · exact ((traced_steps _).requireValue _ (.pure _)).bind fun _ => .pure _

theorem lowerReturn_traced (e : Option Expr) : Traced may (lowerReturn e) := by
  have leaving (value : Option Operand) : Traced may (do leaveTo 0; emitReturn value) :=
    (leaveTo_traced 0).bind fun _ => emitReturn_traced value
  cases e with
  | none => exact defaultReturn_straight.traced.bind leaving
  | some e => exact (withTemporaries_traced (returned_traced e)).bind leaving

theorem jumpOut_traced (depth? : Env → Option Nat) (missing : Error) (exits : Pending → Exits) :
    Traced may (jumpOut depth? missing exits) := by
  refine .ask fun env => ?_
  split
  · exact .fail _
  · exact (leaveTo_traced _).bind fun _ => pendingJump_traced.bind fun _ => .pure _

theorem setGotos_traced (named : may .name) (g : Gotos) :
    Traced may (modify fun s => { s with gotos := g } : LowerM PUnit) :=
  fun _ s => .put (.name s g named)

theorem lowerGoto_traced (named : may .name) (label : String) : Traced may (lowerGoto label) := by
  refine .ask fun env => (Passes.answered _).bind fun ids => .ask fun env =>
    (leaveTo_traced _).bind fun _ => .look fun s => ?_
  split
  · exact jumpTo_traced _
  · exact pendingJump_traced.bind fun _ => setGotos_traced named _

theorem placeName_traced (named : may .name) (name : String) : Traced may (placeName name) := by
  refine .look fun s => ?_
  split
  · exact .fail _
  · exact hereLabel_traced.bind fun l => (resolveTo_traced _ l).bind fun _ =>
      (setGotos_traced named _).bind fun _ => .pure _

theorem lowerGotoCase_traced (find : CaseMap → Except Error CaseTarget) :
    Traced may (lowerGotoCase find) := by
  refine .ask fun env => ?_
  split
  · exact .fail _
  · exact (Passes.answered _).bind fun _ => (leaveTo_traced _).bind fun _ => jumpTo_traced _

theorem lowerDestruction_traced (object : Expr) (destructor : FunctionId) :
    Traced may (lowerDestruction object destructor) := by
  refine withTemporaries_traced ((plan_traced object).address.bind fun _ =>
    (emitDestructor_traced _).bind fun raises => ?_)
  split
  · exact testStatus_traced 0
  · exact .pure _

theorem enterHandler_traced (handler : Label) : Traced may (enterHandler handler) :=
  (place_traced _).bind fun _ => statusSlot_straight.traced.bind fun _ => emit_traced rfl

theorem lowerTry_traced (hm : Traced may m) (hn : Traced may n) : Traced may (lowerTry m n) := by
  unfold lowerTry
  exact newLabel_traced.bind fun _ => (inRegion_traced _ hm).bind fun _ => jumpOver_traced.bind
    fun _ => (enterHandler_traced _).bind fun _ => hn.bind fun _ => .pure _

theorem lowerThrow_traced (e : Expr) : Traced may (lowerThrow e) :=
  (fullOperand_traced e).bind fun _ => (exceptionCode_derives _).straight.traced.bind fun _ =>
    statusSlot_straight.traced.bind fun _ => (emit_traced rfl).bind fun _ =>
      (notePad_traced 0).bind fun _ => jumpTo_traced _

theorem comment_traced (remarks : may .comment) (name : String) : Traced may (comment name) := by
  refine .ask fun env => ?_
  split
  · exact fun _ s => State.Trace.comment s name remarks
  · exact .pure _

theorem straight_traced {m : LowerM Unit} (h : Traced may m) : Traced may (straight m) :=
  h.bind fun _ => .pure _

end Statements

structure Allows (may : Effect → Prop) (visits : List Visit) : Prop where
  name : may .name
  compound : may .compound
  comment : may .comment
  choose : ∀ depth e clauses, (depth, .stmt (.switch e clauses)) ∈ visits → may (.choose e clauses)

namespace Allows
variable {visits more : List Visit}

theorem all (visits : List Visit) : Allows (fun _ => True) visits :=
  ⟨trivial, trivial, trivial, fun _ _ _ _ => trivial⟩

theorem of_cons {visit : Visit} (h : Allows may (visit :: visits)) : Allows may visits :=
  ⟨h.name, h.compound, h.comment, fun _ _ _ mem => h.choose _ _ _ (mem_cons_of_mem _ mem)⟩

theorem left (h : Allows may (visits ++ more)) : Allows may visits :=
  ⟨h.name, h.compound, h.comment, fun _ _ _ mem => h.choose _ _ _ (mem_append_left _ mem)⟩

theorem right (h : Allows may (visits ++ more)) : Allows may more :=
  ⟨h.name, h.compound, h.comment, fun _ _ _ mem => h.choose _ _ _ (mem_append_right _ mem)⟩

theorem weaken (h : Allows may visits) : Allows (owing may) visits :=
  ⟨.inr h.name, .inr h.compound, .inr h.comment, fun _ _ _ mem => .inr (h.choose _ _ _ mem)⟩

theorem commented (h : Allows may visits) (name : String) {m : LowerM α} (hm : Traced may m) :
    Traced may (Lower.comment name >>= fun _ => m) :=
  (comment_traced h.comment name).bind fun _ => hm

end Allows

-- a list of statements has a scope of its own around it, a single statement may have none
mutual
theorem lowerStmt_traced : ∀ (s : Stmt) (depth : Nat) {may : Effect → Prop},
    Allows may (s.walk depth) → s.exposed = [] ∨ may .owe → Traced may (lowerStmt s)
  | .compound body, _, _, h, _ =>
    h.commented _ (inCompound_traced h.compound (lowerStmts_traced body _ h.of_cons.of_cons))
  | .expression e, _, _, h, _ => h.commented _ (straight_traced (fullValue_traced e).discarded)
  | .construction v ctor arguments, _, _, h, owes => by
    refine h.commented _ (straight_traced (Traced.strengthen ?_ (owes.resolve_left (by nofun))))
    exact lowerConstruction_traced v ctor arguments
  | .assignment target value, _, _, h, _ =>
    h.commented _ (straight_traced (lowerAssignment_traced _ _))
  | .ifElse e then_ none, _, _, h, owes =>
    h.commented _ (lowerIf_traced e (lowerStmt_traced then_ _ h.of_cons.right owes))
  | .ifElse e then_ (some else_), _, _, h, owes => by
    rw [Stmt.exposed, append_eq_nil_iff] at owes
    exact h.commented _ (lowerIfElse_traced e
      (lowerStmt_traced then_ _ h.of_cons.left.right (owes.imp_left And.right))
      (lowerStmt_traced else_ _ h.of_cons.right (owes.imp_left And.left)))
  | .whileLoop e body, _, _, h, owes =>
    h.commented _ (lowerWhile_traced e (lowerStmt_traced body _ h.of_cons.right owes))
  | .doWhile body e, _, _, h, owes => by
    exact h.commented _ (lowerDoWhile_traced e (lowerStmt_traced body _ h.of_cons.left owes))
  | .forLoop none e increment body, _, _, h, _ =>
    h.commented _ (lowerFor_traced e increment (.pure _)
      (lowerStmt_traced body _ h.of_cons.left.right.weaken (.inr (.inl rfl))))
  | .forLoop (some init) e increment body, _, _, h, _ =>
    h.commented _ (lowerFor_traced e increment
      (lowerStmt_traced init _ h.of_cons.left.left.left.weaken (.inr (.inl rfl)))
      (lowerStmt_traced body _ h.of_cons.left.right.weaken (.inr (.inl rfl))))
  | .switch e clauses, depth, _, h, _ =>
    h.commented _ (lowerSwitch_traced (h.choose depth e clauses mem_cons_self)
      (lowerClauses_traced clauses _ h.of_cons.right))
  | .return_ e, _, _, h, _ => h.commented _ (straight_traced (lowerReturn_traced e))
  | .break_, _, _, h, _ => h.commented _ (jumpOut_traced _ _ _)
  | .continue_, _, _, h, _ => h.commented _ (jumpOut_traced _ _ _)
  | .labeled label statement, _, _, h, owes =>
    h.commented _ ((placeName_traced h.name label).bind fun _ =>
      lowerStmt_traced statement _ h.of_cons owes)
  | .goto label, _, _, h, _ => h.commented _ (straight_traced (lowerGoto_traced h.name label))
  | .gotoCase value, _, _, h, _ => h.commented _ (straight_traced (lowerGotoCase_traced _))
  | .gotoDefault, _, _, h, _ => h.commented _ (straight_traced (lowerGotoCase_traced _))
  | .destruction object destructor, _, _, h, _ =>
    h.commented _ (straight_traced (lowerDestruction_traced _ _))
  | .try_ body handler, _, _, h, _ =>
    h.commented _ (lowerTry_traced
      (inCompound_traced h.compound (lowerStmts_traced body _ h.of_cons.left.of_cons))
      (inCompound_traced h.compound (lowerStmts_traced handler _ h.of_cons.right.of_cons)))
  | .throw_ e, _, _, h, _ => h.commented _ (straight_traced (lowerThrow_traced e))
  | .empty, _, _, h, _ => h.commented _ (.pure _)
theorem lowerStmts_traced : ∀ (body : List Stmt) (depth : Nat) {may : Effect → Prop},
    Allows may (Stmt.walkAll depth body) → Traced (owing may) (lowerStmts body)
  | [], _, _, _ => .pure _
  | s :: rest, _, _, h => by
    exact (lowerStmt_traced s _ h.left.weaken (.inr (.inl rfl))).bind fun x =>
      (settle_traced x).bind fun _ => (lowerStmts_traced rest _ h.right).bind fun _ => .pure _
theorem lowerClauses_traced : ∀ (clauses : List Clause) (depth : Nat) {may : Effect → Prop},
    Allows may (Clause.walkAll depth clauses) → ∀ labels : List Label,
      Traced may (lowerClauses clauses labels)
  | .mk _ body :: rest, _, _, h, label :: labels =>
    (place_traced label).bind fun _ => (inCompound_traced h.compound
      (lowerStmts_traced body _ h.left.of_cons.of_cons)).bind fun _ =>
        (lowerClauses_traced rest _ h.right labels).bind fun _ => .pure _
  | [], _, _, _, _ => by
    rw [lowerClauses]
    · exact .pure _
    · simp
  | .mk _ _ :: _, _, _, _, [] => by
    rw [lowerClauses]
    · exact .pure _
    · simp
end

section Function
variable {env : Env} {s : State}

section Receive
variable {p : Instr → Bool}

theorem receiveResult_adds (f : Ast.Function) : Adding p (receiveResult f) := by
  unfold receiveResult
  split
  · refine .ask fun env => Adding.bind (.bind (.ask fun _ => .pure _) fun table => ?_) fun ty => ?_
    · exact .answered (table.pointee_faults _)
    · exact (Adding.newRegister _).bind fun _ => .pure _
  · exact .pure _

theorem receiveStatus_adds (f : Ast.Function) : Adding p (receiveStatus f) := by
  unfold receiveStatus
  split
  · exact (Adding.newRegister _).bind fun _ => .pure _
  · exact .pure _

theorem receive_adds (stores : ∀ dest x, p (.store dest x)) (f : Ast.Function) :
    Adding p (receive f) := by
  have parameter (v : VariableId) : Adding p (receiveParameter v) :=
    (allocate_adds v _).bind fun _ => (Adding.newRegister _).bind fun _ =>
      (Adding.emit (stores _ _)).bind fun _ => .pure _
  refine (receiveResult_adds f).bind fun result => ?_
  refine (Adding.mapM parameter _).bind fun parameters => ?_
  refine (receiveStatus_adds f).bind fun callerStatus => ?_
  refine (Adding.forM (fun v env s => .discarded (allocate_adds v _ env s)) _).bind fun _ => ?_
  exact .pure _

end Receive

theorem prologue_traced (f : Ast.Function) : Traced may (prologue f) := by
  unfold prologue
  have received : StraightLine (receive f) := receive_adds (fun _ _ => rfl) f
  exact received.traced.bind fun _ => (emitTrace_traced _).bind fun _ => .pure _

theorem emitUnwinding_traced : ∀ owed : List Obligation, Traced may (emitUnwinding owed)
  | [] => .pure _
  | o :: owed => (emitDestructor_traced o).bind fun _ => emitUnwinding_traced owed

theorem emitPad_traced (pad : LandingPad) : Traced may (emitPad pad) := by
  refine (place_traced _).bind fun _ => (emitUnwinding_traced _).bind fun _ => ?_
  split
  · exact emit_traced rfl
  · exact passStatus_straight.traced.bind fun _ => defaultReturn_straight.traced.bind fun _ =>
      emitReturn_traced _

theorem forM_emitPad_traced : ∀ pads : List LandingPad, Traced may (pads.forM emitPad)
  | [] => .pure _
  | pad :: pads => (emitPad_traced pad).bind fun _ => forM_emitPad_traced pads

theorem fallOut_traced : Traced may fallOut := by
  refine endsInTerminator_traced.bind fun ends => ?_
  split
  · exact .pure _
  · exact defaultReturn_straight.traced.bind fun value => emitReturn_traced value

theorem finishBody_trace : Ensures
    (fun _ t => State.Trace env.symbols may { s with pads := .empty } t) (finishBody env s) := by
  refine .look ?_
  dsimp only
  split
  · trivial
  · refine .look (Ends.known (t := { s with pads := .empty }) rfl ?_)
    exact (forM_emitPad_traced _ env _).seq fun _ t ht => .ret ht

theorem finishBody_later :
    Ensures (fun _ t => State.Later { s with pads := .empty } t)
      (finishBody env s) :=
  finishBody_trace.mono (Q := fun _ t =>
    State.Trace env.symbols (fun _ => True) { s with pads := .empty } t) fun _ _ h => h.later

theorem lowerBody_later (body : List Stmt) :
    Ensures (fun _ t => State.Later { s with pads := .empty } t)
      (lowerBody body env s) := by
  unfold lowerBody
  have inner : Traced (fun _ => True) (inCompound (lowerStmts body)) :=
    inCompound_traced trivial (lowerStmts_traced body 0 (.all _))
  refine (inner.growing env s).seq fun _ t ht => ?_
  refine (fallOut_traced.growing env t).seq fun _ u hu => ?_
  exact finishBody_later.mono fun _ v hv => (ht.trans hu).emptied.trans hv

/-- What small edits keep, and does not depend on the landing pads that are noted, holds of the
state behind a whole function. -/
theorem lowerAll_keeps {J : State → Prop} (f : Ast.Function) (start : J .empty)
    (allows : Allows may (Stmt.walkAll 1 f.body))
    (steps : ∀ s t, State.Trace env.symbols may s t → J s → J t)
    (written : ∀ s : State, J s → J { s with pads := .empty }) :
    Ensures (fun _ t => J t) (lowerAll f env .empty) := by
  have first : Traced may (prologue f) := prologue_traced f
  refine (first env .empty).seq fun incoming s1 h1 => ?_
  refine .seq (P := fun _ t => J t) (Ends.inside ?_) fun pads t ht => ?_
  · unfold lowerBody
    have body : Traced may (inCompound (lowerStmts f.body)) :=
      inCompound_traced allows.compound (lowerStmts_traced f.body 1 allows)
    have out : Traced may fallOut := fallOut_traced
    refine (body _ s1).seq fun _ s2 h2 => (out _ s2).seq fun _ s3 h3 => ?_
    have done := steps _ _ h3 (steps _ _ h2 (steps _ _ h1 start))
    exact finishBody_trace.mono fun _ t h4 => steps _ _ h4 (written _ done)
  · refine .look (Ends.query fun _ _ => ?_)
    exact .ask (Ends.answered (fun _ _ => ht) fun _ _ => trivial)

end Function

end Lower
end FlatCode
