import FlatCode.Proofs.Control.Stmt
import Std.Data.String.ToInt

/-! Switches. The code of a switch goes to the clause that the number selects, and a jump to a
case goes to the clause that has it. -/
namespace FlatCode
open Code Symbols Ast Lower List
variable {i : Nat} {clauses : List Clause} {labels : List Label} {b : IntWidth}
  {least largest : Int} {env : Env} {s : State}

namespace CaseMap

def entries : Nat → List Clause → List Label → List CaseTarget
  | i, c :: clauses, l :: labels => c.values.map (⟨l, i, ·⟩) ++ entries (i + 1) clauses labels
  | _, _, _ => []

def defaultEntry : Nat → List Clause → List Label → Option CaseTarget
  | i, c :: clauses, l :: labels =>
    if c.isDefault then some ⟨l, i, .null⟩ else defaultEntry (i + 1) clauses labels
  | _, _, _ => none

theorem addClause_entries {m m' : CaseMap} {l : Label} {c : Clause}
    (h : addClause i l c.kind m = .ok () m') :
    m'.cases = m.cases ++ c.values.map (⟨l, i, ·⟩) ∧
      m'.default = m.default.or (if c.isDefault then some ⟨l, i, .null⟩ else none) := by
  unfold Clause.values Clause.isDefault
  cases hk : c.kind with
  | case values =>
    rw [hk] at h
    obtain ⟨default_eq, cases_eq⟩ := (insertAll_ends i l values m).of_ok h
    exact ⟨cases_eq, by simp [default_eq]⟩
  | default =>
    rw [hk] at h
    obtain ⟨none, rfl⟩ := (setDefault_ends m _).of_ok h
    simp [none]

theorem buildFrom_entries : ∀ (clauses : List Clause) (m : CaseMap) (i : Nat) (d : Draft),
    Ensures (fun built d' => (d.Later d' ∧ d'.body = d.body) ∧
      built.2.length = clauses.length ∧
      built.1.cases = m.cases ++ entries i clauses built.2 ∧
      built.1.default = m.default.or (defaultEntry i clauses built.2)) (m.buildFrom i clauses d)
  | [], m, _, d => ⟨⟨.refl d, rfl⟩, rfl, by simp [entries], by simp [defaultEntry]⟩
  | .mk kind body :: clauses, m, i, d => by
    refine .next (P := fun _ d' => d.Later d' ∧ d'.body = d.body)
      ((Draft.newLabel_traced.adds d).and (F := fun _ => True) rfl) fun l d' ⟨later, body_eq⟩ => ?_
    cases ha : addClause i l kind m with
    | error e m1 => trivial
    | ok _ m1 =>
      obtain ⟨cases_eq, default_eq⟩ := addClause_entries (c := .mk kind body) ha
      refine (buildFrom_entries clauses m1 (i + 1) d').next ?_
      rintro ⟨m2, labels⟩ d'' ⟨⟨later', body_eq'⟩, length_eq, cases_eq', default_eq'⟩
      dsimp only at length_eq cases_eq' default_eq'
      refine ⟨⟨later.trans later', body_eq'.trans body_eq⟩, by simp [length_eq], ?_, ?_⟩
      · simp only [cases_eq', cases_eq, entries, append_assoc]
      · simp only [default_eq', default_eq, defaultEntry]
        split <;> cases m.default <;> simp

theorem find_entries (p : Literal → Bool) : ∀ (i : Nat) (clauses : List Clause)
    (labels : List Label), labels.length = clauses.length →
      ((entries i clauses labels).find? fun t => p t.value).map CaseTarget.label =
        (clauses.findIdx? fun c => c.values.any p).bind (labels[·]?)
  | _, [], labels, _ => by simp [entries]
  | _, _ :: _, [], h => by simp at h
  | i, c :: clauses, l :: labels, h => by
    have rest := find_entries p (i + 1) clauses labels (by simpa using h)
    rw [entries, find?_append, find?_map, findIdx?_cons]
    by_cases hc : c.values.any p
    · obtain ⟨value, hv⟩ : ∃ value, c.values.find? p = some value := by
        obtain ⟨value, hm, hp⟩ := any_eq_true.1 hc
        cases hf : c.values.find? p with
        | none => exact absurd hp (by simpa using find?_eq_none.1 hf value hm)
        | some value => exact ⟨value, rfl⟩
      have found : c.values.find? ((fun t : CaseTarget => p t.value) ∘ (⟨l, i, ·⟩)) =
        some value := hv
      rw [found, if_pos hc]
      rfl
    · have missing : c.values.find? ((fun t : CaseTarget => p t.value) ∘ (⟨l, i, ·⟩)) = none := by
        refine find?_eq_none.2 fun value hm hp => hc ?_
        exact any_eq_true.2 ⟨value, hm, hp⟩
      rw [missing, Option.map_none, Option.none_or, rest, if_neg hc]
      cases clauses.findIdx? fun c => c.values.any p with
      | none => rfl
      | some j => simp

theorem defaultEntry_eq : ∀ (i : Nat) (clauses : List Clause) (labels : List Label),
    labels.length = clauses.length → defaultEntry i clauses labels =
      (clauses.findIdx? Clause.isDefault).bind fun j => labels[j]?.map (⟨·, i + j, .null⟩)
  | _, [], labels, _ => by simp [defaultEntry]
  | _, _ :: _, [], h => by simp at h
  | i, c :: clauses, l :: labels, h => by
    have rest := defaultEntry_eq (i + 1) clauses labels (by simpa using h)
    rw [defaultEntry, findIdx?_cons]
    by_cases hc : c.isDefault
    · simp [hc]
    · rw [if_neg hc, if_neg hc, rest]
      cases clauses.findIdx? Clause.isDefault with
      | none => rfl
      | some j =>
        have shift : i + 1 + j = i + (j + 1) := by omega
        simp [shift]

theorem defaultEntry_label (h : labels.length = clauses.length) :
    (defaultEntry i clauses labels).map CaseTarget.label =
      (clauses.findIdx? Clause.isDefault).bind (labels[·]?) := by
  rw [defaultEntry_eq i clauses labels h, Option.map_bind]
  congr 1
  funext j
  change (labels[j]?.map _).map _ = labels[j]?
  cases labels[j]? <;> rfl

/-- What the map of a switch knows: for a test on cases, the label of the first clause that
has such a case. -/
structure Describes (m : CaseMap) (labels : List Label) (clauses : List Clause) : Prop where
  length : labels.length = clauses.length
  label : ∀ p : Literal → Bool, (m.cases.find? fun t => p t.value).map CaseTarget.label =
    (clauses.findIdx? fun c => c.values.any p).bind (labels[·]?)
  default : m.default.map CaseTarget.label =
    (clauses.findIdx? Clause.isDefault).bind (labels[·]?)

theorem build_describes (clauses : List Clause) (d : Draft) :
    Ensures (fun built d' => d.Later d' ∧ d'.body = d.body ∧
      built.1.Describes built.2 clauses) (build clauses d) := by
  refine (buildFrom_entries clauses empty 0 d).mono ?_
  rintro ⟨m, labels⟩ d' ⟨⟨later, body_eq⟩, length_eq, cases_eq, default_eq⟩
  refine ⟨later, body_eq, length_eq, fun p => ?_, ?_⟩
  · rw [cases_eq]
    exact find_entries p 0 clauses labels length_eq
  · rw [default_eq]
    exact defaultEntry_label length_eq

end CaseMap

section Numbers

theorem IntWidth.pattern_inj {x y : Int} :
    b.pattern x = b.pattern y ↔ BitVec.ofInt b.bits x = BitVec.ofInt b.bits y :=
  BitVec.toNat_inj

theorem pattern_eq_iff_signed {c : Int} (range : Fold.range? (.integer b) = some (least, largest))
    (h : least ≤ c) (h' : c ≤ largest) (x : Int) :
    b.pattern c = b.pattern x ↔ c = (TypeKind.integer b).read x := by
  have pos : 0 < b.bits := by cases b <;> decide
  obtain ⟨rfl, rfl⟩ := range
  have self : (BitVec.ofInt b.bits c).toInt = c := by
    refine BitVec.toInt_ofInt_eq_self pos ?_ ?_
    · exact_mod_cast h
    · have : c ≤ 2 ^ (b.bits - 1) - 1 := by exact_mod_cast h'
      omega
  rw [IntWidth.pattern_inj]
  constructor
  · intro same
    change c = (BitVec.ofInt b.bits x).toInt
    rw [← same, self]
  · intro same
    rw [same]
    exact BitVec.ofInt_toInt

theorem pattern_eq_iff_unsigned {c : Int}
    (range : Fold.range? (.unsignedInteger b) = some (least, largest)) (h : least ≤ c)
    (h' : c ≤ largest) (x : Int) :
    b.pattern c = b.pattern x ↔ c = (TypeKind.unsignedInteger b).read x := by
  obtain ⟨rfl, rfl⟩ := range
  have self : (b.pattern c : Int) = c := by
    unfold IntWidth.pattern
    rw [BitVec.toNat_ofInt, Int.emod_eq_of_lt h (by exact Int.lt_of_le_sub_one h')]
    exact Int.toNat_of_nonneg h
  change _ ↔ c = (b.pattern x : Int)
  constructor
  · intro same
    rw [← same, self]
  · intro same
    rw [← self] at same
    exact Int.ofNat.inj same

theorem findIdx?_congr {p q : α → Bool} : ∀ {as : List α}, (∀ a ∈ as, p a = q a) →
    as.findIdx? p = as.findIdx? q
  | [], _ => rfl
  | a :: as, h => by
    rw [findIdx?_cons, findIdx?_cons, h a mem_cons_self,
      findIdx?_congr fun a' ha => h a' (mem_cons_of_mem _ ha)]

theorem isSelection_cases {symbols : SymbolTable} {e : Expr} (h : isSelection symbols e clauses) :
    e.isCall symbols ∧ ∃ kind b least largest,
      symbols.typeKind e.ty = .ok kind ∧ kind.scalarWidth? = some b ∧
      e.resultKind? symbols = some kind ∧
      (∀ c, least ≤ c → c ≤ largest → ∀ x, b.pattern c = b.pattern x ↔ c = kind.read x) ∧
      ∀ c ∈ clauses, ∀ value ∈ c.values, ∃ v : Int64, value = .signed v ∧
        least ≤ v.toInt ∧ v.toInt ≤ largest := by
  unfold isSelection at h
  rw [Bool.and_eq_true] at h
  obtain ⟨he, h⟩ := h
  obtain ⟨ty, f, isVirtual, g, rfl, hf, -⟩ := Expr.isCall_cases he
  refine ⟨he, ?_⟩
  have fits {least largest : Int} (hc : clauses.all fun c =>
      c.values.all (Literal.isCaseOf (least, largest))) : ∀ c ∈ clauses, ∀ value ∈ c.values,
      ∃ v : Int64, value = .signed v ∧ least ≤ v.toInt ∧ v.toInt ≤ largest := by
    intro c hcm value hvm
    have hv := all_eq_true.1 (all_eq_true.1 hc c hcm) value hvm
    cases value with
    | signed v =>
      simp only [Literal.isCaseOf, Bool.and_eq_true, decide_eq_true_eq] at hv
      exact ⟨v, rfl, hv⟩
    | _ => cases hv
  simp only [Expr.integerRange?, hf] at h
  by_cases hty : g.returnType = ty
  · rw [if_pos hty] at h
    have result (kind : TypeKind) (hk : symbols.typeKind ty = .ok kind) :
        Expr.resultKind? symbols (.call ty f [] isVirtual) = some kind := by
      simp [Expr.resultKind?, hf, hty, hk, Except.toOption]
    cases hk : symbols.typeKind ty with
    | error _ => simp [hk] at h
    | ok kind =>
      rw [hk] at h
      cases kind with
      | integer b =>
        exact ⟨.integer b, b, _, _, hk, rfl, result _ hk,
          fun c hl hu x => pattern_eq_iff_signed rfl hl hu x, fits h⟩
      | unsignedInteger b =>
        exact ⟨.unsignedInteger b, b, _, _, hk, rfl, result _ hk,
          fun c hl hu x => pattern_eq_iff_unsigned rfl hl hu x, fits h⟩
      | _ => simp at h
  · simp [hty] at h

theorem accepts_iff {kind : TypeKind}
    (bits : ∀ c, least ≤ c → c ≤ largest → ∀ x, b.pattern c = b.pattern x ↔ c = kind.read x)
    (fits : ∀ c ∈ clauses, ∀ value ∈ c.values, ∃ v : Int64, value = .signed v ∧
      least ≤ v.toInt ∧ v.toInt ≤ largest)
    (x : Int) :
    (clauses.findIdx? fun c => c.values.any fun value =>
      (value.toImm (.int b)).pattern? = some (b.pattern x)) =
      clauses.findIdx? (Clause.accepts (kind.read x)) := by
  refine findIdx?_congr fun c hc => ?_
  unfold Clause.accepts
  rw [Bool.eq_iff_iff, any_eq_true, any_eq_true]
  refine exists_congr fun value => and_congr_right fun hv => ?_
  obtain ⟨v, rfl, hl, hu⟩ := fits c hc value hv
  have test := bits v.toInt hl hu x
  have imm : (Literal.signed v).toImm (.int b) = .int v.toInt b := rfl
  simp only [imm, Imm.pattern?, Literal.integer?, decide_eq_true_eq, Option.some.injEq]
  exact test

theorem hasCase_iff (signed : ∀ c ∈ clauses, ∀ value ∈ c.values, ∃ v : Int64, value = .signed v)
    (v : Int64) :
    (clauses.findIdx? fun c => c.values.any fun value => value.key = (Literal.signed v).key) =
      clauses.findIdx? (Clause.hasCase (.signed v)) := by
  refine findIdx?_congr fun c hc => ?_
  unfold Clause.hasCase
  rw [Bool.eq_iff_iff, any_eq_true, contains_iff_exists_mem_beq]
  refine exists_congr fun value => and_congr_right fun hv => ?_
  obtain ⟨v', rfl⟩ := signed c hc value hv
  simp only [Literal.key, decide_eq_true_eq, beq_iff_eq, Literal.signed.injEq,
    Int.toString_eq_repr, Int.repr_inj, Int64.toInt_inj]
  exact eq_comm

end Numbers

/-- From the label of a clause on, the code runs the clauses from that one on; so it does where
control falls into the first clause. -/
structure Setting.RunsClauses (w : Setting) (n : Nat) (env : Env) (out : Outs)
    (run : Nat → History → Outcome) (labels : List Label) (s : State) : Prop where
  label : ∀ i l, labels[i]? = some l → ∃ k, w.code.labels[l.index]? = some ⟨k⟩ ∧
    ∀ m : Machine, m.place = k → w.Behaves n env out m (run i m.history)
  start : s.draft.endsInTerminator = false → ∀ m, w.Behind s.draft m →
    w.Behaves n env out m (run 0 m.history)

def Setting.SimulatesClauses (w : Setting) (n : Nat) (clauses : List Clause) : Prop :=
  ∀ ⦃env s⦄ (labels : List Label), labels.length = clauses.length → env.symbols = w.symbols →
    s.cleanups.Clear → Ends (fun _ => True) (fun x t => s.Quiet t ∧ x.next = [] ∧
      (w.Holds t.draft → w.RunsClauses n env (w.outs x t.draft)
        (execFrom w.symbols w.oracle n clauses) labels s)) (lowerClauses clauses labels env s)

theorem Lower.place_pushed (l : Label) :
    Ensures (fun _ t => s.Quiet t ∧ t.draft.body = s.draft.body.push (.label l))
      ((liftM (Draft.place l) : LowerM Unit) env s) :=
  ⟨⟨.push _, rfl⟩, rfl⟩

theorem Lower.lowerStmts_next : ∀ (body : List Stmt) {s : State},
    Ensures (fun x _ => x.next = []) (lowerStmts body env s)
  | [], _ => rfl
  | st :: body, s => by
    refine (Ends.any _).seq fun x t _ => ?_
    refine (settle_joined x).seq ?_
    rintro _ u ⟨-, -, rfl⟩
    refine (lowerStmts_next body).seq fun y v hy => .ret ?_
    exact hy

theorem Lower.compound_next (body : List Stmt) :
    Ensures (fun x _ => x.next = []) (inCompound (lowerStmts body) env s) := by
  refine .look ((Ends.any _).seq fun _ t _ => ?_)
  refine .seq (P := fun x _ => x.next = []) (Ends.inside (lowerStmts_next body)) ?_
  exact fun x u hx => (Ends.any _).seq fun _ v _ => .ret hx

namespace Setting
variable {w : Setting} {n : Nat}

theorem passes_pushed {d d' : Draft} {l : Label} (holds : w.Holds d')
    (pushed : d'.body = d.body.push (.label l)) :
    w.code.labels[l.index]? = some ⟨w.base + d.body.size⟩ ∧ d'.endsInTerminator = false ∧
      ∀ m, w.Behind d m → w.step m = some (w.moved d' m) := by
  have found : d'.body[d.body.size]? = some (.label l) := by rw [pushed]; simp
  refine ⟨holds.label _ l found, ?_, fun m hm => ?_⟩
  · rw [Draft.endsInTerminator_pushed pushed]
    rfl
  · obtain ⟨_, hi, rfl⟩ := holds.instr _ _ found
    have pass : w.step m = some m.advance := Function.step_idle (by rw [hm]; exact hi) rfl
    rw [pass]
    unfold Machine.advance moved
    rw [hm, pushed, Array.size_push, Nat.add_assoc]

theorem SimulatesClauses.nil : w.SimulatesClauses n [] := by
  intro env s labels hl _ _
  rw [length_eq_zero_iff.1 hl]
  refine ⟨.refl s, rfl, fun _ => ⟨fun i l hi => ?_, fun goes m hm => ?_⟩⟩
  · cases hi
  · exact ⟨m, .refl m, rfl, .falls hm goes⟩

theorem SimulatesClauses.cons {kind : ClauseKind} {body : List Stmt}
    (hf : w.Simulates n (lowerStmts body) (execAll w.symbols w.oracle n body))
    (hr : w.SimulatesClauses n clauses) : w.SimulatesClauses n (.mk kind body :: clauses) := by
  intro env s labels hl henv clear
  cases labels with
  | nil => cases hl
  | cons label labels =>
    refine (place_pushed label).seq fun _ s1 ⟨q1, pushed⟩ => ?_
    refine ((hf.compound henv (q1.clear clear)).and (compound_next body)).seq
      fun x s2 ⟨⟨q2, behaves⟩, hx⟩ => ?_
    refine (hr labels (by simpa using hl) henv (q2.clear (q1.clear clear))).seq
      fun y s3 ⟨q3, hy, runs⟩ => .ret ?_
    have nothing : (x ++ y).next = [] := by
      change x.next ++ y.next = []
      rw [hx, hy]
      rfl
    refine ⟨(q1.trans q2).trans q3, nothing, fun holds => ?_⟩
    have holds2 := holds.earlier q3.later
    obtain ⟨place, goes, pass⟩ := passes_pushed (holds2.earlier q2.later) pushed
    have runs' := runs holds
    have first (m : Machine) (hm : w.Behind s.draft m) : w.Behaves n env (w.outs (x ++ y) s3.draft)
        m (execFrom w.symbols w.oracle n (.mk kind body :: clauses) 0 m.history) := by
      refine Behaves.after (.of_step (pass m hm)) ?_
      refine (behaves holds2 goes _ (w.behind_moved _ m)).andThen
        (fun m' (comes : w.Comes s2.draft x.next m') => ?_) outs_left.breaks outs_left.continues
      rw [hx] at comes
      obtain ⟨behind, goes'⟩ := comes.falls_of_nil
      exact (runs'.start goes' m' behind).widen outs_right
    refine ⟨fun i l hi => ?_, fun _ => first⟩
    cases i with
    | zero =>
      obtain rfl : label = l := by simpa using hi
      exact ⟨_, place, first⟩
    | succ i =>
      obtain ⟨k, hk, behaves'⟩ := runs'.label i l (by simpa using hi)
      exact ⟨k, hk, fun m hm => (behaves' m hm).widen outs_right⟩

/-- A switch from the label of a clause on. A jump to a case goes to the label of its clause, and
takes at least one step. -/
theorem runSwitch_behaves {x : Exits} {out : Outs} {cases : CaseMap} {depth : Nat}
    {run : Nat → History → Outcome} {t : State} (describes : cases.Describes labels clauses)
    (signed : ∀ c ∈ clauses, ∀ value ∈ c.values, ∃ v : Int64, value = .signed v)
    (runs : w.RunsClauses n { env with breakDepth := some depth, switch := some ⟨cases, depth⟩ }
      (w.outs x t.draft) run labels s)
    (next : ∀ m, w.Comes t.draft x.next m ∨ w.Taken x.breaks m →
      ∃ m', w.Reaches m m' ∧ m'.history = m.history ∧ out.next m')
    (continues : ∀ m, w.Taken x.continues m → out.continues m) :
    ∀ k, k ≤ n → ∀ i l, labels[i]? = some l → ∀ m, w.code.labels[l.index]? = some ⟨m.place⟩ →
      w.Behaves k env out m (runSwitch clauses run k (some i) m.history)
  | 0, _, _, _, _, m, _ => .zero m
  | k + 1, hk, i, l, hl, m, hm => by
    have again := runSwitch_behaves describes signed runs next continues k (by omega)
    obtain ⟨p, hp, behaves⟩ := runs.label i l hl
    obtain rfl : m.place = p := by simpa [hm] using hp
    have behaves := behaves m rfl
    unfold runSwitch
    generalize run i m.history = o at behaves ⊢
    obtain ⟨h, flow⟩ := o
    -- a jump to a clause that is there
    have jumps {m1 : Machine} {target : CaseTarget} {found : Option Nat}
        (reaches : w.Reaches m m1)
          (jump : w.code.instrs[m1.place]? = some (.jump (some target.label)))
        (label : some target.label = found.bind (labels[·]?)) :
        w.Behaves (k + 1) env out m (runSwitch clauses run k found m1.history) := by
      cases found with
      | none => cases label
      | some j =>
        obtain ⟨q, hq, -⟩ := runs.label j target.label label.symm
        have behaves' := again j target.label label.symm (m1.goto q) hq
        exact (behaves'.after_step (step_jump jump hq)).after reaches
    cases flow with
    | none => exact Function.Lasts.mono hk behaves
    | some flow =>
      obtain ⟨m1, reaches, leaves⟩ := behaves
      cases flow with
      | next =>
        obtain ⟨m2, onward, same, there⟩ := next m1 (.inl leaves.2)
        exact ⟨m2, reaches.trans onward, same.trans leaves.1, there⟩
      | break_ =>
        obtain ⟨m2, onward, same, there⟩ := next m1 (.inr leaves.2)
        exact ⟨m2, reaches.trans onward, same.trans leaves.1, there⟩
      | continue_ => exact ⟨m1, reaches, leaves.1, continues m1 leaves.2⟩
      | gotoCase value =>
        obtain ⟨rfl, ⟨v, rfl⟩, switch, target, hswitch, found, jump⟩ := leaves
        obtain rfl : ⟨cases, depth⟩ = switch := by simpa using hswitch
        refine jumps reaches jump ?_
        rw [← hasCase_iff signed v, ← describes.label]
        have here := (cases.find?_eq (Literal.signed v).key).symm.trans found
        exact (congrArg (Option.map CaseTarget.label) here).symm
      | gotoDefault =>
        obtain ⟨rfl, switch, target, hswitch, found, jump⟩ := leaves
        obtain rfl : ⟨cases, depth⟩ = switch := by simpa using hswitch
        refine jumps reaches jump ?_
        rw [← describes.default, found]
        rfl
      | return_ => exact ⟨m1, reaches, leaves⟩

theorem runSwitch_none (clauses : List Clause) (run : Nat → History → Outcome) (h : History) :
    runSwitch clauses run n none h = (h, some .next) := by
  cases n <;> rfl

theorem switchTarget_select {cases : CaseMap} {kind : TypeKind}
    (describes : cases.Describes labels clauses)
    (bits : ∀ c, least ≤ c → c ≤ largest → ∀ x, b.pattern c = b.pattern x ↔ c = kind.read x)
    (fits : ∀ c ∈ clauses, ∀ value ∈ c.values, ∃ v : Int64, value = .signed v ∧
      least ≤ v.toInt ∧ v.toInt ≤ largest)
    (x : Int) (fallthrough : Label) :
    Function.switchTarget (b.pattern x)
      (cases.cases.map fun c => (c.value.toImm (.int b), c.label))
      ((cases.default.map CaseTarget.label).getD fallthrough) =
        ((selectClause (kind.read x) clauses).bind (labels[·]?)).getD fallthrough := by
  have label := describes.label fun value => (value.toImm (.int b)).pattern? = some (b.pattern x)
  rw [accepts_iff bits fits x] at label
  have found : ((cases.cases.map fun c => (c.value.toImm (.int b), c.label)).find?
      fun entry => entry.1.pattern? = some (b.pattern x)).map Prod.snd =
      (clauses.findIdx? (Clause.accepts (kind.read x))).bind (labels[·]?) := by
    rw [← label, find?_map, Option.map_map]
    rfl
  unfold Function.switchTarget selectClause
  rw [found, describes.default]
  cases hi : clauses.findIdx? (Clause.accepts (kind.read x)) with
  | none => rfl
  | some i =>
    obtain ⟨hlt, -⟩ := findIdx?_eq_some_iff_findIdx_eq.1 hi
    rw [← describes.length] at hlt
    simp [getElem?_eq_getElem hlt]

theorem selectClause_lt {v : Int} (h : selectClause v clauses = some i) : i < clauses.length := by
  unfold selectClause at h
  split at h
  · rename_i j hj
    obtain rfl : j = i := by simpa using h
    exact (findIdx?_eq_some_iff_findIdx_eq.1 hj).1
  · exact (findIdx?_eq_some_iff_findIdx_eq.1 h).1

/-- The code from one state to another makes a call, and jumps to the clause that its result
selects. -/
def Chooses (w : Setting) (e : Expr) (clauses : List Clause) (labels : List Label) (past : Label)
    (s t : State) : Prop :=
  w.Holds t.draft → ∀ m, w.Behind s.draft m → ∃ m', w.Reaches m m' ∧
    m'.history = e.perform w.symbols m.history ∧ w.step m' = w.code.follow m'
      (((selectClause (e.number w.symbols w.oracle m'.history) clauses).bind
        (labels[·]?)).getD past)

theorem chooseCase_chooses {e : Expr} {cases : CaseMap} (h : isSelection w.symbols e clauses)
    (henv : env.symbols = w.symbols) (describes : cases.Describes labels clauses) :
    Ensures (fun past t => s.Quiet t ∧ w.Chooses e clauses labels past s t)
      (chooseCase e cases env s) := by
  obtain ⟨he, kind, b, least, largest, hkind, hb, hresult, bits, fits⟩ := isSelection_cases h
  unfold chooseCase switchOn
  simp only [bind_assoc, pure_bind]
  refine (fullOperand_called w he henv).seq fun operand s1 ⟨q1, called⟩ => ?_
  refine .told (a := .int b) (by rw [henv, SymbolTable.codeType_scalar hkind hb]) ?_
  refine .seq (P := fun _ t => s1.Quiet t ∧ t.draft.body = s1.draft.body)
    (edit_quiet (Q := fun _ d => d.body = s1.draft.body)
      ((Draft.newLabel_traced.adds s1.draft).and (F := fun _ => True) rfl)) ?_
  intro past s2 ⟨q2, same⟩
  refine (emit_pushed _).seq fun _ s3 ⟨q3, pushed⟩ => .ret ⟨(q1.trans q2).trans q3, ?_⟩
  intro holds m hm
  have holds1 := (holds.earlier q3.later).earlier q2.later
  obtain ⟨m1, first, behind, hcalled⟩ := called holds1 m hm
  have value := hcalled.result operand kind b rfl hresult hb
  obtain ⟨_, found, rfl⟩ := holds.pushed pushed
  refine ⟨m1, .of_step first, hcalled.history, ?_⟩
  rw [Expr.number, hkind]
  dsimp only
  rw [← switchTarget_select describes bits fits]
  unfold Setting.step Function.step
  rw [behind, ← same, found]
  simp [value]

/-- A jump on a value goes to the clause that it selects, or behind all of them. -/
theorem selected_behaves {out : Outs} {run : Nat → History → Outcome} {past : Label} {v : Int}
    {m : Machine} {p : Nat} (length : labels.length = clauses.length)
    (jump : w.step m = w.code.follow m (((selectClause v clauses).bind (labels[·]?)).getD past))
    (placed : ∀ (i : Nat) (l : Label), labels[i]? = some l →
      ∃ k, w.code.labels[l.index]? = some ⟨k⟩)
    (clause : ∀ i l, labels[i]? = some l → ∀ m, w.code.labels[l.index]? = some ⟨m.place⟩ →
      w.Behaves n env out m (runSwitch clauses run n (some i) m.history))
    (end_ : w.code.labels[past.index]? = some ⟨p⟩)
    (ends : w.Behaves n env out (m.goto p) (m.history, some .next)) :
    w.Behaves n env out m (runSwitch clauses run n (selectClause v clauses) m.history) := by
  cases choice : selectClause v clauses with
  | none =>
    have goto : w.step m = some (m.goto p) := by
      rw [jump, choice]
      simp [Function.follow, end_]
    rw [runSwitch_none]
    exact Behaves.after (.of_step goto) ends
  | some i =>
    have hi : i < labels.length := length ▸ selectClause_lt choice
    have hl := getElem?_eq_getElem hi
    obtain ⟨k, place⟩ := placed i _ hl
    have goto : w.step m = some (m.goto k) := by
      rw [jump, choice]
      simp [hl, Function.follow, place]
    exact Behaves.after (.of_step goto) (clause i _ hl (m.goto k) place)

theorem Simulates.switch {e : Expr} (h : isSelection w.symbols e clauses)
    (hc : w.SimulatesClauses n clauses) :
    w.Simulates n (lowerSwitch e clauses (lowerClauses clauses)) fun h =>
      runSwitch clauses (execFrom w.symbols w.oracle n clauses) n
        (selectClause (e.number w.symbols w.oracle (e.perform w.symbols h)) clauses)
        (e.perform w.symbols h) := by
  intro env s henv clear
  unfold lowerSwitch
  refine .seq (edit_quiet (Q := fun built d => d.body = s.draft.body ∧
    built.1.Describes built.2 clauses) (CaseMap.build_describes clauses s.draft)) ?_
  rintro ⟨cases, labels⟩ s1 ⟨q1, body_eq, describes⟩
  refine (chooseCase_chooses h henv describes).seq fun past s2 ⟨q2, chooses⟩ => ?_
  have quiet := q1.trans q2
  refine .seq (P := fun x t => s2.Quiet t ∧ x.next = [] ∧ (w.Holds t.draft → w.RunsClauses n
    { env with breakDepth := some s2.cleanups.depth, switch := some ⟨cases, s2.cleanups.depth⟩ }
    (w.outs x t.draft) (execFrom w.symbols w.oracle n clauses) labels s2))
    (Ends.look (Ends.inside (hc labels describes.length ?_ (quiet.clear clear)))) ?_
  · exact henv
  intro x s3 ⟨q3, hx, runs⟩
  refine (place_pushed past).seq fun _ s4 ⟨q4, placed⟩ => .ret ?_
  refine ⟨(quiet.trans q3).trans q4, fun holds _ m hm => ?_⟩
  have holds3 := holds.earlier q4.later
  have runs := runs holds3
  obtain ⟨end_, goes, pass⟩ := passes_pushed holds placed
  have next (m : Machine) (ends : w.Comes s3.draft x.next m ∨ w.Taken x.breaks m) :
      ∃ m', w.Reaches m m' ∧ m'.history = m.history ∧ w.Comes s4.draft x.breaks m' := by
    rcases ends with comes | taken
    · rw [hx] at comes
      exact ⟨_, .of_step (pass m comes.falls_of_nil.1), rfl, .falls (w.behind_moved _ _) goes⟩
    · exact ⟨m, .refl m, rfl, .jumps taken⟩
  have signed : ∀ c ∈ clauses, ∀ value ∈ c.values, ∃ v : Int64, value = .signed v := by
    obtain ⟨-, _, _, _, _, -, -, -, -, fits⟩ := isSelection_cases h
    intro c hcm value hvm
    obtain ⟨v, hv, -⟩ := fits c hcm value hvm
    exact ⟨v, hv⟩
  have hm1 : w.Behind s1.draft m := by rw [Behind, body_eq]; exact hm
  obtain ⟨m1, first, history, jump⟩ := chooses (holds3.earlier q3.later) m hm1
  refine Behaves.after first ?_
  beta_reduce
  rw [← history]
  refine selected_behaves describes.length jump (fun i l hl => ?_)
    (runSwitch_behaves describes signed runs next (fun _ taken => taken) n (Nat.le_refl n)) end_ ?_
  · obtain ⟨k, place, -⟩ := runs.label i l hl
    exact ⟨k, place⟩
  · exact ⟨_, .of_step (pass _ rfl), rfl, .falls (w.behind_moved _ _) goes⟩

end Setting
end FlatCode
