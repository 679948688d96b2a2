import FlatCode.Proofs.Balance.Function
import FlatCode.Proofs.Control.Condition

/-! Conditions whose truth is known. The code of such a condition decides nothing: it is a chain of
jumps from label to label, the last of which waits to be told where the one possible outcome goes.
The right side of a connective leaves no trace where the left side decides. -/
namespace FlatCode
open Code Symbols Ast Lower List

namespace Ast.Expr
variable {table : SymbolTable}

theorem truth?_eq_some {e : Expr} {v : Bool} :
    e.truth? table = some v ↔ e.fold table = .ok (.bool v) := by
  unfold truth?
  cases e.fold table with
  | error _ => simp
  | ok c => cases c <;> simp

theorem truth?_conjunction (ty : TypeId) (lhs rhs : Expr) :
    (conjunction ty lhs rhs).truth? table =
      if lhs.truth? table = some true then rhs.truth? table else lhs.truth? table := by
  unfold truth?
  rw [fold]
  cases lhs.fold table with
  | error _ => rfl
  | ok c =>
    cases c with
    | int _ => rfl
    | bool v =>
      cases v with
      | false => rfl
      | true =>
        cases rhs.fold table with
        | error _ => rfl
        | ok c' => cases c' <;> rfl

theorem truth?_disjunction (ty : TypeId) (lhs rhs : Expr) :
    (disjunction ty lhs rhs).truth? table =
      if lhs.truth? table = some false then rhs.truth? table else lhs.truth? table := by
  unfold truth?
  rw [fold]
  cases lhs.fold table with
  | error _ => rfl
  | ok c =>
    cases c with
    | int _ => rfl
    | bool v =>
      cases v with
      | true => rfl
      | false =>
        cases rhs.fold table with
        | error _ => rfl
        | ok c' => cases c' <;> rfl

theorem truth?_not {f : FunctionId} {symbol : FunctionSymbol}
    (found : table.functionSymbol f = .ok symbol) (isNot : symbol.operator = some .logicalNot)
    (ty : TypeId) (operand : Expr) :
    (unary ty f operand).truth? table = (operand.truth? table).map not := by
  unfold truth?
  rw [fold, Fold.operatorOf, found]
  cases symbol
  dsimp only at isNot
  subst isNot
  cases operand.fold table with
  | error _ => rfl
  | ok c => cases c <;> rfl

end Ast.Expr

namespace Lower
variable {table : SymbolTable} {env : Env} {s t : State}

section Hops

def hops (first count : Nat) : List Instr :=
  (List.range' first count).flatMap fun l => [.jump (some ⟨l⟩), .label ⟨l⟩]

theorem hops_add (first m n : Nat) : hops first m ++ hops (first + m) n = hops first (m + n) := by
  unfold hops
  rw [← flatMap_append, range'_append_1]

def State.hop (s : State) (count : Nat) : State :=
  { s with draft := { s.draft with
      body := s.draft.body ++ (hops s.draft.labels count).toArray
      labels := s.draft.labels + count } }

@[simp] theorem State.hop_zero (s : State) : s.hop 0 = s := by
  simp [State.hop, hops]

theorem State.hop_hop (s : State) (m n : Nat) : (s.hop m).hop n = s.hop (m + n) := by
  simp only [State.hop, Array.append_assoc, append_toArray, hops_add, Nat.add_assoc]

def State.wait (s : State) : State :=
  { s with draft := { s.draft with body := s.draft.body.push (.jump none) } }

def State.waiting (s : State) : PendingBranch := ⟨⟨s.draft.body.size⟩, .unconditional⟩

theorem getElem?_push_push (body : Array Instr) (i j : Instr) :
    ((body.push i).push j)[body.size]? = some i := by
  rw [Array.getElem?_push, if_neg (by rw [Array.size_push]; omega), Array.getElem?_push_size]

theorem modify_push_push (body : Array Instr) (i j : Instr) (f : Instr → Instr) :
    ((body.push i).push j).modify body.size f = body ++ [f i, j].toArray := by
  apply Array.toList_inj.1
  simp [Array.toList_modify, modify_eq_take_drop]

theorem pendingJump_wait {E : Error → Prop} :
    Ends E (fun pending t => pending = [s.waiting] ∧ t = s.wait)
      ((liftM Draft.pendingJump : LowerM Pending) env s) := ⟨rfl, rfl⟩

theorem resolveHere_waiting {E : Error → Prop} :
    Ends E (fun _ t => t = s.hop 1) (resolveHere [s.waiting] env s.wait) := by
  have notLabel : ∀ l, s.wait.draft.body.back? ≠ some (.label l) := by simp [State.wait]
  refine .seq (P := fun _ t => t = s.hop 1) (Ends.edited ?_) fun _ t ht => .ret ht
  obtain ⟨l, hl, -⟩ | ⟨-, placed⟩ := Draft.hereLabel_cases s.wait.draft
  · exact absurd hl (notLabel l)
  refine .next (P := fun l d => l = ⟨s.draft.labels⟩ ∧ d =
    { s.wait.draft with
      labels := s.draft.labels + 1
      body := s.wait.draft.body.push (.label ⟨s.draft.labels⟩) }) ?_ ?_
  · rw [placed]
    exact ⟨rfl, rfl⟩
  rintro _ d ⟨rfl, rfl⟩
  refine .next (P := fun _ d => { s.wait with draft := d } = s.hop 1) ?_ fun _ _ hd => hd
  refine .next (P := fun _ d => { s.wait with draft := d } = s.hop 1) ?_ fun _ _ hd => hd
  have written := getElem?_push_push s.draft.body (.jump none) (.label ⟨s.draft.labels⟩)
  rw [Draft.patch_open (by exact congrArg (Option.bind · (Instr.target? .unconditional)) written)]
  change State.mk _ _ _ _ _ _ _ = State.mk _ _ _ _ _ _ _
  simp only [State.wait, State.waiting, State.mk.injEq, Draft.mk.injEq, and_true, true_and]
  exact modify_push_push _ _ _ _

end Hops

section Known

def Settled (table : SymbolTable) (jump : LowerM Branches) (value : Bool) (count : Nat) : Prop :=
  ∀ ⦃env s⦄, env.symbols = table → Ends (fun _ => False)
    (fun b t => b = .known value [(s.hop count).waiting] ∧ t = (s.hop count).wait) (jump env s)

def Announces (table : SymbolTable) (jump : LowerM Branches) : Option Bool → Prop
  | some value => ∃ count, Settled table jump value count
  | none => ∀ ⦃env s⦄, env.symbols = table →
      Ends (fun _ => True) (fun b _ => b.constant = none) (jump env s)

namespace Settled
variable {jump jump' lhs rhs : LowerM Branches} {value : Bool} {m n : Nat}

theorem agree (h : Settled table jump value n) (k : Settled table jump' value n)
    (henv : env.symbols = table) : jump env s = jump' env s := by
  obtain ⟨_, _, run, rfl, rfl⟩ := (h henv (s := s)).exists_ok
  obtain ⟨_, _, run', rfl, rfl⟩ := (k henv (s := s)).exists_ok
  rw [run, run']

theorem swap (h : Settled table jump value n) :
    Settled table (do return (← jump).swap) (!value) n := by
  intro env s henv
  refine (h henv).seq ?_
  rintro _ _ ⟨rfl, rfl⟩
  refine .ret ⟨?_, rfl⟩
  cases value <;> rfl

theorem fullJump (h : Settled table jump value n) : Settled table (fullJump jump) value n := by
  intro env s henv
  refine .look (Ends.known (t := s.inScope) rfl ?_)
  refine (h henv).seq ?_
  rintro _ _ ⟨rfl, rfl⟩
  refine .look ?_
  have empty : (s.inScope.hop n).wait.cleanups.pendingFrom s.cleanups.depth = [] := by
    simp [State.inScope, State.hop, State.wait, Cleanups.pendingFrom, Cleanups.openScope,
      Cleanups.depth]
  rw [empty]
  refine .seq (P := fun _ t => t = (s.hop n).wait) (Ends.look ?_) fun _ _ ht =>
    Ends.ret ⟨rfl, ht⟩
  refine .seq (P := fun c t => c = s.cleanups ∧ t = (s.inScope.hop n).wait) ⟨rfl, rfl⟩ ?_
  rintro _ _ ⟨rfl, rfl⟩
  exact .put rfl

theorem connective_alone {x : Bool} (h : Settled table lhs (!x) n) :
    Settled table (connective x lhs rhs) (!x) n := by
  intro env s henv
  refine (h.fullJump henv).seq ?_
  rintro _ _ ⟨rfl, rfl⟩
  cases x <;> exact .ret ⟨rfl, rfl⟩

theorem conjunction_false (h : Settled table lhs false n) :
    Settled table (connective true lhs rhs) false n :=
  h.connective_alone (x := true)

theorem disjunction_true (h : Settled table lhs true n) :
    Settled table (connective false lhs rhs) true n :=
  h.connective_alone (x := false)

/-- Where the left side leaves it to the right one, the hops of both stand in a row. -/
theorem next (h : Settled table rhs value n) (m : Nat) {join : Branches → Branches}
    (joined : ∀ pending, join (.known value pending) = .known value pending)
    (henv : env.symbols = table) : Ends (fun _ => False)
      (fun b t => b = .known value [(s.hop (m + 1 + n)).waiting] ∧ t = (s.hop (m + 1 + n)).wait)
      ((do
        resolveHere [(s.hop m).waiting]
        let right ← Lower.fullJump rhs
        pure (join right) : LowerM Branches) env (s.hop m).wait) := by
  refine .seq (P := fun _ t => t = s.hop (m + 1)) ?_ ?_
  · rw [← State.hop_hop]
    exact resolveHere_waiting
  rintro _ _ rfl
  refine (h.fullJump henv).seq ?_
  rintro _ _ ⟨rfl, rfl⟩
  rw [State.hop_hop]
  exact .ret ⟨joined _, rfl⟩

theorem connective_next {x : Bool} (h : Settled table lhs x m) (k : Settled table rhs value n) :
    Settled table (connective x lhs rhs) value (m + 1 + n) := by
  intro env s henv
  refine (h.fullJump henv).seq ?_
  rintro _ _ ⟨rfl, rfl⟩
  cases x <;> exact k.next m (fun _ => by cases value <;> rfl) henv

end Settled

namespace Announces
variable {jump jump' lhs rhs : LowerM Branches} {c c' : Option Bool}

theorem congr (h : Announces table jump c)
    (same : ∀ env s, env.symbols = table → jump' env s = jump env s) :
    Announces table jump' c := by
  cases c with
  | some value =>
    obtain ⟨n, settled⟩ := h
    refine ⟨n, fun env s henv => ?_⟩
    rw [same env s henv]
    exact settled henv
  | none =>
    intro env s henv
    rw [same env s henv]
    exact h henv

theorem swap (h : Announces table jump c) :
    Announces table (do return (← jump).swap) (c.map not) := by
  cases c with
  | some value =>
    obtain ⟨n, settled⟩ := h
    exact ⟨n, settled.swap⟩
  | none =>
    intro env s henv
    refine (h henv).seq fun b t hb => .ret ?_
    simp [Branches.swap, hb]

theorem fullJump (h : Announces table jump c) : Announces table (fullJump jump) c := by
  cases c with
  | some value =>
    obtain ⟨n, settled⟩ := h
    exact ⟨n, settled.fullJump⟩
  | none =>
    intro env s henv
    refine .look (Ends.seq (Ends.any _) fun _ _ _ => ?_)
    refine (h henv).seq fun b t hb => .look ?_
    generalize t.cleanups.pendingFrom s.cleanups.depth = owing
    cases owing with
    | nil => exact .seq (Ends.any _) fun _ _ _ => .ret hb
    | cons o owed =>
      exact .seq (Ends.any _) fun _ _ _ => .seq (Ends.any _) fun _ _ _ =>
        Ends.seq (Ends.any _) fun _ _ _ => .ret hb

theorem connective (x : Bool) (hl : Announces table lhs c) (hr : Announces table rhs c') :
    Announces table (connective x lhs rhs) (if c = some x then c' else c) := by
  cases c with
  | none =>
    intro env s henv
    refine (hl.fullJump henv).seq fun b _ hb => ?_
    rw [if_neg (by simp [hb])]
    refine .seq (Ends.any _) fun _ _ _ => .seq (Ends.any _) fun _ _ _ => .ret ?_
    simp [hb]
  | some v =>
    obtain ⟨m, first⟩ := hl
    by_cases same : v = x
    · subst same
      rw [if_pos rfl]
      cases c' with
      | some value =>
        obtain ⟨n, second⟩ := hr
        exact ⟨m + 1 + n, first.connective_next second⟩
      | none =>
        intro env s henv
        refine (first.fullJump henv).anyError.seq ?_
        rintro _ _ ⟨rfl, rfl⟩
        rw [if_neg (by cases v <;> simp [Branches.known])]
        refine .seq (Ends.any _) fun _ _ _ => ?_
        exact (hr.fullJump henv).seq fun b _ hb => .ret (by simp [hb])
    · obtain rfl : v = !x := Bool.eq_not_of_ne same
      rw [if_neg (by simp)]
      exact ⟨m, first.connective_alone⟩

theorem jumpOn (e : Expr) (value : LowerM (Option Operand)) :
    Announces table (jumpOn e value) (e.truth? table) := by
  cases known : e.truth? table with
  | some v =>
    refine ⟨0, fun env s henv => .table ?_⟩
    rw [henv, known, State.hop_zero]
    refine .seq pendingJump_wait ?_
    rintro _ _ ⟨rfl, rfl⟩
    exact .ret ⟨rfl, rfl⟩
  | none =>
    refine fun env s henv => .table ?_
    rw [henv, known]
    exact .seq (Ends.any _) fun _ _ _ => .seq (Ends.any _) fun _ _ _ => .ret rfl

theorem ofValue (e : Expr) (value : LowerM (Option Operand)) :
    Announces table (Plan.ofValue e value).jump (e.truth? table) := .jumpOn e value

theorem ofPlace (e : Expr) (value : LowerM (Option Operand)) (address : LowerM Operand) :
    Announces table (Plan.ofPlace e value address).jump (e.truth? table) := .jumpOn e value

theorem unary {ty : TypeId} {f : FunctionId} {operand : Expr}
    (h : Announces table (plan operand).jump (operand.truth? table))
    (value : LowerM (Option Operand)) :
    Announces table (unaryJump (.unary ty f operand) f (plan operand) value)
      ((Expr.unary ty f operand).truth? table) := by
  cases found : table.functionSymbol f with
  | error e =>
    have unknown : (Expr.unary ty f operand).truth? table = none := by
      unfold Expr.truth?
      rw [Expr.fold, Fold.operatorOf, found]
      rfl
    rw [unknown]
    refine fun env s henv => .seq (P := fun _ _ => False) ?_ fun _ _ h => h.elim
    refine .table (Ends.answered (fun g hg => ?_) fun _ _ => trivial)
    rw [henv, found] at hg
    cases hg
  | ok symbol =>
    have asked (m : FunctionSymbol → LowerM Branches) (env : Env) (s : State)
        (henv : env.symbols = table) : (functionSymbol f >>= m) env s = m symbol env s := by
      subst henv
      change EStateM.bind (answer (env.symbols.functionSymbol f)) _ s = _
      rw [found]
      rfl
    by_cases isNot : symbol.operator = some .logicalNot
    · have negated : Announces table (do return (← (plan operand).jump).swap)
          ((operand.truth? table).map not) := h.swap
      rw [Expr.truth?_not found isNot]
      refine negated.congr fun env s henv => ?_
      rw [unaryJump, asked _ env s henv, if_pos isNot]
    · refine (jumpOn (.unary ty f operand) value).congr fun env s henv => ?_
      rw [unaryJump, asked _ env s henv, if_neg isNot]

end Announces

theorem plan_announces : ∀ e : Expr, Announces table (plan e).jump (e.truth? table)
  | .conjunction ty lhs rhs => by
    rw [Expr.truth?_conjunction]
    exact (plan_announces lhs).connective true (plan_announces rhs)
  | .disjunction ty lhs rhs => by
    rw [Expr.truth?_disjunction]
    exact (plan_announces lhs).connective false (plan_announces rhs)
  | .unary ty f operand => .unary (plan_announces operand) _
  | .literal .. | .addressOf .. | .conversion .. | .binary .. | .call .. => by
    rw [plan]
    exact .ofValue _ _
  | .localVariable .. | .parameter .. => by
    rw [plan]
    exact .ofPlace _ _ _
  | .memberVariable .. | .dereference .. | .temporary .. => by
    rw [plan]
    exact .ofPlace _ _ _

end Known

section Announced

/-- Labels and jumps were written, and nothing else has changed. -/
structure State.OnlyJumps (s t : State) : Prop where
  code : ∃ added : List Instr, t.draft.body = s.draft.body ++ added.toArray ∧
    ∀ i ∈ added, (∃ l, i = .label l) ∨ ∃ target, i = .jump target
  rest : t = { s with draft := { s.draft with body := t.draft.body, labels := t.draft.labels } }

structure Announced (table : SymbolTable) (e : Expr) (s : State) (b : Branches) (t : State) :
    Prop where
  constant : b.constant = e.truth? table
  oneWay : ∀ value, b.constant = some value → b.side (!value) = [] ∧ b.side value ≠ []
  code : b.constant.isSome → s.OnlyJumps t

/-- The condition is lowered like its left side alone. -/
structure DecidedBy (env : Env) (s : State) (lhs e : Expr) : Prop where
  jump : ∃ b t, condition lhs env s = .ok b t ∧ (plan e).jump env s = .ok b t
  value : (plan e).value env s = materialize (condition lhs) env s

theorem hops_shape {first count : Nat} {i : Instr} (h : i ∈ hops first count) :
    (∃ l, i = .label l) ∨ ∃ target, i = .jump target := by
  simp only [hops, mem_flatMap, mem_cons, not_mem_nil, or_false] at h
  obtain ⟨l, -, rfl | rfl⟩ := h
  · exact .inr ⟨_, rfl⟩
  · exact .inl ⟨_, rfl⟩

theorem State.hop_wait_onlyJumps (s : State) (count : Nat) : s.OnlyJumps (s.hop count).wait := by
  refine ⟨⟨hops s.draft.labels count ++ [.jump none], by simp [State.hop, State.wait],
    fun i hi => ?_⟩, rfl⟩
  rcases mem_append.1 hi with hi | hi
  · exact hops_shape hi
  · exact .inr ⟨none, mem_singleton.1 hi⟩

theorem Announces.announced {jump : LowerM Branches} {e : Expr} {b : Branches}
    (h : Announces env.symbols jump (e.truth? env.symbols)) (run : jump env s = .ok b t) :
    Announced env.symbols e s b t := by
  cases known : e.truth? env.symbols with
  | none =>
    rw [known] at h
    have unknown : b.constant = none := (h rfl).of_ok run
    exact ⟨unknown.trans known.symm, by simp [unknown], by simp [unknown]⟩
  | some value =>
    rw [known] at h
    obtain ⟨n, settled⟩ := h
    obtain ⟨rfl, rfl⟩ := (settled rfl).of_ok run
    refine ⟨?_, fun v hv => ?_, fun _ => s.hop_wait_onlyJumps n⟩
    · rw [known]
      cases value <;> rfl
    · cases value <;> cases hv <;> exact ⟨rfl, cons_ne_nil _ _⟩

theorem materialize_congr {jump jump' : LowerM Branches} (h : jump env s = jump' env s) :
    materialize jump env s = materialize jump' env s := by
  unfold materialize
  change EStateM.bind (jump env) _ s = EStateM.bind (jump' env) _ s
  unfold EStateM.bind
  rw [h]

theorem Settled.decides {lhs e : Expr} {jump : LowerM Branches} {value : Bool} {n : Nat}
    (left : Settled env.symbols (condition lhs) value n) (whole : Settled env.symbols jump value n)
    (hp : plan e = .ofJump e jump) : DecidedBy env s lhs e := by
  obtain ⟨b, t, run, -⟩ := (left rfl (s := s)).exists_ok
  have same : jump env s = condition lhs env s := whole.agree left rfl
  refine ⟨⟨b, t, run, ?_⟩, ?_⟩
  · rw [hp]
    exact same.trans run
  · rw [hp]
    exact materialize_congr same

/-- A condition announces its truth exactly where it is known. It then has one way out, and its
code decides nothing. Where the left side of a connective decides, the right side leaves no
trace, even one that can not be lowered. -/
theorem condition_announces_truth (env : Env) (s : State) (e : Expr) :
    (∀ b t, (plan e).jump env s = .ok b t → Announced env.symbols e s b t) ∧
    (∀ b t, condition e env s = .ok b t → Announced env.symbols e s b t) ∧
    (e.truth? env.symbols = some false →
      ∀ ty rhs, DecidedBy env s e (.conjunction ty e rhs)) ∧
    (e.truth? env.symbols = some true →
      ∀ ty rhs, DecidedBy env s e (.disjunction ty e rhs)) := by
  have announces : Announces env.symbols (plan e).jump (e.truth? env.symbols) := plan_announces e
  refine ⟨fun b t run => announces.announced run, fun b t run => announces.fullJump.announced run,
    fun known ty rhs => ?_, fun known ty rhs => ?_⟩
  · rw [known] at announces
    obtain ⟨n, settled⟩ := announces
    exact settled.fullJump.decides settled.conjunction_false rfl
  · rw [known] at announces
    obtain ⟨n, settled⟩ := announces
    exact settled.fullJump.decides settled.disjunction_true rfl

end Announced

section Example

def verdictSymbols : SymbolTable where
  types := #[.void, .bool]
  functions := #[.plain "!" ⟨1⟩ (some .logicalNot)]
  vars := #[]

def verdictEnv : Env :=
  .start verdictSymbols (.plain "main" ⟨0⟩) .default ⟨[]⟩

/-- `!(false || true)` -/
def verdict : Expr :=
  .unary ⟨1⟩ ⟨0⟩ (.disjunction ⟨1⟩ (.literal ⟨1⟩ (.bool false)) (.literal ⟨1⟩ (.bool true)))

/-- A variable that nobody knows is never asked for behind `verdict &&`. -/
theorem verdict_decides :
    (∃ b t, condition verdict verdictEnv .empty = .ok b t ∧ b.constant = some false ∧
      Announced verdictSymbols verdict .empty b t) ∧
    (∀ b t, (plan (.localVariable ⟨1⟩ ⟨7⟩)).jump verdictEnv .empty ≠ .ok b t) ∧
    DecidedBy verdictEnv .empty verdict (.conjunction ⟨1⟩ verdict (.localVariable ⟨1⟩ ⟨7⟩)) := by
  have known : verdict.truth? verdictEnv.symbols = some false := by decide +kernel
  obtain ⟨-, announced, onFalse, -⟩ := condition_announces_truth verdictEnv .empty verdict
  have decided := onFalse known ⟨1⟩ (.localVariable ⟨1⟩ ⟨7⟩)
  obtain ⟨b, t, run, -⟩ := decided.jump
  exact ⟨⟨b, t, run, (announced b t run).constant.trans known, announced b t run⟩, nofun, decided⟩

end Example
end Lower
end FlatCode
