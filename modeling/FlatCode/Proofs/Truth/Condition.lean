import FlatCode.Proofs.Balance.Function
import FlatCode.Proofs.Truth.Jump

/-! Boolean expressions do what they mean, both where they are jumped on and where their value is
wanted. -/
namespace FlatCode.Truth
open Code Symbols Ast Lower List

namespace Frame
variable (w : Frame)

structure Evaluates (e : Expr) : Prop where
  computes : w.Computes (plan e).value (evaluate w.symbols w.address w.world.results e)
    (due w.symbols w.address e)
  decides : w.Decides (plan e).jump (evaluate w.symbols w.address w.world.results e)
    (due w.symbols w.address e)

variable {w}

theorem literal_computes (ty : TypeId) (b : Bool) :
    w.Computes (plan (.literal ty (.bool b))).value (fun h => (bit b, h)) [] := by
  intro env s henv housed
  rw [plan]
  refine .asked fun code _ => ?_
  refine .ret ⟨.of_writes (.refl s), ?_, fun _ m hm => ⟨m, .refl hm.addressed, hm, rfl, ?_⟩⟩
  · rintro _ ⟨rfl⟩ _ ⟨⟩
  · rintro _ ⟨rfl⟩
    rfl

theorem literal_jump (ty : TypeId) (b : Bool) : (plan (.literal ty (.bool b))).jump = (do
    let jump ← Draft.pendingJump
    pure (.known b jump)) := by
  funext env
  rfl

theorem Evaluates.literal (ty : TypeId) (b : Bool) : w.Evaluates (.literal ty (.bool b)) := by
  refine ⟨literal_computes ty b, ?_⟩
  rw [literal_jump]
  exact .known b

theorem Evaluates.ofJump {e : Expr} {jump : LowerM Branches} (hp : plan e = .ofJump e jump)
    (decides : w.Decides jump (evaluate w.symbols w.address w.world.results e)
      (due w.symbols w.address e))
    (bits : ∀ h, (evaluate w.symbols w.address w.world.results e h).1 =
      bit (isTrue (evaluate w.symbols w.address w.world.results e h).1)) : w.Evaluates e := by
  refine ⟨?_, ?_⟩
  · rw [hp]
    exact decides.materialize bits
  · rw [hp]
    exact decides

theorem connect_bits (on : Bool) (e e' : Evaluation) (h : Log) :
    (connect on e e' h).1 = bit (isTrue (connect on e e' h).1) := by
  unfold connect
  split
  · simp
  · simp

mutual
theorem boolean_evaluates : ∀ e : Expr, isBoolean w.symbols e → w.Evaluates e
  | .literal ty (.bool b), _ => .literal ty b
  | .unary ty f operand, h => by
    simp only [isBoolean, Bool.and_eq_true] at h
    have inner := boolean_evaluates operand h.2
    obtain ⟨g, hg, operator⟩ := SymbolTable.isNegation_iff.1 h.1
    have computes : w.Computes (plan (.unary ty f operand)).value
        (negate (evaluate w.symbols w.address w.world.results operand))
        (due w.symbols w.address operand) := by
      rw [plan]
      exact negation_computes h.1 inner.computes ty
    refine ⟨computes, fun env s henv housed => ?_⟩
    rw [plan]
    refine .told (a := g) (by rw [henv, hg]) ?_
    rw [if_pos operator]
    exact inner.decides.swap henv housed
  | .conjunction ty lhs rhs, h => by
    simp only [isBoolean, Bool.and_eq_true] at h
    have left := boolean_evaluates lhs h.1
    have right := boolean_evaluates rhs h.2
    exact .ofJump rfl (left.decides.connective true right.decides) (connect_bits true _ _)
  | .disjunction ty lhs rhs, h => by
    simp only [isBoolean, Bool.and_eq_true] at h
    have left := boolean_evaluates lhs h.1
    have right := boolean_evaluates rhs h.2
    exact .ofJump rfl (left.decides.connective false right.decides) (connect_bits false _ _)
  | .call ty f arguments isVirtual, h => by
    simp only [isBoolean, Bool.and_eq_true] at h
    have computes : w.Computes (plan (.call ty f arguments isVirtual)).value
        (evaluate w.symbols w.address w.world.results (.call ty f arguments isVirtual))
        (dueAll w.symbols w.address arguments) := by
      intro env s henv housed
      rw [plan]
      have passed : w.Holds s → ∀ m : Config, w.Addressed m →
          (none : Option Operand).toList.mapM m.value? = some [] := fun _ _ _ => rfl
      refine (call_computes (arguments_evaluate arguments h.2) isVirtual henv housed passed
        h.1).mono fun x t ⟨ext, made, goes⟩ => ⟨ext, made, goes.mono ?_⟩
      rintro m m' ⟨log, value⟩
      rw [nil_append] at log
      refine ⟨log, fun o ho => ?_⟩
      rw [value o ho, log]
      rfl
    exact ⟨computes, .branch computes⟩
theorem object_computes : ∀ e : Expr, isObject w.symbols e →
    w.Computes (plan e).value (evaluate w.symbols w.address w.world.results e)
      (due w.symbols w.address e)
  | .temporary ty v ctor arguments destroy, h => by
    simp only [isObject, Bool.and_eq_true, decide_eq_true_eq] at h
    obtain ⟨⟨⟨isClass, plain⟩, calm⟩, args⟩ := h
    rw [plan, evaluate, due]
    refine temporary_computes (e := .temporary ty v ctor arguments destroy) isClass plain
      (fun hd => ?_) (arguments_evaluate arguments args)
    simpa [hd] using calm
theorem arguments_evaluate : ∀ es : List Expr, areArguments w.symbols es →
    w.ComputesAll ((plans es).mapM Plan.operand)
      (evaluateAll w.symbols w.address w.world.results es) (dueAll w.symbols w.address es)
  | [], _ => .nil
  | e :: es, h => by
    simp only [areArguments, Bool.and_eq_true, Bool.or_eq_true] at h
    have rest := arguments_evaluate es h.2
    rcases h.1 with boolean | object
    · exact .cons (boolean_evaluates e boolean).computes rest
    · exact .cons (object_computes e object) rest
end

end Frame

def addresses (t : State) (m : Config) (v : VariableId) : Nat :=
  ((t.location? v).map fun l => m.registers l.slot).getD 0

def Frame.ofCode (symbols : SymbolTable) (t : State) (world : World) (m : Config) : Frame :=
  ⟨symbols, t.draft.body, world, fun v => (t.location? v).map Location.slot, addresses t m⟩

section
variable {symbols : SymbolTable} {s t : State} {world : World} {m m' : Config}

theorem Frame.ofCode_holds {live : Pending} {owed : List Label} (balanced : t.Balanced live owed) :
    (Frame.ofCode symbols t world m).Holds t := by
  refine ⟨fun k i hi => ⟨i, hi, .refl i⟩, fun k l hl => ?_, fun v l hl => ?_, fun v r hr _ => ?_⟩
  · -- a label stands at one place only
    change t.draft.body.findIdx? _ = some k
    rw [Array.findIdx?_eq_some_iff_getElem]
    obtain ⟨hlt, here⟩ := Array.getElem?_eq_some_iff.1 hl
    refine ⟨hlt, by simp [here], fun j hj => ?_⟩
    simp only [decide_eq_true_eq]
    intro there
    have := balanced.accounts.place_unique hl
      ((Array.getElem?_eq_getElem (Nat.lt_trans hj hlt)).trans (congrArg some there))
    omega
  · simp [Frame.ofCode, hl]
  · exact Option.map_eq_some_iff.1 hr

theorem Frame.ofCode_at (start : m.place = s.draft.body.size) :
    (Frame.ofCode symbols t world m).At s m := by
  refine ⟨start, fun v r hr => ?_⟩
  obtain ⟨l, hl, rfl⟩ := Option.map_eq_some_iff.1 hr
  simp [Frame.ofCode, addresses, hl]

theorem Frame.Poised.leaves {b : PendingBranch}
    (h : (Frame.ofCode symbols t world m).Poised b m') (waiting : t.draft.Open b) :
    Leaves t.draft.body world m' b := by
  refine Eq.trans h ?_
  unfold cross
  rw [show (Frame.ofCode symbols t world m).code[b.instr.index]?.bind (Instr.target? b.edge) =
    some none from waiting]
  rfl

end

def isConnective : Expr → Bool
  | .conjunction _ _ _ | .disjunction _ _ _ => true
  | _ => false

section Success

def Clerical (m : LowerM α) : Prop :=
  ∀ env s, Ends (fun e => e.isInternal = true) (fun _ _ => True) (m env s)

theorem Clerical.bind {m : LowerM α} {f : α → LowerM β} (hm : Clerical m)
    (hf : ∀ a, Clerical (f a)) : Clerical (m >>= f) :=
  fun env s => (hm env s).seq fun a t _ => hf a env t

theorem patch_clerical (l : Label) (b : PendingBranch) (d : Draft) :
    Ends (fun e => e.isInternal = true) (fun _ _ => True) (Draft.patch l b d) := by
  refine .next (P := fun _ _ => True) trivial fun d' d'' _ => ?_
  cases d'.body[b.instr.index]?.bind (Instr.target? b.edge) with
  | none => rfl
  | some target =>
    cases target with
    | none => trivial
    | some l => rfl

theorem backpatch_clerical (l : Label) : ∀ (pending : Pending) (d : Draft),
    Ends (fun e => e.isInternal = true) (fun _ _ => True) (pending.forM (Draft.patch l) d)
  | [], _ => trivial
  | b :: pending, d => (patch_clerical l b d).next fun _ d' _ => backpatch_clerical l pending d'

theorem resolveHere_clerical (pending : Pending) : Clerical (resolveHere pending) := by
  refine fun env s => .seq (P := fun _ _ => True) (Ends.edited ?_) fun _ _ _ => trivial
  unfold Draft.resolveHere
  cases pending with
  | nil => trivial
  | cons b pending =>
    obtain ⟨l, -, hl⟩ | ⟨-, hl⟩ := Draft.hereLabel_cases s.draft
    · refine .next (P := fun _ _ => True) (by rw [hl]; trivial) fun l d _ => ?_
      exact (backpatch_clerical l (b :: pending) d).next fun _ _ _ => trivial
    · refine .next (P := fun _ _ => True) (by rw [hl]; trivial) fun l d _ => ?_
      exact (backpatch_clerical l (b :: pending) d).next fun _ _ _ => trivial

theorem emit_clerical (i : Instr) : Clerical (emit i) := fun _ _ => trivial

theorem trueSide_clerical (b : Branches) (r : Register) : Clerical (trueSide b r) := by
  unfold trueSide
  split
  · exact fun _ _ => trivial
  · refine (resolveHere_clerical _).bind fun _ => (emit_clerical _).bind fun _ => ?_
    split
    · exact fun _ _ => trivial
    · exact fun _ _ => trivial

theorem falseSide_clerical (b : Branches) (r : Register) : Clerical (falseSide b r) := by
  unfold falseSide
  split
  · exact fun _ _ => trivial
  · exact (resolveHere_clerical _).bind fun _ => emit_clerical _

variable {env : Env} {s t : State} {jump : LowerM Branches} {b : Branches} {live : Pending}
  {owed : List Label}

theorem materialize_succeeds (h : Forking jump) (balanced : s.Balanced live owed)
    (deep : 0 < s.cleanups.depth) (ran : jump env s = .ok b t) :
    ∃ x u, materialize jump env s = .ok x u := by
  refine (h.materialize balanced deep).succeeds (F := fun e => e.isInternal = true)
    (R := fun _ _ => True) ?_ fun e fault internal => by simp [Error.IsFault, internal] at fault
  unfold materialize
  refine .seq (P := fun _ _ => True) (by rw [ran]; trivial) fun b t _ => ?_
  refine .seq (P := fun _ _ => True) trivial fun r t _ => ?_
  refine ((trueSide_clerical b r).bind fun done => (falseSide_clerical b r).bind fun _ =>
    (resolveHere_clerical done).bind fun _ => ?_) env t
  exact fun _ _ => trivial

end Success

section Whole

/-- The machine comes through the code to a branch that waits for its target. It is one for the
truth of the meaning, and the calls made on the way are those of the meaning. -/
def LeavesFor (code : Array Instr) (world : World) (m : Config) (b : Branches)
    (meaning : Nat × Log) : Prop :=
  ∃ m' edge, Reaches code world m m' ∧ Leaves code world m' edge ∧ m'.log = meaning.2 ∧
    (edge ∈ b.onTrue ↔ isTrue meaning.1 = true) ∧ (edge ∈ b.onFalse ↔ isTrue meaning.1 = false) ∧
    ∀ m'', Reaches code world m m'' → m''.place < code.size

/-- The machine comes to the end of the code. The truth of the meaning is in a register, and the
calls made on the way are those of the meaning. -/
def LeavesIn (code : Array Instr) (world : World) (m : Config) (r : Register)
    (meaning : Nat × Log) : Prop :=
  ∃ m', Reaches code world m m' ∧ m'.place = code.size ∧ m'.log = meaning.2 ∧
    m'.registers r = bit (isTrue meaning.1)

variable {env : Env} {s t : State} {b : Branches} {live : Pending} {owed : List Label} {e : Expr}

theorem condition_leaves (balanced : s.Balanced live owed) (housed : s.Housed env.symbols)
    (boolean : isBoolean env.symbols e) (ran : condition e env s = .ok b t) (world : World)
    {m : Config} (start : m.place = s.draft.body.size) :
    LeavesFor t.draft.body world m b
      (evaluateFull env.symbols (addresses t m) world.results e m.log) := by
  let w := Frame.ofCode env.symbols t world m
  have kept := ((condition_keeps e balanced).of_ok ran).balanced
  obtain ⟨-, -, forks⟩ :=
    ((Frame.boolean_evaluates (w := w) e boolean).decides.fullJump rfl housed).of_ok ran
  obtain ⟨m', runs, log, edge, taken, poised⟩ :=
    forks (Frame.ofCode_holds kept) m (Frame.ofCode_at start)
  change edge ∈ b.side (isTrue (evaluateFull env.symbols (addresses t m) world.results e m.log).1)
    at taken
  have waiting {x : Bool} (h : edge ∈ b.side x) : t.draft.Open edge := by
    refine (kept.accounts.mem_iff edge).1 (mem_append_left _ (mem_append_left _ ?_))
    cases x with
    | true => exact mem_append_left _ h
    | false => exact mem_append_right _ h
  -- a branch waits in one list only
  have once := (nodup_append.1 (nodup_append.1 kept.accounts.nodup).1).1
  have apart := (nodup_append.1 once).2.2
  have leaves : Leaves t.draft.body world m' edge := Frame.Poised.leaves poised (waiting taken)
  refine ⟨m', edge, runs.reaches, leaves, log, ?_, ?_, fun m'' h => leaves.inside runs.reaches h⟩
  · generalize isTrue _ = x at taken
    cases x with
    | true => exact ⟨fun _ => rfl, fun _ => taken⟩
    | false => exact ⟨fun h => (apart edge h edge taken rfl).elim, nofun⟩
  · generalize isTrue _ = x at taken
    cases x with
    | true => exact ⟨fun h => (apart edge taken edge h rfl).elim, nofun⟩
    | false => exact ⟨fun _ => rfl, fun _ => taken⟩

theorem exists_jump (h : isConnective e) : ∃ jump, plan e = .ofJump e jump := by
  cases e with
  | conjunction ty lhs rhs => exact ⟨_, by rw [plan]⟩
  | disjunction ty lhs rhs => exact ⟨_, by rw [plan]⟩
  | _ => cases h

theorem due_connective (h : isConnective e) (symbols : SymbolTable) (address : VariableId → Nat) :
    due symbols address e = [] := by
  cases e with
  | conjunction ty lhs rhs => simp [due]
  | disjunction ty lhs rhs => simp [due]
  | _ => cases h

theorem bits_connective (h : isConnective e) (symbols : SymbolTable) (address : VariableId → Nat)
    (results : Log → Nat) (before : Log) : (evaluate symbols address results e before).1 =
      bit (isTrue (evaluate symbols address results e before).1) := by
  cases e with
  | conjunction ty lhs rhs =>
    rw [evaluate]
    exact Frame.connect_bits true _ _ before
  | disjunction ty lhs rhs =>
    rw [evaluate]
    exact Frame.connect_bits false _ _ before
  | _ => cases h

/-- Where a connective can be jumped on its value can be wanted, too. Its temporaries are in the
same slots. -/
theorem value_leaves (connective : isConnective e) (balanced : s.Balanced live owed)
    (housed : s.Housed env.symbols) (boolean : isBoolean env.symbols e)
    (ran : condition e env s = .ok b t) :
    ∃ r u, fullValue e env s = .ok (some (.reg r)) u ∧ addresses u = addresses t ∧
      ∀ world m, m.place = s.draft.body.size → LeavesIn u.draft.body world m r
        (evaluateFull env.symbols (addresses u m) world.results e m.log) := by
  obtain ⟨jump, hp⟩ := exists_jump connective
  have decides (w : Frame) (hw : w.symbols = env.symbols) :
      w.Decides jump (evaluate w.symbols w.address w.world.results e) [] := by
    have whole := (Frame.boolean_evaluates (w := w) e (hw ▸ boolean)).decides
    rw [hp, due_connective connective] at whole
    exact whole
  have bits (w : Frame) := bits_connective connective w.symbols w.address w.world.results
  have forking : Forking jump := by
    have sound := (plan_sound e).jump
    rw [hp] at sound
    exact sound
  -- where the slots are does not depend on what surrounds the code
  let any : Frame := ⟨env.symbols, #[], ⟨fun _ => 0, fun _ => 0⟩, fun _ => none, fun _ => 0⟩
  unfold condition at ran
  rw [hp] at ran
  obtain ⟨-, b', u, ran', storage⟩ := ((decides any rfl).leaving rfl housed).of_ok ran
  obtain ⟨x, v, made⟩ := materialize_succeeds forking balanced.inScope s.depth_inScope ran'
  have joined (w : Frame) (hw : w.symbols = env.symbols) :=
    ((decides w hw).joining (s := s.inScope) (bits w) hw.symm (hw ▸ housed)).of_ok made
  obtain ⟨⟨ext, -, -⟩, ⟨r, rfl⟩, b'', u', ran'', storage'⟩ := joined any rfl
  obtain ⟨-, rfl⟩ : b' = b'' ∧ u = u' := by simpa [ran'] using ran''
  have cleanups : v.cleanups = s.cleanups.openScope := by
    obtain ⟨owing, grown, none⟩ := ext.owed
    cases none
    exact grown.trans (Cleanups.grow_nil _)
  have closed : Ends (fun _ => False) (fun y z => y = some (.reg r) ∧
      z = { v with cleanups := s.cleanups }) (fullValue e env s) := by
    unfold fullValue
    rw [hp]
    refine .known (t := s.inScope) rfl ?_
    refine .seq (P := fun y z => some (.reg r) = y ∧ v = z) ?_ ?_
    · change Ends _ _ (materialize jump env s.inScope)
      rw [made]
      exact ⟨rfl, rfl⟩
    rintro _ _ ⟨rfl, rfl⟩
    refine (closeScope_drops cleanups).seq ?_
    rintro _ _ rfl
    exact .ret ⟨rfl, rfl⟩
  obtain ⟨_, _, wanted, rfl, rfl⟩ := closed.exists_ok
  refine ⟨r, _, wanted, ?_, fun world m start => ?_⟩
  · funext m v
    simp only [addresses, State.location?, storage, storage']
  · let w := Frame.ofCode env.symbols { v with cleanups := s.cleanups } world m
    have last : v.Onward w.symbols { v with cleanups := s.cleanups } := .of_storage (.refl _) rfl
    have holds : w.Holds { v with cleanups := s.cleanups } :=
      Frame.ofCode_holds ((fullValue_keeps e balanced).of_ok wanted).balanced
    have begins : w.At s m := Frame.ofCode_at start
    obtain ⟨⟨-, -, goes⟩, -⟩ := joined w rfl
    obtain ⟨m', runs, there, log, value⟩ :=
      goes (holds.earlier last) m ⟨begins.place, begins.addressed⟩
    refine ⟨m', runs.reaches, there.place, ?_, ?_⟩
    · rw [evaluateFull, due_connective connective, finish, append_nil]
      exact log
    · have held := Option.some.inj (value (.reg r) rfl)
      rw [bits w] at held
      exact held

/-- The branches leave the code for the truth of the expression, after exactly the calls that its
evaluation from left to right makes: no operand of a connective is evaluated when the one before it
decides, and the temporaries of each operand are destroyed right behind it, once. Where the
expression is a connective and its value is wanted instead, the same calls are made and the same
truth is left in a register. The code is started with any registers, in any world. -/
def ShortCircuits (env : Env) (s t : State) (e : Expr) (b : Branches) : Prop :=
  (∀ world m, m.place = s.draft.body.size → LeavesFor t.draft.body world m b
    (evaluateFull env.symbols (addresses t m) world.results e m.log)) ∧
  (isConnective e → ∃ r u, fullValue e env s = .ok (some (.reg r)) u ∧
    ∀ world m, m.place = s.draft.body.size → LeavesIn u.draft.body world m r
      (evaluateFull env.symbols (addresses t m) world.results e m.log))

/-- Jumps on a boolean expression short-circuit, from every state whose books balance. -/
theorem condition_short_circuits (balanced : s.Balanced live owed)
    (housed : s.Housed env.symbols) (boolean : isBoolean env.symbols e)
    (ran : condition e env s = .ok b t) : ShortCircuits env s t e b := by
  refine ⟨fun world m start => condition_leaves balanced housed boolean ran world start,
    fun connective => ?_⟩
  obtain ⟨r, u, wanted, same, leaves⟩ := value_leaves connective balanced housed boolean ran
  exact ⟨r, u, wanted, same ▸ leaves⟩

end Whole

section Example

def probeSymbols : SymbolTable where
  types := #[.void, .bool, .classType ⟨"Guard", none, [], false, some ⟨0⟩⟩]
  functions := #[.plain "~Guard" ⟨0⟩, .plain "Guard" ⟨0⟩, .plain "probe" ⟨1⟩,
    .plain "!" ⟨1⟩ (some .logicalNot), .plain "main" ⟨0⟩]
  vars := #[⟨"first", ⟨2⟩⟩, ⟨"second", ⟨2⟩⟩]

/-- `probe(Guard()) && !(probe(Guard()) || false)` -/
def probeTwice : Expr :=
  .conjunction ⟨1⟩ (.call ⟨1⟩ ⟨2⟩ [.temporary ⟨2⟩ ⟨0⟩ ⟨1⟩ [] true] false)
    (.unary ⟨1⟩ ⟨3⟩ (.disjunction ⟨1⟩
      (.call ⟨1⟩ ⟨2⟩ [.temporary ⟨2⟩ ⟨1⟩ ⟨1⟩ [] true] false) (.literal ⟨1⟩ (.bool false))))

def probeEnv : Env :=
  .start probeSymbols (.plain "main" ⟨0⟩) .default ⟨[]⟩

theorem probeTwice_short_circuits : ∃ b t, condition probeTwice probeEnv .empty = .ok b t ∧
    isBoolean probeSymbols probeTwice ∧ isConnective probeTwice ∧
    ShortCircuits probeEnv .empty t probeTwice b := by
  have boolean : isBoolean probeSymbols probeTwice := by decide +kernel
  have lowers : (match condition probeTwice probeEnv .empty with
    | .ok _ _ => true
    | .error _ _ => false) = true := by decide +kernel
  have balanced : State.empty.Balanced [] [] := ⟨Draft.accounts_empty, nodup_nil⟩
  have housed : State.empty.Housed probeEnv.symbols := nofun
  cases ran : condition probeTwice probeEnv .empty with
  | error e t =>
    rw [ran] at lowers
    cases lowers
  | ok b t =>
    exact ⟨b, t, rfl, boolean, rfl, condition_short_circuits balanced housed boolean ran⟩

end Example
end FlatCode.Truth
