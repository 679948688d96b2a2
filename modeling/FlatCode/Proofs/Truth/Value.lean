import FlatCode.Proofs.Balance.Unwind
import FlatCode.Proofs.Truth.Frame
import Mathlib.Data.List.Forall2

/-! Values. The code of a call passes the values of its arguments, and that of a temporary builds
it in its slot. What has to be destroyed is entered in the innermost scope. -/
namespace FlatCode.Truth
open Code Symbols Ast Lower List

namespace Frame
variable {w : Frame} {s t u : State} {m m' m'' : Config} {o : Obligation} {calls : Log} {p : Plan}
  {e : Log → List Nat × Log} {env : Env} {arguments : List Plan}

section Owing

def Destroys (w : Frame) (t : State) (o : Obligation) (call : Invocation) : Prop :=
  ∃ g v l, w.symbols.functionSymbol o.destructor = .ok g ∧ g.canRaise = false ∧
    t.location? v = some l ∧ o.object = .reg l.slot ∧ call = ⟨some g.name, [w.address v]⟩

theorem Destroys.later {call : Invocation} (h : w.Destroys s o call) (hst : s.Onward w.symbols t) :
    w.Destroys t o call := by
  obtain ⟨g, v, l, hg, calm, hl, object, rfl⟩ := h
  exact ⟨g, v, l, hg, calm, hst.houses.stays v l hl, object, rfl⟩

structure Extends (w : Frame) (s t : State) (calls : Log) : Prop where
  onward : s.Onward w.symbols t
  owed : ∃ owed, t.cleanups = s.cleanups.grow owed ∧ List.Forall₂ (w.Destroys t) owed calls

theorem Extends.of_same (onward : s.Onward w.symbols t) (cleanups : t.cleanups = s.cleanups) :
    w.Extends s t [] :=
  ⟨onward, [], by rw [cleanups, Cleanups.grow_nil], .nil⟩

theorem Extends.of_writes (h : s.Writes t) : w.Extends s t [] := .of_same h.onward h.cleanups

theorem Extends.trans {calls' : Log} (h : w.Extends s t calls) (k : w.Extends t u calls') :
    w.Extends s u (calls' ++ calls) := by
  obtain ⟨owed, hc, destroys⟩ := h.owed
  obtain ⟨owed', hc', destroys'⟩ := k.owed
  refine ⟨h.onward.trans k.onward, owed' ++ owed, ?_, ?_⟩
  · rw [hc', hc, Cleanups.grow_grow]
  · exact rel_append destroys' (destroys.imp fun _ _ hd => hd.later k.onward)

end Owing

theorem Holds.invokes {target : Callee} {arguments : List Operand} {dest : Option Register}
    (holds : w.Holds u) (emits : t.Emits (.call target arguments dest) u)
    (new : ∀ r, dest = some r → w.New s r) (hm : w.At t m) {values : List Nat}
    (passed : arguments.mapM m.value? = some values) :
    ∃ m', w.Runs s m m' ∧ w.At u m' ∧ m'.log = m.log ++ [⟨nameOf target, values⟩] ∧
      ∀ r, dest = some r → m'.registers r = w.world.results m'.log := by
  obtain ⟨_, found, rfl⟩ := holds.found emits hm
  have hstep : w.step m = some (.goes (m.invoke w.world ⟨nameOf target, values⟩ dest)) := by
    unfold Frame.step Truth.step
    rw [found]
    simp [passed]
  have runs : w.Runs s m _ := .of_step hm.addressed hstep
    (fun r hr => m.invoke_other w.world _ hr) new
  exact ⟨_, runs, hm.next emits rfl runs.addressed, rfl, fun r hr => if_pos hr⟩

section Cleanups
variable {env : Env}

theorem emitDestructor_goes (henv : env.symbols = w.symbols) {call : Invocation}
    (h : w.Destroys s o call) :
    Ensures (fun raises t => raises = false ∧ s.Writes t ∧
      w.Goes s t fun m m' => m'.log = m.log ++ [call]) (emitDestructor o env s) := by
  obtain ⟨g, v, l, hg, calm, hl, object, rfl⟩ := h
  refine .told (a := g) (by rw [henv, hg]) ?_
  rw [calm, object]
  refine (emit_emits _).seq fun _ t emits => .ret ⟨rfl, emits.writes, fun holds m hm => ?_⟩
  have slot := (holds.earlier emits.writes.onward).slot v l hl
  have passed : [Operand.reg l.slot].mapM m.value? = some [w.address v] := by
    simp [Config.value?, hm.addressed v _ slot]
  obtain ⟨m', runs, there, log, -⟩ := holds.invokes (s := s) emits (by simp) hm passed
  exact ⟨m', runs, there, log⟩

theorem emitCleanups_goes (henv : env.symbols = w.symbols) : ∀ {owed : List Obligation}
    {calls : Log} (destroyed : Nat) {s : State}, List.Forall₂ (w.Destroys s) owed calls →
    Ensures (fun _ t => s.Writes t ∧
      w.Goes s t fun m m' => m'.log = m.log ++ calls) (emitCleanups destroyed owed env s)
  | [], _, _, s, .nil =>
    ⟨.refl s, fun _ m hm => ⟨m, .refl hm.addressed, hm, by simp⟩⟩
  | o :: owed, call :: calls, destroyed, s, .cons first rest => by
    refine (emitDestructor_goes henv first).seq ?_
    rintro _ t ⟨rfl, writes, goes⟩
    have rest' := rest.imp fun _ _ h => h.later writes.onward
    refine (emitCleanups_goes henv (destroyed + 1) rest').mono fun _ u ⟨writes', goes'⟩ => ?_
    refine ⟨writes.trans writes', (goes.trans writes.onward writes'.onward goes').mono ?_⟩
    rintro m m'' ⟨m', log, -, log'⟩
    rw [log', log, append_assoc]
    rfl

end Cleanups

def Made (t : State) (x : Operand) : Prop :=
  ∀ r, x = .reg r → r.index < t.draft.registers.size

theorem Made.later {x : Operand} (h : Made s x) (hst : s.Onward w.symbols t) : Made t x :=
  fun r hr => Nat.lt_of_lt_of_le (h r hr) hst.houses.registers

/-- The code of a value evaluates it. Its temporaries are due when the expression around it
ends. -/
def Computes (w : Frame) (value : LowerM (Option Operand)) (e : Evaluation) (calls : Log) : Prop :=
  ∀ ⦃env s⦄, env.symbols = w.symbols → s.Housed w.symbols →
    Ends (fun _ => True) (fun x t => w.Extends s t calls ∧ (∀ o, x = some o → Made t o) ∧
      w.Goes s t fun m m' => m'.log = (e m.log).2 ∧
        ∀ o, x = some o → m'.value? o = some (e m.log).1) (value env s)

def ComputesAll (w : Frame) (values : LowerM (List Operand)) (e : Log → List Nat × Log)
    (calls : Log) : Prop :=
  ∀ ⦃env s⦄, env.symbols = w.symbols → s.Housed w.symbols →
    Ends (fun _ => True) (fun xs t => w.Extends s t calls ∧ (∀ o ∈ xs, Made t o) ∧
      w.Goes s t fun m m' => m'.log = (e m.log).2 ∧ xs.mapM m'.value? = some (e m.log).1)
      (values env s)

theorem Computes.operand {e : Evaluation} (h : w.Computes p.value e calls)
    (henv : env.symbols = w.symbols) (housed : s.Housed w.symbols) :
    Ensures (fun x t => w.Extends s t calls ∧ Made t x ∧
      w.Goes s t fun m m' => m'.log = (e m.log).2 ∧ m'.value? x = some (e m.log).1)
      (p.operand env s) := by
  refine (h henv housed).seq fun x t ⟨ext, made, goes⟩ => ?_
  cases x with
  | none => trivial
  | some x =>
    exact ⟨ext, made x rfl, goes.mono fun m m' ⟨log, value⟩ => ⟨log, value x rfl⟩⟩

namespace ComputesAll

theorem nil : w.ComputesAll (List.mapM Plan.operand []) (fun h => ([], h)) [] :=
  fun _ s _ _ => ⟨.of_writes (.refl s), by simp,
    fun _ m hm => ⟨m, .refl hm.addressed, hm, rfl, rfl⟩⟩

theorem cons {ps : List Plan} {e : Evaluation} {es : Log → List Nat × Log} {calls' : Log}
    (first : w.Computes p.value e calls) (rest : w.ComputesAll (ps.mapM Plan.operand) es calls') :
    w.ComputesAll ((p :: ps).mapM Plan.operand)
      (fun h => ((e h).1 :: (es (e h).2).1, (es (e h).2).2)) (calls' ++ calls) := by
  intro env s henv housed
  rw [mapM_cons]
  refine (first.operand henv housed).seq fun x t ⟨ext, made, goes⟩ => ?_
  refine (rest henv (ext.onward.housed housed)).seq fun xs u ⟨ext', made', goes'⟩ => .ret ?_
  refine ⟨ext.trans ext', fun o ho => ?_, ?_⟩
  · rcases mem_cons.1 ho with rfl | ho
    · exact made.later ext'.onward
    · exact made' o ho
  · refine (goes.trans ext.onward ext'.onward goes').mono ?_
    rintro m m'' ⟨m', ⟨log, value⟩, runs, log', values⟩
    rw [log] at log' values
    refine ⟨log', ?_⟩
    rw [mapM_cons, runs.value made, value, values]
    rfl

end ComputesAll

section Call

theorem findDispatchTable_glides (function : String) : ∀ (depth : Nat) (object : Operand)
    (ty : TypeId), w.Gliding (findDispatchTable function depth object ty)
  | 0, _, _ => .fail _
  | depth + 1, object, ty => by
    refine Gliding.bind (.ask fun table => .answered _) fun info => ?_
    split
    · exact .pure _
    · split
      · exact .fail _
      · refine Gliding.bind (.ask fun table => .answered _) fun base => ?_
        exact .lookup _ (fun _ => rfl) fun r => findDispatchTable_glides function depth r _

theorem dispatch_glides (symbol : FunctionSymbol) (object : Operand) (ty : TypeId) :
    w.Gliding (dispatch symbol object ty) := by
  unfold dispatch
  split
  · exact .fail _
  · refine Gliding.bind (.ask fun table => .answered _) fun kind => .ask fun table => ?_
    refine (findDispatchTable_glides _ _ _ _).bind fun found => ?_
    refine .lookup _ (fun _ => rfl) fun tableAddress => ?_
    refine .lookup _ (fun _ => rfl) fun table => ?_
    refine .lookup _ (fun _ => rfl) fun entry => ?_
    exact .lookup _ (fun _ => rfl) fun target => .pure target

theorem callee_glides (symbol : FunctionSymbol) (isVirtual : Bool)
    (object : Option (Operand × TypeId)) (henv : env.symbols = w.symbols)
    (housed : s.Housed w.symbols) :
    Ensures (fun target t => w.Glides s t ∧
      nameOf target = if isVirtual then none else some symbol.name)
      (callee symbol isVirtual object env s) := by
  unfold callee
  cases isVirtual with
  | false => exact ⟨.refl s, rfl⟩
  | true =>
    cases object with
    | none => trivial
    | some found =>
      refine (dispatch_glides symbol found.1 found.2 henv housed).seq fun target t ht => ?_
      exact .ret ⟨ht, rfl⟩

variable (args : w.ComputesAll (arguments.mapM Plan.operand) e calls) {object : Option Operand}
  {self : List Nat} (isVirtual : Bool) (henv : env.symbols = w.symbols)
  (housed : s.Housed w.symbols)
  (passed : w.Holds s → ∀ m, w.Addressed m → object.toList.mapM m.value? = some self)
include args henv housed passed

theorem callFunction_computes {symbol : FunctionSymbol} (raises : symbol.canRaise = false)
    (slot : symbol.returnsByHiddenSlot = false) :
    Ensures (fun x t => w.Extends s t calls ∧ (∀ o, x = some o → Made t o) ∧
      w.Goes s t fun m m' =>
        m'.log = (e m.log).2 ++
          [⟨if isVirtual then none else some symbol.name, self ++ (e m.log).1⟩] ∧
        ∀ o, x = some o → m'.value? o = some (w.world.results m'.log))
      (callFunction symbol object arguments isVirtual env s) := by
  rw [callFunction_plain raises slot]
  refine (args henv housed).seq fun operands t ⟨ext, made, goes⟩ => ?_
  have housed' := ext.onward.housed housed
  refine (callee_glides symbol isVirtual _ henv housed').seq fun target u ⟨glides, name⟩ => ?_
  have housed'' := glides.onward.housed housed'
  refine (resultRegister_reserves symbol).seq fun dest v reserves => ?_
  refine (emit_emits _).seq fun _ x emits => .ret ?_
  have tail : u.Writes x := reserves.writes.trans emits.writes
  have onward : t.Onward w.symbols x := glides.onward.trans tail.onward
  refine ⟨?_, fun o ho r hr => ?_, fun holds m hm => ?_⟩
  · simpa using ext.trans (.of_same onward (tail.cleanups.trans glides.cleanups))
  · subst hr
    obtain ⟨_, hdest, heq⟩ := Option.map_eq_some_iff.1 ho
    cases heq
    have below := (reserves.fresh r hdest).2
    obtain ⟨added, hadded⟩ := emits.writes.later.registers
    rw [hadded, Array.size_append]
    omega
  have holdsU := holds.earlier tail.onward
  have holdsS := holds.earlier (ext.onward.trans onward)
  obtain ⟨m', runs, there, ⟨m1, ⟨log, values⟩, runs', log'⟩⟩ :=
    goes.trans ext.onward glides.onward glides.goes holdsU m hm
  have there' : w.At v m' := there.reserved reserves
  -- the code of the call does not change the registers of the arguments
  have values' : operands.mapM m'.value? = some (e m.log).1 := by
    rw [runs'.values made, values]
  have new := fun r hr => (holds.earlier emits.writes.onward).new (r := r)
    housed'' reserves hr
  have whole : (object.toList ++ operands).mapM m'.value? = some (self ++ (e m.log).1) := by
    rw [mapM_append, passed holdsS m' there.addressed, values']
    rfl
  obtain ⟨m'', runs'', there'', log'', result⟩ := holds.invokes (s := u) emits new there' whole
  refine ⟨m'', runs.trans (ext.onward.trans glides.onward) runs'', there'', ?_, fun o ho => ?_⟩
  · rw [log'', log', log, name]
  · obtain ⟨r, hdest, rfl⟩ := Option.map_eq_some_iff.1 ho
    exact congrArg some (result r hdest)

theorem call_computes {f : FunctionId} (plain : w.symbols.isPlain f) {ty : TypeId} :
    Ensures (fun x t => w.Extends s t calls ∧ (∀ o, x = some o → Made t o) ∧
      w.Goes s t fun m m' =>
        m'.log = (e m.log).2 ++
          [⟨if isVirtual then none else w.symbols.nameOf? f, self ++ (e m.log).1⟩] ∧
        ∀ o, x = some o → m'.value? o = some (w.world.results m'.log))
      (call f object arguments isVirtual ty env s) := by
  obtain ⟨g, hg, operator, raises, slot⟩ := SymbolTable.isPlain_iff.1 plain
  refine .told (a := g) (by rw [henv, hg]) ?_
  rw [operator, SymbolTable.nameOf?_eq hg]
  exact callFunction_computes args isVirtual henv housed passed raises slot

end Call

section Temporary

variable {v : VariableId} {ctor : FunctionId}

theorem allocate_glides (v : VariableId) (role : Role) (henv : env.symbols = w.symbols) :
    Ensures (fun l t => w.Glides s t ∧ t.location? v = some l)
      (allocate v role env s) := by
  refine ((allocate_adds (p := fun _ => false) v role env s).anyError.and
    (allocate_located v role)).mono fun l t ⟨adds, located⟩ => ⟨?_, located⟩
  rw [henv] at adds
  refine ⟨⟨adds.later.draft, adds.houses⟩, adds.cleanups, fun _ m hm =>
    ⟨m, .refl hm.addressed, ?_, rfl⟩⟩
  exact ⟨by rw [adds.body_eq]; exact hm.place, hm.addressed⟩

theorem eq_grow_of_push {c c' : Cleanups} (h : c.push o = .ok c') : c' = c.grow [o] := by
  unfold Cleanups.push at h
  unfold Cleanups.grow
  split at h
  · cases h
  · cases h
    simp_all

theorem oweDestructor_extends {l : Location} (henv : env.symbols = w.symbols)
    (located : s.location? v = some l) (planned : w.symbols.Plans v l)
    (calm : (w.symbols.destructorFor? v).all w.symbols.isCalm) :
    Ensures (fun _ t => w.Extends s t (destruction w.symbols w.address v) ∧
      t.draft = s.draft) (oweDestructor l.slot l.ty env s) := by
  obtain ⟨role, symbol, plan, hty⟩ := planned
  have known : w.symbols.destructorFor? v = w.symbols.destructor? l.ty := by
    unfold SymbolTable.destructorFor?
    rw [(Storage.plan_iff.1 plan).1, ← hty]
    rfl
  refine .seq (P := fun d t => w.symbols.destructor? l.ty = d ∧ s = t) ?_ ?_
  · refine .table (Ends.answered (fun d hd => ⟨?_, rfl⟩) fun _ _ => trivial)
    rw [henv] at hd
    exact SymbolTable.destructorOf_eq hd
  rintro d _ ⟨hd, rfl⟩
  rw [known, hd] at calm
  unfold destruction
  rw [known, hd]
  cases d with
  | none => exact ⟨.of_writes (.refl s), rfl⟩
  | some d =>
    obtain ⟨g, hg, raises⟩ := SymbolTable.isCalm_iff.1 (by simpa using calm)
    refine .look (Ends.seq (P := fun c t => c = s.cleanups.grow [⟨.reg l.slot, d⟩] ∧ s = t)
      (Ends.answered (fun c hc => ⟨eq_grow_of_push hc, rfl⟩) fun _ _ => trivial) ?_)
    rintro _ _ ⟨rfl, rfl⟩
    refine .put ⟨⟨.of_storage (.refl _) rfl, _, rfl, ?_⟩, rfl⟩
    refine .cons ⟨g, v, l, hg, raises, located, rfl, ?_⟩ .nil
    simp only [SymbolTable.nameOf?_eq hg]

theorem loadValue_object {ty : TypeId} (isClass : (w.symbols.isClass ty).toOption = some true)
    (x : Operand) (henv : env.symbols = w.symbols) :
    loadValue x ty env s = .ok x s := by
  unfold SymbolTable.isClass at isClass
  cases hk : w.symbols.typeKind ty with
  | error e => simp [hk, bind, Except.bind, Except.toOption] at isClass
  | ok kind =>
    cases kind with
    | classType info =>
      change EStateM.bind (answer (env.symbols.typeKind ty)) _ s = _
      rw [henv, hk]
      rfl
    | _ => simp [hk, bind, Except.bind, pure, Except.pure, Except.toOption] at isClass

theorem construct_computes (plain : w.symbols.isPlain ctor)
    (args : w.ComputesAll (arguments.mapM Plan.operand) e calls) {l : Location}
    (henv : env.symbols = w.symbols) (housed : s.Housed w.symbols)
    (located : s.location? v = some l) :
    Ensures (fun _ t => w.Extends s t calls ∧ w.Goes s t fun m m' =>
        m'.log = (e m.log).2 ++ [⟨w.symbols.nameOf? ctor, w.address v :: (e m.log).1⟩])
      (construct l.slot ctor arguments env s) := by
  refine .asked fun symbol _ => ?_
  have passed : w.Holds s → ∀ m, w.Addressed m →
      (some (Operand.reg l.slot)).toList.mapM m.value? = some [w.address v] := by
    intro holds m hm
    simp [Config.value?, hm v _ (holds.slot v l located)]
  refine (call_computes args false henv housed passed plain).seq fun x t ⟨ext, _, goes⟩ => ?_
  exact .ret ⟨ext, goes.mono fun m m' ⟨log, _⟩ => log⟩

theorem addressOfTemporary_computes {destroy : Bool} (plain : w.symbols.isPlain ctor)
    (calm : destroy → (w.symbols.destructorFor? v).all w.symbols.isCalm)
    (args : w.ComputesAll (arguments.mapM Plan.operand) e calls) (henv : env.symbols = w.symbols)
    (housed : s.Housed w.symbols) :
    Ensures (fun x t =>
      w.Extends s t ((if destroy then destruction w.symbols w.address v else []) ++ calls) ∧
      (∃ l, t.location? v = some l ∧ x = .reg l.slot) ∧ w.Goes s t fun m m' =>
        m'.log = (e m.log).2 ++ [⟨w.symbols.nameOf? ctor, w.address v :: (e m.log).1⟩])
      (addressOfTemporary v ctor arguments destroy env s) := by
  refine (allocate_glides v .localVariable henv).seq fun l t ⟨glides, located⟩ => ?_
  have housed' := glides.onward.housed housed
  refine (construct_computes plain args henv housed' located).seq fun _ u ⟨ext, goes⟩ => ?_
  have located' := ext.onward.houses.stays v l located
  have ext' : w.Extends s u calls := by
    simpa using Extends.trans (.of_same glides.onward glides.cleanups) ext
  have goes' : w.Goes s u fun m m' =>
      m'.log = (e m.log).2 ++ [⟨w.symbols.nameOf? ctor, w.address v :: (e m.log).1⟩] := by
    refine (glides.goes.trans glides.onward ext.onward goes).mono ?_
    rintro m m'' ⟨m', log, -, log'⟩
    rw [log', log]
  cases destroy with
  | false => exact ⟨by simpa using ext', ⟨l, located', rfl⟩, goes'⟩
  | true =>
    have planned := (ext.onward.housed housed' v l located').2
    refine (oweDestructor_extends henv located' planned (calm rfl)).seq
      fun _ x ⟨ext'', draft⟩ => .ret ?_
    refine ⟨ext'.trans ext'', ⟨l, ext''.onward.houses.stays v l located', rfl⟩, ?_⟩
    intro holds m hm
    obtain ⟨m', runs, there, log⟩ := goes' (holds.earlier ext''.onward) m hm
    exact ⟨m', runs, ⟨by rw [draft]; exact there.place, there.addressed⟩, log⟩

theorem temporary_computes {e : Expr} (isClass : (w.symbols.isClass e.ty).toOption = some true)
    {destroy : Bool} (plain : w.symbols.isPlain ctor)
    (calm : destroy → (w.symbols.destructorFor? v).all w.symbols.isCalm) {es : Log → List Nat × Log}
    (args : w.ComputesAll (arguments.mapM Plan.operand) es calls) :
    w.Computes (Plan.ofAddress e (addressOfTemporary v ctor arguments destroy)).value
      (fun h => (w.address v,
        (es h).2 ++ [⟨w.symbols.nameOf? ctor, w.address v :: (es h).1⟩]))
      ((if destroy then destruction w.symbols w.address v else []) ++ calls) := by
  intro env s henv housed
  refine (addressOfTemporary_computes plain calm args henv housed).seq ?_
  rintro _ t ⟨ext, ⟨l, located, rfl⟩, goes⟩
  refine .seq (P := fun x u => x = .reg l.slot ∧ t = u) ?_ ?_
  · rw [loadValue_object isClass _ henv]
    exact ⟨rfl, rfl⟩
  rintro _ _ ⟨rfl, rfl⟩
  refine .ret ⟨ext, ?_, fun holds m hm => ?_⟩
  · rintro _ ⟨rfl⟩ _ ⟨rfl⟩
    exact (ext.onward.housed housed v l located).1
  · obtain ⟨m', runs, there, log⟩ := goes holds m hm
    refine ⟨m', runs, there, log, ?_⟩
    rintro _ ⟨rfl⟩
    exact congrArg some (there.addressed v _ (holds.slot v l located))

end Temporary

section Negation

theorem applyOperator_not (p : Plan) (ty : TypeId) : applyOperator .logicalNot none [p] ty = (do
    let x ← p.operand
    let _ ← typeKind (← plainType p.ty)
    return some (← emitUnary .not .bool x)) := by
  unfold applyOperator operatorOperands
  simp [emitOperator, Operator.arity]

theorem negation_computes {f : FunctionId} (negation : w.symbols.isNegation f) {e : Evaluation}
    (h : w.Computes p.value e calls) (ty : TypeId) :
    w.Computes (call f none [p] false ty) (negate e) calls := by
  obtain ⟨g, hg, operator⟩ := SymbolTable.isNegation_iff.1 negation
  intro env s henv housed
  refine .told (a := g) (by rw [henv, hg]) ?_
  rw [operator]
  change Ends _ _ (applyOperator .logicalNot none [p] ty env s)
  rw [applyOperator_not]
  refine (h.operand henv housed).seq fun x t ⟨ext, made, goes⟩ => ?_
  -- the type of the operand is looked at, and not used
  refine .seq (P := fun _ u => w.Glides t u) ?_ fun ty' u glides => ?_
  · exact Gliding.ask (fun table => .answered _) henv (ext.onward.housed housed)
  have housed' := glides.onward.housed (ext.onward.housed housed)
  refine .seq (P := fun _ v => w.Glides t v) ?_ fun kind v glides' => ?_
  · exact (Gliding.ask (fun table => .answered _) henv housed').mono fun _ _ h => glides.trans h
  have housed'' := glides'.onward.housed (ext.onward.housed housed)
  refine .seq (P := fun x' y => ∃ r z, x' = .reg r ∧ v.Reserves (some r) z ∧
    z.Emits (.unary .not r x) y) ?_ ?_
  · refine (newRegister_reserves .bool).seq fun r z reserves => ?_
    exact (emit_emits _).seq fun _ y emits => .ret ⟨r, z, rfl, reserves, emits⟩
  rintro _ y ⟨r, z, rfl, reserves, emits⟩
  have writes : v.Writes y := reserves.writes.trans emits.writes
  have onward : t.Onward w.symbols y := glides'.onward.trans writes.onward
  refine .ret ⟨?_, ?_, fun holds m hm => ?_⟩
  · simpa using ext.trans (.of_same onward (writes.cleanups.trans glides'.cleanups))
  · rintro _ ⟨rfl⟩ _ ⟨rfl⟩
    have below := (reserves.fresh r rfl).2
    obtain ⟨added, hadded⟩ := emits.writes.later.registers
    rw [hadded, Array.size_append]
    omega
  · obtain ⟨m', runs, there, m1, ⟨log, value⟩, runs', log'⟩ :=
      goes.trans ext.onward glides'.onward glides'.goes (holds.earlier writes.onward) m hm
    have there' := there.reserved reserves
    have value' : m'.value? x = some (e m.log).1 := (runs'.value made).trans value
    obtain ⟨_, found, rfl⟩ := holds.found emits there'
    have hstep : w.step m' = some (.goes (m'.put r (negate e m.log).1)) := by
      unfold Frame.step Truth.step
      rw [found]
      simp [value', negate, bit, isTrue]
    have new := (holds.earlier emits.writes.onward).new housed'' reserves rfl
    obtain ⟨last, there''⟩ := there'.put emits new hstep
    refine ⟨_, runs.trans (ext.onward.trans glides'.onward) last, there'', log'.trans log, ?_⟩
    rintro _ ⟨rfl⟩
    exact congrArg some (m'.put_same r _)

end Negation
end Frame
end FlatCode.Truth
