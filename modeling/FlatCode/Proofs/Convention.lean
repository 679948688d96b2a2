import Mathlib.Data.List.Induction
import FlatCode.Proofs.Incoming
import FlatCode.Proofs.Lifetime.Source
import FlatCode.Proofs.Marks.Raise
import FlatCode.Proofs.Remarks.Function

/-! How functions are called. A call passes the address for the result, the object and the
arguments, and the address for the status; what a function takes is laid out in the same order, so
each value meets the register that is stored in the slot of its parameter. Whether a call has a
register for the result is decided apart from the returns of the function, which stand all over its
code, and both agree. -/
namespace FlatCode
open Code Symbols Ast List

namespace Code.Instr

def isCall : Instr → Bool
  | .call _ _ _ => true
  | _ => false

def isOpening (i : Instr) : Bool := i.isStraight || i.isCall

end Code.Instr

section Returns

theorem Weave.returns {R : Label → Label → Prop} {S : List (InstrId × InstrId)} {a b : Array Instr}
    {known : Bool} (h : Weave (.comments (some known)) R S a b) {value : Option Operand}
    (hr : .ret value ∈ a) : value.isSome = known := by
  induction h with
  | empty => simp at hr
  | both _ same ih =>
    rcases Array.mem_push.1 hr with there | here
    · exact ih there
    · rw [← here] at same
      cases same with
      | straight h => cases h
      | ret comments fits =>
        cases comments
        exact fits known rfl
  | label _ _ ih | remark _ _ _ ih | again _ _ _ _ ih | comment _ _ _ ih | entered _ _ _ _ _ ih =>
    rcases Array.mem_push.1 hr with there | here
    · exact ih there
    · cases here
  | returned traces => cases traces

theorem Weave.same {returns : Option Bool} (code : List Instr) (plain : ∀ i ∈ code, i.isOpening) :
    ∃ S, Weave (.comments returns) (fun _ _ => False) S code.toArray code.toArray := by
  induction code using List.reverseRecOn with
  | nil => exact ⟨[], .empty⟩
  | append_singleton code i ih =>
    obtain ⟨S, weave⟩ := ih fun j hj => plain j (mem_append_left _ hj)
    rw [← push_toArray]
    refine ⟨_, weave.both ?_⟩
    have here := plain i (by simp)
    cases i with
    | call callee arguments dest =>
      refine .call (fun traces => ?_) arguments dest
      cases traces
    | _ => exact .straight (by simpa [Instr.isOpening, Instr.isCall] using here)

namespace Lower

theorem State.Tied.same {table : SymbolTable} {s : State} (returns : Option Bool)
    (start : State.empty.Adds table Instr.isOpening s) :
    ∃ S, State.Tied ⟨.comments returns, [], S⟩ s s := by
  obtain ⟨code, body, plain⟩ := start.body
  have all : ∀ i ∈ s.draft.body.toList, i.isOpening := by
    intro i hi
    rw [body] at hi
    simpa [State.empty, Draft.empty] using plain i (by simpa [State.empty, Draft.empty] using hi)
  obtain ⟨S, weave⟩ := Weave.same s.draft.body.toList all
  refine ⟨S, ⟨start.labels.symm, rfl, rfl, weave.mono fun _ _ => False.elim, by simp⟩, rfl, rfl,
    ?_, ?_, rfl, rfl⟩
  · rw [start.pads]
    exact .nil
  · rw [start.gotos]
    exact ⟨.nil, .nil⟩

theorem lowerBody_returns (body : List Stmt) {env : Env} {s : State} {table : SymbolTable}
    (start : State.empty.Adds table Instr.isOpening s) (switch : env.switch = none)
    (region : env.region = none) :
    Ensures (fun _ t => ∀ value, .ret value ∈ t.draft.body →
        value.isSome = env.symbols.returnsInRegister env.symbol env.result.isSome)
      (lowerBody body env s) := by
  obtain ⟨S, tied⟩ := State.Tied.same
    (some (env.symbols.returnsInRegister env.symbol env.result.isSome)) start
  have around : env.Tied ⟨.comments (some (env.symbols.returnsInRegister env.symbol
      env.result.isSome)), [], S⟩ { env with options.debugComments := false } := by
    refine ⟨rfl, rfl, ⟨rfl, rfl⟩, fun _ _ _ => nofun, fun b known => ?_, rfl, rfl, rfl, rfl, rfl,
      rfl, ?_, ?_⟩
    · cases known
      rfl
    · rw [switch]
      exact .none
    · rw [region]
      exact .none
  have together := lowerBody_mirrored body _ _ _ _ s s (.refl _) around tied
  cases run : lowerBody body env s with
  | error e t => trivial
  | ok pads t =>
    cases run' : lowerBody body { env with options.debugComments := false } s with
    | error e' t' =>
      rw [run, run'] at together
      exact together.elim
    | ok pads' t' =>
      rw [run, run'] at together
      obtain ⟨U, later, tied, -⟩ := together
      have weave := tied.draft.body
      rw [later.extra] at weave
      exact fun value hr => weave.returns hr

end Lower
end Returns

section Callee
namespace Lower

structure Takes (f : Ast.Function) (u : State) (incoming : Incoming) (made : Code.Function)
    (returns : Bool) : Prop where
  arguments : made.arguments = incoming.arguments
  result : incoming.result.isSome = f.returnsByHiddenSlot
  callerStatus : incoming.callerStatus.isSome = f.canRaise
  length : incoming.parameters.length = f.parameters.length
  /-- The code of the body begins with the stores of the parameters, in their order. -/
  stored : ∀ (k : Nat) (v : VariableId), f.parameters[k]? = some v → ∃ r l,
    incoming.parameters[k]? = some r ∧ u.location? v = some l ∧
    made.instrs[u.draft.entry.size + k]? = some (.store l.slot r)
  returned : ∀ (k : Nat) value, made.instrs[k]? = some (.ret value) → value.isSome = returns

theorem emitTrace_adds {p : Instr → Bool} (calls : ∀ callee arguments dest,
    p (.call callee arguments dest)) (function : String) : Adding p (emitTrace function) := by
  refine .ask fun env => ?_
  split
  · exact .ask fun _ => .emit (calls _ _ _)
  · exact .pure _

theorem prologue_opens (f : Ast.Function) {env : Env} :
    Ensures (fun incoming s => State.empty.Adds env.symbols Instr.isOpening s ∧
        incoming.result.isSome = f.returnsByHiddenSlot ∧
        incoming.callerStatus.isSome = f.canRaise ∧
        ∃ code, code <+: s.draft.body.toList ∧ s.Stores f.parameters incoming.parameters code)
      (prologue f env .empty) := by
  unfold prologue
  refine ((receive_taken f).and
    (receive_adds (p := Instr.isOpening) (fun _ _ => rfl) f env .empty).anyError).seq
    fun incoming s ⟨taken, first⟩ => ?_
  obtain ⟨code, body, stores⟩ := taken.stores
  refine (emitTrace_adds (p := Instr.isOpening) (fun _ _ _ => rfl) _ env s).anyError.seq
    fun _ t more => .ret ⟨first.trans more, taken.result, taken.callerStatus, code, ?_, ?_⟩
  · obtain ⟨added, body', -⟩ := more.body
    rw [body', Array.toList_append, body]
    simp [State.empty, Draft.empty]
  · exact stores.mono more.houses.stays

theorem State.Later.store {s t : State} (later : s.Later t) {k : Nat} {slot r : Register}
    (h : s.draft.body[k]? = some (.store slot r)) : t.draft.body[k]? = some (.store slot r) := by
  obtain ⟨i, hi, settles⟩ := later.draft.body k _ h
  rw [hi, settles]

theorem State.Later.setup {s t : State} (later : s.Later t) (h : ∀ i ∈ s.draft.entry, i.isSetup) :
    ∀ i ∈ t.draft.entry, i.isSetup := by
  obtain ⟨slots, entry, setup⟩ := later.draft.entry
  rw [entry]
  intro i hi
  exact (Array.mem_append.1 hi).elim (h i) (setup i)

theorem lowerAll_takes (f : Ast.Function) {env : Env} (switch : env.switch = none)
    (region : env.region = none) :
    Ensures (fun made u => made.name = env.symbol.name ∧ ∃ incoming p,
        prologue f env .empty = .ok incoming p ∧
        Takes f u incoming made (env.symbols.returnsInRegister env.symbol f.returnsByHiddenSlot))
      (lowerAll f env .empty) := by
  refine (prologue_opens f).recorded.seq
    fun incoming s ⟨⟨start, result, status, code, opening, stores⟩, received⟩ => ?_
  refine .seq (Ends.inside (Ends.and (lowerBody_later f.body)
    (lowerBody_returns f.body start switch region))) fun pads t ⟨later, returned⟩ => ?_
  refine .look (Ends.query fun _ _ => ?_)
  refine .ask (Ends.answered (fun made lowered => ?_) fun _ _ => trivial)
  have fields := Draft.toFunction_fields lowered
  have setup : ∀ i ∈ t.draft.entry, i.isSetup := by
    refine later.setup (start.later.setup ?_)
    simp [State.empty, Draft.empty]
  refine ⟨fields.name, incoming, s, received, fields.arguments, result, status,
    stores.length_eq.1, fun k v hv => ?_, fun k value hr => ?_⟩
  · obtain ⟨r, l, register, located, store⟩ := stores.at_place hv
    refine ⟨r, l, register, later.locations v l located, ?_⟩
    have here : s.draft.body[k]? = some (.store l.slot r) := by
      obtain ⟨rest, whole⟩ := opening
      rw [← Array.getElem?_toList, ← whole,
        List.getElem?_append_left (List.getElem?_eq_some_iff.1 store).1, store]
    rw [fields.instrs, Array.getElem?_append_right (by omega), Nat.add_sub_cancel_left]
    exact later.store here
  · rw [← result]
    refine returned value ?_
    have there := Array.mem_of_getElem? hr
    rw [fields.instrs] at there
    rcases Array.mem_append.1 there with slot | written
    · cases setup _ slot
    · exact written

end Lower
end Callee

section Caller
namespace Lower

structure Outgoing where
  /-- The slot for a result that is built in place. -/
  result : Option Register
  /-- The object and the arguments. -/
  values : List Operand
  /-- The slot for the status. -/
  status : Option Register

def Outgoing.arguments (o : Outgoing) : List Operand :=
  o.result.toList.map .reg ++ o.values ++ o.status.toList.map .reg

structure State.Calls (s t : State) (k : Nat) (target : Callee) (o : Outgoing)
    (dest : Option Register) : Prop where
  added : s.draft.body.size ≤ k
  here : t.draft.body[k]? = some (.call target o.arguments dest)
  last : ∀ j i, k < j → t.draft.body[j]? = some i → i.isCall = false
  /-- A status is passed in the slot that is tested. -/
  status : ∀ r, o.status = some r → t.status = some r

/-- The function that a call goes to, unless that is only known when the code runs. -/
def Goes (name : String) (isVirtual : Bool) (target : Callee) : Prop :=
  if isVirtual then ∃ r, target = .indirect r else target = .direct name

structure Gives (symbol : FunctionSymbol) (object : Option Operand) (count : Nat) (returns : Bool)
    (o : Outgoing) (dest : Option Register) : Prop where
  result : o.result.isSome = symbol.returnsByHiddenSlot
  status : o.status.isSome = symbol.canRaise
  values : ∃ operands : List Operand, o.values = object.toList ++ operands ∧ operands.length = count
  dest : dest.isSome = returns

variable {env : Env} {s : State}

theorem resultSlot_ends (symbol : FunctionSymbol) :
    Ensures (fun slot t => slot.isSome = symbol.returnsByHiddenSlot ∧ s.Later t)
      (resultSlot symbol env s) := by
  refine Ends.mono (Ends.and (Q := fun slot _ => slot.isSome = symbol.returnsByHiddenSlot) ?_
    ((resultSlot_straight symbol).growing env s)) fun _ _ h => h
  unfold resultSlot
  cases symbol.returnsByHiddenSlot with
  | true =>
    exact ((codeType_derives _).straight.growing env s).seq fun ty t _ =>
      ((Adding.allocSlot (p := fun _ => true) ty env t).anyError).seq fun _ _ _ => .ret rfl
  | false => exact .ret rfl

theorem mapM_length {f : α → LowerM β} : ∀ (as : List α) {s : State},
    Ensures (fun bs _ => bs.length = as.length) (as.mapM f env s)
  | [], _ => .ret rfl
  | a :: as, s => by
    rw [mapM_cons]
    refine .seq (P := fun _ _ => True) (Ends.any _) fun b t _ => ?_
    exact (mapM_length as).seq fun bs _ h => .ret (congrArg (· + 1) h)

theorem statusArgument_ends (symbol : FunctionSymbol) :
    Ensures (fun arguments t => s.Later t ∧ ∃ status : Option Register,
        arguments = status.toList.map .reg ∧ status.isSome = symbol.canRaise ∧
        ∀ r, status = some r → t.status = some r)
      (statusArgument symbol env s) := by
  unfold statusArgument
  cases symbol.canRaise with
  | true =>
    refine statusSlot_spec.seq fun r t ⟨status, _, _, _, later⟩ =>
      .ret ⟨later, some r, rfl, rfl, ?_⟩
    rintro _ ⟨⟩
    exact status
  | false => exact .ret ⟨.refl s, none, rfl, rfl, nofun⟩

theorem callee_goes (symbol : FunctionSymbol) (isVirtual : Bool)
    (object : Option (Operand × TypeId)) :
    Ensures (fun target t => Goes symbol.name isVirtual target ∧ s.Later t)
      (callee symbol isVirtual object env s) := by
  refine Ends.mono (Ends.and (Q := fun target _ => Goes symbol.name isVirtual target) ?_
    ((callee_derives symbol isVirtual object).straight.growing env s)) fun _ _ h => h
  unfold callee
  cases isVirtual with
  | false => exact .ret rfl
  | true =>
    cases object with
    | none => trivial
    | some found =>
      exact .seq (P := fun _ _ => True) (Ends.any _) fun r _ _ => .ret ⟨r, rfl⟩

theorem callDest_ends (symbol : FunctionSymbol) {slot : Option Register}
    (hidden : slot.isSome = symbol.returnsByHiddenSlot) :
    Ensures (fun dest t => s.Later t ∧
        dest.isSome = env.symbols.returnsInRegister symbol symbol.returnsByHiddenSlot)
      (callDest symbol slot env s) := by
  rw [← hidden]
  cases slot with
  | some slot => exact .ret ⟨.refl s, rfl⟩
  | none =>
    refine .and (F := fun _ => True) ((resultRegister_straight symbol).growing env s) ?_
    refine .seq (P := fun void _ => env.symbols.isVoid symbol.returnType = .ok void)
      (Ends.table (Ends.answered (fun _ h => h) fun _ _ => trivial)) fun void t known => ?_
    rw [SymbolTable.returnsInRegister, known]
    cases void with
    | true => exact .ret rfl
    | false =>
      refine .seq (P := fun _ _ => True) (Ends.any _) fun ty u _ => ?_
      dsimp only
      split
      · trivial
      · exact .seq (P := fun _ _ => True) (Ends.any _) fun _ _ _ => .ret rfl

theorem testCall_ends (symbol : FunctionSymbol) {status : Option Register}
    (raises : status.isSome = symbol.canRaise) (made : ∀ r, status = some r → s.status = some r) :
    Ensures (fun _ t => t.status = s.status ∧ ∃ code : List Instr,
        t.draft.body = s.draft.body ++ code.toArray ∧ ∀ i ∈ code, i.isCall = false)
      (testCall symbol env s) := by
  unfold testCall
  rw [← raises]
  cases status with
  | none => exact .ret ⟨rfl, [], by simp, by simp⟩
  | some r =>
    rw [Option.isSome_some, if_pos rfl, Marks.testStatus_eq env 0 (made r rfl)]
    refine ⟨rfl, [.load ⟨s.draft.registers.size⟩ r, .branch (.reg ⟨s.draft.registers.size⟩)
      (some ⟨s.draft.labels⟩) (some ⟨s.draft.labels + 1⟩), .label ⟨s.draft.labels + 1⟩], ?_, ?_⟩
    · exact Array.ext' (by simp)
    · simp [Instr.isCall]

theorem oweDestructor_ends (object : Operand) (ty : TypeId) :
    Ensures (fun _ t => t.status = s.status ∧ t.draft = s.draft)
      (oweDestructor object ty env s) := by
  refine .asked fun destructor _ => ?_
  cases destructor with
  | none => exact .ret ⟨rfl, rfl⟩
  | some destructor =>
    refine .look (Ends.query fun cleanups _ => ?_)
    exact .put ⟨rfl, rfl⟩

theorem callResult_ends (symbol : FunctionSymbol) (slot dest : Option Register) :
    Ensures (fun _ t => t.status = s.status ∧ t.draft = s.draft)
      (callResult symbol slot dest env s) := by
  cases slot with
  | none => exact .ret ⟨rfl, rfl⟩
  | some slot => exact (oweDestructor_ends _ _).seq fun _ _ h => .ret h

theorem plans_length (es : List Expr) : (plans es).length = es.length := by
  induction es with
  | nil => rfl
  | cons e es ih => exact congrArg (· + 1) ih

theorem callFunction_gives (symbol : FunctionSymbol) (object : Option Operand) (es : List Expr)
    (isVirtual : Bool) :
    Ensures (fun _ t => ∃ k target o dest, s.Calls t k target o dest ∧
        Goes symbol.name isVirtual target ∧ Gives symbol object es.length
          (env.symbols.returnsInRegister symbol symbol.returnsByHiddenSlot) o dest)
      (callFunction symbol object (plans es) isVirtual env s) := by
  unfold callFunction
  refine (resultSlot_ends symbol).seq fun slot s1 ⟨hidden, later1⟩ => ?_
  have operands : Traced (owing fun _ => False) ((plans es).mapM Plan.operand) :=
    (traced_rules _).operands ((traced_rules _).plans es)
  refine (Ends.and (operands.later env s1)
    (mapM_length (plans es))).seq fun operands s2 ⟨later2, length⟩ => ?_
  refine (statusArgument_ends symbol).seq fun _ s3 ⟨later3, status, same, raises, made⟩ => ?_
  subst same
  refine (callee_goes symbol isVirtual _).seq fun target s4 ⟨goes, later4⟩ => ?_
  refine (callDest_ends symbol hidden).seq fun dest s5 ⟨later5, returns⟩ => ?_
  let o : Outgoing := ⟨slot, object.toList ++ operands, status⟩
  have passed : slot.toList.map Operand.reg ++ object.toList ++ operands ++ status.toList.map .reg =
      o.arguments := by simp [o, Outgoing.arguments]
  rw [passed]
  refine .seq (P := fun _ t => t = { s5 with
    draft.body := s5.draft.body.push (.call target o.arguments dest) }) rfl ?_
  rintro _ s6 rfl
  have stays (r : Register) (h : status = some r) : s5.status = some r :=
    later5.status r (later4.status r (made r h))
  refine .seq (testCall_ends symbol raises fun r h => stays r h)
    fun _ s7 ⟨status7, code, body, quiet⟩ => ?_
  refine (callResult_ends symbol slot dest).mono fun _ t ⟨status8, draft⟩ => ?_
  have later := (((later1.trans later2).trans later3).trans later4).trans later5
  have whole : t.draft.body = (s5.draft.body.push (.call target o.arguments dest)) ++
      code.toArray := by
    rw [draft, body]
  refine ⟨s5.draft.body.size, target, o, dest, ⟨later.draft.size_le, ?_, ?_, ?_⟩, goes,
    ⟨hidden, raises, ⟨operands, rfl, length.trans (plans_length es)⟩, returns⟩⟩
  · rw [whole, Array.getElem?_append_left (by simp), Array.getElem?_push_size]
  · intro j i behind hj
    rw [whole, Array.getElem?_append_right (by simp; omega)] at hj
    exact quiet i (by simpa using Array.mem_of_getElem? hj)
  · intro r h
    rw [status8, status7]
    exact stays r h

end Lower
end Caller

section Convention
open Lower

/-- What a call passes is what the function takes. -/
structure Lower.Outgoing.Meets (o : Outgoing) (dest : Option Register)
    (f : Ast.Function) (u : State)
    (incoming : Incoming) (made : Code.Function) : Prop where
  arguments : made.arguments = incoming.arguments
  count : o.arguments.length = made.arguments.length
  /-- The address for the result comes first on both sides. -/
  result : o.result.isSome = f.returnsByHiddenSlot ∧
    incoming.result.isSome = f.returnsByHiddenSlot
  /-- The address for the status comes last on both sides. -/
  status : o.status.isSome = f.canRaise ∧ incoming.callerStatus.isSome = f.canRaise
  /-- In between, each value is taken by the register that is stored in the parameter's slot. -/
  stored : ∀ (k : Nat) (v : VariableId), f.parameters[k]? = some v → ∃ x r l,
    o.values[k]? = some x ∧ o.arguments[o.result.toList.length + k]? = some x ∧
    made.arguments[o.result.toList.length + k]? = some r ∧ u.location? v = some l ∧
    made.instrs[u.draft.entry.size + k]? = some (.store l.slot r)
  returned : ∀ (k : Nat) value, made.instrs[k]? = some (.ret value) → value.isSome = dest.isSome

theorem Lower.Takes.meets {f : Ast.Function} {u : State} {incoming : Incoming}
    {made : Code.Function} {returns : Bool} (takes : Takes f u incoming made returns)
    {symbol : FunctionSymbol} {object : Option Operand} {n : Nat} {o : Outgoing}
    {dest : Option Register} (gives : Gives symbol object n returns o dest)
    (hidden : f.returnsByHiddenSlot = symbol.returnsByHiddenSlot)
    (raises : f.canRaise = symbol.canRaise)
    (count : object.toList.length + n = f.parameters.length) : o.Meets dest f u incoming made := by
  have result : o.result.isSome = f.returnsByHiddenSlot := gives.result.trans hidden.symm
  have status : o.status.isSome = f.canRaise := gives.status.trans raises.symm
  have one {x y : Option Register} (h : x.isSome = y.isSome) :
      x.toList.length = y.toList.length := by
    cases x <;> cases y <;> first | rfl | cases h
  have values : o.values.length = f.parameters.length := by
    obtain ⟨operands, same, length⟩ := gives.values
    rw [same, length_append, length, count]
  have first := one (result.trans takes.result.symm)
  refine ⟨takes.arguments, ?_, ⟨result, takes.result⟩, ⟨status, takes.callerStatus⟩,
    fun k v hv => ?_, fun k value hr => ?_⟩
  · simp only [takes.arguments, Outgoing.arguments, Incoming.arguments, length_append,
      length_map, first, one (status.trans takes.callerStatus.symm), values, takes.length]
  · obtain ⟨r, l, register, located, store⟩ := takes.stored k v hv
    have below : k < o.values.length := values ▸ (List.getElem?_eq_some_iff.1 hv).1
    refine ⟨o.values[k], r, l, getElem?_eq_getElem below, ?_, ?_, located, store⟩
    · rw [Outgoing.arguments, append_assoc, getElem?_append_right (by simp),
        length_map, Nat.add_sub_cancel_left, getElem?_append_left below,
        getElem?_eq_getElem below]
    · rw [takes.arguments, first, Incoming.arguments, append_assoc,
        getElem?_append_right (by omega), Nat.add_sub_cancel_left,
        List.getElem?_append_left (List.getElem?_eq_some_iff.1 register).1, register]
  · rw [takes.returned k value hr, gives.dest]

theorem Lower.call_ordinary {f : FunctionId} {symbol : FunctionSymbol} {env : Env}
    (known : env.symbols.functionSymbol f = .ok symbol) (ordinary : symbol.operator = none)
    (object : Option Operand) (arguments : List Plan) (isVirtual : Bool) (ty : TypeId) (s : State) :
    call f object arguments isVirtual ty env s =
      callFunction symbol object arguments isVirtual env s := by
  have found : functionSymbol f env s = .ok symbol s := by
    change (liftM (env.symbols.functionSymbol f) : LowerM FunctionSymbol) env s = _
    rw [known]
    rfl
  rw [call, run_bind found, ordinary]

/-- Callers and functions agree. Wherever a function that is no operator is called with as many
values as it has parameters, the call in the code passes as many arguments as the function takes, in
the same layout; the value at each place is taken by the register that is stored in the slot of the
parameter at this place, and the call has a register for the result if and only if the returns of
the function carry a value. -/
theorem call_meets_function {symbols : SymbolTable} {options : Options} {f : Ast.Function}
    {symbol : FunctionSymbol} {made : Code.Function} {env : Env} {s t : State}
    {object : Option Operand} {es : List Expr} {isVirtual : Bool} {ty : TypeId}
    {value : Option Operand} (known : symbols.functionSymbol f.function = .ok symbol)
    (ordinary : symbol.operator = none)
    (hidden : f.returnsByHiddenSlot = symbol.returnsByHiddenSlot)
    (raises : f.canRaise = symbol.canRaise) (lowered : lowerFunction symbols options f = .ok made)
    (table : env.symbols = symbols)
    (called : call f.function object (plans es) isVirtual ty env s = .ok value t)
    (count : object.toList.length + es.length = f.parameters.length) :
    ∃ k target o dest env' incoming b u, s.Calls t k target o dest ∧
      Goes made.name isVirtual target ∧
      (∃ operands : List Operand, o.values = object.toList ++ operands ∧
        operands.length = es.length) ∧
      Staged symbols options f env' incoming b u made ∧ o.Meets dest f u incoming made := by
  subst table
  rw [call_ordinary known ordinary] at called
  obtain ⟨k, target, o, dest, calls, goes, gives⟩ :=
    (callFunction_gives symbol object es isVirtual).of_ok called
  obtain ⟨env', incoming, b, u, staged⟩ := lowerFunction_staged lowered
  obtain ⟨_, _, _, received, -, -⟩ := staged.body
  have same : env'.symbol = symbol := Except.ok.inj (staged.known.symm.trans known)
  have around : env'.symbols = env.symbols ∧ env'.switch = none ∧ env'.region = none := by
    rw [staged.start]
    exact ⟨rfl, rfl, rfl⟩
  obtain ⟨name, incoming', p, received', takes⟩ :=
    (lowerAll_takes f around.2.1 around.2.2).of_ok staged.whole
  cases received.symm.trans received'
  rw [← hidden] at gives
  rw [around.1, same] at takes
  rw [name, same]
  exact ⟨k, target, o, dest, env', incoming, b, u, calls, goes, gives.values, staged,
    takes.meets gives hidden raises count⟩

/-- `make(code) { throw code; }`, which builds its result in a slot of the caller. -/
def makeGuard : Ast.Function where
  function := ⟨3⟩
  parameters := [⟨0⟩]
  locals := []
  body := [.throw_ (.parameter ⟨3⟩ ⟨0⟩)]
  returnsByHiddenSlot := true
  canRaise := true

/-- What `make(7)` is called in: a function with a scope for temporaries. -/
def callingMake : Env × State :=
  (.start guardSymbols ⟨"main", ⟨0⟩, true, false, none, none, none⟩ .default ⟨[]⟩,
    { State.empty with cleanups := State.empty.cleanups.openScope })

theorem callingMake_lowers : ∃ value t, call ⟨3⟩ none (plans [.literal ⟨3⟩ (.signed 7)]) false ⟨2⟩
    callingMake.1 callingMake.2 = .ok value t ∧ t.draft.body.size = 4 :=
  Ends.exists_ok (by decide +kernel)

/-- A call that passes an address for the result, a value and an address for the status. -/
theorem makeGuard_met : ∃ made value t k target o dest env' incoming b u,
    lowerFunction guardSymbols .default makeGuard = .ok made ∧
    call ⟨3⟩ none (plans [.literal ⟨3⟩ (.signed 7)]) false ⟨2⟩ callingMake.1 callingMake.2 =
      .ok value t ∧
    callingMake.2.Calls t k target o dest ∧ target = .direct made.name ∧
    Staged guardSymbols .default makeGuard env' incoming b u made ∧
    o.Meets dest makeGuard u incoming made := by
  obtain ⟨value, t, called, -⟩ := callingMake_lowers
  obtain ⟨made, lowered⟩ :=
    exists_ok_of_isSome (x := lowerFunction guardSymbols .default makeGuard) (by decide +kernel)
  obtain ⟨k, target, o, dest, env', incoming, b, u, calls, goes, -, staged, meets⟩ :=
    call_meets_function (f := makeGuard) rfl rfl rfl rfl lowered rfl called rfl
  exact ⟨made, value, t, k, target, o, dest, env', incoming, b, u, lowered, called, calls, goes,
    staged, meets⟩

end Convention

end FlatCode
