import FlatCode.Proofs.Typing.Rules


/-! Lowering gives operands of the types that the rules tell. Slots are typed by the plans of their
variables, registers by the instruction that writes them, and operators hand on what they get. -/
namespace FlatCode
open Code Symbols Ast

namespace Lower
variable {env : Env} {s t u : State} {table : SymbolTable} {e x : Expr} {v : VariableId}
  {place : Bool} {a : Operand} {ty : TypeId} {c : Ty} {kind : TypeKind} {l : Location}

def State.Shows (table : SymbolTable) (s : State) (e : Expr) (place : Bool) (a : Operand) : Prop :=
  ∃ c, Shown table e place c ∧ s.draft.Fits a c

theorem State.Shows.later (h : s.Shows table e place a) (later : s.Later t) :
    t.Shows table e place a := by
  obtain ⟨c, shown, fits⟩ := h
  exact ⟨c, shown, fits.later later.draft⟩

def Bears (env : Env) (e : Expr) (place : Bool) (m : LowerM Operand) : Prop :=
  ∀ s, s.Lodged env.symbols → Ensures (fun a u => u.Shows env.symbols e place a) (m env s)

def Yields (env : Env) (e : Expr) (m : LowerM (Option Operand)) : Prop :=
  ∀ s, s.Lodged env.symbols →
    Ensures (fun r u => ∀ a, r = some a → u.Shows env.symbols e false a) (m env s)

structure Borne (env : Env) (e : Expr) : Prop where
  value : Bears env e false (plan e).operand
  address : Bears env e true (plan e).address

theorem Yields.operand (kind : String) {m : LowerM (Option Operand)} (h : Yields env e m) :
    Bears env e false (requireValue kind m) := by
  intro s lodged
  refine (h s lodged).seq fun r u given => ?_
  cases r with
  | some a => exact Ends.ret (given a rfl)
  | none => exact Ends.fail trivial

section Places

theorem put_typed (c : Ty) (i : Register → Instr) :
    Ensures (fun a u => u.draft.operandType? a = some c) ((do
      let r ← Draft.newRegister c
      emit (i r)
      return .reg r : LowerM Operand) env s) :=
  Array.getElem?_push_size

/-- What is kept at an address is read, and an object stays where it is. -/
theorem loadValue_shows (kept : e.isPlace ∨ e.named?.isSome)
    (there : s.Shows env.symbols e true a) :
    Ensures (fun a u => u.Shows env.symbols e false a) (loadValue a e.ty env s) := by
  refine Ends.asked fun kind known => ?_
  split
  · obtain ⟨c, shown, fits⟩ := there
    exact Ends.ret ⟨c, .object kept known shown, fits⟩
  · exact Ends.fail trivial
  · rename_i notObject _
    have plain : kind.isObject = false := by
      cases kind <;> first | rfl | exact absurd rfl (notObject _)
    exact Ends.asked fun c code => (put_typed c _).mono fun x u typed =>
      ⟨c, .read kept known plain code, .inl typed⟩

theorem Borne.of_place (place : e.isPlace) (h : Bears env e true (plan e).address) :
    Borne env e := by
  refine ⟨fun s lodged => ?_, h⟩
  rw [operand_of_place place]
  exact (h s lodged).seq fun a u shows => loadValue_shows (.inl place) shows

theorem addressOfVariable_shows (names : e.named? = some v) (lodged : s.Lodged env.symbols)
    (declared : env.symbols.Declares v e.ty) :
    Ensures (fun a u => u.Shows env.symbols e true a) (addressOfVariable v env s) := by
  refine Ends.look (Ends.query fun l found => ?_)
  obtain ⟨-, typed, kind, role, known, -, shape, held⟩ :=
    lodged.held declared (Storage.lookup_ok.1 found)
  have rule : Shown env.symbols e true (l.shape.addressType l.slotType) := by
    rw [shape]
    exact .slot (by rw [names]; rfl) known held
  cases there : l.shape <;> rw [there] at rule
  case value | pointer => exact ⟨_, rule, .inl typed⟩
  case reference | byAddress => exact ⟨_, rule, .inl Array.getElem?_push_size⟩

theorem variable_borne (names : e.named? = some v) (declared : env.symbols.Declares v e.ty) :
    Borne env e := by
  have kept : e.named?.isSome := by rw [names]; rfl
  obtain ⟨value, address⟩ : (plan e).value = valueOfVariable v ∧
      (plan e).address = addressOfVariable v := by
    cases e <;> cases names <;> (rw [plan]; exact ⟨rfl, rfl⟩)
  refine ⟨Yields.operand _ fun s lodged => ?_, fun s lodged => ?_⟩
  · rw [value]
    refine Ends.look (Ends.query fun l found => ?_)
    obtain ⟨same, -, kind, role, known, -, shape, -⟩ :=
      lodged.held declared (Storage.lookup_ok.1 found)
    refine (addressOfVariable_shows names lodged declared).seq fun a u shows => ?_
    have given (indirect : kind.isDirect = false) :
        Ensures (fun r u => ∀ a, r = some a → u.Shows env.symbols e false a)
          ((pure (some a) : LowerM (Option Operand)) env u) := by
      refine Ends.ret ?_
      rintro _ ⟨⟩
      obtain ⟨c, shown, fits⟩ := shows
      exact ⟨c, shown.value_of_slot kept known indirect, fits⟩
    have read : Ensures (fun r u => ∀ a, r = some a → u.Shows env.symbols e false a)
        ((do return some (← loadValue a l.ty) : LowerM (Option Operand)) env u) := by
      rw [same]
      refine (loadValue_shows (.inr kept) shows).seq fun a w shows => Ends.ret ?_
      rintro _ ⟨⟩
      exact shows
    rw [shape]
    cases kind <;> cases role <;> first | exact given rfl | exact read
  · rw [address]
    exact addressOfVariable_shows names lodged declared

end Places

section Computed

theorem Borne.of_value (computed : e.isComputed) (h : Yields env e (plan e).value)
    (address : (plan e).address = addressIn e (plan e).value) : Borne env e := by
  refine ⟨h.operand _, fun s lodged => ?_⟩
  rw [address]
  have represented {kind : TypeKind} (known : env.symbols.typeKind e.ty = .ok kind)
      (indirect : kind.isDirect = false) :
      Ensures (fun a u => u.Shows env.symbols e true a)
        (requireValue e.kind (plan e).value env s) := by
    refine (h.operand _ s lodged).mono fun a u ⟨c, shown, fits⟩ => ?_
    exact ⟨c, .indirect computed known indirect shown, fits⟩
  refine Ends.asked fun kind known => ?_
  split
  · exact represented known rfl
  · exact represented known rfl
  · exact Ends.fail trivial

theorem Literal.toImm_fits {represent : TypeId → Ty → Prop} {value : Literal}
    (suits : value.suits kind) (h : table.Represents represent kind c) (d : Draft) :
    d.Fits (.imm (value.toImm c)) c := by
  cases value <;> cases h <;> first
    | exact .inl rfl
    | exact .inr ⟨rfl, rfl⟩
    | cases suits

theorem literal_borne {value : Literal} (carries : (Expr.literal ty value).Carries env.symbols) :
    Borne env (.literal ty value) := by
  refine .of_value rfl (fun s _ => ?_) (by rw [plan]; rfl)
  refine Ends.asked fun c code => Ends.ret ?_
  rintro _ ⟨⟩
  obtain ⟨kind, known, suits⟩ := carries
  obtain ⟨_, known', represents⟩ := SymbolTable.codeType_iff.1 code
  cases known.symm.trans known'
  exact ⟨c, .literal code, Literal.toImm_fits suits represents _⟩

theorem member_borne {field : UInt32}
    (carries : (Expr.memberVariable ty x field).Carries env.symbols) :
    Borne env (.memberVariable ty x field) := by
  refine .of_place rfl fun s _ => ?_
  refine (Ends.any _).seq fun a t _ => Ends.asked fun u plain => Ends.asked fun c known => ?_
  obtain ⟨_, _, plain', known', found⟩ := carries
  rw [Calculator.plan_ty] at plain
  cases plain.symm.trans plain'
  cases known.symm.trans known'
  rw [found]
  exact Ends.asked fun p behind => ⟨.ptr p, .member behind, .inl Array.getElem?_push_size⟩

theorem addressOf_borne (ty : TypeId) (h : Borne env x) : Borne env (.addressOf ty x) := by
  refine .of_value rfl (fun s lodged => ?_) (by rw [plan]; rfl)
  refine (h.address s lodged).seq fun a u shows => Ends.ret ?_
  rintro _ ⟨⟩
  obtain ⟨c, shown, fits⟩ := shows
  exact ⟨c, .addressOf shown, fits⟩

theorem dereference_borne (ty : TypeId) (h : Borne env x) :
    Borne env (.dereference ty x) := by
  refine .of_place rfl fun s lodged => (h.value s lodged).mono fun a u ⟨c, shown, fits⟩ => ?_
  exact ⟨c, .dereference shown, fits⟩

theorem materialize_typed (jump : LowerM Branches) :
    Ensures (fun r u => ∀ a, r = some a → u.draft.operandType? a = some .bool)
      (materialize jump env s) := by
  unfold materialize
  refine (Ends.any _).seq fun b t _ => ?_
  refine Ends.seq (P := fun r u => u.draft.operandType? (.reg r) = some .bool)
    Array.getElem?_push_size fun r u typed => ?_
  refine ((trueSide_traced b r).growing env u).seq fun done u₁ later₁ => ?_
  refine ((falseSide_traced b r).growing env u₁).seq fun _ u₂ later₂ => ?_
  refine ((resolveHere_traced done).growing env u₂).seq fun _ u₃ later₃ => Ends.ret ?_
  rintro _ ⟨⟩
  exact ((later₁.trans later₂).trans later₃).draft.operandType? typed

theorem connective_borne {jump : LowerM Branches} (h : e.isConnective)
    (value : plan e = .ofJump e jump) : Borne env e := by
  refine .of_value (by cases e <;> first | rfl | cases h) (fun s _ => ?_) (by rw [value]; rfl)
  rw [value]
  exact (materialize_typed jump).mono fun r u typed a result =>
    ⟨.bool, .connective h, .inl (typed a result)⟩

theorem addressOfTemporary_located (v : VariableId) (ctor : FunctionId) (arguments : List Expr)
    (destroy : Bool) : Ensures (fun a u => ∃ l, u.location? v = some l ∧ a = .reg l.slot)
      (addressOfTemporary v ctor (plans arguments) destroy env s) := by
  refine (allocate_located v .localVariable).seq fun l t located => ?_
  have built : Traced (owing fun _ => True) (construct l.slot ctor (plans arguments)) :=
    (traced_rules _).construct _ ctor ((traced_rules _).plans arguments)
  refine (built.later env t).seq fun _ u later => ?_
  have found := later.locations v l located
  split
  · have owing : Traced (owing fun _ => True) (oweDestructor l.slot l.ty) :=
      oweDestructor_traced _ _
    exact (owing.later env u).seq fun _ w later' =>
      Ends.ret ⟨l, later'.locations v l found, rfl⟩
  · exact Ends.ret ⟨l, found, rfl⟩

theorem temporary_borne {ctor : FunctionId} {arguments : List Expr} {destroy : Bool}
    (carries : (Expr.temporary ty v ctor arguments destroy).Carries env.symbols) :
    Borne env (.temporary ty v ctor arguments destroy) := by
  refine .of_place rfl fun s lodged => ?_
  have traced : Traced (owing fun _ => True)
      (addressOfTemporary v ctor (plans arguments) destroy) :=
    (traced_rules _).addressOfTemporary v ctor destroy ((traced_rules _).plans arguments)
  refine ((addressOfTemporary_located v ctor arguments destroy).and (traced env s)).mono ?_
  rintro _ u ⟨⟨l, located, rfl⟩, trace⟩
  obtain ⟨-, typed, _, role, -, -, -, held⟩ := (trace.lodged lodged).held carries located
  exact ⟨.ptr l.slotType, .temporary held, .inl typed⟩

end Computed

section Calls

def ResultTyped (table : SymbolTable) (symbol : FunctionSymbol) (hidden : Bool) (s : State)
    (r : Register) : Prop :=
  ∃ c, table.codeType symbol.returnType = .ok c ∧
    s.draft.operandType? (.reg r) = some (if hidden then .ptr c else c)

theorem ResultTyped.later {symbol : FunctionSymbol} {hidden : Bool} {r : Register}
    (h : ResultTyped table symbol hidden s r) (later : s.draft.Later t.draft) :
    ResultTyped table symbol hidden t r := by
  obtain ⟨c, code, typed⟩ := h
  exact ⟨c, code, later.operandType? typed⟩

theorem testCall_growing (symbol : FunctionSymbol) : Growing (testCall symbol) := by
  unfold testCall
  split
  · exact (testStatus_traced 0).growing
  · exact .pure _

theorem resultSlot_typed (symbol : FunctionSymbol) :
    Ensures (fun slot t => ∀ r ∈ slot, ResultTyped env.symbols symbol true t r)
      (resultSlot symbol env s) := by
  unfold resultSlot
  split
  · refine Ends.asked fun c code => ?_
    rintro _ ⟨⟩
    exact ⟨c, code, Array.getElem?_push_size⟩
  · exact Ends.ret nofun

theorem callDest_typed (symbol : FunctionSymbol) (slot : Option Register) :
    Ensures (fun dest t => ∀ r ∈ dest, ResultTyped env.symbols symbol false t r)
      (callDest symbol slot env s) := by
  unfold callDest
  split
  · exact Ends.ret nofun
  · refine Ends.asked fun void _ => ?_
    split
    · exact Ends.ret nofun
    · refine Ends.asked fun c code => ?_
      split
      · trivial
      · rintro _ ⟨⟩
        exact ⟨c, code, Array.getElem?_push_size⟩

theorem operands_later (xs : List Expr) :
    Ensures (fun _ u => s.Later u) ((plans xs).mapM Plan.operand env s) := by
  have traced : Traced (owing fun _ => False) ((plans xs).mapM Plan.operand) :=
    (traced_rules _).operands ((traced_rules _).plans xs)
  exact traced.later env s

theorem callFunction_typed (symbol : FunctionSymbol) (es : List Expr) (isVirtual : Bool) :
    Ensures (fun result t => ∀ a, result = some a → ∃ r, a = .reg r ∧
        ResultTyped env.symbols symbol symbol.returnsByHiddenSlot t r)
      (callFunction symbol none (plans es) isVirtual env s) := by
  unfold callFunction
  refine ((resultSlot_ends symbol).and (resultSlot_typed symbol)).seq
    fun slot s₁ ⟨⟨hidden, _⟩, slotTyped⟩ => ?_
  refine (operands_later es).seq fun operands s₂ later₂ => ?_
  refine (statusArgument_ends symbol).seq fun status s₃ ⟨later₃, _⟩ => ?_
  refine ((callee_derives symbol isVirtual _).straight.growing env s₃).seq
    fun target s₄ later₄ => ?_
  refine ((callDest_ends symbol hidden).and (callDest_typed symbol slot)).seq
    fun dest s₅ ⟨⟨later₅, _⟩, destTyped⟩ => ?_
  refine ((emit_traced rfl : Traced (fun _ => True) _).growing env s₅).seq fun _ s₆ later₆ => ?_
  refine (testCall_growing symbol env s₆).seq fun _ s₇ later₇ => ?_
  rw [← hidden]
  cases slot with
  | some r =>
    refine (oweDestructor_ends r symbol.returnType).seq fun _ s₈ ⟨_, draft⟩ => Ends.ret ?_
    rintro _ ⟨⟩
    have later := ((((later₂.trans later₃).trans later₄).trans later₅).trans later₆).trans later₇
    exact ⟨r, rfl, (slotTyped r rfl).later (draft ▸ later.draft)⟩
  | none =>
    refine Ends.ret fun a result => ?_
    obtain ⟨r, found, rfl⟩ := Option.map_eq_some_iff.1 result
    exact ⟨r, rfl, (destTyped r found).later (later₆.trans later₇).draft⟩

def firstOperand (op : Operator) (p : Plan) : LowerM Operand :=
  if op = .assign then p.address else p.operand

theorem operatorOperands_eq (op : Operator) (p : Plan) (ps : List Plan) :
    operatorOperands op none (p :: ps) = (do
      let a ← firstOperand op p
      let rest ← ps.mapM Plan.operand
      return a :: rest) := by
  unfold operatorOperands firstOperand
  split
  · rename_i same
    cases same
    rw [if_pos rfl]
  · rename_i other
    rw [if_neg fun h => other _ _ h rfl rfl]
    simp [List.mapM_cons]

theorem firstOperand_bears (h : Borne env x) (op : Operator) :
    Bears env x (op = .assign) (firstOperand op (plan x)) := by
  unfold firstOperand
  by_cases assign : op = .assign
  · rw [if_pos assign, decide_eq_true assign]
    exact h.address
  · rw [if_neg assign, decide_eq_false assign]
    exact h.value

theorem Applied.shows {f : FunctionId} {op : Operator} {xs : List Expr} {operands : List Operand}
    {b : Operand} (applied : Applied table op x.ty e.ty t (a :: operands) b)
    (h : e.applied? = some f) (stands : table.StandsFor f op) (parts : e.parts = x :: xs)
    (first : t.Shows table x (op = .assign) a) : t.Shows table e false b := by
  cases applied with
  | handed hands =>
    obtain ⟨c, shown, fits⟩ := first
    exact ⟨c, .handed h stands parts hands shown, fits⟩
  | written writes typed => exact ⟨_, .written h stands parts writes, .inl typed⟩

theorem applyOperator_yields {f : FunctionId} {op : Operator} (h : e.applied? = some f)
    (stands : env.symbols.StandsFor f op) (borne : ∀ x ∈ e.parts, Borne env x) :
    Yields env e (applyOperator op none (plans e.parts) e.ty) := by
  intro s lodged
  unfold applyOperator
  split
  · trivial
  · rename_i enough
    cases parts : e.parts with
    | nil =>
      rw [parts, plans] at enough
      cases op <;> exact absurd nofun enough
    | cons x xs =>
      rw [plans, operatorOperands_eq, bind_assoc]
      have first := firstOperand_bears (borne x (by simp [parts])) op s lodged
      refine first.seq fun a s₁ shows => ?_
      rw [bind_assoc]
      refine (operands_later xs).seq fun rest s₂ later => ?_
      refine Ends.asked fun plain _ => Ends.asked fun kind _ => ?_
      dsimp only
      rw [Calculator.plan_ty]
      refine ((emitOperator_hands op x.ty kind e.ty (a :: rest) env s₂).and
        ((emitOperator_derives op x.ty kind e.ty (a :: rest)).straight.growing env s₂)).mono ?_
      exact fun r u ⟨applied, later'⟩ b result =>
        (applied b result).shows h stands parts ((shows.later later).later later')

theorem plan_applied {f : FunctionId} (h : e.applied? = some f) : ∃ isVirtual,
    (plan e).value = call f none (plans e.parts) isVirtual e.ty ∧
      (plan e).address = addressIn e (plan e).value := by
  cases e <;> cases h <;> (rw [plan]; exact ⟨_, rfl, rfl⟩)

theorem call_borne {f : FunctionId} (h : e.applied? = some f)
    (borne : ∀ x ∈ e.parts, Borne env x) : Borne env e := by
  obtain ⟨isVirtual, value, address⟩ := plan_applied h
  refine .of_value (by cases e <;> first | rfl | cases h) (fun s lodged => ?_) address
  rw [value]
  refine Ends.asked fun symbol found => ?_
  cases operator : symbol.operator with
  | some op => exact applyOperator_yields h ⟨symbol, found, operator⟩ borne s lodged
  | none =>
    refine (callFunction_typed symbol e.parts isVirtual).mono fun r u typed a result => ?_
    obtain ⟨q, rfl, c, code, typed⟩ := typed a result
    exact ⟨_, .function h found operator code, .inl typed⟩

end Calls

/-- Every annotated expression is lowered to an operand of the type that the rules tell. -/
theorem borne_of_annotated (h : e.Annotated env.symbols) : Borne env e := by
  induction h with
  | @node e here _ ih =>
    cases e with
    | literal => exact literal_borne here
    | localVariable | parameter => exact variable_borne rfl here
    | memberVariable => exact member_borne here
    | addressOf => exact addressOf_borne _ (ih _ List.mem_cons_self)
    | dereference => exact dereference_borne _ (ih _ List.mem_cons_self)
    | conversion | unary | binary | call => exact call_borne rfl ih
    | conjunction | disjunction => exact connective_borne rfl (by rw [plan])
    | temporary => exact temporary_borne here

end Lower
end FlatCode
