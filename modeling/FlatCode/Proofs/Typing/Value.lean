import FlatCode.Proofs.Typing.Shown

/-! Values and addresses. What an expression is lowered to has the type that the expression carries,
unless an operator or an address-of handed it on from a part. The operand of a reference is the
address that it holds, and an operator takes the operands of its arguments as they are. The value of
an assignment is the address that it has written to. -/
namespace FlatCode
open Code Symbols Ast

def Symbols.TypeKind.isArithmetic : TypeKind → Bool
  | .bool | .char | .integer _ | .unsignedInteger _ | .float _ => true
  | _ => false

namespace Lower
variable {env : Env} {s t : State} {table : SymbolTable} {e x value : Expr} {v : VariableId}
  {ty inner : TypeId} {l : Location} {f : FunctionId} {op : Operator} {a : Operand}
  {kind : TypeKind} {c : Ty}

def Names (e : Expr) (ty : TypeId) (v : VariableId) : Prop :=
  e = .localVariable ty v ∨ e = .parameter ty v

section Operands

theorem codeType_reference (refers : table.typeKind ty = .ok (.reference inner))
    (known : table.typeKind inner = .ok kind) (direct : kind.isDirect) (some : kind ≠ .void)
    (code : table.codeType inner = .ok c) : table.codeType ty = .ok (.ptr c) := by
  have behind : table.pointee inner = .ok c := by
    unfold SymbolTable.pointee SymbolTable.pointeeBy
    rw [known]
    cases kind <;> first | exact code | exact absurd rfl some | cases direct
  exact (Storage.ptr_pointee_iff refers (.inr rfl)).1 (by rw [behind]; rfl)

theorem operand_of_reference_variable (reached : s.Reached env.symbols)
    (declared : env.symbols.Declares v ty) (located : s.location? v = some l)
    (refers : env.symbols.typeKind ty = .ok (.reference inner)) (names : Names e ty v)
    (code : env.symbols.codeType ty = .ok c) :
    (plan e).operand env s = .ok (.reg s.next) (s.put c (.load · (.reg l.slot))) := by
  obtain ⟨-, -, kind, role, known, -, shape, held⟩ := reached.lodged.held declared located
  cases refers.symm.trans known
  have slot : l.slotType = c := by
    unfold Storage.Holds at held
    rw [refers] at held
    exact Except.ok.inj (held.symm.trans code)
  obtain ⟨symbol, _, found, rfl, -⟩ := declared
  have read : (plan e).operand env s = addressOfVariable v env s := by
    rcases names with rfl | rfl <;>
      (rw [plan]; exact valueOfVariable_reference reached.lodged found refers _)
  rw [read, addressOfVariable, get_bind, run_bind (run_answer (Storage.lookup_ok.2 located)), shape,
    slot]
  rfl

/-- What is read for an expression that has an arithmetic type or refers to one. It is of that type
if the rules tell so; where the operand was made for the expression, it is the value itself or, for
a reference, an address. -/
def State.Reads (table : SymbolTable) (s : State) (x : Expr) (a : Operand) : Prop :=
  ∀ u kind, table.plainType x.ty = .ok u → table.typeKind u = .ok kind → kind.isArithmetic →
    ∃ c d, table.codeType u = .ok c ∧ Shown table x false d ∧ s.draft.Fits a d ∧
      (s.draft.HasType a c ↔ d.brief = c.brief) ∧
      (x.Makes table → d = if u = x.ty then c else .ptr c)

theorem State.Shows.reads (shows : s.Shows table x false a) (carries : x.Carries table) :
    s.Reads table x a := by
  intro u kind plain known arithmetic
  obtain ⟨d, shown, fits⟩ := shows
  obtain ⟨c, code, flat⟩ : ∃ c, table.codeType u = .ok c ∧ c.isPtr = false := by
    cases kind <;> cases arithmetic <;>
      exact ⟨_, SymbolTable.codeType_iff.2 ⟨_, known, by constructor⟩, rfl⟩
  have direct : kind.isDirect := by cases kind <;> first | rfl | cases arithmetic
  refine ⟨c, d, code, shown, fits, fits.hasType_plain flat, fun makes => ?_⟩
  obtain ⟨k, known', rfl | ⟨notReference, rfl⟩⟩ := SymbolTable.plainType_iff.1 plain
  · have apart : u ≠ x.ty := by
      rintro rfl
      cases known.symm.trans known'
      cases arithmetic
    have address : table.codeType x.ty = .ok (.ptr c) :=
      codeType_reference known' known direct (by rintro rfl; cases arithmetic) code
    rw [if_neg apart]
    exact Except.ok.inj ((shown.of_makes makes carries known' rfl).symm.trans address)
  · rw [if_pos rfl]
    cases known.symm.trans known'
    have notObject : kind.isObject = false := by cases kind <;> first | rfl | cases arithmetic
    exact Except.ok.inj ((shown.of_makes makes carries known notObject).symm.trans code)

/-- An operator that is no assignment gets the operands of its arguments as they are. That of a
variable which is a reference to a scalar has the type of an address and not that of the scalar. Any
argument brings an operand of the type that the rules tell: where its operand is made for it and it
is no reference, the type of its value. -/
theorem operator_reads (stands : env.symbols.StandsFor f op) (values : op ≠ .assign)
    (first : Expr) (es : List Expr) (arity : (plans es).length + 1 = op.arity) (isVirtual : Bool)
    (rt : TypeId) (s : State) :
    call f none (plans (first :: es)) isVirtual rt env s = (do
      let operands ← (plans (first :: es)).mapM Plan.operand
      let plain ← plainType (plan first).ty
      let kind ← typeKind plain
      emitOperator op (plan first).ty kind rt operands) env s ∧
    (∀ e ∈ first :: es, ∀ v ty inner kind c l u, Names e ty v → env.symbols.Declares v ty →
      env.symbols.typeKind ty = .ok (.reference inner) →
      env.symbols.typeKind inner = .ok kind → kind.isDirect → kind ≠ .void →
      env.symbols.codeType inner = .ok c → u.Reached env.symbols → u.location? v = some l →
      ∃ x t, (plan e).operand env u = .ok x t ∧ t.draft.operandType? x = some (.ptr c) ∧
        t.draft.operandType? x ≠ some c) ∧
    ∀ e ∈ first :: es, ∀ u a t, e.Annotated env.symbols → u.Reached env.symbols →
      (plan e).operand env u = .ok a t → t.Reads env.symbols e a := by
  refine ⟨?_, ?_, ?_⟩
  · rw [call_operator stands, plans, applyOperator_values arity values]
  · intro e _ v ty inner kind c l u names declared refers known direct some code reached located
    have typed := codeType_reference refers known direct some code
    refine ⟨_, _, operand_of_reference_variable reached declared located refers names typed,
      u.put_type _ _, fun same => ?_⟩
    rw [State.put_type, Option.some.injEq] at same
    exact absurd (congrArg sizeOf same) (by simp)
  · intro e _ u a t annotated reached run
    have shows := ((borne_of_annotated annotated).value u reached.lodged).of_ok run
    cases annotated with
    | node carries => exact shows.reads carries

end Operands

section Values

theorem assignment_value (reached : s.Reached env.symbols)
    (stands : env.symbols.StandsFor f .assign) (names : Names e ty v)
    (declared : env.symbols.Declares v ty) (located : s.location? v = some l)
    (known : env.symbols.typeKind ty = .ok kind) (direct : kind.isDirect) (rt : TypeId)
    {x : Option Operand} (run : (plan (.binary rt f e value)).value env s = .ok x t) :
    x = some (.reg l.slot) ∧ ∃ c, env.symbols.codeType ty = .ok c ∧
      t.draft.operandType? (.reg l.slot) = some (.ptr c) ∧
      t.draft.operandType? (.reg l.slot) ≠ some c := by
  have traced : Traced (owing fun _ => True) (plan (.binary rt f e value)).value :=
    (plan_traced _).value
  have later := ((traced env s).of_ok run).later
  obtain ⟨-, typed, kind', role, known', -, shape, held⟩ := reached.lodged.held declared located
  cases known.symm.trans known'
  have code : env.symbols.codeType ty = .ok l.slotType := by
    unfold Storage.Holds at held
    rw [known] at held
    cases kind <;> first | exact held | cases direct
  have address : (plan e).address env s = .ok (.reg l.slot) s := by
    have target : (plan e).address = addressOfVariable v := by
      rcases names with rfl | rfl <;> (rw [plan]; rfl)
    rw [target, addressOfVariable, get_bind, run_bind (run_answer (Storage.lookup_ok.2 located)),
      shape]
    cases kind <;> first | rfl | cases direct
  have given : Ensures (fun x _ => x = some (.reg l.slot))
      (applyOperator .assign none [plan e, plan value] rt env s) := by
    refine Ends.seq (P := fun operands _ => ∃ y, operands = [.reg l.slot, y]) ?_ ?_
    · refine Ends.known address ?_
      simp only [List.mapM_cons, List.mapM_nil, pure_bind, bind_assoc]
      exact (Ends.any _).seq fun y _ _ => ⟨y, rfl⟩
    · rintro _ u ⟨y, rfl⟩
      exact (Ends.any _).seq fun _ _ _ => (Ends.any _).seq fun _ _ _ => Eq.refl (some _)
  have called : (plan (.binary rt f e value)).value =
      call f none [plan e, plan value] false rt := by
    rw [plan]
    rfl
  rw [called, call_operator stands] at run
  have found := later.draft.operandType? typed
  refine ⟨given.of_ok run, _, code, found, fun same => ?_⟩
  rw [found, Option.some.injEq] at same
  exact absurd (congrArg sizeOf same) (by simp)

/-- The value of an annotated expression, where it is represented directly, has the type that the
rules tell. So it is the null pointer or has the type of the expression exactly if it is the null
pointer or these types are one. They are where the operand was made for the expression; an
assignment hands on the address of its target. The value of an assignment to a variable that is
kept as itself is the address of the variable, whatever is assigned: never an operand of the type
of the value. -/
theorem value_typed_iff (reached : s.Reached env.symbols) {r : Option Operand}
    (run : (plan e).value env s = .ok r t) :
    (∀ a kind, r = some a → e.Annotated env.symbols → env.symbols.typeKind e.ty = .ok kind →
      kind.isDirect → ∃ c, Shown env.symbols e false c ∧ t.draft.Fits a c ∧
        (∀ ty, env.symbols.codeType e.ty = .ok ty →
          ((a = .imm .null ∨ t.draft.HasType a ty) ↔ (a = .imm .null ∨ c.brief = ty.brief))) ∧
        (e.Makes env.symbols → env.symbols.codeType e.ty = .ok c) ∧
        ∀ f x xs, e.applied? = some f → env.symbols.StandsFor f .assign → e.parts = x :: xs →
          Shown env.symbols x true c) ∧
    ∀ rt f x value v ty kind l, e = .binary rt f x value → env.symbols.StandsFor f .assign →
      Names x ty v → env.symbols.Declares v ty → s.location? v = some l →
      env.symbols.typeKind ty = .ok kind → kind.isDirect →
      r = some (.reg l.slot) ∧ ∃ c, env.symbols.codeType ty = .ok c ∧
        t.draft.operandType? (.reg l.slot) = some (.ptr c) ∧
        t.draft.operandType? (.reg l.slot) ≠ some c := by
  constructor
  · rintro a kind rfl annotated known direct
    have operand : (plan e).operand env s = .ok a t := run_bind run
    obtain ⟨c, shown, fits⟩ :=
      ((borne_of_annotated annotated).value s reached.lodged).of_ok operand
    refine ⟨c, shown, fits, fun ty _ => fits.hasType_iff, fun makes => ?_,
      fun f x xs applies stands parts => shown.of_assign applies stands parts⟩
    have plain : kind.isObject = false := by
      simp only [TypeKind.isDirect, Bool.and_eq_true, Bool.not_eq_true'] at direct
      exact direct.2
    cases annotated with
    | node here => exact shown.of_makes makes here known plain
  · rintro rt f x value v ty kind l rfl stands names declared located known direct
    exact assignment_value reached stands names declared located known direct rt run

end Values

section Example

def aliasSymbols : SymbolTable where
  types := #[.void, .integer .w32, .reference ⟨1⟩]
  functions := #[.plain "operator-" ⟨1⟩ (some .negate), .plain "operator=" ⟨1⟩ (some .assign)]
  vars := #[⟨"r", ⟨2⟩⟩, ⟨"y", ⟨1⟩⟩]

def aliasEnv : Env :=
  .start aliasSymbols (.plain "main" ⟨1⟩) .default ⟨[]⟩

def aliasState : State := .entering aliasEnv ⟨⟨1⟩, [⟨0⟩], [⟨1⟩], [], false, false⟩

theorem aliasState_reached : aliasState.Reached aliasSymbols :=
  State.reached_entering aliasEnv _ (by decide +kernel)

/-- `y = 1` -/
def aliasAssigned : Expr :=
  .binary ⟨1⟩ ⟨1⟩ (.localVariable ⟨1⟩ ⟨1⟩) (.literal ⟨1⟩ (.signed 1))

/-- `-r` negates the address that `r` holds. -/
theorem negation_reads_address : ∃ x t, aliasEnv.symbols.StandsFor ⟨0⟩ .negate ∧
    (Expr.parameter ⟨2⟩ ⟨0⟩).Annotated aliasSymbols ∧
    (plan (.parameter ⟨2⟩ ⟨0⟩)).operand aliasEnv aliasState = .ok x t ∧
    t.draft.operandType? x = some (.ptr (.int .w32)) ∧ ¬ t.draft.HasType x (.int .w32) := by
  have known : (aliasState.location? ⟨0⟩).isSome := by decide +kernel
  obtain ⟨l, located⟩ := Option.isSome_iff_exists.1 known
  have stands : aliasEnv.symbols.StandsFor ⟨0⟩ .negate := ⟨_, rfl, rfl⟩
  have declared : aliasEnv.symbols.Declares ⟨0⟩ ⟨2⟩ := ⟨_, _, rfl, rfl, rfl, nofun⟩
  have annotated : (Expr.parameter ⟨2⟩ ⟨0⟩).Annotated aliasSymbols := .node declared nofun
  obtain ⟨-, addresses, reads⟩ := operator_reads stands nofun (.parameter ⟨2⟩ ⟨0⟩) [] rfl
    false ⟨1⟩ aliasState
  obtain ⟨x, t, run, typed, -⟩ := addresses _ List.mem_cons_self ⟨0⟩ ⟨2⟩ ⟨1⟩ (.integer .w32)
    (.int .w32) l aliasState (.inr rfl) declared rfl rfl rfl nofun rfl aliasState_reached located
  obtain ⟨c, d, code, -, -, right, made⟩ := reads _ List.mem_cons_self aliasState x t annotated
    aliasState_reached run ⟨1⟩ _ rfl rfl rfl
  cases code
  obtain rfl : d = .ptr (.int .w32) := made ⟨nofun, nofun, nofun⟩
  exact ⟨x, t, stands, annotated, run, typed, fun same =>
    absurd (right.1 same) (by simp [Ty.brief])⟩

/-- The value of `y = 1` is the address of `y`. -/
theorem nested_assignment_gives_address : ∃ l x t, aliasState.location? ⟨1⟩ = some l ∧
    aliasAssigned.Annotated aliasSymbols ∧
    (plan aliasAssigned).value aliasEnv aliasState = .ok x t ∧ x = some (.reg l.slot) ∧
    t.draft.operandType? (.reg l.slot) = some (.ptr (.int .w32)) ∧
    ∃ c, Shown aliasSymbols aliasAssigned false c ∧ t.draft.Fits (.reg l.slot) c := by
  have kept : (aliasState.location? ⟨1⟩).isSome := by decide +kernel
  obtain ⟨l, located⟩ := Option.isSome_iff_exists.1 kept
  obtain ⟨x, t, run, -⟩ : ∃ x t, (plan aliasAssigned).value aliasEnv aliasState = .ok x t ∧ True :=
    Ends.exists_ok (by decide +kernel)
  have declared : aliasEnv.symbols.Declares ⟨1⟩ ⟨1⟩ := ⟨_, _, rfl, rfl, rfl, nofun⟩
  have annotated : aliasAssigned.Annotated aliasSymbols := by
    refine .node ⟨_, rfl, rfl, nofun⟩ (List.forall_mem_cons.2 ⟨?_, List.forall_mem_singleton.2 ?_⟩)
    · exact .node declared nofun
    · exact .node ⟨_, rfl, rfl⟩ nofun
  have known : aliasEnv.symbols.typeKind ⟨1⟩ = .ok (.integer .w32) := rfl
  obtain ⟨general, assigned⟩ := value_typed_iff aliasState_reached run
  obtain ⟨rfl, c, code, typed, -⟩ := assigned ⟨1⟩ ⟨1⟩ _ _ ⟨1⟩ ⟨1⟩ _ l rfl ⟨_, rfl, rfl⟩ (.inl rfl)
    declared located known rfl
  cases code
  obtain ⟨c, shown, fits, -⟩ := general _ _ rfl annotated known rfl
  exact ⟨l, _, t, located, annotated, run, rfl, typed, c, shown, fits⟩

end Example
end Lower
end FlatCode
