import FlatCode.Proofs.Typing.Operand

/-! References as places. The address of an expression whose type is a reference should be that of
what the reference refers to. It is for variables and for everything that is computed. Members,
temporaries and what pointers lead to are places of their own: their address is where the reference
is kept. -/
namespace FlatCode
open Code Symbols Ast

namespace Ast.Expr

def isPlace : Expr → Bool
  | .memberVariable _ _ _ | .dereference _ _ | .temporary _ _ _ _ _ => true
  | _ => false

def Declared (table : SymbolTable) : Expr → Prop
  | .localVariable ty v | .parameter ty v =>
    ∃ symbol, table.variableSymbol v = .ok symbol ∧ symbol.ty = ty
  | _ => True

end Ast.Expr

namespace Lower
variable {env : Env} {s u : State} {e : Expr} {v : VariableId} {inner t ty : TypeId} {c : Ty}
  {a : Operand}

theorem run_bind_congr {m n : LowerM α} {f g : α → LowerM β} (first : m env s = n env u)
    (rest : ∀ a t, f a env t = g a env t) : (m >>= f) env s = (n >>= g) env u := by
  change EStateM.bind (m env) (fun a => f a env) s = EStateM.bind (n env) (fun a => g a env) u
  unfold EStateM.bind
  rw [first]
  cases n env u with
  | ok a t => exact rest a t
  | error => rfl

theorem withTemporaries_congr {m n : LowerM α} (h : m env s.inScope = n env s.inScope) :
    withTemporaries m env s = withTemporaries n env s :=
  run_bind_congr (s := s.inScope) h fun _ _ => rfl

theorem dereference_address (t : TypeId) (e : Expr) :
    (plan (.dereference t e)).address = (plan e).operand := by
  rw [plan]
  rfl

theorem addressIn_reference (refers : env.symbols.typeKind e.ty = .ok (.reference inner))
    (value : LowerM (Option Operand)) :
    addressIn e value env s = requireValue e.kind value env s := by
  change EStateM.bind (answer (env.symbols.typeKind e.ty)) _ s = _
  rw [refers]
  rfl

theorem loadValue_run {kind : TypeKind} (known : env.symbols.typeKind ty = .ok kind)
    (some : kind ≠ .void) (plain : kind.isObject = false)
    (code : env.symbols.codeType ty = .ok c) (a : Operand) (u : State) :
    loadValue a ty env u = .ok (.reg ⟨u.draft.registers.size⟩) { u with draft := { u.draft with
      registers := u.draft.registers.push c
      body := u.draft.body.push (.load ⟨u.draft.registers.size⟩ a) } } := by
  change EStateM.bind (answer (env.symbols.typeKind ty)) _ u = _
  rw [known]
  have read : EStateM.bind (answer (env.symbols.codeType ty)) (fun c => (do
      let r ← Draft.newRegister c
      emit (.load r a)
      return .reg r : LowerM Operand) env) u = .ok (.reg ⟨u.draft.registers.size⟩) { u with
        draft := { u.draft with
          registers := u.draft.registers.push c
          body := u.draft.body.push (.load ⟨u.draft.registers.size⟩ a) } } := by
    rw [code]
    rfl
  cases kind <;> first | exact read | exact absurd rfl some | cases plain

theorem loadValue_reference_ne (refers : env.symbols.typeKind ty = .ok (.reference inner))
    (a : Operand) (u : State) : loadValue a ty env u ≠ .ok a u := by
  cases code : env.symbols.codeType ty with
  | ok c =>
    rw [loadValue_run refers nofun rfl code]
    intro same
    injection same with _ same
    simpa using congrArg (fun s => s.draft.body.size) same
  | error e =>
    change EStateM.bind (answer (env.symbols.typeKind ty)) _ u ≠ _
    rw [refers]
    change EStateM.bind (answer (env.symbols.codeType ty)) _ u ≠ _
    rw [code]
    nofun

theorem State.Lodged.reference_shape {symbol : VariableSymbol} {l : Location}
    (h : s.Lodged env.symbols) (declared : env.symbols.variableSymbol v = .ok symbol)
    (refers : env.symbols.typeKind symbol.ty = .ok (.reference inner))
    (located : s.location? v = some l) : l.shape = .reference := by
  obtain ⟨⟨role, symbol', planned, -⟩, -⟩ := h v l located
  obtain ⟨found, ⟨kind, known, shape⟩, -⟩ := Storage.plan_iff.1 planned
  cases declared.symm.trans found
  cases refers.symm.trans known
  exact shape

theorem valueOfVariable_reference {symbol : VariableSymbol} (h : s.Lodged env.symbols)
    (declared : env.symbols.variableSymbol v = .ok symbol)
    (refers : env.symbols.typeKind symbol.ty = .ok (.reference inner)) (kind : String) :
    requireValue kind (valueOfVariable v) env s = addressOfVariable v env s := by
  cases located : s.location? v with
  | none =>
    have missing : s.storage.lookup v = .error (.unallocatedStorage v) :=
      Storage.lookup_of_none located
    change EStateM.bind (EStateM.bind (answer (s.storage.lookup v)) _) _ s =
      EStateM.bind (answer (s.storage.lookup v)) _ s
    rw [missing]
    rfl
  | some l =>
    have found : s.storage.lookup v = .ok l := Storage.lookup_ok.2 located
    change EStateM.bind (EStateM.bind (answer (s.storage.lookup v)) _) _ s = _
    rw [found]
    change EStateM.bind (EStateM.bind (addressOfVariable v env) _) _ s = _
    rw [h.reference_shape declared refers located]
    simp only [EStateM.bind]
    cases addressOfVariable v env s <;> rfl

theorem operand_of_place (h : e.isPlace) :
    (plan e).operand = (do loadValue (← (plan e).address) e.ty) := by
  cases e <;> cases h
  all_goals
    rw [plan]
    simp [Plan.operand, Plan.ofAddress, Plan.ofPlace, requireValue]

theorem operand_of_reference (lodged : s.Lodged env.symbols)
    (refers : env.symbols.typeKind e.ty = .ok (.reference inner))
    (declared : e.Declared env.symbols) (h : ¬ e.isPlace) :
    (plan e).address env s = (plan e).operand env s := by
  cases e
  case memberVariable | dereference | temporary => exact absurd rfl h
  case localVariable | parameter =>
    obtain ⟨symbol, found, rfl⟩ := declared
    rw [plan]
    exact (valueOfVariable_reference lodged found refers _).symm
  all_goals
    rw [plan]
    exact addressIn_reference refers _

theorem dereference_place (h : e.isPlace) (known : (plan e).address env s = .ok a u) (t : TypeId) :
    (plan (.dereference t e)).address env s = loadValue a e.ty env u := by
  rw [dereference_address, operand_of_place h, run_bind known]

theorem storeValue_reference {kind : TypeKind}
    (refers : env.symbols.typeKind ty = .ok (.reference inner))
    (known : env.symbols.typeKind inner = .ok kind) (plain : kind.isReference = false)
    (address value : Operand) : storeValue address value ty env s =
      storeValue address value inner env s := by
  have here : env.symbols.plainType ty = .ok inner := SymbolTable.plainType_reference refers
  have there : env.symbols.plainType inner = .ok inner := SymbolTable.plainType_self known plain
  change EStateM.bind (answer (env.symbols.plainType ty)) _ s =
    EStateM.bind (answer (env.symbols.plainType inner)) _ s
  rw [here, there]

theorem storeValue_direct {kind : TypeKind}
    (refers : env.symbols.typeKind ty = .ok (.reference inner))
    (known : env.symbols.typeKind inner = .ok kind) (direct : kind.isDirect)
    (address value : Operand) : storeValue address value ty env s =
      emit (.store address value) env s := by
  have here : env.symbols.plainType ty = .ok inner := SymbolTable.plainType_reference refers
  change EStateM.bind (answer (env.symbols.plainType ty)) _ s = _
  rw [here]
  change EStateM.bind (answer (env.symbols.typeKind inner)) _ s = _
  rw [known]
  cases kind <;> first | rfl | cases direct

/-- The address of an expression whose type is a reference and that of what it refers to. They are
the same for variables and for all that is computed, so an assignment to such an expression writes
what it refers to. A place that is no variable has the address where the reference is kept: what it
refers to is still to be loaded from there, and an assignment overwrites the reference. -/
theorem reference_address (reached : s.Reached env.symbols)
    (refers : env.symbols.typeKind e.ty = .ok (.reference inner))
    (declared : e.Declared env.symbols) (t : TypeId) (value : Expr) :
    ((plan e).address env s = (plan (.dereference t e)).address env s ↔
      (e.isPlace → ∀ a u, (plan e).address env s ≠ .ok a u)) ∧
    (e.isPlace → ∀ a u c, (plan e).address env s = .ok a u → env.symbols.codeType e.ty = .ok c →
      (plan (.dereference t e)).address env s = .ok (.reg ⟨u.draft.registers.size⟩)
        { u with draft := { u.draft with
          registers := u.draft.registers.push c
          body := u.draft.body.push (.load ⟨u.draft.registers.size⟩ a) } }) ∧
    ∀ kind, env.symbols.typeKind inner = .ok kind →
      (¬ e.isPlace → ¬ kind.isReference →
        lowerAssignment e value env s = lowerAssignment (.dereference inner e) value env s) ∧
      (e.isPlace → kind.isDirect → ∀ a u x w, (plan e).address env s.inScope = .ok a u →
        (plan value).operand env u = .ok x w →
        lowerAssignment e value env s = (do emit (.store a x); closeScope) env w) := by
  refine ⟨?_, fun place a u c known code => ?_, fun kind known =>
    ⟨fun notPlace plain => ?_, fun place direct a u x w here there => ?_⟩⟩
  · by_cases place : e.isPlace
    · simp only [place, forall_const]
      constructor
      · intro same a u known
        rw [dereference_place place known, known] at same
        exact loadValue_reference_ne refers a u same.symm
      · intro failing
        rw [dereference_address, operand_of_place place]
        cases run : (plan e).address env s with
        | ok a u => exact absurd run (failing a u)
        | error e u =>
          change _ = EStateM.bind ((plan _).address env) _ s
          rw [EStateM.bind, run]
    · simp only [place, false_imp_iff, iff_true, Bool.false_eq_true]
      rw [dereference_address]
      exact operand_of_reference reached.lodged refers declared place
  · rw [dereference_place place known]
    exact loadValue_run refers nofun rfl code a u
  · refine withTemporaries_congr (run_bind_congr ?_ fun a t => run_bind_congr rfl fun x w => ?_)
    · rw [dereference_address]
      exact operand_of_reference (reached.inScope).lodged refers declared notPlace
    · exact storeValue_reference refers known (by simpa using plain) a x
  · refine (run_bind_congr (s := s.inScope) ?_ fun _ t => ?_)
    · rw [run_bind here, run_bind there]
      exact storeValue_direct refers known direct a x
    · exact congrFun (congrFun (bind_pure_unit (m := LowerM)) env) t

section Example

def holderSymbols : SymbolTable where
  types := #[.void, .integer .w32, .reference ⟨1⟩, .classType ⟨"Holder", none, [⟨2⟩], false, none⟩]
  functions := #[]
  vars := #[⟨"h", ⟨3⟩⟩]

def holderEnv : Env :=
  .start holderSymbols (.plain "main" ⟨0⟩) .default ⟨[]⟩

def holderMain : Ast.Function := ⟨⟨0⟩, [], [⟨0⟩], [], false, false⟩

def holderState : State := .entering holderEnv holderMain

/-- `h.r` -/
def holderField : Expr := .memberVariable ⟨2⟩ (.localVariable ⟨3⟩ ⟨0⟩) 0

/-- `h.r = 5` writes to the field of `h`, and what is behind the reference has another address. -/
theorem holderField_overwritten : ∃ u w, holderState.Reached holderSymbols ∧
    holderSymbols.typeKind holderField.ty = .ok (.reference ⟨1⟩) ∧
    holderField.Declared holderSymbols ∧
    (plan holderField).address holderEnv holderState = .ok (.reg ⟨1⟩) u ∧
    (plan holderField).address holderEnv holderState ≠
      (plan (.dereference ⟨1⟩ holderField)).address holderEnv holderState ∧
    (∃ t, (plan (.dereference ⟨1⟩ holderField)).address holderEnv holderState =
        .ok (.reg ⟨2⟩) t ∧
      t.draft.body = #[.fieldPtr ⟨1⟩ (.reg ⟨0⟩) 0, .load ⟨2⟩ (.reg ⟨1⟩)]) ∧
    lowerAssignment holderField (.literal ⟨1⟩ (.signed 5)) holderEnv holderState =
      (do emit (.store (.reg ⟨1⟩) (.imm (.int 5 .w32))); closeScope) holderEnv w := by
  have reached : holderState.Reached holderSymbols :=
    State.reached_entering holderEnv holderMain (by decide +kernel)
  obtain ⟨_, u, here, rfl, registers, body⟩ : ∃ a u,
      (plan holderField).address holderEnv holderState = .ok a u ∧ a = .reg ⟨1⟩ ∧
        u.draft.registers.size = 2 ∧ u.draft.body = #[.fieldPtr ⟨1⟩ (.reg ⟨0⟩) 0] :=
    Ends.exists_ok (by decide +kernel)
  obtain ⟨_, w, inside, rfl⟩ : ∃ a w,
      (plan holderField).address holderEnv holderState.inScope = .ok a w ∧ a = .reg ⟨1⟩ :=
    Ends.exists_ok (by decide +kernel)
  obtain ⟨same, loads, assigns⟩ := @reference_address holderEnv holderState holderField ⟨1⟩ reached
    rfl trivial ⟨1⟩ (.literal ⟨1⟩ (.signed 5))
  have loaded := loads rfl _ u _ here rfl
  rw [registers] at loaded
  refine ⟨u, w, reached, rfl, trivial, here, fun eq => same.1 eq rfl _ _ here, ⟨_, loaded, ?_⟩, ?_⟩
  · simp [body]
  · exact (assigns _ rfl).2 rfl rfl _ w _ w inside rfl

end Example
end Lower
end FlatCode
