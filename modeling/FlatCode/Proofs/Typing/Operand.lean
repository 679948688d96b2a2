import FlatCode.Proofs.Folding.Value
import FlatCode.Proofs.Storage.Function
import FlatCode.Proofs.Storage.Slots

/-! The types of operands. What was written keeps its types, and the slot of a variable has the type
of what is kept there, in every state that lowering comes through. -/
namespace FlatCode
open Code Symbols Ast

namespace Symbols

namespace TypeKind

def isReference : TypeKind → Bool
  | .reference _ => true
  | _ => false

def isObject : TypeKind → Bool
  | .classType _ => true
  | _ => false

def isDirect (kind : TypeKind) : Bool := !kind.isReference && !kind.isObject

end TypeKind

namespace SymbolTable
variable {table : SymbolTable} {t u : TypeId} {kind : TypeKind}

theorem plainType_iff : table.plainType t = .ok u ↔ ∃ kind, table.typeKind t = .ok kind ∧
    (kind = .reference u ∨ kind.isReference = false ∧ u = t) := by
  unfold plainType
  cases known : table.typeKind t with
  | error e => simp [bind, Except.bind]
  | ok kind =>
    cases kind with
    | reference inner => simp [bind, Except.bind, pure, Except.pure, TypeKind.isReference]
    | _ =>
      simp [bind, Except.bind, pure, Except.pure, TypeKind.isReference, eq_comm (a := u)]

theorem plainType_reference (known : table.typeKind t = .ok (.reference u)) :
    table.plainType t = .ok u :=
  plainType_iff.2 ⟨_, known, .inl rfl⟩

theorem plainType_self (known : table.typeKind t = .ok kind) (plain : kind.isReference = false) :
    table.plainType t = .ok t :=
  plainType_iff.2 ⟨_, known, .inr ⟨plain, rfl⟩⟩

def Declares (table : SymbolTable) (v : VariableId) (ty : TypeId) : Prop :=
  ∃ symbol kind, table.variableSymbol v = .ok symbol ∧ symbol.ty = ty ∧
    table.typeKind ty = .ok kind ∧ kind ≠ .void

end SymbolTable
end Symbols

namespace Draft
variable {d d' : Draft} {x : Operand} {ty : Ty}

theorem Later.operandType? (h : d.Later d') (typed : d.operandType? x = some ty) :
    d'.operandType? x = some ty := by
  cases x with
  | imm => exact typed
  | reg r =>
    obtain ⟨added, registers⟩ := h.registers
    have below := (Array.getElem?_eq_some_iff.1 typed).1
    rw [Draft.operandType?, registers, Array.getElem?_append_left below]
    exact typed

theorem Trace.registers_eq (h : d.Trace d') : d'.registers = d.registers := by
  induction h with
  | trans _ _ h k => exact k.trans h
  | _ => rfl

end Draft

namespace Lower

variable {table : SymbolTable} {may : Effect → Prop} {s t : State} {v : VariableId} {ty : TypeId}
  {l : Location}

@[simp] theorem State.put_type (s : State) (c : Ty) (i : Register → Instr) :
    (s.put c i).draft.operandType? (.reg s.next) = some c :=
  Array.getElem?_push_size

/-- The states that lowering comes through. -/
inductive State.Reached (table : SymbolTable) : State → Prop
  | start : Reached table .empty
  | step {may : Effect → Prop} {s t : State} (h : Reached table s) (trace : s.Trace table may t) :
    Reached table t
  | inScope {s : State} (h : Reached table s) : Reached table s.inScope

theorem State.Trace.lodged (h : s.Trace table may t) (before : s.Lodged table) :
    t.Lodged table := by
  induction h with
  | refl | note | owe | name | compound | comment | choose => exact before
  | trans _ _ h k => exact k (h before)
  | straight h => exact h.lodged before
  | edit h => exact before.of_storage rfl ⟨#[], by simpa using h.registers_eq⟩
  | scope _ h => exact h before

theorem State.Reached.lodged (h : s.Reached table) : s.Lodged table := by
  induction h with
  | start => exact fun v l located => nomatch located
  | step _ trace ih => exact trace.lodged ih
  | inScope _ ih => exact ih

theorem State.Lodged.held (h : s.Lodged table) (declared : table.Declares v ty)
    (located : s.location? v = some l) : l.ty = ty ∧
      s.draft.operandType? (.reg l.slot) = some (.ptr l.slotType) ∧
      ∃ kind role, table.typeKind ty = .ok kind ∧ kind ≠ .void ∧
        l.shape = Storage.shapeOf kind role ∧ Storage.Holds table ty role l.slotType := by
  obtain ⟨symbol, kind, found, rfl, known, some⟩ := declared
  obtain ⟨⟨role, symbol', planned, same⟩, typed⟩ := h v l located
  obtain ⟨found', ⟨kind', known', shape⟩, slot⟩ := Storage.plan_iff.1 planned
  cases found.symm.trans found'
  cases known.symm.trans known'
  exact ⟨same.symm, typed, kind, role, known, some, shape, (Storage.slotType_iff known).1 slot⟩

def State.entering (env : Env) (f : Ast.Function) : State :=
  match prologue f env .empty with
  | .ok _ s | .error _ s => s

theorem State.reached_entering (env : Env) (f : Ast.Function)
    (h : Ends (fun _ => False) (fun _ _ => True) (prologue f env .empty)) :
    (State.entering env f).Reached env.symbols := by
  have traced : Traced (fun _ => False) (prologue f) := prologue_traced f
  obtain ⟨incoming, s, run, -⟩ := h.exists_ok
  rw [State.entering, run]
  exact .step .start ((traced env .empty).of_ok run)

end Lower
end FlatCode
