import FlatCode.Proofs.Typing.Operator


/-! The types of what expressions are lowered to. Every node of an annotated tree carries the type
of what it stands for. The operand that a node is lowered to has a type of its own, which is told
from the tree by rules: operators hand on what they get or write a register, and a place is an
address. -/
namespace FlatCode
open Code Symbols Ast

/-- The literal is written as a value of a type of this kind. -/
def Ast.Literal.suits : Literal → TypeKind → Bool
  | .bool _, .bool | .float _, .float _ | .null, .pointer _ | .null, .functionPointer => true
  | .signed _, .float _ | .unsigned _, .float _ => true
  | .char _, .char | .char _, .integer _ | .char _, .unsignedInteger _ => true
  | .signed _, .char | .signed _, .integer _ | .signed _, .unsignedInteger _ => true
  | .unsigned _, .char | .unsigned _, .integer _ | .unsigned _, .unsignedInteger _ => true
  | _, _ => false

namespace Ast.Expr

def parts : Expr → List Expr
  | .literal _ _ | .localVariable _ _ | .parameter _ _ => []
  | .memberVariable _ x _ | .addressOf _ x | .dereference _ x | .conversion _ _ x
  | .unary _ _ x => [x]
  | .binary _ _ x y | .conjunction _ x y | .disjunction _ x y => [x, y]
  | .call _ _ xs _ | .temporary _ _ _ xs _ => xs

def named? : Expr → Option VariableId
  | .localVariable _ v | .parameter _ v => some v
  | _ => none

def isComputed (e : Expr) : Bool := !e.isPlace && e.named?.isNone

def applied? : Expr → Option FunctionId
  | .conversion _ f _ | .unary _ f _ | .binary _ f _ _ | .call _ f _ _ => some f
  | _ => none

def isConnective : Expr → Bool
  | .conjunction _ _ _ | .disjunction _ _ _ => true
  | _ => false

/-- The node carries the type of what it stands for. Only objects are returned in a slot of the
caller. -/
def Carries (table : SymbolTable) : Expr → Prop
  | .literal ty value => ∃ kind, table.typeKind ty = .ok kind ∧ value.suits kind
  | .localVariable ty v | .parameter ty v | .temporary ty v _ _ _ => table.Declares v ty
  | .memberVariable ty object field => ∃ u c, table.plainType object.ty = .ok u ∧
      table.classInfo u = .ok c ∧ c.fields[field.toNat]? = some ty
  | .addressOf ty operand => ∃ u, table.plainType operand.ty = .ok u ∧
      table.typeKind ty = .ok (.pointer u)
  | .dereference ty operand => table.typeKind operand.ty = .ok (.pointer ty) ∨
      table.typeKind operand.ty = .ok (.reference ty)
  | .conversion ty f _ | .unary ty f _ | .binary ty f _ _ | .call ty f _ _ =>
    ∃ symbol, table.functionSymbol f = .ok symbol ∧ symbol.returnType = ty ∧
      (symbol.returnsByHiddenSlot → ∃ c, table.typeKind ty = .ok (.classType c))
  | .conjunction _ _ _ | .disjunction _ _ _ => True

inductive Annotated (table : SymbolTable) : Expr → Prop
  | node {e : Expr} (here : e.Carries table) (parts : ∀ x ∈ e.parts, Annotated table x) :
    Annotated table e

theorem Carries.returns {table : SymbolTable} {e : Expr} {f : FunctionId} (h : e.Carries table)
    (applies : e.applied? = some f) :
    ∃ symbol, table.functionSymbol f = .ok symbol ∧ symbol.returnType = e.ty ∧
      (symbol.returnsByHiddenSlot → ∃ c, table.typeKind e.ty = .ok (.classType c)) := by
  cases e <;> cases applies <;> exact h

end Ast.Expr

/-- The type of the address of a variable, where its slot holds a value of the type `c`. -/
def Shape.addressType (c : Ty) : Shape → Ty
  | .value | .pointer => .ptr c
  | .reference | .byAddress => c

/-- The rules for the type of the operand that an expression is lowered to, where `place` tells
whether it is the operand for the address of what the expression denotes. -/
inductive Shown (table : SymbolTable) : Expr → (place : Bool) → Ty → Prop
  | literal {ty : TypeId} {value : Literal} {c : Ty} (code : table.codeType ty = .ok c) :
    Shown table (.literal ty value) false c
  | read {e : Expr} {kind : TypeKind} {c : Ty} (h : e.isPlace ∨ e.named?.isSome)
    (known : table.typeKind e.ty = .ok kind) (plain : kind.isObject = false)
    (code : table.codeType e.ty = .ok c) : Shown table e false c
  | object {e : Expr} {info : ClassInfo} {c : Ty} (h : e.isPlace ∨ e.named?.isSome)
    (known : table.typeKind e.ty = .ok (.classType info)) (h : Shown table e true c) :
    Shown table e false c
  | slot {e : Expr} {kind : TypeKind} {role : Role} {c : Ty} (h : e.named?.isSome)
    (known : table.typeKind e.ty = .ok kind) (kept : Storage.Holds table e.ty role c) :
    Shown table e true ((Storage.shapeOf kind role).addressType c)
  | member {ty : TypeId} {x : Expr} {field : UInt32} {p : Ty} (behind : table.pointee ty = .ok p) :
    Shown table (.memberVariable ty x field) true (.ptr p)
  | temporary {ty : TypeId} {v : VariableId} {ctor : FunctionId} {xs : List Expr} {destroy : Bool}
    {role : Role} {c : Ty} (kept : Storage.Holds table ty role c) :
    Shown table (.temporary ty v ctor xs destroy) true (.ptr c)
  | dereference {ty : TypeId} {x : Expr} {c : Ty} (h : Shown table x false c) :
    Shown table (.dereference ty x) true c
  | addressOf {ty : TypeId} {x : Expr} {c : Ty} (h : Shown table x true c) :
    Shown table (.addressOf ty x) false c
  | connective {e : Expr} (h : e.isConnective) : Shown table e false .bool
  | function {e : Expr} {f : FunctionId} {symbol : FunctionSymbol} {c : Ty}
    (h : e.applied? = some f) (found : table.functionSymbol f = .ok symbol)
    (function : symbol.operator = none) (code : table.codeType symbol.returnType = .ok c) :
    Shown table e false (if symbol.returnsByHiddenSlot then .ptr c else c)
  | handed {e x : Expr} {f : FunctionId} {op : Operator} {xs : List Expr} {c : Ty}
    (h : e.applied? = some f) (stands : table.StandsFor f op) (parts : e.parts = x :: xs)
    (hands : op = .assign ∨ op = .unaryPlus ∨ op = .convert ∧ table.Idle x.ty e.ty)
    (first : Shown table x (op = .assign) c) : Shown table e false c
  | written {e x : Expr} {f : FunctionId} {op : Operator} {xs : List Expr} {c : Ty}
    (h : e.applied? = some f) (stands : table.StandsFor f op) (parts : e.parts = x :: xs)
    (writes : table.Writes op x.ty e.ty c) : Shown table e false c
  /-- What is computed has an address only if it is represented by one. -/
  | indirect {e : Expr} {kind : TypeKind} {c : Ty} (h : e.isComputed)
    (known : table.typeKind e.ty = .ok kind) (indirect : kind.isDirect = false)
    (value : Shown table e false c) : Shown table e true c

/-- The operand is made for the node, and not handed on from a part of it. -/
structure Ast.Expr.Makes (table : SymbolTable) (e : Expr) : Prop where
  address : ∀ ty x, e ≠ .addressOf ty x
  truth : e.isConnective → table.typeKind e.ty = .ok .bool
  operator : ∀ f op x xs, e.applied? = some f → table.StandsFor f op → e.parts = x :: xs →
    op ≠ .assign ∧ op ≠ .unaryPlus ∧
      (op = .convert → ¬ table.Idle x.ty e.ty ∧ table.plainType e.ty = .ok e.ty) ∧
      (op = .logicalNot ∨ op.isComparison → table.typeKind e.ty = .ok .bool)

namespace Shown
variable {table : SymbolTable} {e : Expr} {place : Bool} {c : Ty} {kind : TypeKind}

theorem slot_cases (h : Shown table e true c) (kept : e.named?.isSome)
    (known : table.typeKind e.ty = .ok kind) : ∃ role d, Storage.Holds table e.ty role d ∧
      c = (Storage.shapeOf kind role).addressType d := by
  generalize there : true = place at h
  cases h with
  | slot _ known' held =>
    cases known.symm.trans known'
    exact ⟨_, _, held, rfl⟩
  | indirect computed =>
    rw [Expr.isComputed, Bool.and_eq_true, Option.isNone_iff_eq_none] at computed
    rw [computed.2] at kept
    cases kept
  | member | temporary | dereference => cases kept
  | _ => cases there

/-- A reference or an object is represented by its address. -/
theorem value_of_slot (h : Shown table e true c) (kept : e.named?.isSome)
    (known : table.typeKind e.ty = .ok kind) (indirect : kind.isDirect = false) :
    Shown table e false c := by
  cases kind with
  | classType => exact .object (.inr kept) known h
  | reference =>
    obtain ⟨role, d, held, rfl⟩ := h.slot_cases kept known
    refine .read (.inr kept) known rfl ?_
    unfold Storage.Holds at held
    rw [known] at held
    cases role <;> exact held
  | _ => cases indirect

/-- What is made for a node has the type that the node carries. -/
theorem of_makes (h : Shown table e false c) (makes : e.Makes table) (carries : e.Carries table)
    (known : table.typeKind e.ty = .ok kind) (plain : kind.isObject = false) :
    table.codeType e.ty = .ok c := by
  generalize value : false = place at h
  cases h with
  | literal code | read _ _ _ code => exact code
  | object _ object =>
    cases known.symm.trans object
    cases plain
  | addressOf => exact absurd rfl (makes.address _ _)
  | connective h => exact SymbolTable.codeType_iff.2 ⟨_, makes.truth h, .bool⟩
  | @function _ f symbol _ h found _ code =>
    obtain ⟨_, found', same, only⟩ := carries.returns h
    cases found.symm.trans found'
    rw [same] at code
    cases hidden : symbol.returnsByHiddenSlot with
    | false => exact code
    | true =>
      obtain ⟨c, object⟩ := only hidden
      cases known.symm.trans object
      cases plain
  | handed h stands parts hands =>
    obtain ⟨notAssign, notPlus, busy, -⟩ := makes.operator _ _ _ _ h stands parts
    rcases hands with assign | plus | ⟨convert, idle⟩
    · exact absurd assign notAssign
    · exact absurd plus notPlus
    · exact absurd idle (busy convert).1
  | written h stands parts writes =>
    obtain ⟨-, -, busy, truth⟩ := makes.operator _ _ _ _ h stands parts
    cases writes with
    | converted convert _ target code =>
      cases target.symm.trans (busy convert).2
      exact code
    | truth h => exact SymbolTable.codeType_iff.2 ⟨_, truth h, .bool⟩
    | number _ code => exact code
  | slot | member | temporary | dereference | indirect => cases value

theorem of_assign {x : Expr} {xs : List Expr} {f : FunctionId} (h : Shown table e false c)
    (applies : e.applied? = some f) (stands : table.StandsFor f .assign)
    (parts : e.parts = x :: xs) : Shown table x true c := by
  obtain ⟨symbol, found, assigns⟩ := stands
  generalize value : false = place at h
  cases h with
  | function h found' function =>
    cases applies.symm.trans h
    cases found.symm.trans found'
    cases assigns.symm.trans function
  | handed h stands' parts' hands first =>
    obtain ⟨_, found', operator⟩ := stands'
    cases applies.symm.trans h
    cases found.symm.trans found'
    cases assigns.symm.trans operator
    cases parts.symm.trans parts'
    exact first
  | written h stands' parts' writes =>
    obtain ⟨_, found', operator⟩ := stands'
    cases applies.symm.trans h
    cases found.symm.trans found'
    cases assigns.symm.trans operator
    cases writes with
    | converted h => cases h
    | truth h => cases h <;> contradiction
    | number h => cases h
  | literal | addressOf => cases applies
  | read h | object h =>
    rcases h with h | h <;> cases e <;> first | cases h; done | cases applies
  | connective h => cases e <;> first | cases h; done | cases applies
  | slot | member | temporary | dereference | indirect => cases value

end Shown
end FlatCode
