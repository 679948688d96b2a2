import FlatCode.Proofs.Wire.Tree

/-! Whatever is written for a program can stand in JSON text: names need no escapes, other strings
have the escapes that they need, and numerals are proper ones. -/
namespace FlatCode

namespace Wire
open Symbols Ast

variable {name : String} {content : Json}

theorem spelled_variant (h : content.Spelled) (plain : Json.isPlain name := by decide) :
    (Encode.variant name content).Spelled :=
  Json.spelled_record (by simpa using h) (by simpa using plain)

theorem spelled_typed (ty : TypeId) (h : content.Spelled) (plain : Json.isPlain name := by decide) :
    (Encode.typed ty name content).Spelled :=
  Json.spelled_record (by simpa [Encode.typeId] using spelled_variant h plain)

theorem spelled_optional {write : α → Json} (h : ∀ a, (write a).Spelled) (o : Option α) :
    (Json.optional write o).Spelled := by
  cases o with
  | none => trivial
  | some a => exact h a

theorem spelled_listOf {write : α → Json} (h : ∀ a, (write a).Spelled) (as : List α) :
    (Encode.listOf write as).Spelled :=
  Json.spelled_array.2 (by simpa using fun a _ => h a)

@[simp] theorem spelled_typeId (t : TypeId) : (Encode.typeId t).Spelled := Json.spelled_ofNat _

@[simp] theorem spelled_functionId (f : FunctionId) : (Encode.functionId f).Spelled :=
  Json.spelled_ofNat _

@[simp] theorem spelled_variableId (v : VariableId) : (Encode.variableId v).Spelled :=
  Json.spelled_ofNat _

theorem spelled_binary64 (x : Binary64) : (Encode.binary64 x).Spelled := by
  unfold Encode.binary64
  split
  · rename_i n hn
    exact Json.Numeral.proper_of_ofChars? hn
  · trivial

theorem spelled_literal (l : Literal) : (Encode.literal l).Spelled := by
  cases l with
  | null => exact Json.spelled_ofText _
  | bool b => exact spelled_variant trivial
  | char c => exact spelled_variant (Json.spelled_ofText _)
  | signed i => exact spelled_variant (Json.spelled_ofInt _)
  | unsigned i => exact spelled_variant (Json.spelled_ofNat _)
  | float x => exact spelled_variant (spelled_binary64 x)

theorem spelled_classInfo (c : ClassInfo) : (Encode.classInfo c).Spelled := by
  refine Json.spelled_record ?_
  simp [spelled_optional spelled_typeId, spelled_optional spelled_functionId,
    spelled_listOf spelled_typeId]

theorem spelled_typeKind (k : TypeKind) : (Encode.typeKind k).Spelled := by
  cases k with
  | void | bool | char | functionPointer => exact Json.spelled_ofText _
  | integer | unsignedInteger | float =>
    exact spelled_variant (Json.spelled_ofText _)
  | pointer t | reference t => exact spelled_variant (spelled_typeId t)
  | classType c => exact spelled_variant (spelled_classInfo c)

theorem spelled_functionSymbol (f : FunctionSymbol) : (Encode.functionSymbol f).Spelled := by
  refine Json.spelled_record ?_
  simp [spelled_optional spelled_typeId, spelled_optional fun op => Json.spelled_ofText _,
    spelled_optional fun slot => Json.spelled_ofNat _]

theorem spelled_variableSymbol (v : VariableSymbol) : (Encode.variableSymbol v).Spelled :=
  Json.spelled_record (by simp)

theorem spelled_symbolTable (s : SymbolTable) : (Encode.symbolTable s).Spelled := by
  refine Json.spelled_record ?_
  simp [spelled_listOf spelled_typeKind, spelled_listOf spelled_functionSymbol,
    spelled_listOf spelled_variableSymbol]

mutual
theorem spelled_expr : ∀ e : Expr, (Encode.expr e).Spelled
  | .literal ty value => spelled_typed ty (spelled_literal value)
  | .localVariable ty var | .parameter ty var =>
    spelled_typed ty (spelled_variableId var)
  | .addressOf ty operand | .dereference ty operand =>
    spelled_typed ty (spelled_expr operand)
  | .memberVariable ty operand _ | .conversion ty _ operand | .unary ty _ operand =>
    spelled_typed ty
    (Json.spelled_record (by simp [spelled_expr operand]))
  | .binary ty _ lhs rhs | .conjunction ty lhs rhs | .disjunction ty lhs rhs => spelled_typed ty
    (Json.spelled_record (by simp [spelled_expr lhs, spelled_expr rhs]))
  | .call ty f arguments _ | .temporary ty _ f arguments _ => spelled_typed ty
    (Json.spelled_record (by simp [spelled_exprs arguments]))
theorem spelled_exprs : ∀ es : List Expr, (Json.array (Encode.exprs es)).Spelled
  | [] => trivial
  | e :: es => ⟨spelled_expr e, spelled_exprs es⟩
end

theorem spelled_clauseKind (k : ClauseKind) : (Encode.clauseKind k).Spelled := by
  cases k with
  | case values => exact spelled_variant (spelled_listOf spelled_literal values)
  | default => exact Json.spelled_ofText _

mutual
theorem spelled_stmt : ∀ s : Stmt, (Encode.stmt s).Spelled
  | .break_ | .continue_ | .gotoDefault | .empty => Json.spelled_ofText _
  | .compound body => spelled_variant (spelled_stmts body)
  | .expression value | .throw_ value => spelled_variant (spelled_expr value)
  | .return_ value => spelled_variant (spelled_optional spelled_expr value)
  | .goto label => spelled_variant (Json.spelled_ofText label)
  | .gotoCase value => spelled_variant (spelled_literal value)
  | .construction _ _ arguments => spelled_variant
    (Json.spelled_record (by simp [spelled_exprs arguments]))
  | .assignment target value => spelled_variant
    (Json.spelled_record (by simp [spelled_expr target, spelled_expr value]))
  | .ifElse condition then_ else_ => spelled_variant
    (Json.spelled_record
      (by simp [spelled_expr condition, spelled_stmt then_, spelled_optionalStmt else_]))
  | .whileLoop condition body | .doWhile body condition => spelled_variant
    (Json.spelled_record (by simp [spelled_expr condition, spelled_stmt body]))
  | .forLoop init condition increment body => spelled_variant
    (Json.spelled_record
      (by simp [spelled_optionalStmt init, spelled_optional spelled_expr, spelled_stmt body]))
  | .switch condition cs => spelled_variant
    (Json.spelled_record (by simp [spelled_expr condition, spelled_clauses cs]))
  | .labeled label statement => spelled_variant
    (Json.spelled_record (by simp [spelled_stmt statement]))
  | .destruction object destructor => spelled_variant
    (Json.spelled_record (by simp [spelled_expr object]))
  | .try_ body handler => spelled_variant
    (Json.spelled_record (by simp [spelled_stmts body, spelled_stmts handler]))
theorem spelled_optionalStmt : ∀ o : Option Stmt, (Encode.optionalStmt o).Spelled
  | none => trivial
  | some s => spelled_stmt s
theorem spelled_stmts : ∀ ss : List Stmt, (Json.array (Encode.stmts ss)).Spelled
  | [] => trivial
  | s :: ss => ⟨spelled_stmt s, spelled_stmts ss⟩
theorem spelled_clauses : ∀ cs : List Clause, (Json.array (Encode.clauses cs)).Spelled
  | [] => trivial
  | .mk kind body :: cs =>
    ⟨Json.spelled_record (by simp [spelled_clauseKind kind, spelled_stmts body]),
      spelled_clauses cs⟩
end

theorem spelled_function (f : Function) : (Encode.function f).Spelled := by
  refine Json.spelled_record ?_
  simp [spelled_listOf spelled_variableId, spelled_stmts]

theorem spelled_program (p : Program) : (Encode.program p).Spelled := by
  refine Json.spelled_record ?_
  simp [spelled_symbolTable, spelled_listOf spelled_function]

end Wire
end FlatCode
