import FlatCode.Proofs.Wire.Symbols

/-! Trees are read as they are written, exactly if their brackets may be opened and their floats
read back. -/
namespace FlatCode

namespace Ast

mutual
def Expr.floats : Expr → List Binary64
  | .literal _ value => value.floats
  | .localVariable _ _ | .parameter _ _ => []
  | .memberVariable _ operand _ | .addressOf _ operand | .dereference _ operand
  | .conversion _ _ operand | .unary _ _ operand => operand.floats
  | .binary _ _ lhs rhs | .conjunction _ lhs rhs | .disjunction _ lhs rhs =>
    lhs.floats ++ rhs.floats
  | .call _ _ arguments _ | .temporary _ _ _ arguments _ => Expr.floatsOfAll arguments
def Expr.floatsOfAll : List Expr → List Binary64
  | [] => []
  | e :: es => e.floats ++ Expr.floatsOfAll es
end

def Expr.floatsOfOption : Option Expr → List Binary64
  | none => []
  | some e => e.floats

def ClauseKind.floats : ClauseKind → List Binary64
  | .case values => values.flatMap Literal.floats
  | .default => []

mutual
def Stmt.floats : Stmt → List Binary64
  | .compound body => Stmt.floatsOfAll body
  | .expression value | .throw_ value => value.floats
  | .construction _ _ arguments => Expr.floatsOfAll arguments
  | .assignment target value => target.floats ++ value.floats
  | .ifElse condition then_ else_ =>
    condition.floats ++ (then_.floats ++ Stmt.floatsOfOption else_)
  | .whileLoop condition body => condition.floats ++ body.floats
  | .doWhile body condition => body.floats ++ condition.floats
  | .forLoop init condition increment body => Stmt.floatsOfOption init ++
    (Expr.floatsOfOption condition ++ (Expr.floatsOfOption increment ++ body.floats))
  | .switch condition clauses => condition.floats ++ Clause.floatsOfAll clauses
  | .return_ value => Expr.floatsOfOption value
  | .labeled _ statement => statement.floats
  | .gotoCase value => value.floats
  | .destruction object _ => object.floats
  | .try_ body handler => Stmt.floatsOfAll body ++ Stmt.floatsOfAll handler
  | .break_ | .continue_ | .goto _ | .gotoDefault | .empty => []
def Stmt.floatsOfOption : Option Stmt → List Binary64
  | none => []
  | some s => s.floats
def Stmt.floatsOfAll : List Stmt → List Binary64
  | [] => []
  | s :: ss => s.floats ++ Stmt.floatsOfAll ss
def Clause.floatsOfAll : List Clause → List Binary64
  | [] => []
  | .mk kind body :: cs => kind.floats ++ (Stmt.floatsOfAll body ++ Clause.floatsOfAll cs)
end

def Function.floats (f : Function) : List Binary64 := Stmt.floatsOfAll f.body

def Program.floats (p : Program) : List Binary64 := p.functions.flatMap Function.floats

end Ast

namespace Wire
open Symbols Ast
variable {name : String} {P : Prop}

def exprOf (ty : TypeId) (name : String) (brackets : Nat) (content : Json) : Option Expr :=
  match name with
  | "literal" => (literal brackets content).map (.literal ty)
  | "local_variable" => (variableId content).map (.localVariable ty)
  | "parameter" => (variableId content).map (.parameter ty)
  | "address_of" => (expr brackets content).map (.addressOf ty)
  | "dereference" => (expr brackets content).map (.dereference ty)
  | _ => exprFields ty name brackets content

theorem expr_typed (plain : Json.isPlain name) (n : Nat) (ty : TypeId) (content : Json) :
    expr (n + 2) (Encode.typed ty name content) = exprOf ty name n content := by
  have split : Json.record? ["kind", "ty"] false (Encode.typed ty name content) = some ⟨true,
      [("kind", Encode.variant name content), ("ty", Encode.typeId ty)]⟩ :=
    Json.record?_record rfl (by decide)
  rw [expr, split]
  simp [List.lookup_cons, Encode.variant, Json.variant?_record plain]
  rfl

theorem typed_encode {ty : TypeId} {content : Json} {e : Expr} (plain : Json.isPlain name)
    (inner : ∀ n, exprOf ty name n content = some e ↔ content.depth ≤ n ∧ P) (n : Nat) :
    expr n (Encode.typed ty name content) = some e ↔
      (Encode.typed ty name content).depth ≤ n ∧ P := by
  match n with
  | 0 | 1 => simp [expr, Encode.typed]
  | n + 2 =>
    rw [expr_typed plain, inner]
    simp [Encode.typed]

theorem typedFields_encode {ty : TypeId} {names : List String}
    {decode : Nat → Json.Record → Option Expr} {ms : List (String × Json)} {e : Expr}
    (inner : ∀ n, decode n ⟨true, ms⟩ = some e ↔ Json.memberDepth ms ≤ n ∧ P) (n : Nat)
    (own : ∀ n content, exprOf ty name n content = exprFields ty name n content := by intros; rfl)
    (opens : ∀ n v, exprFields ty name (n + 1) v =
      (Json.record? names false v).bind (decode n) := by
      intros; rfl)
    (same : ms.map Prod.fst = names := by rfl) (plain : Json.isPlain name := by decide)
    (header : Json.isHeader names := by decide) :
    expr n (Encode.typed ty name (Json.record ms)) = some e ↔
      (Encode.typed ty name (Json.record ms)).depth ≤ n ∧ P := by
  refine typed_encode plain (fun n => ?_) n
  rw [own]
  exact fields_encode (fun _ => rfl) opens same header inner n

attribute [local simp] List.lookup_cons Option.bind_eq_some_iff Nat.max_le or_imp forall_and
  Expr.floats Stmt.floats

mutual
theorem expr_encode : ∀ (e : Expr) (n : Nat), expr n (Encode.expr e) = some e ↔
    (Encode.expr e).depth ≤ n ∧ ∀ x ∈ e.floats, x.ReadsBack
  | .literal ty value, n => typed_encode (by decide) (fun n => by
      simp [exprOf, literal_encode]) n
  | .localVariable ty var, n | .parameter ty var, n => typed_encode (by decide) (fun n => by
      simp [exprOf]) n
  | .addressOf ty operand, n | .dereference ty operand, n =>
    typed_encode (by decide) (fun n => by simp [exprOf, expr_encode operand n]) n
  | .memberVariable ty operand _, n | .conversion ty _ operand, n | .unary ty _ operand, n => by
    refine typedFields_encode (fun n => ?_) n
    simp [expr_encode operand n]
  | .binary ty _ lhs rhs, n | .conjunction ty lhs rhs, n | .disjunction ty lhs rhs, n => by
    refine typedFields_encode (fun n => ?_) n
    simp [expr_encode lhs n, expr_encode rhs n, and_and_and_comm]
  | .call ty _ arguments _, n | .temporary ty _ _ arguments _, n => by
    refine typedFields_encode (fun n => ?_) n
    have list := array_encode (D := exprs) (exprs_encode arguments) n
    simp [-Json.depth_array, list, Json.bool?]
theorem exprs_encode : ∀ (es : List Expr) (n : Nat), (Encode.exprs es).mapM (expr n) = some es ↔
    Json.elementDepth (Encode.exprs es) ≤ n ∧ ∀ x ∈ Expr.floatsOfAll es, x.ReadsBack
  | [], n => by simp [Encode.exprs, Expr.floatsOfAll, Json.elementDepth]
  | e :: es, n => by
    simp [Encode.exprs, List.mapM_cons, expr_encode e n, exprs_encode es n,
      Json.elementDepth, Expr.floatsOfAll, and_and_and_comm]
end

theorem clauseKind_encode (k : ClauseKind) (n : Nat) : clauseKind n (Encode.clauseKind k) = some k ↔
    (Encode.clauseKind k).depth ≤ n ∧ ∀ x ∈ k.floats, x.ReadsBack := by
  cases k with
  | default => simp [clauseKind, Encode.clauseKind, ClauseKind.floats]
  | case values =>
    refine variantOf_encode (by decide) rfl (fun n => ?_) n
    have list := listOf_encode values (fun l _ n => literal_encode l n) n
    simp [-depth_listOf, list, ClauseKind.floats]
    grind

def stmtOf (name : String) (brackets : Nat) (content : Json) : Option Stmt :=
  match name with
  | "compound" => (stmts brackets content).map .compound
  | "expression" => (expr brackets content).map .expression
  | "return" => (Json.Record.decodeOptional (expr brackets) content).map .return_
  | "goto" => content.text?.map .goto
  | "goto_case" => (literal brackets content).map .gotoCase
  | "throw" => (expr brackets content).map .throw_
  | _ => if content matches .null then plainStmt name else stmtFields name brackets content

theorem variant_encode {content : Json} {s : Stmt} (plain : Json.isPlain name)
    (inner : ∀ n, stmtOf name n content = some s ↔ content.depth ≤ n ∧ P) (n : Nat) :
    stmt n (Encode.variant name content) = some s ↔
      (Encode.variant name content).depth ≤ n ∧ P := by
  have split : Json.variant? (Encode.variant name content) = some (name, some content) :=
    Json.variant?_record plain content
  cases n with
  | zero => simp [stmt, split]
  | succ n =>
    rw [stmt, split, depth_variant, Nat.succ_le_succ_iff, ← inner n]
    rfl

theorem variantFields_encode {names : List String} {decode : Nat → Json.Record → Option Stmt}
    {ms : List (String × Json)} {s : Stmt}
    (inner : ∀ n, decode n ⟨true, ms⟩ = some s ↔ Json.memberDepth ms ≤ n ∧ P) (n : Nat)
    (own : ∀ n ms, stmtOf name n (Json.record ms) = stmtFields name n (Json.record ms) := by
      intros; rfl)
    (opens : ∀ n v, stmtFields name (n + 1) v = (Json.record? names false v).bind (decode n) := by
      intros; rfl)
    (same : ms.map Prod.fst = names := by rfl) (plain : Json.isPlain name := by decide)
    (header : Json.isHeader names := by decide) :
    stmt n (Encode.variant name (Json.record ms)) = some s ↔
      (Encode.variant name (Json.record ms)).depth ≤ n ∧ P := by
  refine variant_encode plain (fun n => ?_) n
  rw [own]
  exact fields_encode (fun _ => rfl) opens same header inner n

theorem optionalExpr_encode (o : Option Expr) (n : Nat) :
    Json.Record.decodeOptional (expr n) (Json.optional Encode.expr o) = some o ↔
      (Json.optional Encode.expr o).depth ≤ n ∧ ∀ x ∈ Expr.floatsOfOption o, x.ReadsBack := by
  have solid (e : Expr) : Encode.expr e ≠ .null := by cases e <;> exact nofun
  rw [decodeOptional_encode _ solid]
  cases o with
  | none => simp [Json.optional, Expr.floatsOfOption]
  | some e => simp [Json.optional, Expr.floatsOfOption, expr_encode e n]

def Encode.clause (c : Clause) : Json :=
  Json.record [("kind", Encode.clauseKind c.kind), ("body", .array (Encode.stmts c.body))]

theorem clause_encode (kind : ClauseKind) {body : List Stmt}
    (inner : ∀ n, (Encode.stmts body).mapM (stmt n) = some body ↔
      Json.elementDepth (Encode.stmts body) ≤ n ∧ ∀ x ∈ Stmt.floatsOfAll body, x.ReadsBack)
    (n : Nat) : clause n (Encode.clause (.mk kind body)) = some (.mk kind body) ↔
      (Encode.clause (.mk kind body)).depth ≤ n ∧
        (∀ x ∈ kind.floats, x.ReadsBack) ∧ ∀ x ∈ Stmt.floatsOfAll body, x.ReadsBack := by
  refine fields_encode (fun _ => rfl) (fun _ _ => rfl) (by rfl) (by decide) (fun n => ?_) n
  have list := array_encode (D := stmts) inner n
  simp [Clause.kind, Clause.body, clauseKind_encode kind n,
    -Json.depth_array, list, and_and_and_comm]

mutual
theorem stmt_encode : ∀ (s : Stmt) (n : Nat), stmt n (Encode.stmt s) = some s ↔
    (Encode.stmt s).depth ≤ n ∧ ∀ x ∈ s.floats, x.ReadsBack
  | .break_, n | .continue_, n | .gotoDefault, n | .empty, n => by
    simp [stmt, Encode.stmt, plainStmt]
  | .compound body, n => by
    refine variant_encode (by decide) (fun n => ?_) n
    have list := array_encode (D := stmts) (stmts_encode body) n
    simp [stmtOf, -Json.depth_array, list]
  | .expression value, n | .throw_ value, n => by
    refine variant_encode (by decide) (fun n => ?_) n
    simp [stmtOf, expr_encode value n]
  | .return_ value, n => by
    refine variant_encode (by decide) (fun n => ?_) n
    simp [stmtOf, optionalExpr_encode value n]
  | .goto label, n => by
    refine variant_encode (by decide) (fun n => ?_) n
    simp [stmtOf]
  | .gotoCase value, n => by
    refine variant_encode (by decide) (fun n => ?_) n
    simp [stmtOf, literal_encode]
  | .construction var ctor arguments, n => by
    refine variantFields_encode (fun n => ?_) n
    have list := array_encode (D := exprs) (exprs_encode arguments) n
    simp [-Json.depth_array, list]
  | .assignment target value, n => by
    refine variantFields_encode (fun n => ?_) n
    simp [expr_encode target n, expr_encode value n, and_assoc, and_left_comm]
  | .ifElse condition then_ else_, n => by
    refine variantFields_encode (fun n => ?_) n
    simp [expr_encode condition n, stmt_encode then_ n, optionalStmt_encode else_ n, and_assoc,
      and_left_comm]
  | .whileLoop condition body, n | .doWhile body condition, n => by
    refine variantFields_encode (fun n => ?_) n
    simp [expr_encode condition n, stmt_encode body n, and_assoc, and_left_comm]
  | .forLoop init condition increment body, n => by
    refine variantFields_encode (fun n => ?_) n
    simp [optionalStmt_encode init n, optionalExpr_encode condition n,
      optionalExpr_encode increment n, stmt_encode body n, and_assoc, and_left_comm]
  | .switch condition cs, n => by
    refine variantFields_encode (fun n => ?_) n
    have list := array_encode (D := clauses) (clauses_encode cs) n
    simp [-Json.depth_array, expr_encode condition n, list, and_assoc, and_left_comm]
  | .labeled label statement, n => by
    refine variantFields_encode (fun n => ?_) n
    simp [stmt_encode statement n]
  | .destruction object destructor, n => by
    refine variantFields_encode (fun n => ?_) n
    simp [expr_encode object n]
  | .try_ body handler, n => by
    refine variantFields_encode (fun n => ?_) n
    have list := array_encode (D := stmts) (stmts_encode body) n
    have list' := array_encode (D := stmts) (stmts_encode handler) n
    simp [-Json.depth_array, list, list', and_assoc, and_left_comm]
theorem optionalStmt_encode : ∀ (o : Option Stmt) (n : Nat),
    Json.Record.decodeOptional (stmt n) (Encode.optionalStmt o) = some o ↔
      (Encode.optionalStmt o).depth ≤ n ∧ ∀ x ∈ Stmt.floatsOfOption o, x.ReadsBack
  | none, n => by simp [Encode.optionalStmt, Json.Record.decodeOptional, Stmt.floatsOfOption]
  | some s, n => by
    have solid (s : Stmt) : Encode.stmt s ≠ .null := by cases s <;> exact nofun
    have read := decodeOptional_encode (stmt n) solid (some s)
    simpa [Json.optional, Encode.optionalStmt, Stmt.floatsOfOption, stmt_encode s n] using read
theorem stmts_encode : ∀ (ss : List Stmt) (n : Nat), (Encode.stmts ss).mapM (stmt n) = some ss ↔
    Json.elementDepth (Encode.stmts ss) ≤ n ∧ ∀ x ∈ Stmt.floatsOfAll ss, x.ReadsBack
  | [], n => by simp [Encode.stmts, Stmt.floatsOfAll, Json.elementDepth]
  | s :: ss, n => by
    simp [Encode.stmts, List.mapM_cons, stmt_encode s n, stmts_encode ss n,
      Json.elementDepth, Stmt.floatsOfAll, and_and_and_comm]
theorem clauses_encode : ∀ (cs : List Clause) (n : Nat),
    (Encode.clauses cs).mapM (clause n) = some cs ↔
      Json.elementDepth (Encode.clauses cs) ≤ n ∧ ∀ x ∈ Clause.floatsOfAll cs, x.ReadsBack
  | [], n => by simp [Encode.clauses, Clause.floatsOfAll, Json.elementDepth]
  | .mk kind body :: cs, n => by
    have here := clause_encode kind (stmts_encode body) n
    have split : Encode.clauses (.mk kind body :: cs) =
        Encode.clause (.mk kind body) :: Encode.clauses cs := rfl
    simp [split, List.mapM_cons, here, clauses_encode cs n,
      Json.elementDepth, Clause.floatsOfAll, and_assoc,
      and_left_comm]
end

theorem function_encode (f : Function) (n : Nat) : function n (Encode.function f) = some f ↔
    (Encode.function f).depth ≤ n ∧ ∀ x ∈ f.floats, x.ReadsBack := by
  refine recordOf_encode (by rfl) (by decide) (fun n => ?_) n
  obtain ⟨_, parameters, locals, body, _, _⟩ := f
  have list := array_encode (D := stmts) (stmts_encode body) n
  have flat := elementDepth_flat depth_variableId
  cases n with
  | zero => simp [flatListOf_encode variableId_encode]
  | succ n =>
    simp [flatListOf_encode variableId_encode, list, flat,
      Json.bool?, Function.floats]

theorem program_encode (p : Program) (n : Nat) :
    program n (Encode.program p) = some { p with options := .default } ↔
      (Encode.program p).depth ≤ n ∧ ∀ x ∈ p.floats, x.ReadsBack := by
  have split : Json.record? ["symbols", "functions", "options"] false (Encode.program p) =
      some ⟨true, [("symbols", Encode.symbolTable p.symbols),
        ("functions", Encode.listOf Encode.function p.functions)]⟩ :=
    Json.record?_some ["symbols", "functions"] rfl (by decide)
  cases n with
  | zero => simp [program, recordOf, Encode.program]
  | succ n =>
    have list := listOf_encode p.functions (fun f _ n => function_encode f n) n
    have depth : (Encode.program p).depth ≤ n + 1 ↔ (Encode.symbolTable p.symbols).depth ≤ n ∧
        (Encode.listOf Encode.function p.functions).depth ≤ n := by
      simp [Encode.program]
    have floats : (∀ x ∈ p.floats, x.ReadsBack) ↔ ∀ f ∈ p.functions, ∀ x ∈ f.floats, x.ReadsBack :=
      List.forall_mem_flatMap
    rw [program, recordOf, split, depth, floats, and_assoc, ← list, ← symbolTable_encode]
    simp [Option.bind_eq_some_iff]

end Wire
end FlatCode
