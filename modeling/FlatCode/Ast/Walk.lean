import FlatCode.Ast.Basic

/-! The order in which the parts of a body are visited: every node before its children,
and children in the order in which their code is written. -/
namespace FlatCode.Ast

inductive Node where
  | compound (body : List Stmt)
  | stmt (statement : Stmt)
  | clause (clause : Clause)
  | expr (expression : Expr)

def Node.name : Node → String
  | compound _ => "\x7b\x7d"
  | stmt s => s.name
  | clause _ => "clause"
  | expr e => e.kind

abbrev Visit := Nat × Node

mutual
def Expr.walk (depth : Nat) (e : Expr) : List Visit :=
  (depth, .expr e) ::
    match e with
    | .literal _ _ | .localVariable _ _ | .parameter _ _ => []
    | .memberVariable _ operand _ | .addressOf _ operand | .dereference _ operand
    | .conversion _ _ operand | .unary _ _ operand => operand.walk (depth + 1)
    | .binary _ _ lhs rhs | .conjunction _ lhs rhs | .disjunction _ lhs rhs =>
      lhs.walk (depth + 1) ++ rhs.walk (depth + 1)
    | .call _ _ arguments _ | .temporary _ _ _ arguments _ => Expr.walkAll (depth + 1) arguments
def Expr.walkAll (depth : Nat) : List Expr → List Visit
  | [] => []
  | e :: es => e.walk depth ++ Expr.walkAll depth es
end

mutual
def Stmt.walk (depth : Nat) (s : Stmt) : List Visit :=
  (depth, .stmt s) ::
    match s with
    | .compound body => (depth + 1, .compound body) :: Stmt.walkAll (depth + 2) body
    | .expression e | .throw_ e | .destruction e _ | .return_ (some e) => e.walk (depth + 1)
    | .construction _ _ arguments => Expr.walkAll (depth + 1) arguments
    | .assignment target value => target.walk (depth + 1) ++ value.walk (depth + 1)
    | .ifElse condition t none => condition.walk (depth + 1) ++ t.walk (depth + 1)
    | .ifElse condition t (some e) =>
      condition.walk (depth + 1) ++ t.walk (depth + 1) ++ e.walk (depth + 1)
    | .whileLoop condition body => condition.walk (depth + 1) ++ body.walk (depth + 1)
    | .doWhile body condition => body.walk (depth + 1) ++ condition.walk (depth + 1)
    | .forLoop init condition increment body =>
      (match init with
        | some s => s.walk (depth + 1)
        | none => []) ++
      (match condition with
        | some e => e.walk (depth + 1)
        | none => []) ++
      body.walk (depth + 1) ++
      (match increment with
        | some e => e.walk (depth + 1)
        | none => [])
    | .switch condition clauses => condition.walk (depth + 1) ++ Clause.walkAll (depth + 1) clauses
    | .labeled _ s => s.walk (depth + 1)
    | .try_ body handler =>
      (depth + 1, .compound body) :: Stmt.walkAll (depth + 2) body ++
        (depth + 1, .compound handler) :: Stmt.walkAll (depth + 2) handler
    | .return_ none | .break_ | .continue_ | .goto _ | .gotoCase _ | .gotoDefault | .empty => []
def Stmt.walkAll (depth : Nat) : List Stmt → List Visit
  | [] => []
  | s :: ss => s.walk depth ++ Stmt.walkAll depth ss
def Clause.walkAll (depth : Nat) : List Clause → List Visit
  | [] => []
  | .mk kind body :: cs =>
    (depth, .clause (.mk kind body)) :: (depth + 1, .compound body) ::
      Stmt.walkAll (depth + 2) body ++ Clause.walkAll depth cs
end

def walk (body : List Stmt) : List Visit := (0, .compound body) :: Stmt.walkAll 1 body

end FlatCode.Ast
