import FlatCode.Ids
import FlatCode.Ast.Literal

/-! Resolved procedure trees. Every call names the function it goes to, every expression
carries its type, and operators on primitive types are calls like all others. -/
namespace FlatCode.Ast

inductive Expr where
  | literal (ty : TypeId) (value : Literal)
  | localVariable (ty : TypeId) (var : VariableId)
  | parameter (ty : TypeId) (var : VariableId)
  /-- `field` counts the fields that the class of `object` declares itself. -/
  | memberVariable (ty : TypeId) (object : Expr) (field : UInt32)
  | addressOf (ty : TypeId) (operand : Expr)
  | dereference (ty : TypeId) (operand : Expr)
  | conversion (ty : TypeId) (function : FunctionId) (operand : Expr)
  | unary (ty : TypeId) (function : FunctionId) (operand : Expr)
  | binary (ty : TypeId) (function : FunctionId) (lhs rhs : Expr)
  | call (ty : TypeId) (function : FunctionId) (arguments : List Expr) (isVirtual : Bool)
  | conjunction (ty : TypeId) (lhs rhs : Expr)
  | disjunction (ty : TypeId) (lhs rhs : Expr)
  /-- An object built in a local of its own. With `destroy`, it lives until the end of the
  full expression around it. -/
  | temporary (ty : TypeId) (var : VariableId) (constructor : FunctionId)
      (arguments : List Expr) (destroy : Bool)

namespace Expr

def ty : Expr → TypeId
  | literal ty _ | localVariable ty _ | parameter ty _ | memberVariable ty _ _ | addressOf ty _
  | dereference ty _ | conversion ty _ _ | unary ty _ _ | binary ty _ _ _ | call ty _ _ _
  | conjunction ty _ _ | disjunction ty _ _ | temporary ty _ _ _ _ => ty

def kind : Expr → String
  | literal _ _ => "literal"
  | localVariable _ _ => "local_variable"
  | parameter _ _ => "parameter"
  | memberVariable _ _ _ => "member_variable"
  | addressOf _ _ => "address_of"
  | dereference _ _ => "dereference"
  | conversion _ _ _ => "conversion"
  | unary _ _ _ => "unary"
  | binary _ _ _ _ => "binary"
  | call _ _ _ _ => "call"
  | conjunction _ _ _ => "conjunction"
  | disjunction _ _ _ => "disjunction"
  | temporary _ _ _ _ _ => "temporary"

end Expr

inductive ClauseKind where
  | case (values : List Literal)
  | default
  deriving DecidableEq

mutual
inductive Stmt where
  | compound (body : List Stmt)
  | expression (value : Expr)
  /-- Builds a local variable in place. -/
  | construction (var : VariableId) (constructor : FunctionId) (arguments : List Expr)
  | assignment (target value : Expr)
  | ifElse (condition : Expr) (then_ : Stmt) (else_ : Option Stmt)
  | whileLoop (condition : Expr) (body : Stmt)
  | doWhile (body : Stmt) (condition : Expr)
  | forLoop (init : Option Stmt) (condition increment : Option Expr) (body : Stmt)
  | switch (condition : Expr) (clauses : List Clause)
  | return_ (value : Option Expr)
  | break_
  | continue_
  | labeled (label : String) (statement : Stmt)
  | goto (label : String)
  | gotoCase (value : Literal)
  | gotoDefault
  /-- Calls a destructor by name. -/
  | destruction (object : Expr) (destructor : FunctionId)
  /-- Whatever `body` raises goes to `handler`. -/
  | try_ (body handler : List Stmt)
  | throw_ (code : Expr)
  | empty
inductive Clause where
  | mk (kind : ClauseKind) (body : List Stmt)
end

def Clause.kind : Clause → ClauseKind
  | .mk kind _ => kind

def Clause.body : Clause → List Stmt
  | .mk _ body => body

def Stmt.name : Stmt → String
  | compound _ => "compound"
  | expression _ => "expression"
  | construction _ _ _ => "construction"
  | assignment _ _ => "assignment"
  | ifElse _ _ _ => "if"
  | whileLoop _ _ => "while"
  | doWhile _ _ => "do_while"
  | forLoop _ _ _ _ => "for"
  | switch _ _ => "switch"
  | return_ _ => "return"
  | break_ => "break"
  | continue_ => "continue"
  | labeled _ _ => "labeled"
  | goto _ => "goto"
  | gotoCase _ => "goto_case"
  | gotoDefault => "goto_default"
  | destruction _ _ => "destruction"
  | try_ _ _ => "try"
  | throw_ _ => "throw"
  | empty => "empty"

structure Function where
  function : FunctionId
  parameters : List VariableId
  locals : List VariableId
  body : List Stmt
  /-- The result is built in a slot of the caller, passed as a hidden first argument. -/
  returnsByHiddenSlot : Bool
  /-- Failures are reported through a status slot, passed as a hidden last argument. -/
  canRaise : Bool

/-- What the code shows besides what the tree asks for. -/
structure Options where
  /-- Calls of two tracing functions around every body. -/
  traceCalls : Bool
  /-- A comment in front of every statement. -/
  debugComments : Bool
  deriving DecidableEq

def Options.default : Options := ⟨false, false⟩

def traceEnter : String := "__trace_enter"

def traceLeave : String := "__trace_leave"

end FlatCode.Ast
