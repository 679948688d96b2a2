import FlatCode.Json.Printer
import FlatCode.Ast.Program

/-! Trees and symbols as JSON: records with every field, variants without content by their
name alone. -/
namespace FlatCode.Wire.Encode
open Json (ofNat ofText record optional)
open Symbols Ast

def variant (name : String) (content : Json) : Json := record [(name, content)]

def typeId (t : TypeId) : Json := ofNat t.index.toNat

def functionId (f : FunctionId) : Json := ofNat f.index.toNat

def variableId (v : VariableId) : Json := ofNat v.index.toNat

def listOf (write : α → Json) (as : List α) : Json := .array (as.map write)

/-- Infinities and the like have no numeral. -/
def binary64 (x : Binary64) : Json :=
  match Json.Numeral.ofChars? x.text.toList with
  | some n => .number n
  | none => .null

def literal : Literal → Json
  | .bool value => variant "bool" (.bool value)
  | .char value => variant "char" (ofText value.toString)
  | .signed value => variant "signed" (.ofInt value.toInt)
  | .unsigned value => variant "unsigned" (ofNat value.toNat)
  | .float value => variant "float" (binary64 value)
  | .null => ofText "null"

def classInfo (c : ClassInfo) : Json :=
  record [("name", ofText c.name), ("base", optional typeId c.base),
    ("fields", listOf typeId c.fields), ("has_dispatch_table", .bool c.hasDispatchTable),
    ("destructor", optional functionId c.destructor)]

def typeKind : TypeKind → Json
  | .void => ofText "void"
  | .bool => ofText "bool"
  | .char => ofText "char"
  | .integer w => variant "integer" (ofText w.signedName)
  | .unsignedInteger w => variant "unsigned_integer" (ofText w.unsignedName)
  | .float w => variant "float" (ofText w.name)
  | .pointer t => variant "pointer" (typeId t)
  | .reference t => variant "reference" (typeId t)
  | .functionPointer => ofText "function_pointer"
  | .classType c => variant "class" (classInfo c)

def functionSymbol (f : FunctionSymbol) : Json :=
  record [("name", ofText f.name), ("return_type", typeId f.returnType),
    ("can_raise", .bool f.canRaise), ("returns_by_hidden_slot", .bool f.returnsByHiddenSlot),
    ("intrinsic", optional (fun op => ofText op.name) f.operator),
    ("dispatch_slot", optional (fun slot => ofNat slot.toNat) f.dispatchSlot),
    ("owner", optional typeId f.owner)]

def variableSymbol (v : VariableSymbol) : Json :=
  record [("name", ofText v.name), ("ty", typeId v.ty)]

def symbolTable (s : SymbolTable) : Json :=
  record [("types", listOf typeKind s.types.toList),
    ("functions", listOf functionSymbol s.functions.toList),
    ("variables", listOf variableSymbol s.vars.toList)]

def typed (ty : TypeId) (name : String) (content : Json) : Json :=
  record [("kind", variant name content), ("ty", typeId ty)]

mutual
def expr : Expr → Json
  | .literal ty value => typed ty "literal" (literal value)
  | .localVariable ty var => typed ty "local_variable" (variableId var)
  | .parameter ty var => typed ty "parameter" (variableId var)
  | .memberVariable ty object field =>
    typed ty "member_variable" (record [("object", expr object), ("field", ofNat field.toNat)])
  | .addressOf ty operand => typed ty "address_of" (expr operand)
  | .dereference ty operand => typed ty "dereference" (expr operand)
  | .conversion ty function operand =>
    typed ty "conversion" (record [("function", functionId function), ("operand", expr operand)])
  | .unary ty function operand =>
    typed ty "unary" (record [("function", functionId function), ("operand", expr operand)])
  | .binary ty function lhs rhs =>
    typed ty "binary"
      (record [("function", functionId function), ("lhs", expr lhs), ("rhs", expr rhs)])
  | .call ty function arguments isVirtual =>
    typed ty "call" (record [("function", functionId function),
      ("arguments", .array (exprs arguments)), ("is_virtual", .bool isVirtual)])
  | .conjunction ty lhs rhs =>
    typed ty "conjunction" (record [("lhs", expr lhs), ("rhs", expr rhs)])
  | .disjunction ty lhs rhs =>
    typed ty "disjunction" (record [("lhs", expr lhs), ("rhs", expr rhs)])
  | .temporary ty var ctor arguments destroy =>
    typed ty "temporary" (record [("variable", variableId var), ("constructor", functionId ctor),
      ("arguments", .array (exprs arguments)), ("destroy", .bool destroy)])
def exprs : List Expr → List Json
  | [] => []
  | e :: es => expr e :: exprs es
end

def clauseKind : ClauseKind → Json
  | .case values => variant "case" (listOf literal values)
  | .default => ofText "default"

mutual
def stmt : Stmt → Json
  | .compound body => variant "compound" (.array (stmts body))
  | .expression value => variant "expression" (expr value)
  | .construction var ctor arguments =>
    variant "construction" (record [("variable", variableId var),
      ("constructor", functionId ctor), ("arguments", .array (exprs arguments))])
  | .assignment target value =>
    variant "assignment" (record [("target", expr target), ("value", expr value)])
  | .ifElse condition then_ else_ =>
    variant "if" (record [("condition", expr condition), ("then_statement", stmt then_),
      ("else_statement", optionalStmt else_)])
  | .whileLoop condition body =>
    variant "while" (record [("condition", expr condition), ("body", stmt body)])
  | .doWhile body condition =>
    variant "do_while" (record [("body", stmt body), ("condition", expr condition)])
  | .forLoop init condition increment body =>
    variant "for" (record [("initializer", optionalStmt init),
      ("condition", optional expr condition), ("increment", optional expr increment),
      ("body", stmt body)])
  | .switch condition cs =>
    variant "switch" (record [("condition", expr condition), ("clauses", .array (clauses cs))])
  | .return_ value => variant "return" (optional expr value)
  | .break_ => ofText "break"
  | .continue_ => ofText "continue"
  | .labeled label statement =>
    variant "labeled" (record [("label", ofText label), ("statement", stmt statement)])
  | .goto label => variant "goto" (ofText label)
  | .gotoCase value => variant "goto_case" (literal value)
  | .gotoDefault => ofText "goto_default"
  | .destruction object destructor =>
    variant "destruction"
      (record [("object", expr object), ("destructor", functionId destructor)])
  | .try_ body handler =>
    variant "try" (record [("body", .array (stmts body)), ("handler", .array (stmts handler))])
  | .throw_ code => variant "throw" (expr code)
  | .empty => ofText "empty"
def optionalStmt : Option Stmt → Json
  | none => .null
  | some s => stmt s
def stmts : List Stmt → List Json
  | [] => []
  | s :: ss => stmt s :: stmts ss
def clauses : List Clause → List Json
  | [] => []
  | .mk kind body :: cs =>
    record [("kind", clauseKind kind), ("body", .array (stmts body))] :: clauses cs
end

def function (f : Function) : Json :=
  record [("function", functionId f.function), ("parameters", listOf variableId f.parameters),
    ("locals", listOf variableId f.locals), ("body", .array (stmts f.body)),
    ("returns_by_hidden_slot", .bool f.returnsByHiddenSlot), ("can_raise", .bool f.canRaise)]

/-- Options are not written. -/
def program (p : Program) : Json :=
  record [("symbols", symbolTable p.symbols), ("functions", listOf function p.functions)]

end FlatCode.Wire.Encode
