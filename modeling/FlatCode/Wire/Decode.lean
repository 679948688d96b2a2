import FlatCode.Json.Decode
import FlatCode.Json.Reader
import FlatCode.Ast.Program

/-! Trees and symbols from JSON. Every reader is given the number of brackets that may
still be opened; the values of unknown fields do not count. -/
namespace FlatCode.Wire
open Json (Record record? variant? bool? uint32? uint64? int64? binary64? char?)
open Symbols Ast

/-- No more brackets than this may be open at once. -/
def maxBrackets : Nat := 127

/-- A reader that may open a number of brackets. -/
abbrev Decoder (α : Type) := Nat → Json → Option α

def typeId (v : Json) : Option TypeId := (uint32? v).map TypeId.mk

def functionId (v : Json) : Option FunctionId := (uint32? v).map FunctionId.mk

def variableId (v : Json) : Option VariableId := (uint32? v).map VariableId.mk

def listOf (decode : Decoder α) : Decoder (List α)
  | brackets + 1, .array vs => vs.mapM (decode brackets)
  | _, _ => none

/-- Reads each element without opening brackets. -/
def flatListOf (decode : Json → Option α) : Decoder (List α) := listOf fun _ => decode

/-- Opens the bracket of a record. -/
def recordOf (names : List String) (decode : Nat → Record → Option α) : Decoder α
  | brackets + 1, v => (record? names false v).bind (decode brackets)
  | 0, _ => none

/-- A variant and, if it has content, the brackets left for it. -/
def variantOf (plain : String → Option α) (withContent : Nat → String → Json → Option α) :
    Decoder α := fun brackets v =>
  match variant? v, brackets with
  | some (name, none), _ => plain name
  | some (name, some content), brackets + 1 =>
    (withContent brackets name content).or (if content matches .null then plain name else none)
  | _, _ => none

/-- A choice between names without content. -/
def nameOf (choose : String → Option α) : Decoder α := variantOf choose fun _ _ _ => none

def operator : Decoder Operator := nameOf Operator.ofName?

def literal : Decoder Literal := variantOf
  (fun name => if name = "null" then some .null else none)
  fun _ name v =>
    match name with
    | "bool" => (bool? v).map .bool
    | "char" => (char? v).map .char
    | "signed" => (int64? v).map .signed
    | "unsigned" => (uint64? v).map .unsigned
    | "float" => (binary64? v).map .float
    | _ => none

def classInfo : Decoder ClassInfo :=
  recordOf ["name", "base", "fields", "has_dispatch_table", "destructor"] fun brackets r => do
    let name ← r.required "name" Json.text?
    let base ← r.optional "base" typeId
    let fields ← r.defaulted "fields" [] (flatListOf typeId brackets)
    let hasDispatchTable ← r.defaulted "has_dispatch_table" false bool?
    let destructor ← r.optional "destructor" functionId
    some ⟨name, base, fields, hasDispatchTable, destructor⟩

def typeKind : Decoder TypeKind := variantOf
  (fun
    | "void" => some .void
    | "bool" => some .bool
    | "char" => some .char
    | "function_pointer" => some .functionPointer
    | _ => none)
  fun brackets name v =>
    match name with
    | "integer" => (nameOf IntWidth.ofSignedName? brackets v).map .integer
    | "unsigned_integer" => (nameOf IntWidth.ofUnsignedName? brackets v).map .unsignedInteger
    | "float" => (nameOf FloatWidth.ofName? brackets v).map .float
    | "pointer" => (typeId v).map .pointer
    | "reference" => (typeId v).map .reference
    | "class" => (classInfo brackets v).map .classType
    | _ => none

def functionSymbol : Decoder FunctionSymbol :=
  recordOf ["name", "return_type", "can_raise", "returns_by_hidden_slot", "intrinsic",
      "dispatch_slot", "owner"] fun brackets r => do
    let name ← r.required "name" Json.text?
    let returnType ← r.required "return_type" typeId
    let canRaise ← r.defaulted "can_raise" false bool?
    let returnsByHiddenSlot ← r.defaulted "returns_by_hidden_slot" false bool?
    let op ← r.optional "intrinsic" (operator brackets)
    let dispatchSlot ← r.optional "dispatch_slot" uint32?
    let owner ← r.optional "owner" typeId
    some ⟨name, returnType, canRaise, returnsByHiddenSlot, op, dispatchSlot, owner⟩

def variableSymbol : Decoder VariableSymbol :=
  recordOf ["name", "ty"] fun _ r => do
    let name ← r.required "name" Json.text?
    let ty ← r.required "ty" typeId
    some ⟨name, ty⟩

def symbolTable : Decoder SymbolTable :=
  recordOf ["types", "functions", "variables"] fun brackets r => do
    let types ← r.required "types" (listOf typeKind brackets)
    let functions ← r.required "functions" (listOf functionSymbol brackets)
    let vars ← r.required "variables" (listOf variableSymbol brackets)
    some ⟨types.toArray, functions.toArray, vars.toArray⟩

mutual
def expr : Decoder Expr
  | brackets + 2, v => do
    let r ← record? ["kind", "ty"] false v
    let ty ← r.required "ty" typeId
    let (name, content) ← r.required "kind" variant?
    let content ← content
    match name with
    | "literal" => (literal brackets content).map (.literal ty)
    | "local_variable" => (variableId content).map (.localVariable ty)
    | "parameter" => (variableId content).map (.parameter ty)
    | "address_of" => (expr brackets content).map (.addressOf ty)
    | "dereference" => (expr brackets content).map (.dereference ty)
    | _ => exprFields ty name brackets content
  | _, _ => none
def exprFields (ty : TypeId) (name : String) : Decoder Expr
  | brackets + 1, v =>
    match name with
    | "member_variable" => do
      let r ← record? ["object", "field"] false v
      let object ← r.required "object" (expr brackets)
      let field ← r.required "field" uint32?
      some (.memberVariable ty object field)
    | "conversion" => do
      let r ← record? ["function", "operand"] false v
      let function ← r.required "function" functionId
      let operand ← r.required "operand" (expr brackets)
      some (.conversion ty function operand)
    | "unary" => do
      let r ← record? ["function", "operand"] false v
      let function ← r.required "function" functionId
      let operand ← r.required "operand" (expr brackets)
      some (.unary ty function operand)
    | "binary" => do
      let r ← record? ["function", "lhs", "rhs"] false v
      let function ← r.required "function" functionId
      let lhs ← r.required "lhs" (expr brackets)
      let rhs ← r.required "rhs" (expr brackets)
      some (.binary ty function lhs rhs)
    | "call" => do
      let r ← record? ["function", "arguments", "is_virtual"] false v
      let function ← r.required "function" functionId
      let arguments ← r.required "arguments" (exprs brackets)
      let isVirtual ← r.defaulted "is_virtual" false bool?
      some (.call ty function arguments isVirtual)
    | "conjunction" => do
      let r ← record? ["lhs", "rhs"] false v
      let lhs ← r.required "lhs" (expr brackets)
      let rhs ← r.required "rhs" (expr brackets)
      some (.conjunction ty lhs rhs)
    | "disjunction" => do
      let r ← record? ["lhs", "rhs"] false v
      let lhs ← r.required "lhs" (expr brackets)
      let rhs ← r.required "rhs" (expr brackets)
      some (.disjunction ty lhs rhs)
    | "temporary" => do
      let r ← record? ["variable", "constructor", "arguments", "destroy"] false v
      let var ← r.required "variable" variableId
      let ctor ← r.required "constructor" functionId
      let arguments ← r.required "arguments" (exprs brackets)
      let destroy ← r.defaulted "destroy" false bool?
      some (.temporary ty var ctor arguments destroy)
    | _ => none
  | _, _ => none
def exprs : Decoder (List Expr)
  | brackets + 1, .array vs => vs.mapM (expr brackets)
  | _, _ => none
end

def clauseKind : Decoder ClauseKind := variantOf
  (fun name => if name = "default" then some .default else none)
  fun brackets name v =>
    if name = "case" then (listOf literal brackets v).map .case else none

def plainStmt : String → Option Stmt
  | "break" => some .break_
  | "continue" => some .continue_
  | "goto_default" => some .gotoDefault
  | "empty" => some .empty
  | _ => none

mutual
def stmt (brackets : Nat) (v : Json) : Option Stmt :=
  match variant? v with
  | none => none
  | some (name, none) => plainStmt name
  | some (name, some content) =>
    match brackets with
    | 0 => none
    | brackets + 1 =>
      match name with
      | "compound" => (stmts brackets content).map .compound
      | "expression" => (expr brackets content).map .expression
      | "return" => (Record.decodeOptional (expr brackets) content).map .return_
      | "goto" => content.text?.map .goto
      | "goto_case" => (literal brackets content).map .gotoCase
      | "throw" => (expr brackets content).map .throw_
      | _ =>
        if content matches .null then plainStmt name else stmtFields name brackets content
def stmtFields (name : String) : Decoder Stmt
  | brackets + 1, v =>
    match name with
    | "construction" => do
      let r ← record? ["variable", "constructor", "arguments"] false v
      let var ← r.required "variable" variableId
      let ctor ← r.required "constructor" functionId
      let arguments ← r.required "arguments" (exprs brackets)
      some (.construction var ctor arguments)
    | "assignment" => do
      let r ← record? ["target", "value"] false v
      let target ← r.required "target" (expr brackets)
      let value ← r.required "value" (expr brackets)
      some (.assignment target value)
    | "if" => do
      let r ← record? ["condition", "then_statement", "else_statement"] false v
      let condition ← r.required "condition" (expr brackets)
      let then_ ← r.required "then_statement" (stmt brackets)
      let else_ ← r.nullable "else_statement" (stmt brackets)
      some (.ifElse condition then_ else_)
    | "while" => do
      let r ← record? ["condition", "body"] false v
      let condition ← r.required "condition" (expr brackets)
      let body ← r.required "body" (stmt brackets)
      some (.whileLoop condition body)
    | "do_while" => do
      let r ← record? ["body", "condition"] false v
      let body ← r.required "body" (stmt brackets)
      let condition ← r.required "condition" (expr brackets)
      some (.doWhile body condition)
    | "for" => do
      let r ← record? ["initializer", "condition", "increment", "body"] false v
      let init ← r.nullable "initializer" (stmt brackets)
      let condition ← r.nullable "condition" (expr brackets)
      let increment ← r.nullable "increment" (expr brackets)
      let body ← r.required "body" (stmt brackets)
      some (.forLoop init condition increment body)
    | "switch" => do
      let r ← record? ["condition", "clauses"] false v
      let condition ← r.required "condition" (expr brackets)
      let clauses ← r.required "clauses" (clauses brackets)
      some (.switch condition clauses)
    | "labeled" => do
      let r ← record? ["label", "statement"] false v
      let label ← r.required "label" Json.text?
      let statement ← r.required "statement" (stmt brackets)
      some (.labeled label statement)
    | "destruction" => do
      let r ← record? ["object", "destructor"] false v
      let object ← r.required "object" (expr brackets)
      let destructor ← r.required "destructor" functionId
      some (.destruction object destructor)
    | "try" => do
      let r ← record? ["body", "handler"] false v
      let body ← r.required "body" (stmts brackets)
      let handler ← r.required "handler" (stmts brackets)
      some (.try_ body handler)
    | _ => none
  | _, _ => none
def stmts : Decoder (List Stmt)
  | brackets + 1, .array vs => vs.mapM (stmt brackets)
  | _, _ => none
def clause : Decoder Clause
  | brackets + 1, v => do
    let r ← record? ["kind", "body"] false v
    let kind ← r.required "kind" (clauseKind brackets)
    let body ← r.required "body" (stmts brackets)
    some (.mk kind body)
  | _, _ => none
def clauses : Decoder (List Clause)
  | brackets + 1, .array vs => vs.mapM (clause brackets)
  | _, _ => none
end

def function : Decoder Function :=
  recordOf ["function", "parameters", "locals", "body", "returns_by_hidden_slot", "can_raise"]
    fun brackets r => do
      let function ← r.required "function" functionId
      let parameters ← r.required "parameters" (flatListOf variableId brackets)
      let locals ← r.defaulted "locals" [] (flatListOf variableId brackets)
      let body ← r.required "body" (stmts brackets)
      let returnsByHiddenSlot ← r.defaulted "returns_by_hidden_slot" false bool?
      let canRaise ← r.defaulted "can_raise" false bool?
      some ⟨function, parameters, locals, body, returnsByHiddenSlot, canRaise⟩

/-- Options are closed: no other name is accepted. -/
def options : Decoder Options
  | _ + 1, v => do
    let r ← record? ["trace_calls", "debug_comments"] true v
    let traceCalls ← r.defaulted "trace_calls" false bool?
    let debugComments ← r.defaulted "debug_comments" false bool?
    some ⟨traceCalls, debugComments⟩
  | _, _ => none

def program : Decoder Program :=
  recordOf ["symbols", "functions", "options"] fun brackets r => do
    let symbols ← r.required "symbols" (symbolTable brackets)
    let functions ← r.required "functions" (listOf function brackets)
    let options ← r.defaulted "options" .default (options brackets)
    some ⟨symbols, functions, options⟩

def parseProgram? (s : String) : Option Program := (Json.parse? s).bind (program maxBrackets)

end FlatCode.Wire
