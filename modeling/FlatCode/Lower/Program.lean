import FlatCode.Lower.Function
import FlatCode.Ast.Program

/-! Lowering of programs. Functions are lowered one by one, and share nothing. -/
namespace FlatCode
open Symbols Ast

def reportedName (symbols : SymbolTable) (f : FunctionId) : String :=
  match symbols.functionSymbol f with
  | .ok symbol => symbol.name
  | .error _ => "<unknown>"

/-- Enters the code of a function behind those with smaller numbers. Code that is already
there for the same function is replaced. -/
def insertCode (f : FunctionId) (code : Code.Function) :
    List (FunctionId × Code.Function) → List (FunctionId × Code.Function)
  | [] => [(f, code)]
  | (g, old) :: rest =>
    if f.index < g.index then (f, code) :: (g, old) :: rest
    else if f = g then (f, code) :: rest
    else (g, old) :: insertCode f code rest

def lowerInto (p : Program) (done : List (FunctionId × Code.Function)) (f : Ast.Function) :
    Except Error (List (FunctionId × Code.Function)) :=
  match lowerFunction p.symbols p.options f with
  | .ok code => .ok (insertCode f.function code done)
  | .error e => .error (.inFunction (reportedName p.symbols f.function) e)

/-- The code of all functions of a program, by their numbers. The first failure ends it. -/
def lowerProgram (p : Program) : Except Error (List (FunctionId × Code.Function)) :=
  p.functions.foldlM (lowerInto p) []

end FlatCode
