import FlatCode.Symbols.Table
import FlatCode.Ast.Basic

/-! A unit of work: bodies, and the symbols they refer to. -/
namespace FlatCode.Ast

structure Program where
  symbols : Symbols.SymbolTable
  functions : List Function
  options : Options

end FlatCode.Ast
