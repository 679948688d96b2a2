import FlatCode.Draft.Complete
import FlatCode.Lower.Stmt

/-! Lowering of functions. Code comes in the order prologue, body, landing pads. -/
namespace FlatCode
namespace Lower
open Code Symbols Ast

structure Incoming where
  /-- The address of the caller's result slot. -/
  result : Option Register
  parameters : List Register
  /-- The address of the caller's status slot. -/
  callerStatus : Option Register

def Incoming.arguments (i : Incoming) : List Register :=
  i.result.toList ++ i.parameters ++ i.callerStatus.toList

def receiveResult (f : Ast.Function) : LowerM (Option Register) := do
  if f.returnsByHiddenSlot then
    return some (← Draft.newRegister (.ptr (← pointee (← read).symbol.returnType)))
  else pure none

def receiveParameter (v : VariableId) : LowerM Register := do
  let location ← allocate v .parameter
  let r ← Draft.newRegister location.slotType
  emit (.store location.slot r)
  pure r

def receiveStatus (f : Ast.Function) : LowerM (Option Register) := do
  if f.canRaise then return some (← Draft.newRegister (.ptr .status)) else pure none

/-- Takes the arguments and makes room for the local variables. -/
def receive (f : Ast.Function) : LowerM Incoming := do
  let result ← receiveResult f
  let parameters ← f.parameters.mapM receiveParameter
  let callerStatus ← receiveStatus f
  f.locals.forM fun v => discard (allocate v .localVariable)
  pure ⟨result, parameters, callerStatus⟩

def prologue (f : Ast.Function) : LowerM Incoming := do
  let incoming ← receive f
  emitTrace traceEnter
  pure incoming

def fallOut : LowerM Unit := do
  unless ← endsInTerminator do emitReturn (← defaultReturn)

def finishBody : LowerM Nat := do
  let depth := (← get).cleanups.depth
  if depth ≠ 0 then throw (.unbalancedScopes depth)
  emitPads

/-- The body, a return at its end if control can come there, and the landing pads. The result
is the number of landing pads. -/
def lowerBody (body : List Stmt) : LowerM Nat := do
  let _ ← inCompound (lowerStmts body)
  fallOut
  finishBody

def lowerAll (f : Ast.Function) : LowerM Code.Function := do
  let incoming ← prologue f
  let pads ← withReader (fun env =>
    { env with result := incoming.result, callerStatus := incoming.callerStatus })
    (lowerBody f.body)
  let s ← get
  s.gotos.finish
  s.draft.toFunction (← read).symbol.name incoming.arguments pads

end Lower

open Symbols Ast

def lowerFunction (symbols : SymbolTable) (options : Options) (f : Ast.Function) :
    Except Error Code.Function := do
  let symbol ← symbols.functionSymbol f.function
  let labels ← LabelScopes.collect f.body
  let env : Lower.Env :=
    ⟨symbols, symbol, options, labels, none, none, [], none, none, none, none⟩
  match Lower.lowerAll f env .empty with
  | .ok code _ => .ok code
  | .error e _ => .error e

end FlatCode
