import FlatCode.Lower.State

/-! Ways out: destructor calls, the exception status and landing pads, and returns. -/
namespace FlatCode.Lower
open Code Symbols Ast

def noException : Operand := Imm.int 0 .w32

/-- The slot to which calls report failures, cleared when it is made. -/
def statusSlot : LowerM Register := do
  match (← get).status with
  | some slot => pure slot
  | none =>
    let slot ← Draft.allocSlot .status (some "exception_status")
    Draft.emitEntry (.store slot noException)
    modify fun s => { s with status := some slot }
    pure slot

/-- Calls a destructor. The result tells whether it can raise. -/
def emitDestructor (o : Obligation) : LowerM Bool := do
  let destructor ← functionSymbol o.destructor
  if destructor.canRaise then
    let status ← statusSlot
    emit (.call (.direct destructor.name) [o.object, status] none)
    pure true
  else
    emit (.call (.direct destructor.name) [o.object] none)
    pure false

/-- Notes a landing pad for a failure at this point. The first `destroyed` objects that are
owed here have already been destroyed. -/
def notePad (destroyed : Nat) : LowerM Label := do
  let region := (← read).region
  let depth := match region with
    | some region => region.depth
    | none => 0
  let cleanups := ((← get).cleanups.pendingFrom depth).drop destroyed
  let label ← Draft.newLabel
  modify fun s => { s with pads := s.pads.note label (region.map Region.handler) cleanups }
  pure label

/-- Goes to a new landing pad if the call just made has failed. -/
def testStatus (destroyed : Nat) : LowerM Unit := do
  let status ← statusSlot
  let code ← Draft.newRegister .status
  emit (.load code status)
  let pad ← notePad destroyed
  let branch ← Draft.emit (.branch code (some pad) none)
  let _ ← Draft.resolveRequiredHere [⟨branch, .negative⟩]

/-- Destroys objects on a way out of scopes, behind `destroyed` others. A destructor that can
raise is tested, and its landing pad destroys only what is left. -/
def emitCleanups (destroyed : Nat) : List Obligation → LowerM Unit
  | [] => pure ()
  | o :: rest => do
    if ← emitDestructor o then testStatus (destroyed + 1)
    emitCleanups (destroyed + 1) rest

/-- Destroys what the cleanup scopes from a depth inwards owe, and keeps it on the stacks. -/
def leaveTo (depth : Nat) : LowerM Unit := do
  emitCleanups 0 ((← get).cleanups.pendingFrom depth)

def openScope : LowerM Unit :=
  modify fun s => { s with cleanups := s.cleanups.openScope }

def dropScope : LowerM Unit := do
  let cleanups ← (← get).cleanups.closeScope
  modify fun s => { s with cleanups := cleanups }

/-- Ends the innermost scope. Its objects are destroyed if control can come here. -/
def closeScope : LowerM Unit := do
  let depth := (← get).cleanups.depth
  if depth = 0 then throw .emptyCleanupStack
  unless ← endsInTerminator do leaveTo (depth - 1)
  dropScope

/-- Runs `m` in a scope that owns the temporaries it makes. -/
def withTemporaries (m : LowerM α) : LowerM α := do
  openScope
  let a ← m
  closeScope
  pure a

/-- What is returned where the source returns nothing. -/
def defaultReturn : LowerM (Option Operand) := do
  let ty := (← read).symbol.returnType
  if (← read).result.isSome then return none
  if ← isVoid ty then return none
  match Imm.zero? (← codeType ty) with
  | some zero => pure (some zero)
  | none => throw (.aggregateReturn ty)

/-- A call of a tracing function, if calls are traced. -/
def emitTrace (function : String) : LowerM Unit := do
  if (← read).options.traceCalls then
    emit (.call (.direct function) [Imm.fn (← read).symbol.name] none)

def emitReturn (value : Option Operand) : LowerM Unit := do
  emitTrace traceLeave
  emit (.ret value)

/-- Destroys objects in a landing pad. A failure of a destructor takes the place of the one
that is under way, so nothing is tested. -/
def emitUnwinding : List Obligation → LowerM Unit
  | [] => pure ()
  | o :: rest => do
    let _ ← emitDestructor o
    emitUnwinding rest

def passStatus : LowerM Unit := do
  match (← read).callerStatus with
  | none => pure ()
  | some callerStatus =>
    let status ← statusSlot
    let code ← Draft.newRegister .status
    emit (.load code status)
    emit (.store callerStatus code)

def unwindPad (pad : LandingPad) : LowerM Unit := do
  emitUnwinding pad.cleanups
  match pad.handler with
  | some handler => emit (.jump (some handler))
  | none =>
    passStatus
    emitReturn (← defaultReturn)

def emitPad (pad : LandingPad) : LowerM Unit := do
  Draft.place pad.label
  unwindPad pad

/-- Writes all landing pads, and tells how many there are. -/
def emitPads : LowerM Nat := do
  let pads := (← get).pads.pads
  modify fun s => { s with pads := .empty }
  pads.toList.forM emitPad
  pure pads.size

end FlatCode.Lower
