import FlatCode.CaseMap
import FlatCode.Fold
import FlatCode.Goto
import FlatCode.LandingPad
import FlatCode.Storage

/-! What lowering knows at a point of the tree, and what it changes. Everything that belongs
to a place in the tree is passed inwards; only the code written so far and the bookkeeping
around it is state. -/
namespace FlatCode.Lower
open Code Symbols Ast

structure ActiveScope where
  id : ScopeId
  /-- How many cleanup scopes were open when it was entered. -/
  depth : Nat

structure Region where
  handler : Label
  /-- Unwinding to the handler leaves the cleanup scopes from here inwards. -/
  depth : Nat

structure ActiveSwitch where
  cases : CaseMap
  depth : Nat

structure Env where
  symbols : SymbolTable
  /-- The function that is being lowered. -/
  symbol : FunctionSymbol
  options : Options
  labels : LabelScopes
  /-- The address of the caller's result slot. -/
  result : Option Register
  /-- The address of the caller's status slot. -/
  callerStatus : Option Register
  /-- The compounds around this place, the outermost first. -/
  scopes : List ActiveScope
  /-- The cleanup depth of the loop or switch that `break` leaves. -/
  breakDepth : Option Nat
  /-- The cleanup depth of the loop that `continue` stays in. -/
  loopDepth : Option Nat
  switch : Option ActiveSwitch
  region : Option Region

structure State where
  draft : Draft
  storage : Storage
  cleanups : Cleanups
  pads : LandingPads
  gotos : Gotos
  /-- How many compounds have been entered. -/
  compounds : Nat
  /-- The slot for the status of calls, once one is needed. -/
  status : Option Register

def State.empty : State := ⟨.empty, .empty, .empty, .empty, .empty, 0, none⟩

abbrev LowerM := ReaderT Env (EStateM Error State)

def edit (m : Draft.Edit α) : EStateM Error State α :=
  fun ⟨draft, storage, cleanups, pads, gotos, compounds, status⟩ =>
    match m draft with
    | .ok a draft => .ok a ⟨draft, storage, cleanups, pads, gotos, compounds, status⟩
    | .error e draft => .error e ⟨draft, storage, cleanups, pads, gotos, compounds, status⟩

def answer (x : Except Error α) : EStateM Error State α :=
  match x with
  | .ok a => pure a
  | .error e => throw e

instance : MonadLift Draft.Edit (EStateM Error State) := ⟨edit⟩
instance : MonadLift (Except Error) (EStateM Error State) := ⟨answer⟩

def symbols : LowerM SymbolTable := do return (← read).symbols

def typeKind (t : TypeId) : LowerM TypeKind := do (← symbols).typeKind t

def plainType (t : TypeId) : LowerM TypeId := do (← symbols).plainType t

def classInfo (t : TypeId) : LowerM ClassInfo := do (← symbols).classInfo t

def isVoid (t : TypeId) : LowerM Bool := do (← symbols).isVoid t

def codeType (t : TypeId) : LowerM Ty := do (← symbols).codeType t

def pointee (t : TypeId) : LowerM Ty := do (← symbols).pointee t

def destructorOf (t : TypeId) : LowerM (Option FunctionId) := do (← symbols).destructorOf t

def functionSymbol (f : FunctionId) : LowerM FunctionSymbol := do (← symbols).functionSymbol f

def emit (i : Instr) : LowerM Unit := do
  let _ ← Draft.emit i

def resolveHere (pending : Pending) : LowerM Unit := do
  let _ ← Draft.resolveHere pending

def endsInTerminator : LowerM Bool := do return (← get).draft.endsInTerminator

/-- The slot of a variable, made when it is asked for the first time. -/
def allocate (v : VariableId) (role : Role) : LowerM Location := do
  let s ← get
  match s.storage.locations.lookup v with
  | some l => pure l
  | none =>
    let (symbol, shape, ty) ← Storage.plan (← symbols) v role
    let (name, storage) := s.storage.uniqueName symbol.name
    let slot ← Draft.allocSlot ty (some name)
    let l : Location := ⟨slot, ty, shape, symbol.ty, name⟩
    modify fun t =>
      { t with storage := { storage with locations := (v, l) :: storage.locations } }
    pure l

/-- Enters a destructor call that the innermost scope owes from now on. -/
def owe (o : Obligation) : LowerM Unit := do
  let cleanups ← (← get).cleanups.push o
  modify fun s => { s with cleanups := cleanups }

/-- Enters the destructor call that an object of a type owes, if any. -/
def oweDestructor (object : Operand) (t : TypeId) : LowerM Unit := do
  match ← destructorOf t with
  | some destructor => owe ⟨object, destructor⟩
  | none => pure ()

end FlatCode.Lower
