import FlatCode.Lower.Expr

/-! Lowering of statements. A statement hands out the jumps that leave it; the statement
around it gives them their targets. -/
namespace FlatCode.Lower
open Code Symbols Ast

structure Exits where
  /-- To whatever follows the statement. -/
  next : Pending
  /-- Out of the innermost loop or switch. -/
  breaks : Pending
  /-- To the next round of the innermost loop. -/
  continues : Pending

namespace Exits

/-- Control only falls off the end. -/
def none : Exits := ⟨[], [], []⟩

def ofNext (next : Pending) : Exits := ⟨next, [], []⟩

def append (a b : Exits) : Exits :=
  ⟨a.next ++ b.next, a.breaks ++ b.breaks, a.continues ++ b.continues⟩

instance : Append Exits := ⟨append⟩

end Exits

/-- Points the jumps to whatever follows a statement at this place. -/
def settle (e : Exits) : LowerM Exits := do
  resolveHere e.next
  pure { e with next := [] }

/-- Runs `m` inside a compound: objects built in it are destroyed at its end. -/
def inCompound (m : LowerM α) : LowerM α := do
  let s ← get
  let scope : ActiveScope := ⟨⟨s.compounds⟩, s.cleanups.depth⟩
  set { s with compounds := s.compounds + 1, cleanups := s.cleanups.openScope }
  let a ← withReader (fun env => { env with scopes := env.scopes ++ [scope] }) m
  closeScope
  pure a

def inLoop (m : LowerM α) : LowerM α := do
  let depth := (← get).cleanups.depth
  withReader (fun env => { env with breakDepth := some depth, loopDepth := some depth }) m

def inSwitch (cases : CaseMap) (m : LowerM α) : LowerM α := do
  let depth := (← get).cleanups.depth
  withReader (fun env => { env with breakDepth := some depth, switch := some ⟨cases, depth⟩ }) m

def inRegion (handler : Label) (m : LowerM α) : LowerM α := do
  let depth := (← get).cleanups.depth
  withReader (fun env => { env with region := some ⟨handler, depth⟩ }) m

/-- A jump at this place, unless control cannot come here. -/
def jumpOver : LowerM Pending := do
  if ← endsInTerminator then pure [] else Draft.pendingJump

def jumpTo (l : Label) : LowerM Unit := emit (.jump (some l))

/-- Binds a reference to what its initializer denotes, or runs the constructor. -/
def initializeAt (location : Location) (ctor : FunctionId) (arguments : List Expr) :
    LowerM Unit := do
  match location.shape, arguments with
  | .reference, [] => throw (.missingValue "reference binding")
  | .reference, referent :: _ =>
    let address ← (plan referent).address
    emit (.store location.slot address)
  | _, arguments => construct location.slot ctor (plans arguments)

def lowerConstruction (v : VariableId) (ctor : FunctionId) (arguments : List Expr) :
    LowerM Unit := do
  let location ← allocate v .localVariable
  withTemporaries (initializeAt location ctor arguments)
  oweDestructor location.slot location.ty

def lowerAssignment (target value : Expr) : LowerM Unit :=
  withTemporaries do
    let address ← (plan target).address
    let value ← (plan value).operand
    storeValue address value target.ty

def lowerIf (e : Expr) (then_ : LowerM Exits) : LowerM Exits := do
  let c ← condition e
  resolveHere c.onTrue
  let exits ← then_
  pure (exits ++ .ofNext c.onFalse)

def lowerIfElse (e : Expr) (then_ else_ : LowerM Exits) : LowerM Exits := do
  let c ← condition e
  resolveHere c.onTrue
  let left ← then_
  let past ← jumpOver
  resolveHere c.onFalse
  let right ← else_
  pure (left ++ .ofNext past ++ right)

def goBack (head : Label) : LowerM Unit := do
  unless ← endsInTerminator do jumpTo head

def lowerWhile (e : Expr) (body : LowerM Exits) : LowerM Exits := do
  let head ← Draft.hereLabel
  let c ← condition e
  resolveHere c.onTrue
  let exits ← inLoop body
  Draft.resolveTo (exits.next ++ exits.continues) head
  goBack head
  pure (.ofNext (c.onFalse ++ exits.breaks))

def lowerDoWhile (body : LowerM Exits) (e : Expr) : LowerM Exits := do
  let top ← Draft.hereLabel
  let exits ← inLoop body
  resolveHere (exits.next ++ exits.continues)
  let c ← condition e
  Draft.resolveTo c.onTrue top
  pure (.ofNext (c.onFalse ++ exits.breaks))

/-- The ways out of a loop condition; without one the loop goes on. -/
def loopCondition : Option Expr → LowerM Pending
  | none => pure []
  | some e => do
    let c ← condition e
    resolveHere c.onTrue
    pure c.onFalse

def lowerIncrement : Option Expr → LowerM Unit
  | none => pure ()
  | some increment => do
    let _ ← fullValue increment

/-- The initializer has a scope around the whole loop. A `break` or `continue` in it belongs
to the statement around the loop. -/
def lowerFor (init : LowerM Exits) (e increment : Option Expr) (body : LowerM Exits) :
    LowerM Exits := withTemporaries do
  let before ← settle (← init)
  let head ← Draft.hereLabel
  let leave ← loopCondition e
  let exits ← inLoop body
  resolveHere (exits.next ++ exits.continues)
  lowerIncrement increment
  jumpTo head
  resolveHere (leave ++ exits.breaks)
  pure before

def switchOn (e : Expr) : LowerM (Operand × Ty × Label) := do
  let value ← fullOperand e
  let ty ← codeType e.ty
  let past ← Draft.newLabel
  pure (value, ty, past)

/-- The jump of a switch. The result is the label of what comes behind its clauses. -/
def chooseCase (e : Expr) (cases : CaseMap) : LowerM Label := do
  let (value, ty, past) ← switchOn e
  emit (.switch value (cases.cases.map fun c => (c.value.toImm ty, c.label))
    ((cases.default.map CaseTarget.label).getD past))
  pure past

/-- One jump over all cases, then the clauses, each falling into the next. -/
def lowerSwitch (e : Expr) (clauses : List Clause) (body : List Label → LowerM Exits) :
    LowerM Exits := do
  let found ← CaseMap.build clauses
  let past ← chooseCase e found.1
  let exits ← inSwitch found.1 (body found.2)
  Draft.place past
  pure ⟨exits.breaks, [], exits.continues⟩

/-- The value of a `return`, written to the caller's slot if there is one. -/
def returned (e : Expr) : LowerM (Option Operand) := do
  let value := (plan e).value
  match (← read).result with
  | some slot =>
    let value ← requireValue e.kind value
    storeValue slot value (← read).symbol.returnType
    pure none
  | none =>
    let value ← value
    if ← isVoid (← read).symbol.returnType then pure none
    else return some (← requireValue e.kind (pure value))

def lowerReturn (e : Option Expr) : LowerM Unit := do
  let value ← match e with
    | some e => withTemporaries (returned e)
    | none => defaultReturn
  leaveTo 0
  emitReturn value

/-- A jump out of the loop or switch of the given depth, among the exits that `exits` says. -/
def jumpOut (depth? : Env → Option Nat) (missing : Error) (exits : Pending → Exits) :
    LowerM Exits := do
  match depth? (← read) with
  | none => throw missing
  | some depth =>
    leaveTo depth
    return exits (← Draft.pendingJump)

def lowerBreak : LowerM Exits := jumpOut Env.breakDepth .breakOutsideLoop (⟨[], ·, []⟩)

def lowerContinue : LowerM Exits := jumpOut Env.loopDepth .continueOutsideLoop (⟨[], [], ·⟩)

/-- The cleanup depth inside the innermost compound that is also around a label, or else
`depth`. -/
def sharedDepth (depth : Nat) : List ActiveScope → List ScopeId → Nat
  | scope :: scopes, id :: ids =>
    if scope.id = id then sharedDepth (scope.depth + 1) scopes ids else depth
  | _, _ => depth

/-- Jumps to a name, at once or when it is placed. -/
def jumpToName (name : String) : LowerM Unit := do
  let s ← get
  match s.gotos.placed.lookup name with
  | some l => jumpTo l
  | none =>
    let jump ← Draft.pendingJump
    modify fun t => { t with gotos := s.gotos.await name jump }

/-- Places a name at the point reached and points the jumps that wait for it there. -/
def placeName (name : String) : LowerM Label := do
  let s ← get
  if (s.gotos.placed.lookup name).isSome then throw (.duplicateLabel name)
  else
    let l ← Draft.hereLabel
    Draft.resolveTo (s.gotos.waiting name) l
    modify fun t => { t with gotos := s.gotos.place name l }
    pure l

/-- Leaves the compounds that are not around the label, and jumps to it. -/
def lowerGoto (label : String) : LowerM Unit := do
  let ids ← (← read).labels.scopesOf label
  leaveTo (sharedDepth 0 (← read).scopes ids)
  jumpToName label

/-- Jumps to a case of the innermost switch, or to its default. -/
def lowerGotoCase (find : CaseMap → Except Error CaseTarget) : LowerM Unit := do
  match (← read).switch with
  | none => throw .gotoCaseOutsideSwitch
  | some switch =>
    let target ← find switch.cases
    leaveTo switch.depth
    jumpTo target.label

def requireDefault (cases : CaseMap) : Except Error CaseTarget :=
  match cases.default with
  | some target => .ok target
  | none => .error .missingDefault

def lowerDestruction (object : Expr) (destructor : FunctionId) : LowerM Unit :=
  withTemporaries do
    let address ← (plan object).address
    if ← emitDestructor ⟨address, destructor⟩ then testStatus 0

/-- The handler starts by clearing the status. -/
def enterHandler (handler : Label) : LowerM Unit := do
  Draft.place handler
  let status ← statusSlot
  emit (.store status noException)

def lowerTry (body handler : LowerM Exits) : LowerM Exits := do
  let label ← Draft.newLabel
  let left ← inRegion label body
  let past ← jumpOver
  enterHandler label
  let right ← handler
  pure (left ++ right ++ .ofNext past)

/-- Stores the code in the status slot and unwinds as after a failed call. -/
def throwValue (x : Operand) : LowerM Unit := do
  let code ← exceptionCode x
  let status ← statusSlot
  emit (.store status code)
  jumpTo (← notePad 0)

def lowerThrow (e : Expr) : LowerM Unit := do
  throwValue (← fullOperand e)

def comment (name : String) : LowerM Unit := do
  if (← read).options.debugComments then emit (.comment name)

def straight (m : LowerM Unit) : LowerM Exits := do
  m
  pure .none

mutual
def lowerStmt (s : Stmt) : LowerM Exits := do
  comment s.name
  match s with
  | .compound body => inCompound (lowerStmts body)
  | .expression e => straight (discard (fullValue e))
  | .construction v ctor arguments => straight (lowerConstruction v ctor arguments)
  | .assignment target value => straight (lowerAssignment target value)
  | .ifElse e then_ none => lowerIf e (lowerStmt then_)
  | .ifElse e then_ (some else_) => lowerIfElse e (lowerStmt then_) (lowerStmt else_)
  | .whileLoop e body => lowerWhile e (lowerStmt body)
  | .doWhile body e => lowerDoWhile (lowerStmt body) e
  | .forLoop none e increment body => lowerFor (pure .none) e increment (lowerStmt body)
  | .forLoop (some init) e increment body =>
    lowerFor (lowerStmt init) e increment (lowerStmt body)
  | .switch e clauses => lowerSwitch e clauses (lowerClauses clauses)
  | .return_ e => straight (lowerReturn e)
  | .break_ => lowerBreak
  | .continue_ => lowerContinue
  | .labeled label statement =>
    let _ ← placeName label
    lowerStmt statement
  | .goto label => straight (lowerGoto label)
  | .gotoCase value => straight (lowerGotoCase fun cases => cases.get value)
  | .gotoDefault => straight (lowerGotoCase requireDefault)
  | .destruction object destructor => straight (lowerDestruction object destructor)
  | .try_ body handler =>
    lowerTry (inCompound (lowerStmts body)) (inCompound (lowerStmts handler))
  | .throw_ e => straight (lowerThrow e)
  | .empty => pure .none
def lowerStmts : List Stmt → LowerM Exits
  | [] => pure .none
  | s :: rest => do
    let first ← settle (← lowerStmt s)
    return first ++ (← lowerStmts rest)
def lowerClauses : List Clause → List Label → LowerM Exits
  | .mk _ body :: rest, label :: labels => do
    Draft.place label
    let first ← inCompound (lowerStmts body)
    return first ++ (← lowerClauses rest labels)
  | _, _ => pure .none
end

end FlatCode.Lower
