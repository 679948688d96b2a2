import FlatCode.Lower.Unwind

/-! The three ways in which an expression is lowered: to a value, to jumps on its truth, and
to the address of the object it denotes. -/
namespace FlatCode.Lower
open Code Symbols Ast

/-- Where control goes when a condition holds and when it does not. -/
structure Branches where
  onTrue : Pending
  onFalse : Pending
  /-- The truth of the condition, where it is known. -/
  constant : Option Bool

namespace Branches

def swap (b : Branches) : Branches := ⟨b.onFalse, b.onTrue, b.constant.map not⟩

def known (value : Bool) (jump : Pending) : Branches :=
  if value then ⟨jump, [], some true⟩ else ⟨[], jump, some false⟩

def side (b : Branches) (value : Bool) : Pending := if value then b.onTrue else b.onFalse

/-- The branches of a connective whose left side is known not to have the value `x`. -/
def alone (x : Bool) (left : Branches) : Branches :=
  if x then ⟨[], left.onFalse, some false⟩ else ⟨left.onTrue, [], some true⟩

def joined (x : Bool) (left right : Branches) : Branches :=
  let constant := if left.constant = some x then right.constant else none
  if x then ⟨right.onTrue, left.onFalse ++ right.onFalse, constant⟩
  else ⟨left.onTrue ++ right.onTrue, right.onFalse, constant⟩

end Branches

structure Plan where
  kind : String
  ty : TypeId
  /-- Objects of classes are represented by their address. Calls may have no value. -/
  value : LowerM (Option Operand)
  jump : LowerM Branches
  address : LowerM Operand

def requireValue (kind : String) (value : LowerM (Option Operand)) : LowerM Operand := do
  match ← value with
  | some operand => pure operand
  | none => throw (.missingValue kind)

def Plan.operand (p : Plan) : LowerM Operand := requireValue p.kind p.value

/-- Reads a value of a type. Objects of classes stay where they are. -/
def loadValue (address : Operand) (ty : TypeId) : LowerM Operand := do
  match ← typeKind ty with
  | .classType _ => pure address
  | .void => throw (.missingValue "void")
  | _ =>
    let r ← Draft.newRegister (← codeType ty)
    emit (.load r address)
    pure r

/-- Writes a value of a type; objects of classes are copied. -/
def storeValue (address value : Operand) (ty : TypeId) : LowerM Unit := do
  let ty ← plainType ty
  match ← typeKind ty with
  | .classType _ => emit (.copy address value (← codeType ty).size)
  | _ => emit (.store address value)

/-- Jumps on a value, or without one where the truth is known. -/
def jumpOn (e : Expr) (value : LowerM (Option Operand)) : LowerM Branches := do
  match e.truth? (← symbols) with
  | some truth => return .known truth (← Draft.pendingJump)
  | none =>
    let condition ← requireValue e.kind value
    let branch ← Draft.emit (.branch condition none none)
    pure ⟨[⟨branch, .positive⟩], [⟨branch, .negative⟩], none⟩

/-- Objects and references evaluate to their address. -/
def addressIn (e : Expr) (value : LowerM (Option Operand)) : LowerM Operand := do
  match ← typeKind e.ty with
  | .classType _ | .reference _ => requireValue e.kind value
  | _ => throw (.notAddressable e.kind)

def Plan.ofValue (e : Expr) (value : LowerM (Option Operand)) : Plan :=
  ⟨e.kind, e.ty, value, jumpOn e value, addressIn e value⟩

def Plan.ofPlace (e : Expr) (value : LowerM (Option Operand)) (address : LowerM Operand) : Plan :=
  ⟨e.kind, e.ty, value, jumpOn e value, address⟩

def Plan.ofAddress (e : Expr) (address : LowerM Operand) : Plan :=
  .ofPlace e (do return some (← loadValue (← address) e.ty)) address

/-- Sends branches through the destruction of objects before they go on. -/
def splice (pending : Pending) (owed : List Obligation) : LowerM Pending := do
  if pending.isEmpty then pure []
  else
    resolveHere pending
    emitCleanups 0 owed
    Draft.pendingJump

/-- Jumps on a condition that stands on its own: both ways out destroy its temporaries. -/
def fullJump (jump : LowerM Branches) : LowerM Branches := do
  let depth := (← get).cleanups.depth
  openScope
  let b ← jump
  match (← get).cleanups.pendingFrom depth with
  | [] =>
    dropScope
    pure b
  | owed =>
    let onTrue ← splice b.onTrue owed
    let onFalse ← splice b.onFalse owed
    dropScope
    pure ⟨onTrue, onFalse, b.constant⟩

/-- A connective that goes to its right side where the left side has the value `x`: a conjunction
for `true`, a disjunction for `false`. A left side that is known to decide does so alone. -/
def connective (x : Bool) (lhs rhs : LowerM Branches) : LowerM Branches := do
  let left ← fullJump lhs
  if left.constant = some !x then return left.alone x
  resolveHere (left.side x)
  let right ← fullJump rhs
  pure (left.joined x right)

def trueSide (b : Branches) (r : Register) : LowerM Pending :=
  match b.onTrue with
  | [] => pure []
  | onTrue => do
    resolveHere onTrue
    emit (.move r (Imm.bool true))
    if b.onFalse.isEmpty then pure [] else Draft.pendingJump

def falseSide (b : Branches) (r : Register) : LowerM Unit :=
  if b.onFalse.isEmpty then pure ()
  else do
    resolveHere b.onFalse
    emit (.move r (Imm.bool false))

/-- Makes a register of the truth that jumps stand for. -/
def materialize (jump : LowerM Branches) : LowerM (Option Operand) := do
  let b ← jump
  let r ← Draft.newRegister .bool
  let done ← trueSide b r
  falseSide b r
  resolveHere done
  pure (some (Operand.reg r))

def Plan.ofJump (e : Expr) (jump : LowerM Branches) : Plan :=
  let value := materialize jump
  ⟨e.kind, e.ty, value, jump, addressIn e value⟩

end FlatCode.Lower
