import FlatCode.Draft.Basic

/-! Branches that wait for their target. Each is entered in one list, and patched when the
label it waits for is known. -/
namespace FlatCode
open Code

inductive Edge where
  | positive | negative | unconditional
  deriving DecidableEq

structure PendingBranch where
  instr : InstrId
  edge : Edge
  deriving DecidableEq

/-- Branches that wait for the same label. -/
abbrev Pending := List PendingBranch

namespace Code.Instr

def target? : Edge → Instr → Option (Option Label)
  | .positive, .branch _ positive _ => some positive
  | .negative, .branch _ _ negative => some negative
  | .unconditional, .jump target => some target
  | _, _ => none

def setTarget (l : Label) : Edge → Instr → Instr
  | .positive, .branch condition _ negative => .branch condition (some l) negative
  | .negative, .branch condition positive _ => .branch condition positive (some l)
  | .unconditional, .jump _ => .jump (some l)
  | _, i => i

/-- A branch that still waits for a target. -/
def isUnresolved : Instr → Bool
  | .branch _ none _ | .branch _ _ none | .jump none => true
  | _ => false

end Code.Instr

namespace Draft

def patch (l : Label) (b : PendingBranch) : Edit Unit := do
  match (← get).body[b.instr.index]?.bind (Instr.target? b.edge) with
  | none => throw (.notABranch b.instr)
  | some (some _) => throw (.branchAlreadyResolved b.instr)
  | some none =>
    modify fun d => { d with body := d.body.modify b.instr.index (Instr.setTarget l b.edge) }

def backpatch (pending : Pending) (l : Label) : Edit Unit :=
  if pending.isEmpty then throw .emptyTargetList else pending.forM (patch l)

/-- Points the branches of a list, if there are any, at the point reached. -/
def resolveHere (pending : Pending) : Edit (Option Label) :=
  if pending.isEmpty then pure none
  else do
    let l ← hereLabel
    backpatch pending l
    pure (some l)

/-- Like `resolveHere`, for a list that has to hold a branch. -/
def resolveRequiredHere (pending : Pending) : Edit Label :=
  if pending.isEmpty then throw .emptyTargetList
  else do
    let l ← hereLabel
    backpatch pending l
    pure l

def resolveTo (pending : Pending) (l : Label) : Edit Unit :=
  if pending.isEmpty then pure () else backpatch pending l

def pendingJump : Edit Pending := do
  let i ← emit (.jump none)
  pure [⟨i, .unconditional⟩]

end Draft
end FlatCode
