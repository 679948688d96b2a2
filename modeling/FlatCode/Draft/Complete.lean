import FlatCode.Draft.Pending

/-! Finished functions. A draft makes a function once every branch has its target and every
label its place. -/
namespace FlatCode.Draft
open Code

/-- Notes the place of an instruction if it is a label. -/
def noteLabel (places : Array (Option InstrId)) (entry : Instr × Nat) : Array (Option InstrId) :=
  match entry.1 with
  | .label l => places.setIfInBounds l.index (some ⟨entry.2⟩)
  | _ => places

/-- Where each of the first `count` labels was placed last. -/
def labelPlaces (instrs : Array Instr) (count : Nat) : Array (Option InstrId) :=
  instrs.zipIdx.foldl noteLabel (Array.replicate count none)

def requirePlace (entry : Option InstrId × Nat) : Except Error InstrId :=
  match entry.1 with
  | some i => .ok i
  | none => .error (.unplacedLabel ⟨entry.2⟩)

def toFunction (d : Draft) (name : String) (arguments : List Register) (landingPads : Nat) :
    Except Error Function :=
  let instrs := d.entry ++ d.body
  match instrs.findIdx? Instr.isUnresolved with
  | some i => .error (.unresolvedBranch ⟨i⟩)
  | none => do
    let labels ← (labelPlaces instrs d.labels).toList.zipIdx.mapM requirePlace
    pure ⟨name, d.registers, arguments, instrs, labels, landingPads⟩

end FlatCode.Draft
