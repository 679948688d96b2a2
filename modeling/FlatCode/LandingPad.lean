import FlatCode.Cleanup

/-! Landing pads: what runs when a raising call reports a failure. They are noted where the
call stands and written behind the body. -/
namespace FlatCode

structure LandingPad where
  id : Nat
  label : Label
  /-- Where control goes on; out of the function when there is no handler. -/
  handler : Option Label
  cleanups : List Obligation
  deriving DecidableEq

structure LandingPads where
  pads : Array LandingPad
  deriving DecidableEq

namespace LandingPads

def empty : LandingPads := ⟨#[]⟩

def size (t : LandingPads) : Nat := t.pads.size

/-- Adds a pad; its number is the size before. -/
def note (t : LandingPads) (label : Label) (handler : Option Label) (cleanups : List Obligation) :
    LandingPads :=
  ⟨t.pads.push ⟨t.pads.size, label, handler, cleanups⟩⟩

end LandingPads
end FlatCode
