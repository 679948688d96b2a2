import FlatCode.Text.ControlSequence

/-! Text without its control sequences, for a reader that shows no colors. Other control
characters vanish too, but white space stays. -/
namespace FlatCode.Text
open ControlSequence

namespace Uncolored

def isBlank (c : Char) : Bool := c = '\t' || c = '\n' || c = '\x0c' || c = '\r'

def isText (c : Char) : Bool := isBlank c || (0x20 ≤ c.toNat && c.toNat ≠ 0x7f)

structure State where
  mode : Mode
  /-- Whether text shows although the sequence has not ended. -/
  paused : Bool
  deriving DecidableEq

def State.start : State := ⟨.ground, false⟩

/-- A terminator ends all strings but those that end in a bell. -/
def advance (mode : Mode) (c : Char) : Mode :=
  if mode = .skipped && holdsTerminator c then .ground else next mode c

/-- White space inside of a sequence shows and pauses the sequence. What follows shows too, until
a control character takes the sequence up again or a character beyond ASCII ends it. -/
def shows (s : State) (c : Char) : Bool :=
  if s.mode = .ground || s.paused then isText c else isBlank c && !s.mode.inString

def after (s : State) (c : Char) : State :=
  if s.mode = .ground || s.paused then
    if !isText c then ⟨interrupt s.mode c, false⟩
    else if c.toNat < 0x80 then s
    else .start
  else if shows s c then ⟨s.mode, true⟩
  else ⟨advance s.mode c, false⟩

def step : State × String → Char → State × String
  | (s, out), c => (after s c, if shows s c then out.push c else out)

end Uncolored

def uncolored (s : String) : String := (s.toList.foldl Uncolored.step (.start, "")).2

end FlatCode.Text
