import FlatCode.Text.ControlSequence

/-! The text left over when a terminal would print only characters and line breaks: control
sequences vanish, and so do all other control characters. -/
namespace FlatCode.Text
open ControlSequence

namespace Visible

/-- A byte that is cut off from its character shows as a replacement, unless it is a control. -/
def ofStray (b : UInt8) : List Char := if b < 0xa0 then [] else ['\ufffd']

/-- What a character shows. Line breaks show also inside of sequences that carry no string, and
of a character that ends a string the bytes behind the terminator are left. -/
def shown : Mode → Char → List Char
  | .ground, c => if c = '\n' || !(between 0x00 0x1f c || between 0x80 0x9f c) then [c] else []
  | .dcsData, c => (afterTerminator c).flatMap ofStray
  | mode, c => if c = '\n' && !mode.inString then ['\n'] else []

def step : Mode × String → Char → Mode × String
  | (mode, out), c => (next mode c, out ++ String.ofList (shown mode c))

end Visible

def visible (s : String) : String := (s.toList.foldl Visible.step (.ground, "")).2

end FlatCode.Text
