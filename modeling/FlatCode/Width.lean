/-! Widths of integers and floats. -/
namespace FlatCode

inductive IntWidth where
  | w8 | w16 | w32 | w64
  deriving DecidableEq

inductive FloatWidth where
  | w32 | w64
  deriving DecidableEq

namespace IntWidth

def bytes : IntWidth → Nat
  | w8 => 1
  | w16 => 2
  | w32 => 4
  | w64 => 8

def bits (w : IntWidth) : Nat := 8 * w.bytes

def all : List IntWidth := [w8, w16, w32, w64]

def signedName (w : IntWidth) : String := s!"i{w.bits}"

def unsignedName (w : IntWidth) : String := s!"u{w.bits}"

def ofSignedName? (s : String) : Option IntWidth := all.find? fun w => w.signedName = s

def ofUnsignedName? (s : String) : Option IntWidth := all.find? fun w => w.unsignedName = s

end IntWidth

namespace FloatWidth

def bytes : FloatWidth → Nat
  | w32 => 4
  | w64 => 8

def bits (w : FloatWidth) : Nat := 8 * w.bytes

def all : List FloatWidth := [w32, w64]

def name (w : FloatWidth) : String := s!"f{w.bits}"

def ofName? (s : String) : Option FloatWidth := all.find? fun w => w.name = s

end FloatWidth
end FlatCode
