import FlatCode.Code.Type

/-! Sizes and alignments in bytes. Fields stand in order, each at the next multiple of
its alignment, and a struct is padded to a multiple of its own. -/
namespace FlatCode.Code

/-- The least multiple of `alignment` from `bytes` on. -/
def alignTo (bytes alignment : Nat) : Nat :=
  if alignment ≤ 1 then bytes else (bytes + alignment - 1) / alignment * alignment

structure Layout where
  size : Nat
  alignment : Nat
  deriving DecidableEq

namespace Layout

def extend (l field : Layout) : Layout :=
  ⟨alignTo l.size field.alignment + field.size, max l.alignment field.alignment⟩

def pad (l : Layout) : Layout := ⟨alignTo l.size l.alignment, l.alignment⟩

end Layout

mutual
def Ty.layout : Ty → Layout
  | .void => ⟨0, 1⟩
  | .int w => ⟨w.bytes, w.bytes⟩
  | .float w => ⟨w.bytes, w.bytes⟩
  | .ptr _ => ⟨8, 8⟩
  | .struct _ fields => (Ty.layoutFrom ⟨0, 1⟩ fields).pad
  | .named _ => ⟨0, 1⟩
def Ty.layoutFrom (l : Layout) : List Ty → Layout
  | [] => l
  | t :: ts => Ty.layoutFrom (l.extend t.layout) ts
end

def Ty.size (t : Ty) : Nat := t.layout.size

def Ty.alignment (t : Ty) : Nat := t.layout.alignment

end FlatCode.Code
