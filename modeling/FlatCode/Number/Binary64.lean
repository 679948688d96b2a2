/-! Double precision numbers by their bit patterns. A finite magnitude is a whole
number of units of 2^-1074, so every operation is exact arithmetic on naturals
followed by one rounding to nearest, ties to even. -/
namespace FlatCode

structure Binary64 where
  bits : UInt64
  deriving DecidableEq

namespace Binary64

/-- The bits without the sign. -/
def magnitude (x : Binary64) : Nat := x.bits.toNat % Nat.pow 2 63

def isNegative (x : Binary64) : Bool := Nat.pow 2 63 ≤ x.bits.toNat

def ofMagnitude (negative : Bool) (m : Nat) : Binary64 :=
  ⟨UInt64.ofNat (m + if negative then Nat.pow 2 63 else 0)⟩

/-- The magnitude of infinity; larger magnitudes are not numbers. -/
def infinite : Nat := 0x7ff * Nat.pow 2 52

def nan : Binary64 := ⟨0x7ff8000000000000⟩

def isNaN (x : Binary64) : Bool := infinite < x.magnitude

def isInfinite (x : Binary64) : Bool := x.magnitude = infinite

def zero : Binary64 := ⟨0⟩

def neg (x : Binary64) : Binary64 := ofMagnitude (!x.isNegative) x.magnitude

/-- A finite magnitude as a multiple of 2^-1074. -/
def units (m : Nat) : Nat :=
  if m < Nat.pow 2 52 then m
  else (m % Nat.pow 2 52 + Nat.pow 2 52) * Nat.pow 2 (m / Nat.pow 2 52 - 1)

/-- The magnitude nearest to `num / den` units. Scaled by 2^`shift`, the quotient
has 53 bits, and `shift` is the exponent field of its bit pattern. -/
def nearestUnits (num den : Nat) : Nat :=
  let shift := (num / den).log2 - 52
  let step := den * Nat.pow 2 shift
  let quotient := num / step
  let twice := 2 * (num % step)
  let up := step < twice || (step = twice && quotient % 2 = 1)
  min infinite (shift * Nat.pow 2 52 + quotient + if up then 1 else 0)

def nearest (num den : Nat) : Nat := nearestUnits (num * Nat.pow 2 1074) den

def ofNat (n : Nat) : Binary64 := ofMagnitude false (nearest n 1)

def ofInt (n : Int) : Binary64 := ofMagnitude (n < 0) (nearest n.natAbs 1)

def mul (x y : Binary64) : Binary64 :=
  ofMagnitude (x.isNegative != y.isNegative)
    (nearestUnits (units x.magnitude * units y.magnitude) (Nat.pow 2 1074))

def div (x y : Binary64) : Binary64 :=
  ofMagnitude (x.isNegative != y.isNegative) (nearest (units x.magnitude) (units y.magnitude))

end Binary64
end FlatCode
