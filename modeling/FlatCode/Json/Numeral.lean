import FlatCode.Number.Binary64

/-! Numbers as they are spelled in JSON text. The spelling decides what a numeral may
stand for: only plain digits are integers, and a double is read from the leading digits
that fit in 64 bits, scaled by a power of ten. -/
namespace FlatCode.Json

structure Numeral where
  negative : Bool
  whole : List Char
  fraction : Option (List Char)
  /-- Whether the exponent is negative, and its digits. -/
  exponent : Option (Bool × List Char)
  deriving DecidableEq

namespace Numeral

def digitValue (c : Char) : Nat := c.toNat - 48

def digitsValue (cs : List Char) : Nat := cs.foldl (fun n c => 10 * n + digitValue c) 0

def digits? (cs : List Char) : Option (List Char × List Char) :=
  match cs.takeWhile Char.isDigit with
  | [] => none
  | ds => some (ds, cs.dropWhile Char.isDigit)

/-- No zero stands in front of other digits. -/
def whole? (cs : List Char) : Option (List Char × List Char) := do
  let (ds, rest) ← digits? cs
  if ds.head? = some '0' ∧ ds.length ≠ 1 then none else some (ds, rest)

def fraction? : List Char → Option (Option (List Char) × List Char)
  | '.' :: cs => (digits? cs).map fun (ds, rest) => (some ds, rest)
  | cs => some (none, cs)

def exponentDigits? (negative : Bool) (cs : List Char) :
    Option (Option (Bool × List Char) × List Char) :=
  (digits? cs).map fun (ds, rest) => (some (negative, ds), rest)

def exponent? : List Char → Option (Option (Bool × List Char) × List Char)
  | [] => some (none, [])
  | c :: cs =>
    if c = 'e' ∨ c = 'E' then
      match cs with
      | '-' :: cs => exponentDigits? true cs
      | '+' :: cs => exponentDigits? false cs
      | cs => exponentDigits? false cs
    else some (none, c :: cs)

def ofChars? (cs : List Char) : Option Numeral := do
  let (negative, cs) := match cs with
    | '-' :: cs => (true, cs)
    | cs => (false, cs)
  let (whole, cs) ← whole? cs
  let (fraction, cs) ← fraction? cs
  let (exponent, cs) ← exponent? cs
  if cs.isEmpty then some ⟨negative, whole, fraction, exponent⟩ else none

def chars (n : Numeral) : List Char :=
  (if n.negative then ['-'] else []) ++ n.whole ++
    (match n.fraction with
      | some ds => '.' :: ds
      | none => []) ++
    (match n.exponent with
      | some (true, ds) => 'e' :: '-' :: ds
      | some (false, ds) => 'e' :: ds
      | none => [])

def ofNat (n : Nat) : Numeral := ⟨false, Nat.toDigits 10 n, none, none⟩

def ofInt (n : Int) : Numeral := ⟨n < 0, Nat.toDigits 10 n.natAbs, none, none⟩

def isInteger (n : Numeral) : Bool := n.fraction.isNone && n.exponent.isNone

/-- The integer spelled by plain digits. A negative zero is no integer. -/
def toInt? (n : Numeral) : Option Int :=
  let value := digitsValue n.whole
  if !n.isInteger || (n.negative && value = 0) then none
  else some (if n.negative then -(value : Int) else value)

def toNat? (n : Numeral) : Option Nat :=
  if n.isInteger && !n.negative then some (digitsValue n.whole) else none

/-- The value of the leading digits as long as it fits in 64 bits, and the digits left. -/
def leading (value : Nat) : List Char → Nat × List Char
  | [] => (value, [])
  | c :: cs =>
    let longer := 10 * value + digitValue c
    if longer < UInt64.size then leading longer cs else (value, c :: cs)

/-- A power of ten up to 10^308, rounded. -/
def power (n : Nat) : Binary64 := Binary64.ofNat (Nat.pow 10 n)

/-- `x * 10 ^ exponent`, nothing when it is too large. -/
def scaleUp (x : Binary64) (exponent : Nat) : Option Binary64 :=
  if x.magnitude = 0 then some x
  else if 308 < exponent then none
  else
    let y := x.mul (power exponent)
    if y.isInfinite then none else some y

/-- `x / 10 ^ exponent`, in steps of at most 10^308. -/
def scaleDown (x : Binary64) (exponent : Nat) : Binary64 :=
  if exponent ≤ 308 ∨ x.magnitude = 0 then x.div (power (min exponent 308))
  else scaleDown (x.div (power 308)) (exponent - 308)
  termination_by exponent

def exponentValue (n : Numeral) : Int :=
  match n.exponent with
  | some (true, ds) => -(digitsValue ds : Int)
  | some (false, ds) => digitsValue ds
  | none => 0

/-- The double a numeral stands for. The digits that fit in 64 bits are rounded, then
scaled once more with rounding; digits beyond only count by their place. -/
def toBinary64? (n : Numeral) : Option Binary64 := do
  let (significand, beyond) := leading 0 n.whole
  let places := n.fraction.getD []
  let (significand, cut) := leading significand places
  let exponent := (beyond.length : Int) - (places.length - cut.length : Nat) + n.exponentValue
  let x := Binary64.ofNat significand
  let scaled ← if 0 ≤ exponent then scaleUp x exponent.toNat
    else some (scaleDown x (-exponent).toNat)
  some (if n.negative then scaled.neg else scaled)

end Numeral
end FlatCode.Json
