import FlatCode.Number.Binary64

/-! Decimal text of doubles. The digits written are the fewest that read back as
the same number. -/
namespace FlatCode

/-- `digits * 10 ^ exponent`. -/
structure Decimal where
  digits : Nat
  exponent : Int
  deriving DecidableEq

namespace Decimal

def digitCount (n : Nat) : Nat := (Nat.toDigits 10 n).length

def dropZeros (d : Decimal) : Nat → Decimal
  | 0 => d
  | n + 1 =>
    if d.digits ≠ 0 ∧ d.digits % 10 = 0 then dropZeros ⟨d.digits / 10, d.exponent + 1⟩ n else d

/-- The double nearest to a decimal. Exponents beyond the range of doubles are cut
off first, so that the powers stay small. -/
def round (d : Decimal) : Nat :=
  let top := digitCount d.digits + d.exponent
  if d.digits = 0 ∨ top < -400 then 0
  else if 400 < top then Binary64.infinite
  else if 0 ≤ d.exponent then Binary64.nearest (d.digits * Nat.pow 10 d.exponent.toNat) 1
  else Binary64.nearest d.digits (Nat.pow 10 (-d.exponent).toNat)

end Decimal

namespace Binary64

/-- The decimal exponent of the leading digit of a finite magnitude above zero. -/
def leadingExponent (m : Nat) : Int :=
  if Nat.pow 2 1074 ≤ units m then Decimal.digitCount (units m / Nat.pow 2 1074) - 1
  else -(Decimal.digitCount ((Nat.pow 2 1074 - 1) / units m))

/-- Whether `num / den` lies between the midpoints to the two neighbours of `m`. A
midpoint itself belongs to the even one of its two sides. -/
def readsBack (m num den : Nat) : Bool :=
  let value := num * Nat.pow 2 1075
  let low := (units (m - 1) + units m) * den
  let high := (units m + units (m + 1)) * den
  if m % 2 = 0 then low ≤ value && value ≤ high else low < value && value < high

/-- The nearest decimal with `count` digits that reads back as `m`; of two at the same
distance, the larger. -/
def decimalWith? (m count : Nat) : Option Decimal :=
  let exponent := leadingExponent m - count + 1
  let scale := Nat.pow 10 exponent.natAbs
  -- one step of the grid of decimals is `stepNum / stepDen`
  let (stepNum, stepDen) := if 0 ≤ exponent then (scale, 1) else (1, scale)
  let num := units m * stepDen
  let den := Nat.pow 2 1074 * stepNum
  let below := num / den
  let hit (digits : Nat) := readsBack m (digits * stepNum) stepDen
  if hit (below + 1) && (2 * (num % den) ≥ den || !hit below) then some ⟨below + 1, exponent⟩
  else if hit below then some ⟨below, exponent⟩
  else none

/-- The shortest decimal that reads back as a finite magnitude above zero. -/
def shortest (m : Nat) : Decimal :=
  match (List.range 17).findSome? fun n => decimalWith? m (n + 1) with
  | some d => d.dropZeros 17
  | none => ⟨units m, -1074⟩

/-- Positional notation from 10^-4 up to 10^16, with at least one digit behind the
point; scientific notation outside. -/
def magnitudeText (m : Nat) : String :=
  if m = 0 then "0.0" else
  let d := shortest m
  let digits := Nat.toDigits 10 d.digits
  let top := d.exponent + digits.length - 1
  if -5 < top ∧ top < 0 then
    "0." ++ String.ofList (List.replicate (-top - 1).toNat '0' ++ digits)
  else if 0 ≤ top ∧ top < 16 then
    let whole := digits.take (top + 1).toNat
    let zeros := List.replicate ((top + 1).toNat - whole.length) '0'
    let rest := digits.drop (top + 1).toNat
    String.ofList (whole ++ zeros ++ '.' :: (if rest.isEmpty then ['0'] else rest))
  else
    let rest := digits.drop 1
    String.ofList (digits.take 1 ++ (if rest.isEmpty then [] else '.' :: rest)) ++
      "e" ++ toString top

def text (x : Binary64) : String :=
  if x.isNaN then "NaN"
  else (if x.isNegative then "-" else "") ++
    (if x.isInfinite then "inf" else magnitudeText x.magnitude)

private def digitsOf (cs : List Char) : Option Nat :=
  if cs.all Char.isDigit then some (cs.foldl (fun n c => 10 * n + (c.toNat - 48)) 0) else none

private def exponentOf : List Char → Option Int
  | '-' :: cs => if cs.isEmpty then none else (digitsOf cs).map fun n => -n
  | cs => if cs.isEmpty then none else (digitsOf cs).map Int.ofNat

/-- Reads what `text` writes, and any other decimal, to the nearest double. -/
def ofText? (s : String) : Option Binary64 :=
  let (negative, body) := match s.toList with
    | '-' :: cs => (true, cs)
    | cs => (false, cs)
  if body = "inf".toList then some (ofMagnitude negative infinite)
  else if s = "NaN" then some nan
  else do
    let mantissa := body.takeWhile fun c => c ≠ 'e'
    let exponent ← match body.dropWhile fun c => c ≠ 'e' with
      | [] => some 0
      | _ :: cs => exponentOf cs
    let whole := mantissa.takeWhile fun c => c ≠ '.'
    let fraction := (mantissa.dropWhile fun c => c ≠ '.').drop 1
    let digits ← digitsOf (whole ++ fraction)
    if (whole ++ fraction).isEmpty then none
    else some (ofMagnitude negative (Decimal.round ⟨digits, exponent - fraction.length⟩))

end Binary64
end FlatCode
