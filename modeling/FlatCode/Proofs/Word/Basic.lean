import Mathlib.Algebra.Group.Int.Defs
import Mathlib.Data.Int.Basic
import FlatCode.Code.Instr

/-! Words of registers. Arithmetic is two's complement arithmetic of the width of its operands, and
whether the bits count as signed is up to the instruction. -/
namespace FlatCode.Code

structure Word where
  width : IntWidth
  bits : BitVec width.bits
  deriving DecidableEq

namespace Word

def ofInt (w : IntWidth) (n : Int) : Word := ⟨w, .ofInt w.bits n⟩

/-- Truth values have eight bits, and are one or zero. -/
def ofBool (value : Bool) : Word := ofInt .w8 (if value then 1 else 0)

@[simp] theorem width_ofInt (w : IntWidth) (n : Int) : (ofInt w n).width = w := rfl

def read (kind : Numeric) (x : Word) : Int :=
  match kind with
  | .signed => x.bits.toInt
  | .unsigned | .float => x.bits.toNat

def unary (x : Word) : UnaryOp → Word
  | .negate => ⟨x.width, -x.bits⟩
  | .complement => ⟨x.width, ~~~x.bits⟩
  | .not => ofBool (x.bits = 0)

def divide (kind : Numeric) (x y : BitVec n) : BitVec n :=
  match kind with
  | .signed => x.sdiv y
  | .unsigned | .float => x / y

def remainder (kind : Numeric) (x y : BitVec n) : BitVec n :=
  match kind with
  | .signed => x.srem y
  | .unsigned | .float => x % y

def shiftRight (kind : Numeric) (x y : BitVec n) : BitVec n :=
  match kind with
  | .signed => x.sshiftRight' y
  | .unsigned | .float => x >>> y

/-- Arithmetic on bits. There is no division by zero, and no shift by the width or more. -/
def arithmetic (op : BinaryOp) (kind : Numeric) (x y : BitVec n) : Option (BitVec n) :=
  match op with
  | .add => some (x + y)
  | .sub => some (x - y)
  | .mul => some (x * y)
  | .div => if y = 0 then none else some (divide kind x y)
  | .rem => if y = 0 then none else some (remainder kind x y)
  | .and => some (x &&& y)
  | .or => some (x ||| y)
  | .xor => some (x ^^^ y)
  | .shl => if y.toNat < n then some (x <<< y) else none
  | .shr => if y.toNat < n then some (shiftRight kind x y) else none

def less (kind : Numeric) (x y : BitVec n) : Bool :=
  match kind with
  | .signed => x.slt y
  | .unsigned | .float => x.ult y

def related (predicate : Predicate) (kind : Numeric) (x y : BitVec n) : Bool :=
  match predicate with
  | .eq => x = y
  | .ne => x ≠ y
  | .lt => less kind x y
  | .le => !less kind y x
  | .gt => less kind y x
  | .ge => !less kind x y

/-- Both operands have the same width, and none is a float. -/
def binary (op : BinaryOp) (kind : Numeric) (x y : Word) : Option Word :=
  if h : y.width = x.width ∧ kind ≠ .float then
    (arithmetic op kind x.bits (h.1 ▸ y.bits)).map (mk x.width)
  else none

def compare (predicate : Predicate) (kind : Numeric) (x y : Word) : Option Word :=
  if h : y.width = x.width ∧ kind ≠ .float then
    some (ofBool (related predicate kind x.bits (h.1 ▸ y.bits)))
  else none

/-- Narrower words are cut off, wider ones are filled with zeros or with the sign. -/
def cast (kind : Cast) (w : IntWidth) (x : Word) : Option Word :=
  match kind with
  | .truncate => if w.bits < x.width.bits then some ⟨w, x.bits.setWidth w.bits⟩ else none
  | .zeroExtend => if x.width.bits < w.bits then some ⟨w, x.bits.setWidth w.bits⟩ else none
  | .signExtend => if x.width.bits < w.bits then some ⟨w, x.bits.signExtend w.bits⟩ else none
  | _ => none

theorem binary_mk {kind : Numeric} (h : kind ≠ .float) (op : BinaryOp) (w : IntWidth)
    (x y : BitVec w.bits) :
    binary op kind ⟨w, x⟩ ⟨w, y⟩ = (arithmetic op kind x y).map (mk w) := dif_pos ⟨rfl, h⟩

theorem compare_mk {kind : Numeric} (h : kind ≠ .float) (predicate : Predicate) (w : IntWidth)
    (x y : BitVec w.bits) :
    compare predicate kind ⟨w, x⟩ ⟨w, y⟩ = some (ofBool (related predicate kind x y)) :=
  dif_pos ⟨rfl, h⟩

end Word

/-- A word of this width, read this way, can stand for the number. -/
def Numeric.Holds (kind : Numeric) (w : IntWidth) (n : Int) : Prop :=
  match kind with
  | .signed => -2 ^ (w.bits - 1) ≤ n ∧ n < 2 ^ (w.bits - 1)
  | .unsigned => 0 ≤ n ∧ n < 2 ^ w.bits
  | .float => False

theorem Numeric.Holds.ne_float {kind : Numeric} {w : IntWidth} {n : Int} (h : kind.Holds w n) :
    kind ≠ .float := by
  rintro rfl
  exact h

theorem Numeric.Holds.zero {kind : Numeric} {w : IntWidth} {n : Int} (h : kind.Holds w n) :
    kind.Holds w 0 := by
  have pos (k : Nat) : (0 : Int) < 2 ^ k := Int.pow_pos (by decide)
  cases kind with
  | signed => exact ⟨Int.neg_nonpos_of_nonneg (Int.le_of_lt (pos _)), pos _⟩
  | unsigned => exact ⟨Int.le_refl 0, pos _⟩
  | float => exact h.elim

namespace Word
variable {kind : Numeric} {w v : IntWidth} {m n : Int}

theorem bits_pos (w : IntWidth) : 0 < w.bits := by cases w <;> decide

theorem toInt_ofInt (h : Numeric.signed.Holds w n) : (BitVec.ofInt w.bits n).toInt = n :=
  BitVec.toInt_ofInt_eq_self (bits_pos w) h.1 h.2

theorem toNat_ofInt (h : Numeric.unsigned.Holds w n) :
    ((BitVec.ofInt w.bits n).toNat : Int) = n := by
  have small : n % ((2 ^ w.bits : Nat) : Int) = n := Int.emod_eq_of_lt h.1 (by exact_mod_cast h.2)
  rw [BitVec.toNat_ofInt, small, Int.toNat_of_nonneg h.1]

theorem read_ofInt (h : kind.Holds w n) : (ofInt w n).read kind = n := by
  cases kind with
  | signed => exact toInt_ofInt h
  | unsigned => exact toNat_ofInt h
  | float => exact h.elim

theorem ofInt_inj (hm : kind.Holds w m) (hn : kind.Holds w n) :
    BitVec.ofInt w.bits m = .ofInt w.bits n ↔ m = n := by
  refine ⟨fun h => ?_, fun h => by rw [h]⟩
  rw [← read_ofInt hm, ← read_ofInt hn, ofInt, ofInt, h]

theorem less_ofInt (hm : kind.Holds w m) (hn : kind.Holds w n) :
    less kind (BitVec.ofInt w.bits m) (.ofInt w.bits n) = decide (m < n) := by
  rw [Bool.eq_iff_iff, decide_eq_true_iff]
  cases kind with
  | signed =>
    rw [less, BitVec.slt_iff_toInt_lt, toInt_ofInt hm, toInt_ofInt hn]
  | unsigned =>
    rw [less, BitVec.ult_iff_lt, BitVec.lt_def, ← Int.ofNat_lt, toNat_ofInt hm, toNat_ofInt hn]
  | float => exact hm.elim

theorem setWidth_ofInt {a b : Nat} (h : a ≤ b) (n : Int) :
    (BitVec.ofInt b n).setWidth a = .ofInt a n := by
  have divides : ((2 ^ a : Nat) : Int) ∣ (2 ^ b : Nat) :=
    Int.natCast_dvd_natCast.2 (Nat.pow_dvd_pow 2 h)
  have nonneg (k : Nat) : 0 ≤ n % ((2 ^ k : Nat) : Int) :=
    Int.emod_nonneg n (by exact_mod_cast Nat.pos_iff_ne_zero.1 (Nat.two_pow_pos k))
  apply BitVec.eq_of_toNat_eq
  rw [BitVec.toNat_setWidth, BitVec.toNat_ofInt, BitVec.toNat_ofInt, ← Int.natCast_inj,
    Int.natCast_mod, Int.toNat_of_nonneg (nonneg b), Int.toNat_of_nonneg (nonneg a),
    Int.emod_emod_of_dvd n divides]

theorem ofInt_toInt_of_le {a b : Nat} (h : a ≤ b) (x : BitVec b) :
    BitVec.ofInt a x.toInt = x.setWidth a :=
  BitVec.signExtend_eq_setWidth_of_le x h

theorem unary_negate (w : IntWidth) (n : Int) : (ofInt w n).unary .negate = ofInt w (-n) := by
  rw [ofInt, unary, ofInt, BitVec.ofInt_neg]

theorem unary_not (value : Bool) : (ofBool value).unary .not = ofBool !value := by
  cases value <;> rfl

theorem cast_truncate (h : v.bits < w.bits) (n : Int) :
    (ofInt w n).cast .truncate v = some (ofInt v n) := by
  rw [ofInt, cast, if_pos h, setWidth_ofInt (Nat.le_of_lt h), ofInt]

theorem cast_signExtend (h : w.bits < v.bits) (hn : Numeric.signed.Holds w n) :
    (ofInt w n).cast .signExtend v = some (ofInt v n) := by
  rw [ofInt, cast, if_pos h, BitVec.signExtend, toInt_ofInt hn, ofInt]

theorem cast_zeroExtend (h : w.bits < v.bits) (hn : Numeric.unsigned.Holds w n) :
    (ofInt w n).cast .zeroExtend v = some (ofInt v n) := by
  have fits : Numeric.unsigned.Holds v n :=
    ⟨hn.1, Int.lt_of_lt_of_le hn.2
      (by exact_mod_cast Nat.pow_le_pow_right (by decide) (Nat.le_of_lt h))⟩
  have same : (BitVec.ofInt w.bits n).setWidth v.bits = .ofInt v.bits n := by
    rw [← BitVec.toNat_inj, BitVec.toNat_setWidth_of_le (Nat.le_of_lt h), ← Int.natCast_inj,
      toNat_ofInt hn, toNat_ofInt fits]
  rw [ofInt, cast, if_pos h, same, ofInt]

end Word
end FlatCode.Code
