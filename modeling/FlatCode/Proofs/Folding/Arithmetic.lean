import FlatCode.Lower.Operator
import FlatCode.Proofs.Word.Basic

/-! Folding against arithmetic on words. What folds is a number that its type can hold, and the
words of the operands give the word of that number: exact arithmetic and arithmetic modulo a power
of two agree there. -/
namespace FlatCode
open Code Symbols Ast

namespace Fold
variable {kind : Numeric} {w : IntWidth} {m n v : Int}

theorem within128_ok (h : within128 m = .ok v) : v = m := by
  unfold within128 at h
  split at h
  · exact (Except.ok.inj h).symm
  · cases h

theorem divided {context : Int → Int → Int} (h : (if n = 0 then .error .divisionByZero else
    within128 (context m n) : Result Int) = .ok v) : n ≠ 0 ∧ v = context m n := by
  split at h
  · cases h
  · exact ⟨‹_›, within128_ok h⟩

theorem bits_le_128 (w : IntWidth) : w.bits ≤ 128 := by cases w <;> decide

theorem ofInt_bitwise {f : BitVec 128 → BitVec 128 → BitVec 128}
    {g : BitVec w.bits → BitVec w.bits → BitVec w.bits}
    (cut : ∀ x y, (f x y).setWidth w.bits = g (x.setWidth w.bits) (y.setWidth w.bits)) :
    BitVec.ofInt w.bits (bitwise f m n) = g (.ofInt w.bits m) (.ofInt w.bits n) := by
  have le := bits_le_128 w
  rw [bitwise, Word.ofInt_toInt_of_le le, cut, Word.setWidth_ofInt le, Word.setWidth_ofInt le]

theorem ofInt_ne_zero (hn : kind.Holds w n) (h : n ≠ 0) : BitVec.ofInt w.bits n ≠ 0 := by
  intro same
  exact h ((Word.ofInt_inj hn hn.zero).1 (by simpa using same))

theorem divide_agrees (hm : kind.Holds w m) (hn : kind.Holds w n) (hv : kind.Holds w (m.tdiv n)) :
    Word.divide kind (BitVec.ofInt w.bits m) (.ofInt w.bits n) = .ofInt w.bits (m.tdiv n) := by
  cases kind with
  | signed =>
    rw [Word.divide, ← BitVec.toInt_inj, BitVec.toInt_sdiv, Word.toInt_ofInt hm,
      Word.toInt_ofInt hn, BitVec.toInt_ofInt]
  | unsigned =>
    rw [Word.divide, ← BitVec.toNat_inj, BitVec.toNat_udiv, ← Int.natCast_inj, Int.natCast_ediv,
      Word.toNat_ofInt hm, Word.toNat_ofInt hn, Word.toNat_ofInt hv,
      Int.tdiv_eq_ediv_of_nonneg hm.1]
  | float => exact hn.elim

theorem remainder_agrees (hm : kind.Holds w m) (hn : kind.Holds w n)
    (hv : kind.Holds w (m.tmod n)) :
    Word.remainder kind (BitVec.ofInt w.bits m) (.ofInt w.bits n) = .ofInt w.bits (m.tmod n) := by
  cases kind with
  | signed =>
    rw [Word.remainder, ← BitVec.toInt_inj, BitVec.toInt_srem, Word.toInt_ofInt hm,
      Word.toInt_ofInt hn, Word.toInt_ofInt hv]
  | unsigned =>
    rw [Word.remainder, ← BitVec.toNat_inj, BitVec.toNat_umod, ← Int.natCast_inj,
      Int.natCast_emod, Word.toNat_ofInt hm, Word.toNat_ofInt hn, Word.toNat_ofInt hv,
      Int.tmod_eq_emod_of_nonneg hm.1]
  | float => exact hn.elim

theorem arithmetic_bits {context : String} {op : Operator} {binary : BinaryOp}
    (hm : kind.Holds w m) (hn : kind.Holds w n) (hv : kind.Holds w v)
    (operator : op.binary? = some binary) (folds : arithmetic context op m n = .ok v) :
    Word.arithmetic binary kind (BitVec.ofInt w.bits m) (.ofInt w.bits n) =
      some (.ofInt w.bits v) := by
  cases op with
  | add =>
    cases operator
    rw [within128_ok folds, BitVec.ofInt_add, Word.arithmetic]
  | subtract =>
    cases operator
    rw [within128_ok folds, Int.sub_eq_add_neg, BitVec.ofInt_add, BitVec.ofInt_neg,
      ← BitVec.sub_eq_add_neg, Word.arithmetic]
  | multiply =>
    cases operator
    rw [within128_ok folds, BitVec.ofInt_mul, Word.arithmetic]
  | divide =>
    cases operator
    obtain ⟨divisor, rfl⟩ := divided folds
    rw [Word.arithmetic, if_neg (ofInt_ne_zero hn divisor), divide_agrees hm hn hv]
  | remainder =>
    cases operator
    obtain ⟨divisor, rfl⟩ := divided folds
    rw [Word.arithmetic, if_neg (ofInt_ne_zero hn divisor), remainder_agrees hm hn hv]
  | bitwiseAnd =>
    cases operator
    cases folds
    exact congrArg some (ofInt_bitwise fun _ _ => BitVec.setWidth_and).symm
  | bitwiseOr =>
    cases operator
    cases folds
    exact congrArg some (ofInt_bitwise fun _ _ => BitVec.setWidth_or).symm
  | bitwiseXor =>
    cases operator
    cases folds
    exact congrArg some (ofInt_bitwise fun _ _ => BitVec.setWidth_xor).symm
  | shiftLeft | shiftRight => cases folds
  | _ => cases operator

/-- Exact arithmetic whose result fits is arithmetic on words. -/
theorem arithmetic_agrees {context : String} {op : Operator} {binary : BinaryOp}
    (hm : kind.Holds w m) (hn : kind.Holds w n) (hv : kind.Holds w v)
    (operator : op.binary? = some binary) (folds : arithmetic context op m n = .ok v) :
    Word.binary binary kind (.ofInt w m) (.ofInt w n) = some (.ofInt w v) := by
  rw [Word.ofInt, Word.ofInt, Word.binary_mk hm.ne_float, arithmetic_bits hm hn hv operator folds]
  rfl

theorem compare_agrees {op : Operator} {predicate : Predicate} {value : Bool}
    (hm : kind.Holds w m) (hn : kind.Holds w n) (operator : op.predicate? = some predicate)
    (folds : compare? op m n = some value) :
    Word.compare predicate kind (.ofInt w m) (.ofInt w n) = some (.ofBool value) := by
  rw [Word.ofInt, Word.ofInt, Word.compare_mk hm.ne_float]
  congr 2
  have notLess (a b : Int) : (!decide (b < a)) = decide (a ≤ b) := by
    rw [← decide_not, decide_eq_decide, Int.not_lt]
  cases op <;> cases operator <;> cases folds
  all_goals
    simp only [Word.related, Word.less_ofInt hm hn, Word.less_ofInt hn hm, Word.ofInt_inj hm hn,
      notLess, ne_eq, gt_iff_lt, ge_iff_le]

end Fold
end FlatCode
