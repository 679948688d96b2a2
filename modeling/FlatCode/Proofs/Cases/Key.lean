import Mathlib.Data.List.Basic
import FlatCode.Ast.Literal

/-! What the keys of literals tell apart. A quoted character can be read back, whether it is
spelled by itself, by a letter or by its code point. So two literals that are not floats have one
key only if they are equal, or one number with and without a sign. -/
namespace FlatCode

namespace Text

def hexValue (digits : List Char) : Nat :=
  digits.foldl (fun n c => 16 * n + "0123456789abcdef".toList.idxOf c) 0

theorem idxOf_digitChar : ∀ n < 16, "0123456789abcdef".toList.idxOf n.digitChar = n := by decide

theorem hexValue_toDigits (n : Nat) : hexValue (Nat.toDigits 16 n) = n := by
  induction n using Nat.strongRecOn with
  | ind n ih =>
    rw [Nat.toDigits_eq_if (by decide)]
    split
    · exact (Nat.zero_add _).trans (idxOf_digitChar n ‹_›)
    · have front := ih (n / 16) (by omega)
      rw [hexValue] at front ⊢
      rw [List.foldl_append, front, List.foldl_cons, idxOf_digitChar _ (by omega)]
      exact Nat.div_add_mod n 16

def ofLetter : Char → Char
  | '0' => '\x00'
  | 't' => '\t'
  | 'r' => '\r'
  | 'n' => '\n'
  | c => c

def codeOf : List Char → Nat
  | [c] => c.toNat
  | ['\\', letter] => (ofLetter letter).toNat
  | text => hexValue (text.drop 3).dropLast

theorem codeOf_escape (c : Char) : codeOf (escape '\'' c).toList = c.toNat := by
  unfold escape
  split_ifs with zero tab ret line mark shows
  · rw [zero]; rfl
  · rw [tab]; rfl
  · rw [ret]; rfl
  · rw [line]; rfl
  · obtain rfl | rfl := mark <;> simp [codeOf, ofLetter]
  · simp [codeOf]
  · simp [codeOf, hex, hexValue_toDigits]

theorem quotedChar_inj {c d : Char} (h : quotedChar c = quotedChar d) : c = d := by
  have same := (String.append_right_inj _).1 ((String.append_left_inj _).1 h)
  rw [← Char.toNat_inj, ← codeOf_escape c, same, codeOf_escape]

end Text

namespace Ast.Literal
variable {a b : Literal}

def look (key : String) : Bool × Bool :=
  (key.toList.contains '\'', key.toList.all fun c => c = '-' || c.isDigit)

theorem look_numeral (n : Int) : look (toString n) = (false, true) := by
  have digit {m : Nat} {c : Char} (h : c ∈ Nat.toDigits 10 m) : c.isDigit :=
    Nat.isDigit_of_mem_toDigits (by decide) (by decide) h
  have quote (m : Nat) : '\'' ∉ Nat.toDigits 10 m := fun h => by cases digit h
  rw [Int.toString_eq_repr, Int.repr_eq_if]
  split <;> simpa [look, quote] using fun c h => .inr (digit h)

def spells (text : List Char) : Int :=
  if text.head? = some '-' then -Nat.ofDigitChars 10 text.tail 0 else Nat.ofDigitChars 10 text 0

theorem spells_numeral (n : Int) : spells (toString n).toList = n := by
  have head (m : Nat) : (Nat.toDigits 10 m).head? ≠ some '-' := fun h => by
    have digit := Nat.isDigit_of_mem_toDigits (by decide) (by decide) (List.mem_of_head? h)
    cases digit
  rw [Int.toString_eq_repr, Int.repr_eq_if]
  split
  · simp [spells, head, Int.max_eq_left ‹0 ≤ n›]
  · simp [spells, Int.max_eq_left (show 0 ≤ -n by omega)]

def words : List Literal := [bool false, bool true, null]

theorem words_inj : ∀ a ∈ words, ∀ b ∈ words, a.key = b.key → a = b := by decide

def IsNumber (a : Literal) (n : Int) : Prop :=
  (∃ m : Int64, a = signed m ∧ m.toInt = n) ∨ ∃ m : UInt64, a = unsigned m ∧ m.toNat = n

theorem IsNumber.key {n : Int} (h : a.IsNumber n) : a.key = toString n := by
  obtain ⟨m, rfl, rfl⟩ | ⟨m, rfl, rfl⟩ := h <;> rfl

theorem look_key (ha : ∀ x, a ≠ .float x) :
    (look a.key = (false, false) ∧ a ∈ words) ∨ (look a.key = (true, false) ∧ ∃ c, a = char c) ∨
      (look a.key = (false, true) ∧ ∃ n, a.IsNumber n) := by
  cases a with
  | bool value => cases value <;> exact .inl (by decide)
  | null => exact .inl (by decide)
  | char c => exact .inr (.inl ⟨by simp [look, key, Text.quotedChar], c, rfl⟩)
  | signed m => exact .inr (.inr ⟨look_numeral _, _, .inl ⟨m, rfl, rfl⟩⟩)
  | unsigned m => exact .inr (.inr ⟨look_numeral m.toNat, _, .inr ⟨m, rfl, rfl⟩⟩)
  | float x => exact absurd rfl (ha x)

/-- Floats aside, keys tell all literals apart except for a number with and without a sign. -/
theorem key_eq_iff (ha : ∀ x, a ≠ .float x) (hb : ∀ x, b ≠ .float x) :
    a.key = b.key ↔ a = b ∨ ∃ (m : Int64) (n : UInt64), m.toInt = n.toNat ∧
      ((a = .signed m ∧ b = .unsigned n) ∨ (a = .unsigned n ∧ b = .signed m)) := by
  constructor
  · intro same
    have looks := congrArg look same
    rcases look_key ha with ⟨la, wa⟩ | ⟨la, c, rfl⟩ | ⟨la, m, na⟩ <;>
      rcases look_key hb with ⟨lb, wb⟩ | ⟨lb, d, rfl⟩ | ⟨lb, n, nb⟩ <;> rw [la, lb] at looks
    case inl.inl => exact .inl (words_inj a wa b wb same)
    case inr.inl.inr.inl => exact .inl (congrArg char (Text.quotedChar_inj same))
    case inr.inr.inr.inr =>
      obtain rfl : m = n := by
        rw [← spells_numeral m, ← na.key, same, nb.key, spells_numeral]
      obtain ⟨x, rfl, hx⟩ | ⟨x, rfl, hx⟩ := na <;> obtain ⟨y, rfl, hy⟩ | ⟨y, rfl, hy⟩ := nb
      · exact .inl (congrArg signed (Int64.toInt_inj.1 (hx.trans hy.symm)))
      · exact .inr ⟨x, y, hx.trans hy.symm, .inl ⟨rfl, rfl⟩⟩
      · exact .inr ⟨y, x, hy.trans hx.symm, .inr ⟨rfl, rfl⟩⟩
      · exact .inl (congrArg unsigned (UInt64.toNat_inj.1 (Int.ofNat.inj (hx.trans hy.symm))))
    all_goals cases looks
  · rintro (rfl | ⟨m, n, value, ⟨rfl, rfl⟩ | ⟨rfl, rfl⟩⟩)
    · rfl
    · exact congrArg toString value
    · exact congrArg toString value.symm

/-- A control character against the digits of its code point, and a number with both signs. -/
theorem control_key_ne_numeral :
    (char '\x01').key ≠ (signed 1).key ∧ (signed 1).key = (unsigned 1).key := by
  constructor
  · intro same
    simpa using (key_eq_iff (by simp) (by simp)).1 same
  · exact (key_eq_iff (by simp) (by simp)).2 (.inr ⟨1, 1, rfl, .inl ⟨rfl, rfl⟩⟩)

end Ast.Literal
end FlatCode
