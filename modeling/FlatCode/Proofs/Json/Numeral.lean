import Mathlib.Data.List.Basic
import FlatCode.Json.Decode

/-! Numerals as text. The characters of a numeral spell that numeral, and whole numbers are read
from the numerals that are written for them. -/
namespace FlatCode.Json.Numeral
open List

variable {cs ds rest : List Char}

def AreDigits (ds : List Char) : Prop := ds ≠ [] ∧ ∀ c ∈ ds, c.isDigit

def Stops (cs : List Char) : Prop := ∀ c ∈ cs.head?, c.isDigit = false

theorem stops_nil : Stops [] := by simp [Stops]

theorem stops_cons {c : Char} (h : c.isDigit = false) : Stops (c :: cs) := by
  simpa [Stops] using h

theorem digits?_append (digits : AreDigits ds) (stops : Stops rest) :
    digits? (ds ++ rest) = some (ds, rest) := by
  have taken : (ds ++ rest).takeWhile Char.isDigit = ds := by
    rw [takeWhile_append_of_pos digits.2]
    cases rest with
    | nil => simp
    | cons c cs => simp [stops c rfl]
  have dropped : (ds ++ rest).dropWhile Char.isDigit = rest := by
    rw [dropWhile_append_of_pos digits.2]
    cases rest with
    | nil => rfl
    | cons c cs => simp [stops c rfl]
  rw [digits?, taken, dropped]
  obtain ⟨c, cs, rfl⟩ := exists_cons_of_ne_nil digits.1
  rfl

theorem areDigits_of_digits? (h : digits? cs = some (ds, rest)) : AreDigits ds := by
  unfold digits? at h
  split at h
  · cases h
  · rename_i some_
    cases h
    exact ⟨some_, all_eq_true.1 all_takeWhile⟩

structure Proper (n : Numeral) : Prop where
  whole : AreDigits n.whole
  leads : n.whole.head? = some '0' → n.whole.length = 1
  fraction : ∀ ds ∈ n.fraction, AreDigits ds
  exponent : ∀ e ∈ n.exponent, AreDigits e.2

theorem exponentDigits?_some {negative : Bool} {e : Option (Bool × List Char)}
    (h : exponentDigits? negative cs = some (e, rest)) : ∀ p ∈ e, AreDigits p.2 := by
  obtain ⟨⟨ds, _⟩, digits, same⟩ := Option.map_eq_some_iff.1 h
  cases same
  rintro _ ⟨⟩
  exact areDigits_of_digits? digits

theorem exponent?_some {e : Option (Bool × List Char)} (h : exponent? cs = some (e, rest)) :
    ∀ p ∈ e, AreDigits p.2 := by
  cases cs with
  | nil =>
    cases h
    simp
  | cons c cs =>
    simp only [exponent?] at h
    split at h
    · split at h <;> exact exponentDigits?_some h
    · cases h
      simp

theorem proper_of_ofChars? {n : Numeral} (h : ofChars? cs = some n) : n.Proper := by
  simp only [ofChars?, whole?, Option.bind_eq_bind, Option.bind_eq_some_iff] at h
  obtain ⟨⟨whole, _⟩, ⟨⟨_, _⟩, digits, leads⟩, ⟨fraction, _⟩, hf, ⟨exponent, _⟩, he, h⟩ := h
  split at leads
  · cases leads
  rename_i leading
  cases leads
  split at h
  · cases h
    refine ⟨areDigits_of_digits? digits, fun zero => ?_, ?_, exponent?_some he⟩
    · exact Decidable.not_not.1 fun long => leading ⟨zero, long⟩
    · intro ds hds
      unfold fraction? at hf
      split at hf
      · obtain ⟨⟨_, _⟩, digits, same⟩ := Option.map_eq_some_iff.1 hf
        cases same
        cases hds
        exact areDigits_of_digits? digits
      · cases hf
        cases hds
  · cases h

theorem AreDigits.head_ne (h : AreDigits ds) {c : Char} (other : c.isDigit = false) :
    ds ++ rest ≠ c :: cs := by
  obtain ⟨d, ds, rfl⟩ := exists_cons_of_ne_nil h.1
  rintro ⟨⟩
  simp [h.2 c mem_cons_self] at other

def fractionChars (n : Numeral) : List Char :=
  match n.fraction with
  | some ds => '.' :: ds
  | none => []

def exponentChars (n : Numeral) : List Char :=
  match n.exponent with
  | some (true, ds) => 'e' :: '-' :: ds
  | some (false, ds) => 'e' :: ds
  | none => []

theorem chars_eq (n : Numeral) : n.chars =
    (if n.negative then ['-'] else []) ++ (n.whole ++ (n.fractionChars ++ n.exponentChars)) := by
  rw [chars, append_assoc, append_assoc]
  rfl

theorem stops_exponent (n : Numeral) : Stops n.exponentChars := by
  unfold exponentChars
  split
  · exact stops_cons (by decide)
  · exact stops_cons (by decide)
  · exact stops_nil

theorem fraction?_exponent (n : Numeral) :
    fraction? n.exponentChars = some (none, n.exponentChars) := by
  unfold exponentChars
  split <;> rfl

section Proper
variable {n : Numeral} (h : n.Proper)
include h

theorem exponent?_chars : exponent? n.exponentChars = some (n.exponent, []) := by
  unfold exponentChars
  match he : n.exponent with
  | none => rfl
  | some (true, ds) =>
    have digits := digits?_append (h.exponent _ he) stops_nil
    rw [append_nil] at digits
    simp [exponent?, exponentDigits?, digits]
  | some (false, ds) =>
    have digits : AreDigits ds := h.exponent _ he
    have read := digits?_append digits stops_nil
    rw [append_nil] at read
    simp only [exponent?, true_or, if_true]
    split
    · exact absurd (append_nil _) (digits.head_ne (by decide))
    · exact absurd (append_nil _) (digits.head_ne (by decide))
    · simp [exponentDigits?, read]

theorem fraction?_chars :
    fraction? (n.fractionChars ++ n.exponentChars) = some (n.fraction, n.exponentChars) := by
  unfold fractionChars
  cases hf : n.fraction with
  | some ds => simp [fraction?, digits?_append (h.fraction _ hf) n.stops_exponent]
  | none => exact n.fraction?_exponent

theorem whole?_chars : whole? (n.whole ++ (n.fractionChars ++ n.exponentChars)) =
    some (n.whole, n.fractionChars ++ n.exponentChars) := by
  have stops : Stops (n.fractionChars ++ n.exponentChars) := by
    unfold fractionChars
    split
    · exact stops_cons (by decide)
    · exact n.stops_exponent
  have leading : ¬(n.whole.head? = some '0' ∧ n.whole.length ≠ 1) := fun ⟨zero, long⟩ =>
    long (h.leads zero)
  simp [whole?, digits?_append h.whole stops, leading]

theorem ofChars?_chars : ofChars? n.chars = some n := by
  have whole := whole?_chars h
  have fraction := fraction?_chars h
  have exponent := exponent?_chars h
  rw [chars_eq]
  cases negative : n.negative with
  | true =>
    simp only [if_true, cons_append, nil_append]
    unfold ofChars?
    simp [whole, fraction, exponent, ← negative]
  | false =>
    simp only [Bool.false_eq_true, if_false, nil_append]
    unfold ofChars?
    split
    · rename_i signed
      split at signed
      · rename_i same
        exact absurd same (h.whole.head_ne (by decide))
      · cases signed
        simp [whole, fraction, exponent, ← negative]

end Proper

theorem areDigits_toDigits (n : Nat) : AreDigits (Nat.toDigits 10 n) :=
  ⟨Nat.toDigits_ne_nil, fun _ hc => Nat.isDigit_of_mem_toDigits (by decide) (by decide) hc⟩

theorem eq_zero_of_head?_toDigits (n : Nat) (h : (Nat.toDigits 10 n).head? = some '0') : n = 0 := by
  induction n using Nat.strongRecOn with
  | _ n ih =>
    by_cases small : n < 10
    · rw [Nat.toDigits_of_lt_base small] at h
      simpa using h
    · rw [Nat.toDigits_of_base_le (by decide) (by omega),
        head?_append_of_ne_nil _ Nat.toDigits_ne_nil] at h
      have := ih (n / 10) (by omega) h
      omega

theorem proper_toDigits (negative : Bool) (n : Nat) :
    Proper ⟨negative, Nat.toDigits 10 n, none, none⟩ := by
  refine ⟨areDigits_toDigits n, fun zero => ?_, by simp, by simp⟩
  rw [eq_zero_of_head?_toDigits n zero]
  rfl

@[simp] theorem digitsValue_toDigits (n : Nat) : digitsValue (Nat.toDigits 10 n) = n := by
  have := Nat.ofDigitChars_toDigits (b := 10) (n := n) (by decide) (by decide)
  rw [Nat.ofDigitChars_eq_foldl] at this
  exact this

@[simp] theorem toNat?_ofNat (n : Nat) : (ofNat n).toNat? = some n := by
  simp [toNat?, isInteger, ofNat]

@[simp] theorem toInt?_ofInt (n : Int) : (ofInt n).toInt? = some n := by
  by_cases negative : n < 0
  · have : n.natAbs ≠ 0 := by omega
    have : -(n.natAbs : Int) = n := by omega
    simp_all [toInt?, isInteger, ofInt]
  · have : (n.natAbs : Int) = n := by omega
    simp [toInt?, isInteger, ofInt, negative, this]

end FlatCode.Json.Numeral
