import Mathlib.Data.List.Nodup
import Mathlib.Data.List.Perm.Subperm
import Mathlib.Order.Bounds.Defs
import FlatCode.Storage

/-! Names of slots. A slot is named as it is asked for, or else with the least number that makes
the name free. The search for the number goes on where it stopped for the same name before: all
smaller numbers have stayed taken since, whatever else was asked for. -/
namespace FlatCode.Storage
open Symbols List

/-- What a slot is named for which `name` is asked, where names have been given before. -/
def Fresh (given : List String) (name unique : String) : Prop :=
  (name ∉ given ∧ unique = name) ∨
    (name ∈ given ∧ ∃ n, IsLeast {n | 1 ≤ n ∧ numbered name n ∉ given} n ∧
      unique = numbered name n)

def names (s : Storage) : (asked : List String) → List String × Storage
  | [] => ([], s)
  | name :: asked =>
    let (unique, s) := s.uniqueName name
    let (rest, s) := s.names asked
    (unique :: rest, s)

def Counted (s : Storage) : Prop :=
  ∀ name last, s.suffixes.lookup name = some last →
    ∀ n, 1 ≤ n → n ≤ last → numbered name n ∈ s.taken

theorem numbered_inj {name : String} {m n : Nat} (h : numbered name m = numbered name n) :
    m = n := by
  have digits : Nat.toDigits 10 m = Nat.toDigits 10 n :=
    String.ofList_injective ((String.append_right_inj name).1 h)
  rw [← Nat.ofDigitChars_ten_toDigits (n := m), digits, Nat.ofDigitChars_ten_toDigits]

theorem numbered_getLast? (name : String) (n : Nat) :
    ∃ c, (numbered name n).toList.getLast? = some c ∧ c.isDigit := by
  have split : (numbered name n).toList = name.toList ++ Nat.toDigits 10 n := by
    rw [numbered, String.toList_append]
    exact congrArg (name.toList ++ ·) String.toList_ofList
  refine ⟨(Nat.toDigits 10 n).getLast Nat.toDigits_ne_nil, ?_, ?_⟩
  · rw [split, getLast?_append_of_ne_nil _ Nat.toDigits_ne_nil, getLast?_eq_some_getLast]
  · exact Nat.isDigit_of_mem_toDigits (by decide) (by decide) (getLast_mem _)

theorem Fresh.not_mem {given : List String} {name unique : String} (h : Fresh given name unique) :
    unique ∉ given := by
  obtain ⟨free, rfl⟩ | ⟨-, n, least, rfl⟩ := h
  · exact free
  · exact least.1.2

theorem Fresh.inj {given : List String} {name u v : String} (hu : Fresh given name u)
    (hv : Fresh given name v) : u = v := by
  obtain ⟨free, rfl⟩ | ⟨used, m, hm, rfl⟩ := hu
  · obtain ⟨-, rfl⟩ | ⟨used, -⟩ := hv
    · rfl
    · exact absurd used free
  · obtain ⟨free, -⟩ | ⟨-, n, hn, rfl⟩ := hv
    · exact absurd used free
    · rw [Nat.le_antisymm (hm.2 hn.1) (hn.2 hm.1)]

section Search
variable (taken : List String) (name : String) (last tries : Nat)

/-- The search stops at a number that is free, or when it has made all of its tries. -/
theorem freeSuffix_search :
    last < freeSuffix taken name last tries ∧
      (∀ n, last < n → n < freeSuffix taken name last tries → numbered name n ∈ taken) ∧
      (numbered name (freeSuffix taken name last tries) ∈ taken →
        freeSuffix taken name last tries = last + 1 + tries) := by
  induction tries generalizing last with
  | zero => exact ⟨Nat.lt_succ_self _, fun n low high => by rw [freeSuffix] at high; omega,
      fun _ => rfl⟩
  | succ tries ih =>
    rw [freeSuffix]
    split
    · next used =>
      obtain ⟨above, passed, full⟩ := ih (last + 1)
      refine ⟨by omega, fun n low high => ?_, fun h => by rw [full h]; omega⟩
      rcases Nat.eq_or_lt_of_le low with rfl | low
      · exact contains_iff_mem.1 used
      · exact passed n low high
    · next free => exact ⟨by omega, fun n low high => by omega,
        fun h => absurd (contains_iff_mem.2 h) free⟩

variable {taken name last}

/-- As many tries as there are names are enough, as different numbers make different names. -/
theorem freeSuffix_isLeast (below : ∀ n, 1 ≤ n → n ≤ last → numbered name n ∈ taken) :
    IsLeast {n | 1 ≤ n ∧ numbered name n ∉ taken}
      (freeSuffix taken name last taken.length) := by
  obtain ⟨above, passed, full⟩ := freeSuffix_search taken name last taken.length
  generalize freeSuffix taken name last taken.length = found at above passed full ⊢
  refine ⟨⟨by omega, fun used => ?_⟩, fun n ⟨positive, free⟩ => ?_⟩
  · have within : (List.range' (last + 1) (taken.length + 1)).map (numbered name) ⊆ taken := by
      intro text mem
      obtain ⟨n, hn, rfl⟩ := mem_map.1 mem
      rw [mem_range'_1] at hn
      rcases Nat.lt_or_ge n found with low | high
      · exact passed n (by omega) low
      · rwa [show n = found by have := full used; omega]
    have nodup : ((List.range' (last + 1) (taken.length + 1)).map (numbered name)).Nodup :=
      .map (fun _ _ => numbered_inj) nodup_range'
    have bound := (subperm_of_subset nodup within).length_le
    rw [length_map, length_range'] at bound
    omega
  · rcases Nat.lt_or_ge n found with low | high
    · rcases Nat.lt_or_ge last n with behind | front
      · exact absurd (passed n behind low) free
      · exact absurd (below n positive front) free
    · exact high

end Search

section Request
variable {s : Storage} (name : String)

theorem uniqueName_fresh (h : s.Counted) : Fresh s.taken name (s.uniqueName name).1 := by
  rw [uniqueName]
  split
  · next used =>
    refine .inr ⟨contains_iff_mem.1 used, _, freeSuffix_isLeast ?_, rfl⟩
    cases known : s.suffixes.lookup name with
    | none => exact fun n low high => absurd (Nat.le_trans low high) (by decide)
    | some last => exact h name last known
  · next free => exact .inl ⟨fun h => free (contains_iff_mem.2 h), rfl⟩

theorem uniqueName_taken :
    (s.uniqueName name).2.taken = (s.uniqueName name).1 :: s.taken := by
  rw [uniqueName]
  split <;> rfl

theorem uniqueName_counted (h : s.Counted) : (s.uniqueName name).2.Counted := by
  intro other last known n low high
  rw [uniqueName_taken]
  have fresh := uniqueName_fresh name h
  rw [uniqueName] at known fresh ⊢
  split at known
  · next used =>
    rw [if_pos used] at fresh ⊢
    by_cases same : other = name
    · subst same
      rw [lookup_cons_self, Option.some.injEq] at known
      subst known
      rcases Nat.eq_or_lt_of_le high with rfl | low'
      · exact mem_cons_self
      -- The number found is the least one that was free.
      · obtain ⟨free, -⟩ | ⟨-, m, least, eq⟩ := fresh
        · exact absurd (contains_iff_mem.1 used) free
        · rw [← numbered_inj eq] at least
          by_contra free
          exact absurd (least.2 ⟨low, fun h => free (mem_cons_of_mem _ h)⟩) (by omega)
    · rw [lookup_cons, beq_false_of_ne same] at known
      exact mem_cons_of_mem _ (h other last known n low high)
  · next free =>
    rw [if_neg free]
    exact mem_cons_of_mem _ (h other last known n low high)

theorem names_taken (asked : List String) (s : Storage) :
    (s.names asked).2.taken = (s.names asked).1.reverse ++ s.taken := by
  induction asked generalizing s with
  | nil => rfl
  | cons name asked ih =>
    change ((s.uniqueName name).2.names asked).2.taken =
      ((s.uniqueName name).1 :: ((s.uniqueName name).2.names asked).1).reverse ++ s.taken
    rw [ih, uniqueName_taken, reverse_cons, append_assoc, singleton_append]

theorem names_counted (asked : List String) {s : Storage} (h : s.Counted) :
    (s.names asked).2.Counted := by
  induction asked generalizing s with
  | nil => exact h
  | cons name asked ih => exact ih (uniqueName_counted name h)

end Request

theorem empty_counted : Storage.empty.Counted := by
  intro name last known
  cases known

/-- The names that are taken are those of the slots. Each is the one declared for its variable,
or has a number behind it because the declared one is taken. -/
structure Named (table : SymbolTable) (s : Storage) : Prop where
  taken : s.taken = s.locations.map fun p => p.2.name
  nodup : s.taken.Nodup
  counted : s.Counted
  declared : ∀ p ∈ s.locations, ∃ symbol, table.variableSymbol p.1 = .ok symbol ∧
    symbol.name ∈ s.taken ∧ (p.2.name = symbol.name ∨ ∃ n, p.2.name = numbered symbol.name n)

namespace Named
variable {table : SymbolTable} {s : Storage}

theorem empty : Storage.empty.Named table :=
  ⟨rfl, nodup_nil, empty_counted, fun _ mem => nomatch mem⟩

theorem add (h : s.Named table) {v : VariableId} {symbol : VariableSymbol} {l : Location}
    (known : table.variableSymbol v = .ok symbol) (name : l.name = (s.uniqueName symbol.name).1) :
    Named table { (s.uniqueName symbol.name).2 with locations := (v, l) :: s.locations } := by
  have fresh := uniqueName_fresh symbol.name h.counted
  have taken := uniqueName_taken (s := s) symbol.name
  rw [← name] at fresh taken
  refine ⟨by rw [map_cons, ← h.taken, taken], ?_, uniqueName_counted _ h.counted, ?_⟩
  · rw [taken]
    exact nodup_cons.2 ⟨fresh.not_mem, h.nodup⟩
  · rw [taken]
    refine forall_mem_cons.2 ⟨⟨symbol, known, ?_⟩, fun p mem => ?_⟩
    · obtain ⟨-, same⟩ | ⟨used, n, -, numbered⟩ := fresh
      · exact ⟨same ▸ mem_cons_self, .inl same⟩
      · exact ⟨mem_cons_of_mem _ used, .inr ⟨n, numbered⟩⟩
    · obtain ⟨symbol', known', used, text⟩ := h.declared p mem
      exact ⟨symbol', known', mem_cons_of_mem _ used, text⟩

/-- A name without a number is taken if and only if a variable has been declared with it. -/
theorem mem_taken_iff (h : s.Named table) {name : String}
    (plain : ∀ base n, name ≠ numbered base n) :
    name ∈ s.taken ↔ ∃ p ∈ s.locations, ∃ symbol, table.variableSymbol p.1 = .ok symbol ∧
      symbol.name = name := by
  constructor
  · intro used
    rw [h.taken] at used
    obtain ⟨p, mem, rfl⟩ := mem_map.1 used
    obtain ⟨symbol, known, -, same | ⟨n, text⟩⟩ := h.declared p mem
    · exact ⟨p, mem, symbol, known, same.symm⟩
    · exact absurd text (plain _ n)
  · rintro ⟨p, mem, symbol, known, rfl⟩
    obtain ⟨symbol', known', used, -⟩ := h.declared p mem
    rw [known] at known'
    cases known'
    exact used

end Named

/-- After any requests, a slot gets the name that is asked for, if no slot has it, and else the
name with the least number that no slot has. It is the name that is found if all numbers are
tried again. -/
theorem names_least (asked : List String) (name : String) :
    let (given, s) := empty.names asked
    Fresh given name (s.uniqueName name).1 ∧
      (s.uniqueName name).1 = (uniqueName { s with suffixes := [] } name).1 := by
  have counted := names_counted asked empty_counted
  have fresh := uniqueName_fresh name counted
  have again : Fresh _ name (uniqueName { (empty.names asked).2 with suffixes := [] } name).1 :=
    uniqueName_fresh name fun _ _ known => by cases known
  refine ⟨?_, fresh.inj again⟩
  rw [names_taken] at fresh
  simpa [Fresh, empty] using fresh

end FlatCode.Storage
