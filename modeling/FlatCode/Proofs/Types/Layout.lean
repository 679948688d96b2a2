import FlatCode.Code.Layout

/-! Where the parts of a struct stand. Every alignment is a power of two up to a pointer's, and
every size is a multiple of the alignment. The fields of a struct stand in order, each at the
first multiple of its alignment behind the field before it, and the struct ends at the first
multiple of its own alignment behind the last one. -/
namespace FlatCode.Code

section AlignTo

theorem le_alignTo (bytes alignment : Nat) : bytes ≤ alignTo bytes alignment := by
  unfold alignTo
  split
  · exact Nat.le_refl _
  · have whole := Nat.div_add_mod (bytes + alignment - 1) alignment
    have rest := Nat.mod_lt (bytes + alignment - 1) (show 0 < alignment by omega)
    rw [Nat.mul_comm]
    omega

theorem alignTo_lt (bytes : Nat) {alignment : Nat} (h : 0 < alignment) :
    alignTo bytes alignment < bytes + alignment := by
  unfold alignTo
  split
  · omega
  · have whole := Nat.div_mul_le_self (bytes + alignment - 1) alignment
    omega

theorem dvd_alignTo (bytes : Nat) {alignment : Nat} (h : 0 < alignment) :
    alignment ∣ alignTo bytes alignment := by
  unfold alignTo
  split
  · have one : alignment = 1 := by omega
    rw [one]
    exact Nat.one_dvd _
  · exact Nat.dvd_mul_left _ _

theorem alignTo_zero (alignment : Nat) : alignTo 0 alignment = 0 := by
  unfold alignTo
  split
  · rfl
  · rw [Nat.div_eq_of_lt (by omega), Nat.zero_mul]

end AlignTo

namespace Ty

theorem layoutFrom_append (l : Layout) (before behind : List Ty) :
    layoutFrom l (before ++ behind) = layoutFrom (layoutFrom l before) behind := by
  induction before generalizing l with
  | nil => rfl
  | cons t before ih => exact ih (l.extend t.layout)

/-- The loop over the fields keeps the greatest alignment. -/
theorem alignment_layoutFrom (l : Layout) (fields : List Ty) :
    (layoutFrom l fields).alignment = (fields.map alignment).foldl max l.alignment := by
  induction fields generalizing l with
  | nil => rfl
  | cons t fields ih => exact ih (l.extend t.layout)

mutual
theorem alignment_mem : ∀ t : Ty, t.alignment ∈ [1, 2, 4, 8]
  | .void | .ptr _ | .named _ => by simp [Ty.alignment, layout]
  | .int w => by cases w <;> decide
  | .float w => by cases w <;> decide
  | .struct _ fields => layoutFrom_mem fields (by decide)
theorem layoutFrom_mem : ∀ (fields : List Ty) {l : Layout}, l.alignment ∈ [1, 2, 4, 8] →
    (layoutFrom l fields).alignment ∈ [1, 2, 4, 8]
  | [], _, h => h
  | t :: fields, l, h => by
    refine layoutFrom_mem fields ?_
    change max l.alignment t.alignment ∈ [1, 2, 4, 8]
    rcases Nat.le_total l.alignment t.alignment with le | le
    · rw [Nat.max_eq_right le]
      exact alignment_mem t
    · rwa [Nat.max_eq_left le]
end

theorem alignment_pos (t : Ty) : 0 < t.alignment := by
  have positive : ∀ a ∈ [1, 2, 4, 8], 0 < a := by decide
  exact positive _ t.alignment_mem

theorem alignment_dvd_size : ∀ t : Ty, t.alignment ∣ t.size
  | .void | .named _ => Nat.dvd_zero _
  | .int _ | .float _ | .ptr _ => Nat.dvd_refl _
  | .struct name fields => dvd_alignTo _ (alignment_pos (.struct name fields))

/-- The end of the first `count` fields, where the next one is looked for a place. -/
def reach (fields : List Ty) (count : Nat) : Nat := (layoutFrom ⟨0, 1⟩ (fields.take count)).size

def offset (fields : List Ty) (i : Fin fields.length) : Nat :=
  alignTo (reach fields i) fields[i].alignment

theorem reach_succ (fields : List Ty) (i : Fin fields.length) :
    reach fields (i + 1) = offset fields i + fields[i].size := by
  unfold reach
  rw [List.take_succ_eq_append_getElem i.isLt, layoutFrom_append]
  rfl

theorem reach_length (fields : List Ty) :
    reach fields fields.length = (layoutFrom ⟨0, 1⟩ fields).size := by
  rw [reach, List.take_length]

/-- Layout is aligned and wastes nothing. Alignments are 1, 2, 4 or 8 and divide the sizes. In a
struct, every field stands at a multiple of its alignment, behind the field before it and by
less than its alignment. The struct has the greatest alignment of its fields, and ends behind
its last field by less than that. -/
theorem fields_aligned_and_packed :
    (∀ t : Ty, t.alignment ∈ [1, 2, 4, 8] ∧ t.alignment ∣ t.size) ∧
    ∀ (name : Option String) (fields : List Ty),
      (∀ i : Fin fields.length, fields[i].alignment ∣ offset fields i ∧
        reach fields i ≤ offset fields i ∧
        offset fields i < reach fields i + fields[i].alignment) ∧
      reach fields 0 = 0 ∧
      (∀ i : Fin fields.length, reach fields (i + 1) = offset fields i + fields[i].size) ∧
      (Ty.struct name fields).alignment = (fields.map alignment).foldl max 1 ∧
      reach fields fields.length ≤ (Ty.struct name fields).size ∧
      (Ty.struct name fields).size <
        reach fields fields.length + (Ty.struct name fields).alignment := by
  refine ⟨fun t => ⟨t.alignment_mem, t.alignment_dvd_size⟩, fun name fields => ?_⟩
  have placed (i : Fin fields.length) : fields[i].alignment ∣ offset fields i ∧
      reach fields i ≤ offset fields i ∧ offset fields i < reach fields i + fields[i].alignment :=
    ⟨dvd_alignTo _ (alignment_pos _), le_alignTo _ _, alignTo_lt _ (alignment_pos _)⟩
  rw [reach_length]
  exact ⟨placed, rfl, reach_succ fields, alignment_layoutFrom _ fields, le_alignTo _ _,
    alignTo_lt _ (alignment_pos (.struct name fields))⟩

end Ty

end FlatCode.Code
