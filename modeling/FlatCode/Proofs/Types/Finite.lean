import Mathlib.Algebra.Order.BigOperators.Group.List
import Mathlib.Algebra.Order.Ring.Nat
import Mathlib.Order.OrderIsoNat
import FlatCode.Proofs.Types.Layout
import FlatCode.Proofs.Types.Struct

/-! Finite types. Classes may refer to themselves and to each other through pointers, as a pointer
to a class knows only its name. If no class contains itself by value and no pointers go on for
ever, every type has a representation, in which no name stands for an object. So a class takes
room wherever it stands, unless there is nothing in it. -/
namespace FlatCode
open Code Symbols Relation List

theorem exists_forall₂ {R : α → β → Prop} : ∀ {as : List α}, (∀ a ∈ as, ∃ b, R a b) →
    ∃ bs, List.Forall₂ R as bs
  | [], _ => ⟨[], .nil⟩
  | a :: as, h => by
    obtain ⟨b, hb⟩ := h a mem_cons_self
    obtain ⟨bs, hbs⟩ := exists_forall₂ fun a ha => h a (mem_cons_of_mem _ ha)
    exact ⟨b :: bs, .cons hb hbs⟩

theorem forall₂_forall_mem {R : α → β → Prop} {p : α → Prop} {q : β → Prop}
    (same : ∀ a b, R a b → (p a ↔ q b)) {as : List α} {bs : List β} (h : List.Forall₂ R as bs) :
    (∀ a ∈ as, p a) ↔ ∀ b ∈ bs, q b := by
  induction h with
  | nil => simp
  | cons first _ ih => rw [forall_mem_cons, forall_mem_cons, same _ _ first, ih]

namespace Code

/-- Only behind a pointer may a type be a name, and there it is not `void`. -/
inductive Ty.Placed : (behind : Bool) → Ty → Prop
  | void : Placed false .void
  | int (behind : Bool) (w : IntWidth) : Placed behind (.int w)
  | float (behind : Bool) (w : FloatWidth) : Placed behind (.float w)
  | ptr (behind : Bool) {ty : Ty} (h : Placed true ty) : Placed behind (.ptr ty)
  | struct (behind : Bool) (name : Option String) {parts : List Ty}
    (h : ∀ ty ∈ parts, Placed false ty) : Placed behind (.struct name parts)
  | named (name : String) : Placed true (.named name)

theorem Ty.Placed.toBehind {ty : Ty} (h : Placed false ty) (some : ty ≠ .void) :
    Placed true ty := by
  cases h with
  | void => exact absurd rfl some
  | int => exact .int _ _
  | float => exact .float _ _
  | ptr _ h => exact .ptr _ h
  | struct _ name h => exact .struct _ name h

theorem Ty.size_layoutFrom (l : Layout) (parts : List Ty) :
    l.size + (parts.map Ty.size).sum ≤ (Ty.layoutFrom l parts).size := by
  induction parts generalizing l with
  | nil => simp [Ty.layoutFrom]
  | cons ty parts ih =>
    have first := le_alignTo l.size ty.layout.alignment
    have rest := ih (l.extend ty.layout)
    rw [Layout.extend] at rest
    simp only [map_cons, sum_cons, Ty.layoutFrom, Ty.size, Layout.extend] at rest ⊢
    omega

theorem Ty.size_layoutFrom_eq_zero {l : Layout} {parts : List Ty} (empty : l.size = 0)
    (h : ∀ ty ∈ parts, ty.size = 0) : (Ty.layoutFrom l parts).size = 0 := by
  induction parts generalizing l with
  | nil => exact empty
  | cons ty parts ih =>
    rw [forall_mem_cons] at h
    refine ih ?_ h.2
    rw [Layout.extend, empty, alignTo_zero, Nat.zero_add]
    exact h.1

theorem Ty.sum_size_le (name : Option String) (parts : List Ty) :
    (parts.map Ty.size).sum ≤ (Ty.struct name parts).size :=
  Nat.le_trans (by simpa using Ty.size_layoutFrom ⟨0, 1⟩ parts) (le_alignTo _ _)

theorem Ty.size_struct_eq_zero {name : Option String} {parts : List Ty} :
    (Ty.struct name parts).size = 0 ↔ ∀ ty ∈ parts, ty.size = 0 := by
  constructor
  · intro h ty mem
    have whole := Ty.sum_size_le name parts
    have part := le_sum_of_mem (mem_map_of_mem (f := Ty.size) mem)
    omega
  · intro h
    change alignTo _ _ = 0
    rw [Ty.size_layoutFrom_eq_zero rfl h, alignTo_zero]

end Code

namespace Symbols

theorem ClassInfo.forall_mem_parts {c : ClassInfo} {base fields : List Ty} {q : Ty → Prop} :
    (∀ ty ∈ base ++ c.table ++ fields, q ty) ↔
      (∀ ty ∈ base, q ty) ∧ (c.hasDispatchTable → q .dispatchTable) ∧ ∀ ty ∈ fields, q ty := by
  rw [forall_mem_append, forall_mem_append, and_assoc, ClassInfo.table]
  split <;> simp [*]

def TypeKind.parts : TypeKind → List TypeId
  | .classType c => c.base.toList ++ c.fields
  | _ => []

def TypeKind.target? : TypeKind → Option TypeId
  | .pointer t | .reference t => some t
  | _ => none

namespace SymbolTable
variable {s : SymbolTable} {t u : TypeId}

def Contains (s : SymbolTable) (t u : TypeId) : Prop :=
  ∃ kind, s.typeKind t = .ok kind ∧ u ∈ kind.parts

def PointsTo (s : SymbolTable) (t u : TypeId) : Prop :=
  ∃ kind, s.typeKind t = .ok kind ∧ kind.target? = some u

/-- All types are known, no class contains itself, and no pointers go on for ever: a class ends a
chain of pointers. -/
structure Finite (s : SymbolTable) : Prop where
  known : ∀ t u, s.Contains t u ∨ s.PointsTo t u → u.index.toNat < s.types.size
  apart : ∀ t, ¬ TransGen s.Contains t t
  ends : ¬ ∃ chain : Nat → TypeId, ∀ n, s.PointsTo (chain n) (chain (n + 1))

/-- There is nothing to store in an object of the type. -/
inductive Hollow (s : SymbolTable) : TypeId → Prop
  | void {t : TypeId} (known : s.typeKind t = .ok .void) : Hollow s t
  | classType {t : TypeId} {c : ClassInfo} (known : s.typeKind t = .ok (.classType c))
    (plain : ¬ c.hasDispatchTable) (h : ∀ u ∈ c.base.toList ++ c.fields, Hollow s u) : Hollow s t

inductive Needs (s : SymbolTable) (t u : TypeId) : Prop
  | part (h : s.Contains t u)
  | pointee (h : s.PointsTo t u) (plain : ∀ c, s.typeKind u ≠ .ok (.classType c))

theorem contains_of_needs {c : ClassInfo} (h : TransGen s.Needs t u)
    (known : s.typeKind u = .ok (.classType c)) : TransGen s.Contains t u := by
  induction h generalizing c with
  | single h =>
    cases h with
    | part h => exact .single h
    | pointee _ plain => exact absurd known (plain c)
  | tail _ h ih =>
    cases h with
    | pointee _ plain => exact absurd known (plain c)
    | part h =>
      have ⟨kind, owner, mem⟩ := h
      cases kind with
      | classType c => exact (ih owner).tail h
      | _ => cases mem

namespace Finite

theorem acyclic (h : s.Finite) (t : TypeId) : ¬ TransGen s.Needs t t := by
  intro circle
  have wf : WellFounded fun u t => s.PointsTo t u :=
    wellFounded_iff_isEmpty_descending_chain.2 ⟨fun chain => h.ends ⟨chain.1, chain.2⟩⟩
  suffices ∀ u, (∀ c, s.typeKind u ≠ .ok (.classType c)) → ¬ TransGen s.Needs u t from
    this t (fun c known => h.apart t (contains_of_needs circle known)) circle
  intro u
  induction u using wf.induction with
  | _ u ih =>
    intro plain path
    obtain ⟨v, first, rest⟩ := TransGen.head'_iff.1 path
    cases first with
    | part part =>
      obtain ⟨kind, known, mem⟩ := part
      cases kind with
      | classType c => exact plain c known
      | _ => cases mem
    | pointee points plain =>
      rcases reflTransGen_iff_eq_or_transGen.1 rest with rfl | rest
      · exact ih _ points plain circle
      · exact ih v points plain rest

theorem exists_behind {n : Nat} (some : s.Needs t u → ∃ ty, s.codeTypeWithin n u = .ok ty)
    (points : s.PointsTo t u) (known : ∃ kind, s.typeKind u = .ok kind) :
    ∃ ty, s.Behind (fun u ty => s.codeTypeWithin n u = .ok ty) u ty := by
  obtain ⟨kind, known⟩ := known
  by_cases isClass : ∃ c, kind = .classType c
  · obtain ⟨c, rfl⟩ := isClass
    exact ⟨_, .classType known⟩
  · have plain : ∀ c, kind ≠ .classType c := fun c same => isClass ⟨c, same⟩
    obtain ⟨ty, h⟩ := some (.pointee points fun c other =>
      plain c (Except.ok.inj (known.symm.trans other)))
    by_cases void : kind = .void
    · exact ⟨_, .void (void ▸ known)⟩
    · exact ⟨ty, .other known void plain h⟩

theorem exists_typeKind (known : t.index.toNat < s.types.size) :
    ∃ kind, s.typeKind t = .ok kind := by
  unfold typeKind
  rw [Array.getElem?_eq_getElem known]
  exact ⟨_, rfl⟩

/-- The types on the way to a type are different ones, so the way is not longer than the table. -/
theorem exists_codeTypeWithin (h : s.Finite) {depth : Nat} {path : List TypeId}
    (known : t.index.toNat < s.types.size) (nodup : path.Nodup)
    (needed : ∀ p ∈ path, p.index.toNat < s.types.size ∧ TransGen s.Needs p t)
    (enough : s.types.size < depth + path.length) : ∃ ty, s.codeTypeWithin depth t = .ok ty := by
  induction depth generalizing t path with
  | zero =>
    have := length_le_of_nodup nodup fun p hp => (needed p hp).1
    omega
  | succ depth ih =>
    have fresh : t ∉ path := fun again => h.acyclic t (needed t again).2
    have next {u : TypeId} (needs : s.Needs t u) : ∃ ty, s.codeTypeWithin depth u = .ok ty := by
      have range : u.index.toNat < s.types.size := by
        cases needs with
        | part contains => exact h.known t u (.inl contains)
        | pointee points => exact h.known t u (.inr points)
      refine ih range (nodup_cons.2 ⟨fresh, nodup⟩) ?_ (by rw [length_cons]; omega)
      rw [forall_mem_cons]
      exact ⟨⟨known, .single needs⟩, fun p hp => ⟨(needed p hp).1, (needed p hp).2.tail needs⟩⟩
    obtain ⟨kind, kind_eq⟩ := exists_typeKind known
    suffices ∃ ty, s.Represents (fun u ty => s.codeTypeWithin depth u = .ok ty) kind ty by
      obtain ⟨ty, r⟩ := this
      exact ⟨ty, codeTypeWithin_iff.2 ⟨kind, kind_eq, r⟩⟩
    cases kind with
    | pointer u | reference u =>
      have points : s.PointsTo t u := ⟨_, kind_eq, rfl⟩
      obtain ⟨ty, behind⟩ := exists_behind next points (exists_typeKind (h.known t u (.inr points)))
      exact ⟨_, by constructor; exact behind⟩
    | classType c =>
      have part {u : TypeId} (mem : u ∈ c.base.toList ++ c.fields) := next (.part ⟨_, kind_eq, mem⟩)
      obtain ⟨base, hb⟩ := exists_forall₂ fun u hu => part (mem_append_left _ hu)
      obtain ⟨fields, hf⟩ := exists_forall₂ fun u hu => part (mem_append_right _ hu)
      exact ⟨_, .classType hb hf⟩
    | _ => exact ⟨_, by constructor⟩

end Finite

theorem codeTypeWithin_placed {n : Nat} {ty : Ty} (h : s.codeTypeWithin n t = .ok ty) :
    ty.Placed false ∧ (ty = .void → s.typeKind t = .ok .void) := by
  induction n generalizing t ty with
  | zero => cases h
  | succ n ih =>
    obtain ⟨kind, known, r⟩ := codeTypeWithin_iff.1 h
    cases r with
    | void => exact ⟨.void, fun _ => known⟩
    | pointer behind | reference behind =>
      refine ⟨.ptr _ ?_, nofun⟩
      cases behind with
      | void => exact .int _ _
      | classType => exact .named _
      | other known some _ h =>
        refine (ih h).1.toBehind fun void => some ?_
        exact Except.ok.inj (known.symm.trans ((ih h).2 void))
    | classType hb hf =>
      have placed {ts : List TypeId} {tys : List Ty}
          (h : List.Forall₂ (fun t ty => s.codeTypeWithin n t = .ok ty) ts tys) :
          ∀ ty ∈ tys, ty.Placed false :=
        (forall₂_forall_mem (p := fun _ => True) (q := Ty.Placed false)
          (fun _ _ h => ⟨fun _ => (ih h).1, fun _ => trivial⟩) h).1 fun _ _ => trivial
      refine ⟨.struct _ _ (ClassInfo.forall_mem_parts.2 ⟨placed hb, fun _ => ?_, placed hf⟩), nofun⟩
      exact .ptr _ (.ptr _ (.int _ _))
    | functionPointer => exact ⟨.ptr _ (.int _ _), nofun⟩
    | _ => exact ⟨by constructor, nofun⟩

theorem hollow_iff {kind : TypeKind} (known : s.typeKind t = .ok kind) : s.Hollow t ↔
    kind = .void ∨ ∃ c, kind = .classType c ∧ (∀ u ∈ c.base.toList, s.Hollow u) ∧
      ¬ c.hasDispatchTable ∧ ∀ u ∈ c.fields, s.Hollow u := by
  constructor
  · intro h
    cases h with
    | void known' => exact .inl (Except.ok.inj (known.symm.trans known'))
    | classType known' plain h =>
      obtain ⟨base, fields⟩ := forall_mem_append.1 h
      exact .inr ⟨_, Except.ok.inj (known.symm.trans known'), base, plain, fields⟩
  · rintro (rfl | ⟨c, rfl, base, plain, fields⟩)
    · exact .void known
    · exact .classType known plain (forall_mem_append.2 ⟨base, fields⟩)

theorem codeTypeWithin_size {n : Nat} {ty : Ty} (h : s.codeTypeWithin n t = .ok ty) :
    ty.size = 0 ↔ s.Hollow t := by
  induction n generalizing t ty with
  | zero => cases h
  | succ n ih =>
    obtain ⟨kind, known, r⟩ := codeTypeWithin_iff.1 h
    rw [hollow_iff known]
    cases r with
    | void => exact iff_of_true rfl (.inl rfl)
    | classType hb hf =>
      have same := fun t ty (h : s.codeTypeWithin n t = .ok ty) => (ih h).symm
      rw [Ty.size_struct_eq_zero, ClassInfo.forall_mem_parts, ← forall₂_forall_mem same hb,
        ← forall₂_forall_mem same hf]
      simp [Ty.size, Ty.layout, Ty.dispatchTable]
    | integer w | unsignedInteger w | float w =>
      cases w <;> simp [Ty.size, Ty.layout, IntWidth.bytes, FloatWidth.bytes]
    | _ => simp [Ty.size, Ty.layout, Ty.bool, Ty.bytePtr, IntWidth.bytes]

/-- In a finite table every type has a representation, which does not depend on how far is searched
for it. A name in it stands only directly behind a pointer, where `void` never stands. So a class
that is a base or a field counts with all its parts, and takes no room only if nothing in it
does. -/
theorem codeType_succeeds (h : s.Finite) (known : t.index.toNat < s.types.size) :
    ∃ ty, s.codeType t = .ok ty ∧ (∀ depth > s.types.size, s.codeTypeWithin depth t = .ok ty) ∧
      ty.Placed false ∧ s.sizeOf t = .ok ty.size ∧ (ty.size = 0 ↔ s.Hollow t) ∧
      ∀ c, s.classInfo t = .ok c → s.StructOf c ty ∧
        ∀ name parts, ty = .struct name parts → (parts.map Ty.size).sum ≤ ty.size := by
  obtain ⟨ty, found⟩ := h.exists_codeTypeWithin known nodup_nil (by simp)
    (Nat.lt_succ_self s.types.size)
  refine ⟨ty, found, fun depth more =>
    codeTypeWithin_mono found more, (codeTypeWithin_placed found).1,
    ?_, codeTypeWithin_size found, fun c hc => ⟨codeType_class hc found, ?_⟩⟩
  · change (s.codeType t).bind _ = _
    rw [show s.codeType t = .ok ty from found]
    rfl
  · rintro name parts rfl
    exact Ty.sum_size_le name parts

theorem mem_zipIdx_of_typeKind {kind : TypeKind} (h : s.typeKind t = .ok kind) :
    (kind, t.index.toNat) ∈ s.types.toList.zipIdx := by
  unfold typeKind at h
  split at h
  · rename_i found
    cases h
    rwa [mem_zipIdx_iff_getElem?, Array.getElem?_toList]
  · cases h

/-- A table is finite if objects contain only objects of earlier types, and pointers lead to what is
no pointer or an earlier type. -/
theorem Finite.of_order (order : ∀ entry ∈ s.types.toList.zipIdx,
    (∀ u ∈ entry.1.parts, u.index.toNat < entry.2) ∧ ∀ u ∈ entry.1.target?,
      u.index.toNat < s.types.size ∧ (u.index.toNat < entry.2 ∨
        ∀ kind ∈ s.types[u.index.toNat]?, kind.target? = none)) : s.Finite := by
  have contains {t u : TypeId} (h : s.Contains t u) : u.index.toNat < t.index.toNat := by
    obtain ⟨kind, known, mem⟩ := h
    exact (order _ (mem_zipIdx_of_typeKind known)).1 u mem
  refine ⟨fun t u h => ?_, fun t circle => ?_, fun ⟨chain, points⟩ => ?_⟩
  · rcases h with h | ⟨kind, known, target⟩
    · obtain ⟨kind, known, -⟩ := id h
      exact Nat.lt_trans (contains h) (lt_of_typeKind known)
    · exact ((order _ (mem_zipIdx_of_typeKind known)).2 u target).1
  · suffices ∀ {t u}, TransGen s.Contains t u → u.index.toNat < t.index.toNat from
      Nat.lt_irrefl _ (this circle)
    intro t u path
    induction path with
    | single h => exact contains h
    | tail _ h ih => exact Nat.lt_trans (contains h) ih
  · refine not_strictAnti_of_wellFoundedLT (fun n => (chain n).index.toNat)
      (strictAnti_nat_of_succ_lt fun n => ?_)
    obtain ⟨kind, known, target⟩ := points n
    obtain ⟨next, known', target'⟩ := points (n + 1)
    rcases ((order _ (mem_zipIdx_of_typeKind known)).2 _ target).2 with earlier | last
    · exact earlier
    · have found := mem_zipIdx_iff_getElem?.1 (mem_zipIdx_of_typeKind known')
      rw [Array.getElem?_toList] at found
      cases (last next found).symm.trans target'

def nodeSymbols : SymbolTable where
  types := #[.pointer ⟨4⟩, .reference ⟨0⟩, .bool,
    .classType ⟨"Tail", none, [⟨1⟩, ⟨2⟩], false, none⟩,
    .classType ⟨"Node", none, [⟨0⟩, ⟨3⟩], true, none⟩]
  functions := #[]
  vars := #[]

theorem node_succeeds : nodeSymbols.Finite ∧ ∃ ty, nodeSymbols.codeType ⟨4⟩ = .ok ty ∧
    ty.Placed false ∧ ty.size = 32 ∧ ¬ nodeSymbols.Hollow ⟨4⟩ := by
  have finite : nodeSymbols.Finite := .of_order (by decide)
  obtain ⟨ty, found, -, placed, size, hollow, -⟩ := codeType_succeeds finite (t := ⟨4⟩) (by decide)
  have room : ty.size = 32 := Except.ok.inj (size.symm.trans rfl)
  exact ⟨finite, ty, found, placed, room, fun h =>
    absurd (room.symm.trans (hollow.2 h)) (by decide)⟩

/-- `class Empty {}; class Outer { Empty empty; };` -/
def emptySymbols : SymbolTable where
  types := #[.classType ⟨"Empty", none, [], false, none⟩,
    .classType ⟨"Outer", none, [⟨0⟩], false, none⟩]
  functions := #[]
  vars := #[]

/-- A field of an empty class takes no room. -/
theorem emptyField_has_no_size : emptySymbols.Finite ∧ emptySymbols.Contains ⟨1⟩ ⟨0⟩ ∧
    emptySymbols.isClass ⟨0⟩ = .ok true ∧ emptySymbols.sizeOf ⟨1⟩ = .ok 0 :=
  ⟨.of_order (by decide), ⟨_, rfl, mem_cons_self⟩, rfl, rfl⟩

end SymbolTable
end Symbols
end FlatCode
