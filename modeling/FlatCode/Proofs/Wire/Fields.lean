import Mathlib.Order.MinMax
import FlatCode.Wire.Decode
import FlatCode.Wire.Encode
import FlatCode.Proofs.Json.Text

/-! The parts that trees and symbols are written with: identifiers, names, lists, records and
variants. What is written for them is read as them, if enough brackets may be opened. -/
namespace FlatCode
open List

variable {vs : List Json} {names : List String} {ms : List (String × Json)} {name : String}

namespace Json

mutual
def depth : Json → Nat
  | .array vs => elementDepth vs + 1
  | .object ms => memberDepth ms + 1
  | .null | .bool _ | .number _ | .string _ => 0
def elementDepth : List Json → Nat
  | [] => 0
  | v :: vs => max v.depth (elementDepth vs)
def memberDepth : List (String × Json) → Nat
  | [] => 0
  | (_, v) :: ms => max v.depth (memberDepth ms)
end

theorem elementDepth_le {n : Nat} : elementDepth vs ≤ n ↔ ∀ v ∈ vs, v.depth ≤ n := by
  induction vs with
  | nil => simp [elementDepth]
  | cons v vs ih => simp [elementDepth, ih]

@[simp] theorem depth_array (vs : List Json) : depth (.array vs) = elementDepth vs + 1 := rfl

@[simp] theorem depth_record (ms : List (String × Json)) :
    (record ms).depth = memberDepth ms + 1 := rfl

attribute [simp] memberDepth Record.required Record.nullable Record.defaulted Record.optional

@[simp] theorem depth_ofText (s : String) : (ofText s).depth = 0 := rfl

@[simp] theorem depth_ofNat (n : Nat) : (ofNat n).depth = 0 := rfl

@[simp] theorem depth_ofInt (n : Int) : (Json.ofInt n).depth = 0 := rfl

@[simp] theorem depth_bool (b : Bool) : (Json.bool b).depth = 0 := rfl

@[simp] theorem depth_null : Json.null.depth = 0 := rfl

def isHeader (names : List String) : Bool := names.all isPlain && !hasRepetition names

theorem decodeKeys?_of_isPlain (ms : List (String × Json)) (h : (ms.map Prod.fst).all isPlain) :
    decodeKeys? ms = some ms := by
  induction ms with
  | nil => rfl
  | cons m ms ih =>
    simp only [map_cons, all_cons, Bool.and_eq_true] at h
    have rest := ih h.2
    unfold decodeKeys? at rest ⊢
    simp [decodeText?_of_isPlain h.1, rest]

theorem record?_some (keys : List String) (same : ms.map Prod.fst = keys)
    (header : isHeader keys && keys.all names.contains) :
    record? names false (record ms) = some ⟨true, ms⟩ := by
  subst same
  simp only [isHeader, Bool.and_eq_true, Bool.not_eq_true', all_map, all_eq_true] at header
  obtain ⟨⟨plain, once⟩, known⟩ := header
  have keys := decodeKeys?_of_isPlain ms (by simpa using plain)
  have all : (ms.filter fun m => names.contains m.1) = ms := filter_eq_self.2 known
  simp only [record?, record, keys, Option.bind_eq_bind, Option.bind_some, all, once]
  rfl

theorem record?_record (same : ms.map Prod.fst = names) (header : isHeader names) :
    record? names false (record ms) = some ⟨true, ms⟩ :=
  record?_some names same (by simp [header])

@[simp] theorem spelled_ofText (s : String) : (ofText s).Spelled :=
  ⟨s.toList, String.toList_ofList⟩

@[simp] theorem spelled_ofNat (n : Nat) : (ofNat n).Spelled := Numeral.proper_toDigits false n

@[simp] theorem spelled_ofInt (n : Int) : (ofInt n).Spelled := Numeral.proper_toDigits _ _

@[simp] theorem spelled_bool (b : Bool) : (Json.bool b).Spelled := trivial

@[simp] theorem spelled_null : Json.null.Spelled := trivial

theorem spelled_array : (Json.array vs).Spelled ↔ ∀ v ∈ vs, v.Spelled := by
  induction vs with
  | nil => simp [Spelled, AllSpelled]
  | cons v vs ih => simpa [Spelled, AllSpelled] using fun _ => ih

theorem spelled_record (values : ∀ m ∈ ms, m.2.Spelled)
    (plain : (ms.map Prod.fst).all isPlain := by simp only [List.map]; decide) :
    (record ms).Spelled := by
  induction ms with
  | nil => trivial
  | cons m ms ih =>
    simp only [map_cons, all_cons, Bool.and_eq_true] at plain
    exact ⟨spelling_of_isPlain plain.1, values m mem_cons_self,
      ih (fun m' hm => values m' (mem_cons_of_mem _ hm)) plain.2⟩

@[simp] theorem uint32?_ofNat (i : UInt32) : uint32? (ofNat i.toNat) = some i := by
  simp [uint32?, natBelow?, ofNat, i.toNat_lt]

@[simp] theorem uint64?_ofNat (i : UInt64) : uint64? (ofNat i.toNat) = some i := by
  simp [uint64?, natBelow?, ofNat, i.toNat_lt]

@[simp] theorem int64?_ofInt (i : Int64) : int64? (.ofInt i.toInt) = some i := by
  have low := i.minValue_le_toInt
  have high := i.toInt_le
  simpa [int64?, ofInt, high] using low

@[simp] theorem variant?_ofText (name : String) : variant? (ofText name) = some (name, none) := by
  have := text?_ofText name
  simp only [text?, ofText] at this
  simp [variant?, ofText, this]

theorem variant?_record (plain : isPlain name) (content : Json) :
    variant? (record [(name, content)]) = some (name, some content) := by
  simp [variant?, record, decodeText?_of_isPlain plain]

end Json

namespace Binary64

/-- Written as a numeral, the number is read as itself. -/
def ReadsBack (x : Binary64) : Prop := Json.binary64? (Wire.Encode.binary64 x) = some x

instance (x : Binary64) : Decidable x.ReadsBack := inferInstanceAs (Decidable (_ = _))

end Binary64

namespace Wire

variable {write : α → Json} {as : List α} {decode : Decoder α} {P : Prop} {a : α}

@[simp] theorem depth_typeId (t : TypeId) : (Encode.typeId t).depth = 0 := rfl

@[simp] theorem depth_functionId (f : FunctionId) : (Encode.functionId f).depth = 0 := rfl

@[simp] theorem depth_variableId (v : VariableId) : (Encode.variableId v).depth = 0 := rfl

@[simp] theorem depth_binary64 (x : Binary64) : (Encode.binary64 x).depth = 0 := by
  unfold Encode.binary64
  split <;> rfl

@[simp] theorem typeId_encode (t : TypeId) : typeId (Encode.typeId t) = some t := by
  simp [typeId, Encode.typeId]

@[simp] theorem functionId_encode (f : FunctionId) : functionId (Encode.functionId f) = some f := by
  simp [functionId, Encode.functionId]

@[simp] theorem variableId_encode (v : VariableId) : variableId (Encode.variableId v) = some v := by
  simp [variableId, Encode.variableId]

theorem mapM_map_eq_some {decode : Json → Option α} :
    (as.map write).mapM decode = some as ↔ ∀ a ∈ as, decode (write a) = some a := by
  induction as with
  | nil => simp
  | cons a as ih => simpa [mapM_cons, Option.bind_eq_some_iff] using fun _ => ih

@[simp] theorem listOf_zero (decode : Decoder α) (v : Json) : listOf decode 0 v = none := rfl

theorem listOf_succ {n : Nat} :
    listOf decode (n + 1) (Encode.listOf write as) = some as ↔
      ∀ a ∈ as, decode n (write a) = some a :=
  mapM_map_eq_some

@[simp] theorem depth_listOf (write : α → Json) (as : List α) :
    (Encode.listOf write as).depth = Json.elementDepth (as.map write) + 1 := rfl

theorem listOf_encode {P : α → Prop} (as : List α)
    (each : ∀ a ∈ as, ∀ n, decode n (write a) = some a ↔ (write a).depth ≤ n ∧ P a) (n : Nat) :
    listOf decode n (Encode.listOf write as) = some as ↔
      (Encode.listOf write as).depth ≤ n ∧ ∀ a ∈ as, P a := by
  cases n with
  | zero => simp
  | succ n =>
    rw [listOf_succ, depth_listOf, Nat.succ_le_succ_iff, Json.elementDepth_le,
      forall_mem_map, ← forall₂_and]
    exact forall₂_congr fun a ha => each a ha n

theorem flatListOf_encode {decode : Json → Option α} (each : ∀ a, decode (write a) = some a)
    (as : List α) (n : Nat) :
    flatListOf decode n (Encode.listOf write as) = if n = 0 then none else some as := by
  cases n with
  | zero => rfl
  | succ n => exact listOf_succ.2 fun a _ => each a

theorem elementDepth_flat (flat : ∀ a, (write a).depth = 0) (as : List α) :
    Json.elementDepth (as.map write) = 0 := by
  refine Nat.le_zero.1 (Json.elementDepth_le.2 ?_)
  simp [flat]

theorem decodeOptional_encode (decode : Json → Option α) (solid : ∀ a, write a ≠ .null)
    (o : Option α) :
    Json.Record.decodeOptional decode (Json.optional write o) = some o ↔
      ∀ a ∈ o, decode (write a) = some a := by
  cases o with
  | none => simp [Json.optional, Json.Record.decodeOptional]
  | some a =>
    simp only [Json.optional, Option.mem_some_iff, forall_eq']
    unfold Json.Record.decodeOptional
    split
    · rename_i null
      exact absurd null (solid a)
    · simp

theorem array_encode {D : Decoder (List α)}
    (inner : ∀ n, vs.mapM (decode n) = some as ↔ Json.elementDepth vs ≤ n ∧ P) (n : Nat)
    (closed : ∀ vs, D 0 (.array vs) = none := by intro; rfl)
    (opens : ∀ n vs, D (n + 1) (.array vs) = vs.mapM (decode n) := by intros; rfl) :
    D n (.array vs) = some as ↔ (Json.array vs).depth ≤ n ∧ P := by
  cases n with
  | zero => simp [closed]
  | succ n => simp [opens, inner]

theorem fields_encode {D : Decoder α} {decode : Nat → Json.Record → Option α}
    (closed : ∀ v, D 0 v = none)
    (opens : ∀ n v, D (n + 1) v = (Json.record? names false v).bind (decode n))
    (same : ms.map Prod.fst = names) (header : Json.isHeader names)
    (inner : ∀ n, decode n ⟨true, ms⟩ = some a ↔ Json.memberDepth ms ≤ n ∧ P) (n : Nat) :
    D n (Json.record ms) = some a ↔ (Json.record ms).depth ≤ n ∧ P := by
  cases n with
  | zero => simp [closed]
  | succ n => simp [opens, Json.record?_record same header, inner]

theorem recordOf_encode {decode : Nat → Json.Record → Option α} (same : ms.map Prod.fst = names)
    (header : Json.isHeader names)
    (inner : ∀ n, decode n ⟨true, ms⟩ = some a ↔ Json.memberDepth ms ≤ n ∧ P) (n : Nat) :
    recordOf names decode n (Json.record ms) = some a ↔ (Json.record ms).depth ≤ n ∧ P :=
  fields_encode (fun _ => rfl) (fun _ _ => rfl) same header inner n

@[simp] theorem variantOf_ofText (plain : String → Option α)
    (withContent : Nat → String → Json → Option α) (n : Nat) (name : String) :
    variantOf plain withContent n (Json.ofText name) = plain name := by
  simp [variantOf]

@[simp] theorem depth_variant (name : String) (content : Json) :
    (Encode.variant name content).depth = content.depth + 1 := by
  simp [Encode.variant]

theorem variantOf_encode {plain : String → Option α} {withContent : Nat → String → Json → Option α}
    (named : Json.isPlain name) (full : plain name = none) {content : Json}
    (inner : ∀ n, withContent n name content = some a ↔ content.depth ≤ n ∧ P) (n : Nat) :
    variantOf plain withContent n (Encode.variant name content) = some a ↔
      (Encode.variant name content).depth ≤ n ∧ P := by
  cases n with
  | zero => simp [variantOf, Encode.variant, Json.variant?_record named]
  | succ n => simp [variantOf, Encode.variant, Json.variant?_record named, full, inner]

section Flat
/-! Parts without floats are read as themselves wherever their brackets may be opened. -/

theorem listOf_depth (each : ∀ a n, decode n (write a) = some a ↔ (write a).depth ≤ n) (as : List α)
    (n : Nat) :
    listOf decode n (Encode.listOf write as) = some as ↔ (Encode.listOf write as).depth ≤ n := by
  have := listOf_encode (P := fun _ => True) as (fun a _ n => by simpa using each a n) n
  simpa only [implies_true, and_true] using this

theorem recordOf_depth {decode : Nat → Json.Record → Option α} (same : ms.map Prod.fst = names)
    (header : Json.isHeader names)
    (inner : ∀ n, decode n ⟨true, ms⟩ = some a ↔ Json.memberDepth ms ≤ n) (n : Nat) :
    recordOf names decode n (Json.record ms) = some a ↔ (Json.record ms).depth ≤ n := by
  have := recordOf_encode (P := True) same header
    (fun n => by simpa only [and_true] using inner n) n
  simpa only [and_true] using this

theorem variantOf_depth {plain : String → Option α} {withContent : Nat → String → Json → Option α}
    (named : Json.isPlain name) (full : plain name = none) {content : Json}
    (inner : ∀ n, withContent n name content = some a ↔ content.depth ≤ n) (n : Nat) :
    variantOf plain withContent n (Encode.variant name content) = some a ↔
      (Encode.variant name content).depth ≤ n := by
  have := variantOf_encode (P := True) named full
    (fun n => by simpa only [and_true] using inner n) n
  simpa only [and_true] using this

end Flat

end Wire

end FlatCode
