import FlatCode.Json.Value

/-! Reading data out of JSON values. A record is an object or the array of its fields in
order; a variant is its name alone or an object that maps the name to the content. -/
namespace FlatCode.Json

/-- The fields found for a record. -/
structure Record where
  /-- Whether the fields were given by name. -/
  keyed : Bool
  fields : List (String × Json)

def hasRepetition : List String → Bool
  | [] => false
  | s :: ss => ss.contains s || hasRepetition ss

def decodeKeys? (members : List (String × Json)) : Option (List (String × Json)) :=
  members.mapM fun (key, v) => (decodeText? key).map fun key => (key, v)

/-- Splits a value into the named fields. A name may come once only, other names are left
out, or refused when the record is `closed`. -/
def record? (names : List String) (closed : Bool) : Json → Option Record
  | .object members => do
    let members ← decodeKeys? members
    let known := members.filter fun m => names.contains m.1
    if hasRepetition (known.map Prod.fst) then none
    else if closed && known.length ≠ members.length then none
    else some ⟨true, known⟩
  | .array elements =>
    if elements.length ≤ names.length then some ⟨false, names.zip elements⟩ else none
  | _ => none

namespace Record

def required (r : Record) (name : String) (decode : Json → Option α) : Option α :=
  (r.fields.lookup name).bind decode

def defaulted (r : Record) (name : String) (default : α) (decode : Json → Option α) : Option α :=
  match r.fields.lookup name with
  | none => some default
  | some v => decode v

def decodeOptional (decode : Json → Option α) : Json → Option (Option α)
  | .null => some none
  | v => (decode v).map some

/-- A field that may be null. It may be left out only if the others are named. -/
def nullable (r : Record) (name : String) (decode : Json → Option α) : Option (Option α) :=
  match r.fields.lookup name with
  | none => if r.keyed then some none else none
  | some v => decodeOptional decode v

def optional (r : Record) (name : String) (decode : Json → Option α) : Option (Option α) :=
  r.defaulted name none (decodeOptional decode)

end Record

def variant? : Json → Option (String × Option Json)
  | .string s => (decodeText? s).map fun name => (name, none)
  | .object [(key, content)] => (decodeText? key).map fun name => (name, some content)
  | _ => none

def bool? : Json → Option Bool
  | .bool b => some b
  | _ => none

def natBelow? (limit : Nat) : Json → Option Nat
  | .number n => n.toNat?.filter (· < limit)
  | _ => none

def uint32? (v : Json) : Option UInt32 := (natBelow? UInt32.size v).map UInt32.ofNat

def uint64? (v : Json) : Option UInt64 := (natBelow? UInt64.size v).map UInt64.ofNat

def int64? : Json → Option Int64
  | .number n =>
    (n.toInt?.filter fun i => Int64.minValue.toInt ≤ i ∧ i ≤ Int64.maxValue.toInt).map Int64.ofInt
  | _ => none

def binary64? : Json → Option Binary64
  | .number n => n.toBinary64?
  | _ => none

def char? (v : Json) : Option Char := do
  match (← v.text?).toList with
  | [c] => some c
  | _ => none

end FlatCode.Json
