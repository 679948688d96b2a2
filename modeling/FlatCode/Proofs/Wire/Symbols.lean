import FlatCode.Proofs.Wire.Fields

/-! Literals and symbols are read as they are written. Symbols never open more than five brackets,
and they hold no floats. -/
namespace FlatCode

namespace Ast

def Literal.floats : Literal → List Binary64
  | .float x => [x]
  | .bool _ | .char _ | .signed _ | .unsigned _ | .null => []

end Ast

namespace Wire
open Symbols Ast

theorem literal_encode (l : Literal) (n : Nat) : literal n (Encode.literal l) = some l ↔
    (Encode.literal l).depth ≤ n ∧ ∀ x ∈ l.floats, x.ReadsBack := by
  cases l with
  | null => simp [literal, Encode.literal, Literal.floats]
  | bool b =>
    exact variantOf_encode (by decide) rfl (fun n => by simp [Json.bool?, Literal.floats]) n
  | char | signed | unsigned =>
    exact variantOf_encode (by decide) rfl (fun n => by simp [Literal.floats]) n
  | float x =>
    exact variantOf_encode (by decide) rfl (fun n => by simp [Literal.floats, Binary64.ReadsBack]) n

@[simp] theorem operator_encode (op : Operator) (n : Nat) :
    operator n (Json.ofText op.name) = some op := by
  rw [operator, nameOf, variantOf_ofText]
  cases op <;> decide

@[simp] theorem signedWidth_encode (w : IntWidth) (n : Nat) :
    nameOf IntWidth.ofSignedName? n (Json.ofText w.signedName) = some w := by
  rw [nameOf, variantOf_ofText]
  cases w <;> decide

@[simp] theorem unsignedWidth_encode (w : IntWidth) (n : Nat) :
    nameOf IntWidth.ofUnsignedName? n (Json.ofText w.unsignedName) = some w := by
  rw [nameOf, variantOf_ofText]
  cases w <;> decide

@[simp] theorem floatWidth_encode (w : FloatWidth) (n : Nat) :
    nameOf FloatWidth.ofName? n (Json.ofText w.name) = some w := by
  rw [nameOf, variantOf_ofText]
  cases w <;> decide

theorem optional_encode {α : Type} (decode : Json → Option α) {write : α → Json}
    (each : ∀ a, decode (write a) = some a) (solid : ∀ a, write a ≠ .null) (o : Option α) :
    Json.Record.decodeOptional decode (Json.optional write o) = some o :=
  (decodeOptional_encode decode solid o).2 fun a _ => each a

theorem depth_optional {write : α → Json} (flat : ∀ a, (write a).depth = 0) (o : Option α) :
    (Json.optional write o).depth = 0 := by
  cases o with
  | none => rfl
  | some a => exact flat a

theorem classInfo_encode (c : ClassInfo) (n : Nat) :
    classInfo n (Encode.classInfo c) = some c ↔ (Encode.classInfo c).depth ≤ n := by
  refine recordOf_depth (by rfl) (by decide) (fun n => ?_) n
  have base := optional_encode typeId typeId_encode (fun _ => nofun) c.base
  have destructor := optional_encode functionId functionId_encode (fun _ => nofun)
    c.destructor
  have flat := elementDepth_flat depth_typeId c.fields
  cases n <;> simp [List.lookup_cons,
    base, destructor, flatListOf_encode typeId_encode, Json.bool?, flat,
    depth_optional depth_typeId, depth_optional depth_functionId]

theorem typeKind_encode (k : TypeKind) (n : Nat) :
    typeKind n (Encode.typeKind k) = some k ↔ (Encode.typeKind k).depth ≤ n := by
  cases k with
  | void | bool | char | functionPointer => simp [typeKind, Encode.typeKind]
  | integer | unsignedInteger | float | pointer | reference =>
    exact variantOf_depth (by decide) rfl (fun n => by simp) n
  | classType c =>
    exact variantOf_depth (by decide) rfl (fun n => by simp [classInfo_encode]) n

theorem functionSymbol_encode (f : FunctionSymbol) (n : Nat) :
    functionSymbol n (Encode.functionSymbol f) = some f ↔
      (Encode.functionSymbol f).depth ≤ n := by
  refine recordOf_depth (by rfl) (by decide) (fun n => ?_) n
  have op := optional_encode (operator n) (fun op => operator_encode op n) (fun _ => nofun)
    f.operator
  have slot := optional_encode Json.uint32? Json.uint32?_ofNat (fun _ => nofun) f.dispatchSlot
  have owner := optional_encode typeId typeId_encode (fun _ => nofun) f.owner
  simp [List.lookup_cons, Json.bool?,
    op, slot, owner, depth_optional depth_typeId, depth_optional (fun op => Json.depth_ofText _),
    depth_optional (fun slot => Json.depth_ofNat _)]

theorem variableSymbol_encode (v : VariableSymbol) (n : Nat) :
    variableSymbol n (Encode.variableSymbol v) = some v ↔
      (Encode.variableSymbol v).depth ≤ n := by
  exact recordOf_depth (by rfl) (by decide) (fun n => by simp [List.lookup_cons]) n

theorem symbolTable_encode (s : SymbolTable) (n : Nat) :
    symbolTable n (Encode.symbolTable s) = some s ↔ (Encode.symbolTable s).depth ≤ n := by
  refine recordOf_depth (by rfl) (by decide) (fun n => ?_) n
  obtain ⟨⟨types⟩, ⟨functions⟩, ⟨vars⟩⟩ := s
  have ht := listOf_depth typeKind_encode types n
  have hf := listOf_depth functionSymbol_encode functions n
  have hv := listOf_depth variableSymbol_encode vars n
  simp [List.lookup_cons, Option.bind_eq_some_iff, -depth_listOf, ht, hf, hv]

end Wire
end FlatCode
