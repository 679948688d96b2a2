import Mathlib.Data.List.Forall2
import Mathlib.Data.List.Nodup
import Mathlib.Data.List.Perm.Subperm
import FlatCode.Proofs.Balance.Function

/-! The structs of classes and the places in them. The type of a class is built in one place, and
fields, bases and dispatch tables are found in it by indices that are counted elsewhere. They
agree: every index leads to the part that it is meant for. -/
namespace FlatCode
open Code Symbols List
variable {c : ClassInfo} {t : TypeId}

theorem mapM_eq_ok_iff {f : α → Except Error β} {as : List α} {bs : List β} :
    as.mapM f = .ok bs ↔ List.Forall₂ (fun a b => f a = .ok b) as bs := by
  induction as generalizing bs with
  | nil => cases bs <;> simp [pure, Except.pure]
  | cons a as ih =>
    cases first : f a with
    | error e => cases bs <;> simp [bind, Except.bind, first]
    | ok b =>
      cases rest : as.mapM f <;> cases bs <;>
        simp [bind, Except.bind, pure, Except.pure, first, rest, ← ih]

namespace Symbols

variable {n : Nat}

def ClassInfo.table (c : ClassInfo) : List Ty := if c.hasDispatchTable then [.dispatchTable] else []

namespace SymbolTable
variable (s : SymbolTable)

inductive Behind (represent : TypeId → Ty → Prop) (t : TypeId) : Ty → Prop
  | void (known : s.typeKind t = .ok .void) : Behind represent t (.int .w8)
  | classType {info : ClassInfo} (known : s.typeKind t = .ok (.classType info)) :
    Behind represent t (.named info.name)
  | other {kind : TypeKind} {ty : Ty} (known : s.typeKind t = .ok kind) (some : kind ≠ .void)
    (plain : ∀ info, kind ≠ .classType info) (h : represent t ty) : Behind represent t ty

/-- The type of a kind, where `represent` tells the types of its parts. -/
inductive Represents (represent : TypeId → Ty → Prop) : TypeKind → Ty → Prop
  | void : Represents represent .void .void
  | bool : Represents represent .bool .bool
  | char : Represents represent .char (.int .w32)
  | integer (w : IntWidth) : Represents represent (.integer w) (.int w)
  | unsignedInteger (w : IntWidth) : Represents represent (.unsignedInteger w) (.int w)
  | float (w : FloatWidth) : Represents represent (.float w) (.float w)
  | pointer {t : TypeId} {ty : Ty} (h : s.Behind represent t ty) :
    Represents represent (.pointer t) (.ptr ty)
  | reference {t : TypeId} {ty : Ty} (h : s.Behind represent t ty) :
    Represents represent (.reference t) (.ptr ty)
  | functionPointer : Represents represent .functionPointer .bytePtr
  | classType {info : ClassInfo} {base fields : List Ty}
    (hb : List.Forall₂ represent info.base.toList base)
    (hf : List.Forall₂ represent info.fields fields) :
    Represents represent (.classType info)
      (.struct (some info.name) (base ++ info.table ++ fields))

variable {s} {t : TypeId} {kind : TypeKind} {ty : Ty} {represent represent' : TypeId → Ty → Prop}

theorem Behind.mono (h : s.Behind represent t ty)
    (weaken : ∀ t ty, represent t ty → represent' t ty) :
    s.Behind represent' t ty := by
  cases h with
  | void known => exact .void known
  | classType known => exact .classType known
  | other known some plain h => exact .other known some plain (weaken _ _ h)

theorem Represents.mono (h : s.Represents represent kind ty)
    (weaken : ∀ t ty, represent t ty → represent' t ty) : s.Represents represent' kind ty := by
  cases h with
  | pointer h => exact .pointer (h.mono weaken)
  | reference h => exact .reference (h.mono weaken)
  | classType hb hf => exact .classType (hb.imp weaken) (hf.imp weaken)
  | _ => constructor

theorem pointeeBy_iff {f : TypeId → Except Error Ty} :
    s.pointeeBy f t = .ok ty ↔ s.Behind (fun t ty => f t = .ok ty) t ty := by
  constructor
  · intro h
    cases known : s.typeKind t with
    | error e => simp [pointeeBy, known, bind, Except.bind] at h
    | ok kind =>
      cases kind <;> simp only [pointeeBy, known, bind, Except.bind] at h
      case void =>
        cases h
        exact .void known
      case classType info =>
        cases h
        exact .classType known
      all_goals exact .other known nofun nofun h
  · intro h
    cases h with
    | void known | classType known => simp [pointeeBy, known, bind, Except.bind, pure, Except.pure]
    | @other kind ty known some plain h =>
      simp only [pointeeBy, known, bind, Except.bind]
      cases kind
      case void => exact absurd rfl some
      case classType info => exact absurd rfl (plain info)
      all_goals exact h

theorem codeTypeWithin_iff : s.codeTypeWithin (n + 1) t = .ok ty ↔
    ∃ kind, s.typeKind t = .ok kind ∧
      s.Represents (fun t ty => s.codeTypeWithin n t = .ok ty) kind ty := by
  constructor
  · intro h
    cases known : s.typeKind t with
    | error e => simp [codeTypeWithin, known, bind, Except.bind] at h
    | ok kind =>
      refine ⟨kind, rfl, ?_⟩
      cases kind <;> simp only [codeTypeWithin, known, bind, Except.bind] at h
      case pointer inner | reference inner =>
        split at h
        · cases h
        · rename_i behind
          cases h
          first
          | exact .pointer (pointeeBy_iff.1 behind)
          | exact .reference (pointeeBy_iff.1 behind)
      case classType info =>
        split at h
        · cases h
        · rename_i base
          split at h
          · cases h
          · rename_i fields
            cases h
            exact .classType (mapM_eq_ok_iff.1 base) (mapM_eq_ok_iff.1 fields)
      all_goals
        cases h
        constructor
  · rintro ⟨kind, known, h⟩
    cases h <;> simp only [codeTypeWithin, known, bind, Except.bind]
    case pointer h | reference h =>
      rw [pointeeBy_iff.2 h]
      rfl
    case classType hb hf =>
      rw [mapM_eq_ok_iff.2 hb, mapM_eq_ok_iff.2 hf]
      rfl
    all_goals rfl

theorem codeTypeWithin_mono {m : Nat} (h : s.codeTypeWithin n t = .ok ty) (le : n ≤ m) :
    s.codeTypeWithin m t = .ok ty := by
  induction n generalizing m t ty with
  | zero => cases h
  | succ n ih =>
    obtain ⟨m, rfl⟩ : ∃ k, m = k + 1 := ⟨m - 1, by omega⟩
    rw [codeTypeWithin_iff] at h ⊢
    obtain ⟨kind, known, r⟩ := h
    exact ⟨kind, known, r.mono fun t ty h => ih h (by omega)⟩

theorem codeType_represents (h : s.codeType t = .ok ty) : ∃ kind, s.typeKind t = .ok kind ∧
    s.Represents (fun t ty => s.codeType t = .ok ty) kind ty := by
  obtain ⟨kind, known, r⟩ := codeTypeWithin_iff.1 h
  exact ⟨kind, known, r.mono fun t ty h => codeTypeWithin_mono h (Nat.le_succ _)⟩

theorem classInfo_iff {info : ClassInfo} :
    s.classInfo t = .ok info ↔ s.typeKind t = .ok (.classType info) := by
  cases known : s.typeKind t with
  | error e => simp [classInfo, known, bind, Except.bind]
  | ok kind =>
    cases kind <;> simp [classInfo, known, bind, Except.bind, pure, Except.pure, throw, throwThe,
      MonadExceptOf.throw]

/-- The parts of a class: its base, its table pointer and its fields. -/
def StructOf (s : SymbolTable) (c : ClassInfo) (ty : Ty) : Prop :=
  ∃ base fields, ty = .struct (some c.name) (base ++ c.table ++ fields) ∧
    List.Forall₂ (fun t ty => s.codeType t = .ok ty) c.base.toList base ∧
    List.Forall₂ (fun t ty => s.codeType t = .ok ty) c.fields fields

theorem codeType_class (known : s.classInfo t = .ok c) (h : s.codeType t = .ok ty) :
    s.StructOf c ty := by
  obtain ⟨kind, kind_eq, r⟩ := codeType_represents h
  cases kind_eq.symm.trans (classInfo_iff.1 known)
  cases r with
  | classType hb hf => exact ⟨_, _, rfl, hb, hf⟩

end SymbolTable

def TypeKind.object (t : TypeId) : TypeKind → TypeId
  | .pointer inner | .reference inner => inner
  | _ => t

inductive Lineage (s : SymbolTable) : TypeId → List ClassInfo → Prop
  | root {t : TypeId} {c : ClassInfo} (known : s.classInfo t = .ok c) (none : c.base = none) :
    Lineage s t [c]
  | derived {t base : TypeId} {c : ClassInfo} {classes : List ClassInfo}
    (known : s.classInfo t = .ok c) (some : c.base = some base) (h : Lineage s base classes) :
    Lineage s t (c :: classes)

theorem length_le_of_nodup {ids : List TypeId} (nodup : ids.Nodup)
    (inRange : ∀ t ∈ ids, t.index.toNat < n) : ids.length ≤ n := by
  have inj : Function.Injective fun t : TypeId => t.index.toNat := by
    rintro ⟨a⟩ ⟨b⟩ h
    exact congrArg TypeId.mk (UInt32.toNat_inj.1 h)
  have within : ids.map (fun t => t.index.toNat) ⊆ List.range n := by
    intro k hk
    obtain ⟨t, ht, rfl⟩ := mem_map.1 hk
    exact mem_range.2 (inRange t ht)
  simpa using (subperm_of_subset (nodup.map inj) within).length_le

theorem SymbolTable.lt_of_typeKind {s : SymbolTable} {kind : TypeKind}
    (h : s.typeKind t = .ok kind) : t.index.toNat < s.types.size := by
  unfold SymbolTable.typeKind at h
  split at h
  · rename_i found
    exact (Array.getElem?_eq_some_iff.1 found).1
  · cases h

namespace SymbolTable
variable {s : SymbolTable} {t : TypeId} {ty : Ty}

/-- A type that is not found with fewer steps leads through as many types as there are steps. All
but the first are found with fewer, so they are different. -/
theorem exists_chain (h : s.codeTypeWithin (n + 1) t = .ok ty)
    (late : s.codeTypeWithin n t ≠ .ok ty) : ∃ ids : List TypeId, ids.length = n + 1 ∧ ids.Nodup ∧
      ∀ u ∈ ids, u.index.toNat < s.types.size ∧ ∃ ty, s.codeTypeWithin (n + 1) u = .ok ty := by
  induction n generalizing t ty with
  | zero =>
    obtain ⟨kind, known, -⟩ := codeTypeWithin_iff.1 h
    exact ⟨[t], rfl, nodup_singleton t, by simpa using ⟨lt_of_typeKind known, ty, h⟩⟩
  | succ n ih =>
    obtain ⟨kind, known, r⟩ := codeTypeWithin_iff.1 h
    obtain ⟨u, part, found, late'⟩ : ∃ u part, s.codeTypeWithin (n + 1) u = .ok part ∧
        s.codeTypeWithin n u ≠ .ok part := by
      by_contra none
      push Not at none
      exact late (codeTypeWithin_iff.2 ⟨kind, known, r.mono none⟩)
    obtain ⟨ids, length, nodup, each⟩ := ih found late'
    refine ⟨t :: ids, by simp [length], nodup_cons.2 ⟨fun again => ?_, nodup⟩, ?_⟩
    · obtain ⟨-, ty', early⟩ := each t again
      have same := (codeTypeWithin_mono early (Nat.le_succ _)).symm.trans h
      cases same
      exact late early
    · refine forall_mem_cons.2 ⟨⟨lt_of_typeKind known, ty, h⟩, fun w hw => ?_⟩
      obtain ⟨inRange, ty', early⟩ := each w hw
      exact ⟨inRange, ty', codeTypeWithin_mono early (Nat.le_succ _)⟩

theorem codeTypeWithin_types (h : s.codeTypeWithin n t = .ok ty) :
    s.codeTypeWithin s.types.size t = .ok ty := by
  induction n with
  | zero => cases h
  | succ n ih =>
    by_cases late : s.codeTypeWithin n t = .ok ty
    · exact ih late
    · obtain ⟨ids, length, nodup, each⟩ := exists_chain h late
      have bound := length_le_of_nodup nodup fun u hu => (each u hu).1
      exact codeTypeWithin_mono h (length ▸ bound)

theorem codeType_iff : s.codeType t = .ok ty ↔ ∃ kind, s.typeKind t = .ok kind ∧
    s.Represents (fun t ty => s.codeType t = .ok ty) kind ty := by
  refine ⟨codeType_represents, fun ⟨kind, known, r⟩ => codeTypeWithin_iff.2 ⟨kind, known, ?_⟩⟩
  exact r.mono fun t ty h => codeTypeWithin_types h

end SymbolTable

namespace Lineage
variable {s : SymbolTable} {t : TypeId} {classes classes' : List ClassInfo}

theorem unique (h : Lineage s t classes) (h' : Lineage s t classes') : classes = classes' := by
  induction h generalizing classes' with
  | root known none =>
    cases h' with
    | root known' _ => cases known.symm.trans known'; rfl
    | derived known' some _ =>
      cases known.symm.trans known'
      cases none.symm.trans some
  | derived known some _ ih =>
    cases h' with
    | root known' none =>
      cases known.symm.trans known'
      cases some.symm.trans none
    | derived known' some' h' =>
      cases known.symm.trans known'
      cases some.symm.trans some'
      rw [ih h']

theorem exists_classInfo (h : Lineage s t classes) : ∃ c, s.classInfo t = .ok c := by
  cases h with
  | root known _ | derived known _ _ => exact ⟨_, known⟩

theorem inRange (h : Lineage s t classes) : t.index.toNat < s.types.size := by
  obtain ⟨c, known⟩ := h.exists_classInfo
  exact SymbolTable.lt_of_typeKind (SymbolTable.classInfo_iff.1 known)

theorem length_le (h : Lineage s t classes) : classes.length ≤ s.types.size := by
  suffices ∃ ids : List TypeId, ids.length = classes.length ∧ ids.Nodup ∧
      ∀ u ∈ ids, ∃ l, Lineage s u l ∧ l.length ≤ classes.length by
    obtain ⟨ids, length, nodup, lines⟩ := this
    rw [← length]
    refine length_le_of_nodup nodup fun u hu => ?_
    obtain ⟨l, hl, -⟩ := lines u hu
    exact hl.inRange
  induction h with
  | @root t _ known none => exact ⟨[t], rfl, by simp, by simpa using ⟨_, .root known none, by simp⟩⟩
  | @derived t base c classes known some h ih =>
    obtain ⟨ids, length, nodup, lines⟩ := ih
    have whole : Lineage s t (c :: classes) := .derived known some h
    refine ⟨t :: ids, by simp [length], nodup_cons.2 ⟨fun again => ?_, nodup⟩, fun u hu => ?_⟩
    · obtain ⟨l, hl, short⟩ := lines t again
      rw [← whole.unique hl, length_cons] at short
      omega
    · rcases mem_cons.1 hu with rfl | hu
      · exact ⟨_, whole, Nat.le_refl _⟩
      · obtain ⟨l, hl, short⟩ := lines u hu
        exact ⟨l, hl, Nat.le_succ_of_le short⟩

end Lineage
end Symbols

def Code.Ty.follow : Ty → List Nat → Option Ty
  | ty, [] => some ty
  | .struct _ fields, i :: is => fields[i]?.bind fun ty => ty.follow is
  | _, _ :: _ => none

theorem Code.Ty.follow_append : ∀ (is js : List Nat) (ty : Ty),
    ty.follow (is ++ js) = (ty.follow is).bind fun ty => ty.follow js
  | [], _, _ => by simp [follow]
  | i :: is, js, .struct _ fields => by
    rw [cons_append, follow, follow]
    cases fields[i]? with
    | none => rfl
    | some ty => exact follow_append is js ty
  | _ :: _, _, .void | _ :: _, _, .int _ | _ :: _, _, .float _ | _ :: _, _, .ptr _
  | _ :: _, _, .named _ => rfl

section
variable {table : SymbolTable} {t : TypeId} {classes : List ClassInfo} {ty : Ty}

theorem Symbols.Lineage.follow_bases (chain : Lineage table t classes)
    (h : table.codeType t = .ok ty)
    {k : Nat} {owner : ClassInfo} (at_k : classes[k]? = some owner) :
    ∃ u part, table.classInfo u = .ok owner ∧ table.codeType u = .ok part ∧
      ty.follow (.replicate k 0) = some part := by
  induction chain generalizing k ty with
  | root known none =>
    cases k with
    | zero => cases at_k; exact ⟨_, ty, known, h, rfl⟩
    | succ k => cases at_k
  | derived known some chain ih =>
    cases k with
    | zero => cases at_k; exact ⟨_, ty, known, h, rfl⟩
    | succ k =>
      obtain ⟨base, fields, rfl, bases, -⟩ := SymbolTable.codeType_class known h
      rw [some] at bases
      cases bases with
      | cons first rest =>
        obtain ⟨u, part, hu, hpart, follow⟩ := ih first at_k
        exact ⟨u, part, hu, hpart, follow⟩

namespace Symbols.SymbolTable.StructOf
variable {c : ClassInfo}

theorem follow_field (h : table.StructOf c ty) {i : Nat} {field : TypeId}
    (declared : c.fields[i]? = some field) :
    ∃ part, table.codeType field = .ok part ∧ ty.follow [c.fieldSlot i] = some part := by
  obtain ⟨base, fields, rfl, bases, types⟩ := h
  obtain ⟨bound, rfl⟩ := List.getElem?_eq_some_iff.1 declared
  have bound' : i < fields.length := types.length_eq ▸ bound
  have slot : c.fieldSlot i = (base ++ c.table).length + i := by
    rw [length_append, ← bases.length_eq, ClassInfo.fieldSlot, ClassInfo.table]
    cases c.base <;> cases c.hasDispatchTable <;> simp <;> omega
  refine ⟨fields[i], types.get bound bound', ?_⟩
  rw [Ty.follow, slot, getElem?_append_right (Nat.le_add_right _ _), Nat.add_sub_cancel_left,
    getElem?_eq_getElem bound']
  rfl

theorem follow_table (h : table.StructOf c ty) (has : c.hasDispatchTable) :
    ty.follow [c.dispatchTableSlot] = some .dispatchTable := by
  obtain ⟨base, fields, rfl, bases, -⟩ := h
  have slot : c.dispatchTableSlot = base.length := by
    rw [← bases.length_eq, ClassInfo.dispatchTableSlot]
    cases c.base <;> rfl
  rw [Ty.follow, slot, ClassInfo.table, if_pos has, append_assoc,
    getElem?_append_right (Nat.le_refl _), Nat.sub_self]
  rfl

end Symbols.SymbolTable.StructOf
end

namespace Lower

variable {E : Error → Prop} {env : Env} {s : State}

/-- Code that goes from an address through fields, each from where the one before it came. -/
inductive FieldPath : List Instr → Operand → List Nat → Operand → Prop
  | nil (address : Operand) : FieldPath [] address [] address
  | cons {code : List Instr} {address last : Operand} {i : Nat} {is : List Nat} (r : Register)
    (h : FieldPath code (.reg r) is last) :
    FieldPath (.fieldPtr r address i :: code) address (i :: is) last

theorem FieldPath.snoc {code : List Instr} {address last : Operand} {is : List Nat}
    (h : FieldPath code address is last) (r : Register) (i : Nat) :
    FieldPath (code ++ [.fieldPtr r last i]) address (is ++ [i]) (.reg r) := by
  induction h with
  | nil address => exact .cons r (.nil _)
  | cons r' _ ih => exact .cons r' ih

theorem Ends.into {Q : α → State → Prop} {ty : Ty} {f : Register → Instr} {k : Register → LowerM α}
    (h : ∀ r u, u.draft.body = s.draft.body.push (f r) → Ends E Q (k r env u)) :
    Ends E Q ((do
      let r ← Draft.newRegister ty
      emit (f r)
      k r : LowerM α) env s) :=
  h _ _ rfl

theorem classInfo_answers (known : env.symbols.classInfo t = .ok c) :
    Ends E (fun c' u => c' = c ∧ u = s) (classInfo t env s) := by
  refine .table (Ends.answered (fun c' h => ⟨?_, rfl⟩) fun e h => ?_)
  · cases known.symm.trans h
    rfl
  · cases known.symm.trans h

theorem pointee_answers (known : env.symbols.classInfo t = .ok c) :
    Ends E (fun _ u => u = s) (pointee t env s) := by
  have named : env.symbols.pointee t = .ok (.named c.name) :=
    SymbolTable.pointeeBy_iff.2 (.classType (SymbolTable.classInfo_iff.1 known))
  refine .table (Ends.answered (fun _ _ => rfl) fun e h => ?_)
  cases named.symm.trans h

theorem findDispatchTable_ends {classes : List ClassInfo} {function : String}
    (chain : Lineage env.symbols t classes)
    (fails : (∀ c ∈ classes, ¬ c.hasDispatchTable) → E (.missingDispatchTable function))
    (object : Operand) {depth : Nat} (enough : classes.length ≤ depth) :
    Ends E (fun found u => ∃ (k : Nat) (path : List Instr),
        classes.findIdx? (·.hasDispatchTable) = some k ∧ classes[k]? = some found.2 ∧
        u.draft.body = s.draft.body ++ path ∧ FieldPath path object (.replicate k 0) found.1)
      (findDispatchTable function depth object t env s) := by
  induction chain generalizing object depth s with
  | @root t c known none =>
    obtain ⟨depth, rfl⟩ : ∃ d, depth = d + 1 := ⟨depth - 1, by simp at enough; omega⟩
    refine (classInfo_answers known).seq ?_
    rintro _ _ ⟨rfl, rfl⟩
    split
    · rename_i table
      exact .ret ⟨0, [], by simp [table], rfl, by simp, .nil _⟩
    · rename_i table
      rw [none]
      exact .fail (fails (by simpa using table))
  | @derived t base c classes known some chain ih =>
    obtain ⟨depth, rfl⟩ : ∃ d, depth = d + 1 := ⟨depth - 1, by simp at enough; omega⟩
    refine (classInfo_answers known).seq ?_
    rintro _ _ ⟨rfl, rfl⟩
    split
    · rename_i table
      exact .ret ⟨0, [], by rw [findIdx?_cons, if_pos table], rfl, by simp, .nil _⟩
    · rename_i table
      rw [some]
      obtain ⟨_, knownBase⟩ := chain.exists_classInfo
      refine (pointee_answers knownBase).seq ?_
      rintro _ _ rfl
      refine Ends.into fun r u body => ?_
      have lacks : (∀ c' ∈ classes, ¬ c'.hasDispatchTable) → E (.missingDispatchTable function) :=
        fun none => fails (forall_mem_cons.2 ⟨table, none⟩)
      refine (ih lacks r (Nat.le_of_succ_le_succ enough)).mono ?_
      rintro found w ⟨k, path, first, owner, written, fieldPath⟩
      refine ⟨k + 1, .fieldPtr r object 0 :: path, ?_, owner, ?_, .cons r fieldPath⟩
      · simp [findIdx?_cons, table, first]
      · rw [written, body]
        simp

/-- From the object the code goes to the first class of the chain that has a table, from there to
the table pointer, and loads the entry. -/
def State.Dispatches (s : State) (classes : List ClassInfo) (object : Operand) (slot : UInt32)
    (target : Register) (u : State) (k : Nat) (owner : ClassInfo) : Prop :=
  ∃ path place table entry, classes.findIdx? (·.hasDispatchTable) = some k ∧
    classes[k]? = some owner ∧
    u.draft.body = s.draft.body ++ (path ++ [.load table (.reg place),
      .elementPtr entry table (Imm.int slot.toNat .w64), .load target (.reg entry)]) ∧
    FieldPath path object (.replicate k 0 ++ [owner.dispatchTableSlot]) (.reg place)

theorem dispatch_ends {symbol : FunctionSymbol} {slot : UInt32} {objectTy : TypeId}
    {kind : TypeKind} {classes : List ClassInfo} (virtual : symbol.dispatchSlot = some slot)
    (known : env.symbols.typeKind objectTy = .ok kind)
    (chain : Lineage env.symbols (kind.object objectTy) classes) (object : Operand) (s : State) :
    Ends (fun e => e = .missingDispatchTable symbol.name ∧ ∀ c ∈ classes, ¬ c.hasDispatchTable)
      (fun target u => ∃ k owner, s.Dispatches classes object slot target u k owner)
      (dispatch symbol object objectTy env s) := by
  unfold dispatch
  rw [virtual]
  refine .seq (P := fun k u => k = kind ∧ u = s) (Ends.table (Ends.answered ?_ ?_)) ?_
  · intro k h
    cases known.symm.trans h
    exact ⟨rfl, rfl⟩
  · intro e h
    cases known.symm.trans h
  rintro kind s ⟨rfl, rfl⟩
  refine .table (Ends.seq (findDispatchTable_ends chain (fun none => And.intro rfl none) object
    (Nat.le_succ_of_le chain.length_le)) ?_)
  rintro found u ⟨k, path, first, owner, body, fieldPath⟩
  refine Ends.into fun place u1 body1 => Ends.into fun table u2 body2 =>
    Ends.into fun entry u3 body3 => Ends.into fun target u4 body4 => Ends.ret ?_
  refine ⟨k, found.2, _, place, table, entry, first, owner, ?_, fieldPath.snoc place _⟩
  rw [body4, body3, body2, body1, body]
  apply Array.ext'
  simp

/-- The address of a declared field is one index away from that of the object. -/
def State.Indexes (s : State) (env : Env) (object : Plan) (field : Nat) (o : Operand) (u : State) :
    Prop :=
  ∃ address w r t c, object.operand env s = .ok address w ∧
    env.symbols.plainType object.ty = .ok t ∧ env.symbols.classInfo t = .ok c ∧
    field < c.fields.length ∧ o = .reg r ∧
    u.draft.body = w.draft.body.push (.fieldPtr r address (c.fieldSlot field))

theorem addressOfField_ends (object : Plan) (field : UInt32) :
    Ensures (s.Indexes env object field.toNat) (addressOfField object field env s) := by
  refine (Ends.any _).recorded.seq fun address w ⟨_, operand⟩ => ?_
  refine .seq (P := fun t u => env.symbols.plainType object.ty = .ok t ∧ u = w)
    (Ends.table (Ends.answered (fun t h => ⟨h, rfl⟩) fun _ _ => trivial)) ?_
  rintro t w ⟨plain, rfl⟩
  refine .seq (P := fun c u => env.symbols.classInfo t = .ok c ∧ u = w)
    (Ends.table (Ends.answered (fun t h => ⟨h, rfl⟩) fun _ _ => trivial)) ?_
  rintro c w ⟨known, rfl⟩
  cases declared : c.fields[field.toNat]? with
  | none => exact .fail trivial
  | some ty =>
    refine Ends.asked fun ty _ => ?_
    exact Ends.into fun r u body => Ends.ret ⟨address, _, r, t, c, operand, plain, known,
      (List.getElem?_eq_some_iff.1 declared).1, rfl, body⟩

end Lower
open Lower

/-- The indices in the code of fields and virtual calls lead, through the structs of the classes, to
the parts that they are meant for: a field index to the declared field, and the indices of a
virtual call to the table pointer of the nearest class that has one. A virtual call fails only if
there is no such class. -/
theorem indices_meet_structs (env : Env) :
    (∀ {t : TypeId} {c : ClassInfo} {ty : Ty}, env.symbols.classInfo t = .ok c →
      env.symbols.codeType t = .ok ty → env.symbols.StructOf c ty ∧
        (∀ i field, c.fields[i]? = some field → ∃ part, env.symbols.codeType field = .ok part ∧
          ty.follow [c.fieldSlot i] = some part) ∧
        (c.hasDispatchTable → ty.follow [c.dispatchTableSlot] = some .dispatchTable)) ∧
    (∀ (object : Plan) (field : UInt32) (s : State), Ends (fun _ => True)
      (s.Indexes env object field.toNat) (addressOfField object field env s)) ∧
    ∀ {symbol : FunctionSymbol} {slot : UInt32} {objectTy : TypeId} {kind : TypeKind}
      {classes : List ClassInfo}, symbol.dispatchSlot = some slot →
      env.symbols.typeKind objectTy = .ok kind →
      Lineage env.symbols (kind.object objectTy) classes → ∀ (object : Operand) (s : State),
      Ends (fun e => e = .missingDispatchTable symbol.name ∧ ∀ c ∈ classes, ¬ c.hasDispatchTable)
        (fun target u => ∃ k owner, s.Dispatches classes object slot target u k owner ∧
          ∀ ty, env.symbols.codeType (kind.object objectTy) = .ok ty →
            (∃ t part, env.symbols.classInfo t = .ok owner ∧ env.symbols.codeType t = .ok part ∧
              ty.follow (.replicate k 0) = some part) ∧
            ty.follow (.replicate k 0 ++ [owner.dispatchTableSlot]) = some .dispatchTable)
        (dispatch symbol object objectTy env s) := by
  refine ⟨fun known h => ?_, fun object field s => addressOfField_ends object field,
    fun virtual known chain object s => ?_⟩
  · have struct := SymbolTable.codeType_class known h
    exact ⟨struct, fun i field => struct.follow_field, struct.follow_table⟩
  · refine (dispatch_ends virtual known chain object s).mono ?_
    rintro target u ⟨k, owner, dispatched⟩
    have ⟨_, _, _, _, first, at_k, _⟩ := dispatched
    refine ⟨k, owner, dispatched, fun ty h => ?_⟩
    obtain ⟨t, part, hc, hpart, follow⟩ := chain.follow_bases h at_k
    have has : owner.hasDispatchTable := by
      obtain ⟨bound, holds, -⟩ := findIdx?_eq_some_iff_getElem.1 first
      rw [getElem?_eq_getElem bound] at at_k
      cases at_k
      exact holds
    refine ⟨⟨t, part, hc, hpart, follow⟩, ?_⟩
    rw [Ty.follow_append, follow]
    exact (SymbolTable.codeType_class hc hpart).follow_table has

section Example

def middleClass : ClassInfo := ⟨"Middle", some ⟨2⟩, [⟨4⟩], true, none⟩

/-- `Leaf` has no table of its own, its base `Middle` has one behind the base object. -/
def shapeClasses : List ClassInfo :=
  [⟨"Leaf", some ⟨1⟩, [⟨4⟩], false, none⟩, middleClass, ⟨"Root", none, [], true, none⟩]

def drawSymbol : FunctionSymbol := ⟨"draw", ⟨4⟩, false, false, none, some 2, some ⟨0⟩⟩

def shapeSymbols : SymbolTable where
  types := (shapeClasses.map TypeKind.classType ++ [TypeKind.pointer ⟨0⟩, TypeKind.bool]).toArray
  functions := #[drawSymbol]
  vars := #[]

/-- A call through a pointer to a `Leaf` goes to the base object, and there to the second part. -/
theorem leaf_dispatches : Lineage shapeSymbols ⟨0⟩ shapeClasses ∧ Ends (fun _ => False)
    (fun target u => State.empty.Dispatches shapeClasses (.reg ⟨0⟩) 2 target u 1 middleClass)
    (dispatch drawSymbol (.reg ⟨0⟩) ⟨3⟩ (.start shapeSymbols drawSymbol .default ⟨[]⟩) .empty) := by
  have chain : Lineage shapeSymbols ⟨0⟩ shapeClasses :=
    .derived rfl rfl (.derived rfl rfl (.root rfl rfl))
  refine ⟨chain, ?_⟩
  have virtual : drawSymbol.dispatchSlot = some 2 := rfl
  have pointer : shapeSymbols.typeKind ⟨3⟩ = .ok (.pointer ⟨0⟩) := rfl
  have ends := (indices_meet_structs (.start shapeSymbols drawSymbol .default ⟨[]⟩)).2.2
    virtual pointer chain (.reg ⟨0⟩) .empty
  revert ends
  cases dispatch drawSymbol (.reg ⟨0⟩) ⟨3⟩
    (.start shapeSymbols drawSymbol .default ⟨[]⟩) .empty with
  | error e u => exact fun ends => ends.2 middleClass (by simp [shapeClasses]) rfl
  | ok target u =>
    rintro ⟨k, owner, dispatched, -⟩
    have ⟨_, _, _, _, first, at_k, _⟩ := dispatched
    cases (show some 1 = some k from first)
    cases (show some middleClass = some owner from at_k)
    exact dispatched

end Example

end FlatCode
