import Mathlib.Data.List.Induction
import FlatCode.Proofs.Types.Struct

/-! The slots of variables over a sequence of requests. A variable keeps the location that it got
first, in a register of its own. In front of the body there is one instruction for each of them, and
a request that fails leaves no trace. -/
namespace FlatCode
open Code Symbols Lower List

namespace Storage

inductive Request where
  | allocate (v : VariableId) (role : Role)
  | lookup (v : VariableId)
  | address (v : VariableId)

def Request.serve (env : Env) (s : State) : Request → State
  | .allocate v role => stateOf (Lower.allocate v role env s)
  | .lookup _ => s
  | .address v => stateOf (addressOfVariable v env s)

def serve (env : Env) (requests : List Request) : State :=
  requests.foldl (Request.serve env) .empty

def Met (env : Env) (requests : List Request) (v : VariableId) (role : Role) (l : Location) :
    Prop :=
  ∃ before behind, requests = before ++ .allocate v role :: behind ∧
    ∃ s, Lower.allocate v role env (serve env before) = .ok l s

/-- What a slot holds: the value of the variable, or the address of an object of the caller. -/
def Holds (table : SymbolTable) (ty : TypeId) (role : Role) (held : Ty) : Prop :=
  match table.typeKind ty, role with
  | .ok (.classType info), .parameter => held = .ptr (.named info.name)
  | _, _ => table.codeType ty = .ok held

section SlotType
variable {table : SymbolTable} {ty : TypeId} {held : Ty}

theorem ptr_pointee_iff {inner : TypeId} {kind : TypeKind} (known : table.typeKind ty = .ok kind)
    (indirect : kind = .pointer inner ∨ kind = .reference inner) :
    (do return .ptr (← table.pointee inner) : Except Error Ty) = .ok held ↔
      table.codeType ty = .ok held := by
  have behind {p : Ty} : table.pointee inner = .ok p ↔
      table.Behind (fun t ty => table.codeType t = .ok ty) inner p := SymbolTable.pointeeBy_iff
  rw [SymbolTable.codeType_iff]
  constructor
  · intro h
    cases found : table.pointee inner with
    | error e => simp [found, bind, Except.bind] at h
    | ok p =>
      simp only [found, bind, Except.bind, pure, Except.pure, Except.ok.injEq] at h
      subst h
      rcases indirect with rfl | rfl
      · exact ⟨_, known, .pointer (behind.1 found)⟩
      · exact ⟨_, known, .reference (behind.1 found)⟩
  · rintro ⟨kind', known', r⟩
    cases known.symm.trans known'
    rcases indirect with rfl | rfl <;> cases r <;> rename_i h <;>
      simp [behind.2 h, bind, Except.bind, pure, Except.pure]

theorem slotType_iff {kind : TypeKind} {role : Role} (known : table.typeKind ty = .ok kind) :
    slotType table ty role = .ok held ↔ Holds table ty role held := by
  unfold slotType Holds
  rw [known]
  cases kind with
  | pointer inner => exact ptr_pointee_iff known (.inl rfl)
  | reference inner => exact ptr_pointee_iff known (.inr rfl)
  | classType info =>
    cases role with
    | localVariable => exact Iff.rfl
    | parameter =>
      have named : table.pointee ty = .ok (.named info.name) :=
        SymbolTable.pointeeBy_iff.2 (.classType known)
      simp [named, bind, Except.bind, pure, Except.pure, eq_comm]
  | _ => exact Iff.rfl

end SlotType

section Step
variable {env : Env} {r : Request} {s t : State} {v : VariableId} {l : Location}

theorem address_of_none (h : s.location? v = none) :
    addressOfVariable v env s = .error (.unallocatedStorage v) s := by
  rw [addressOfVariable, get_bind, lookup_of_none h]
  rfl

theorem address_of_some (env : Env) (h : s.location? v = some l) :
    ∃ x t, addressOfVariable v env s = .ok x t ∧ t.storage = s.storage ∧
      t.draft.entry = s.draft.entry ∧ ∃ more, t.draft.registers = s.draft.registers ++ more := by
  rw [addressOfVariable, get_bind, run_bind (run_answer (lookup_ok.2 h))]
  cases l.shape with
  | value | pointer => exact ⟨_, s, rfl, rfl, rfl, #[], by simp⟩
  | reference | byAddress => exact ⟨_, _, rfl, rfl, rfl, #[l.slotType], Array.push_eq_append⟩

inductive Serves (env : Env) (s : State) : Request → State → Prop
  | kept {r : Request} {t : State} (storage : t.storage = s.storage)
    (entry : t.draft.entry = s.draft.entry)
    (registers : ∃ more, t.draft.registers = s.draft.registers ++ more) : Serves env s r t
  | made {v : VariableId} {role : Role} {symbol : VariableSymbol} {l : Location} {t : State}
    (new : s.location? v = none)
    (planned : plan env.symbols v role = .ok (symbol, l.shape, l.slotType))
    (done : Lower.allocate v role env s = .ok l t)
    (locations : t.storage.locations = (v, l) :: s.storage.locations)
    (slot : l.slot = ⟨s.draft.registers.size⟩)
    (entry : t.draft.entry = s.draft.entry.push l.alloc)
    (registers : t.draft.registers = s.draft.registers.push (.ptr l.slotType)) :
    Serves env s (.allocate v role) t

theorem Request.serves (env : Env) (r : Request) (s : State) : Serves env s r (r.serve env s) := by
  have still : ∃ more, s.draft.registers = s.draft.registers ++ more := ⟨#[], by simp⟩
  cases r with
  | allocate v role =>
    have cases := allocate_allocates v role env s
    rw [Request.serve]
    generalize done : Lower.allocate v role env s = result at cases
    cases cases with
    | known | refused => exact .kept rfl rfl still
    | made new planned ty slot name => exact .made new planned done rfl slot rfl rfl
  | lookup v => exact .kept rfl rfl still
  | address v =>
    rw [Request.serve]
    cases h : s.location? v with
    | none =>
      rw [address_of_none h]
      exact .kept rfl rfl still
    | some l =>
      obtain ⟨x, t, done, storage, entry, registers⟩ := address_of_some env h
      rw [done]
      exact .kept storage entry registers

theorem Serves.lookup (h : Serves env s r t) (known : s.location? v = some l) :
    t.location? v = some l := by
  cases h with
  | kept storage => rwa [State.location?, storage]
  | @made w role symbol l' t new planned done locations =>
    have other : v ≠ w := by
      rintro rfl
      rw [new] at known
      cases known
    rw [State.location?, locations, lookup_cons, beq_false_of_ne other]
    exact known

structure Backed (s : State) : Prop where
  keys : (s.storage.locations.map Prod.fst).Nodup
  slots : (s.storage.locations.map fun p => p.2.slot).Nodup
  entry : s.draft.entry.toList = (s.storage.locations.map fun p => p.2.alloc).reverse
  typed : ∀ p ∈ s.storage.locations,
    s.draft.registers[p.2.slot.index]? = some (.ptr p.2.slotType)

theorem Backed.lookup_iff (h : Backed s) {p : VariableId × Location} :
    s.storage.locations.lookup p.1 = some p.2 ↔ p ∈ s.storage.locations := by
  rw [lookup_eq_some_iff]
  constructor
  · rintro ⟨before, behind, split, -⟩
    rw [split]
    exact mem_append_right _ mem_cons_self
  · intro mem
    obtain ⟨before, behind, split⟩ := append_of_mem mem
    have keys := h.keys
    rw [split, map_append, map_cons, nodup_append] at keys
    refine ⟨before, behind, split, fun q hq => ?_⟩
    simpa using (keys.2.2 q.1 (mem_map_of_mem hq) p.1 mem_cons_self).symm

theorem Serves.backed (h : Serves env s r t) (before : Backed s) : Backed t := by
  cases h with
  | kept storage entry registers =>
    obtain ⟨more, registers⟩ := registers
    refine ⟨storage ▸ before.keys, storage ▸ before.slots, ?_, fun p mem => ?_⟩
    · rw [entry, storage, before.entry]
    · have typed := before.typed p (storage ▸ mem)
      rw [registers, Array.getElem?_append_left (Array.getElem?_eq_some_iff.1 typed).1, typed]
  | @made v role symbol l t new planned done locations slot entry registers =>
    have below (p) (mem : p ∈ s.storage.locations) : p.2.slot.index < s.draft.registers.size :=
      (Array.getElem?_eq_some_iff.1 (before.typed p mem)).1
    refine ⟨?_, ?_, ?_, ?_⟩
    · rw [locations, map_cons, nodup_cons]
      refine ⟨fun again => ?_, before.keys⟩
      obtain ⟨p, mem, rfl⟩ := mem_map.1 again
      simpa using lookup_eq_none_iff.1 new p mem
    · rw [locations, map_cons, nodup_cons]
      refine ⟨fun again => ?_, before.slots⟩
      obtain ⟨p, mem, same⟩ := mem_map.1 again
      have low := below p mem
      rw [same, slot] at low
      exact Nat.lt_irrefl _ low
    · rw [entry, locations, Array.toList_push, before.entry, map_cons, reverse_cons]
    · rw [locations, registers]
      refine forall_mem_cons.2 ⟨?_, fun p mem => ?_⟩
      · rw [slot, Array.getElem?_push_size]
      · rw [Array.getElem?_push_lt (below p mem), ← Array.getElem?_eq_getElem (below p mem)]
        exact before.typed p mem

end Step

section Run
variable {env : Env} {requests : List Request} {v : VariableId} {role : Role} {l : Location}

theorem serve_snoc (env : Env) (requests : List Request) (r : Request) :
    serve env (requests ++ [r]) = r.serve env (serve env requests) := by
  rw [serve, foldl_append]
  rfl

theorem serve_backed (env : Env) (requests : List Request) : Backed (serve env requests) := by
  induction requests using List.reverseRecOn with
  | nil => exact ⟨nodup_nil, nodup_nil, rfl, fun p mem => nomatch mem⟩
  | append_singleton requests r ih =>
    rw [serve_snoc]
    exact (r.serves env _).backed ih

theorem lookup_serve_append (behind : List Request)
    (h : (serve env requests).location? v = some l) :
    (serve env (requests ++ behind)).location? v = some l := by
  induction behind using List.reverseRecOn with
  | nil => rwa [append_nil]
  | append_singleton behind r ih =>
    rw [← append_assoc, serve_snoc]
    exact (r.serves env _).lookup ih

theorem Met.lookup (h : Met env requests v role l) :
    (serve env requests).location? v = some l := by
  obtain ⟨before, behind, rfl, s, done⟩ := h
  rw [append_cons]
  refine lookup_serve_append behind ?_
  rw [serve_snoc, Request.serve, done]
  exact (allocate_located v role).of_ok done

/-- The location comes from the first request that was met for the variable, and is as the table
plans it for the role of that request. -/
def Founded (env : Env) (requests : List Request) (v : VariableId) (l : Location) : Prop :=
  ∃ before role behind symbol, requests = before ++ .allocate v role :: behind ∧
    (serve env before).location? v = none ∧
    plan env.symbols v role = .ok (symbol, l.shape, l.slotType) ∧
    ∃ s, Lower.allocate v role env (serve env before) = .ok l s

theorem Founded.snoc (h : Founded env requests v l) (r : Request) :
    Founded env (requests ++ [r]) v l := by
  obtain ⟨before, role, behind, symbol, rfl, first⟩ := h
  exact ⟨before, role, behind ++ [r], symbol, by simp, first⟩

theorem founded_of_lookup (h : (serve env requests).location? v = some l) :
    Founded env requests v l := by
  induction requests using List.reverseRecOn with
  | nil => cases h
  | append_singleton requests r ih =>
    rw [serve_snoc] at h
    have step := r.serves env (serve env requests)
    generalize r.serve env (serve env requests) = t at h step
    cases step with
    | kept storage =>
      rw [State.location?, storage] at h
      exact (ih h).snoc r
    | @made w role symbol made t new planned done locations =>
      rw [State.location?, locations] at h
      by_cases same : v = w
      · subst same
        rw [lookup_cons_self, Option.some.injEq] at h
        subst h
        exact ⟨requests, role, [], symbol, rfl, new, planned, t, done⟩
      · rw [lookup_cons, beq_false_of_ne same] at h
        exact (ih h).snoc _

theorem unmet_iff : (∀ role l, ¬ Met env requests v role l) ↔
    (serve env requests).location? v = none := by
  rw [Option.eq_none_iff_forall_ne_some]
  constructor
  · intro unmet l h
    obtain ⟨before, role, behind, -, split, -, -, done⟩ := founded_of_lookup h
    exact unmet role l ⟨before, behind, split, done⟩
  · exact fun none role l met => none l met.lookup

end Run

/-- The slots of a storage after any requests. A variable has the location that every request for
it was answered with, so it has never changed. Different variables have different registers. There
is one instruction in front of the body for each variable with a slot, and its register has the
type of an address of what the slot holds. A request that fails changes nothing. Variables are found
exactly if a request to allocate them has been met. What a slot holds has the type of the variable,
but for an object that the first such request took for a parameter. -/
theorem slots_stay (env : Env) (requests : List Request) :
    let s := serve env requests
    (∀ v role l, Met env requests v role l →
      s.storage.lookup v = .ok l ∧ ∃ x t, addressOfVariable v env s = .ok x t) ∧
    (∀ v, (∀ role l, ¬ Met env requests v role l) →
      s.storage.lookup v = .error (.unallocatedStorage v) ∧
      addressOfVariable v env s = .error (.unallocatedStorage v) s) ∧
    (∀ v w l m, s.storage.lookup v = .ok l → s.storage.lookup w = .ok m → l.slot = m.slot →
      v = w) ∧
    (∃ vars : List VariableId, vars.Nodup ∧
      List.Forall₂ (fun v i => ∃ l, s.storage.lookup v = .ok l ∧
        i = .alloc l.slot l.slotType (some l.name) ∧
        s.draft.registers[l.slot.index]? = some (.ptr l.slotType)) vars s.draft.entry.toList ∧
      ∀ v, v ∈ vars ↔ ∃ role l, Met env requests v role l) ∧
    (∀ v role e t, Lower.allocate v role env s = .error e t →
      t = s ∧ serve env (requests ++ [.allocate v role]) = s) ∧
    ∀ v l, s.storage.lookup v = .ok l → ∃ before role behind symbol,
      requests = before ++ .allocate v role :: behind ∧
      (∀ other m, ¬ Met env before v other m) ∧
      env.symbols.variableSymbol v = .ok symbol ∧ Holds env.symbols symbol.ty role l.slotType := by
  have backed := serve_backed env requests
  have met (v role l) (h : Met env requests v role l) := h.lookup
  have unmet (v) := @unmet_iff env requests v
  have founded (v l) := @founded_of_lookup env requests v l
  have again (v role) := serve_snoc env requests (.allocate v role)
  generalize serve env requests = s at backed met unmet founded again ⊢
  simp only [lookup_ok]
  refine ⟨fun v role l h => ⟨met v role l h, ?_⟩, fun v h => ?_, fun v w l m hl hm same => ?_,
    ⟨s.storage.locations.reverse.map Prod.fst, ?_, ?_, fun v => ?_⟩, fun v role e t failed => ?_,
    fun v l hl => ?_⟩
  · obtain ⟨x, t, done, -⟩ := address_of_some env (met v role l h)
    exact ⟨x, t, done⟩
  · have none := (unmet v).1 h
    exact ⟨lookup_of_none none, address_of_none none⟩
  · have pair := inj_on_of_nodup_map backed.slots (backed.lookup_iff (p := (v, l)).1 hl)
      (backed.lookup_iff (p := (w, m)).1 hm) same
    exact congrArg Prod.fst pair
  · rw [map_reverse, nodup_reverse]
    exact backed.keys
  · rw [backed.entry, ← map_reverse, forall₂_map_left_iff, forall₂_map_right_iff]
    refine forall₂_same.2 fun p mem => ?_
    rw [mem_reverse] at mem
    exact ⟨p.2, backed.lookup_iff.2 mem, rfl, backed.typed p mem⟩
  · have located : v ∈ s.storage.locations.map Prod.fst ↔ s.location? v ≠ none := by
      rw [Option.ne_none_iff_isSome, State.location?, lookup_isSome_iff, mem_map]
      simp only [beq_iff_eq, eq_comm (a := v)]
    rw [map_reverse, mem_reverse, located, ne_eq, ← unmet v]
    push Not
    rfl
  · have cases := allocate_allocates v role env s
    rw [failed] at cases
    cases cases
    refine ⟨rfl, ?_⟩
    rw [again, Request.serve, failed]
    rfl
  · obtain ⟨before, role, behind, symbol, split, first, planned, -⟩ := founded v l hl
    obtain ⟨declared, ⟨kind, known, -⟩, held⟩ := plan_iff.1 planned
    exact ⟨before, role, behind, symbol, split, unmet_iff.2 first, declared,
      (slotType_iff known).1 held⟩

end Storage
end FlatCode
