import FlatCode.Proofs.Fault
import FlatCode.Proofs.Steps
import FlatCode.Proofs.Storage.Names

/-! Straight-line steps. Reading and writing variables, arithmetic, conversions and the search
for a dispatch table only add instructions that control runs through. They call nothing, and
what is known about branches, labels and scopes stays as it is. -/
namespace FlatCode
open Code Symbols Ast List
variable {i : Instr} {v : VariableId}

def Code.Instr.isStraight : Instr → Bool
  | .alloc _ _ _ | .load _ _ | .store _ _ | .copy _ _ _ | .move _ _ | .unary _ _ _
  | .binary _ _ _ _ _ | .compare _ _ _ _ _ | .cast _ _ _ | .fieldPtr _ _ _
  | .elementPtr _ _ _ => true
  | _ => false

/-- Stack slots and what they hold at first: all that stands in front of a body. -/
def Code.Instr.isSetup : Instr → Bool
  | .alloc _ _ _ | .store _ _ => true
  | _ => false

def Code.Instr.isInline : Instr → Bool
  | .alloc _ _ _ => false
  | i => i.isStraight

theorem Code.Instr.isStraight_of_inline (h : i.isInline) : i.isStraight := by
  cases i <;> first | exact h | cases h

def Code.Instr.slotName? : Instr → Option String
  | .alloc _ _ name => name
  | _ => none

theorem Code.Instr.slotName?_of_inline (h : i.isInline) : i.slotName? = none := by
  cases i <;> first | rfl | cases h

theorem Code.Instr.isStraight_of_setup (h : i.isSetup) : i.isStraight := by
  cases i <;> first | rfl | cases h

def Code.Callee.operands : Callee → List Operand
  | .direct _ => []
  | .indirect r => [.reg r]

def Code.Instr.operands : Instr → List Operand
  | .label _ | .alloc _ _ _ | .jump _ | .comment _ => []
  | .load _ source | .move _ source | .fieldPtr _ source _ => [source]
  | .store dest source | .copy dest source _ => [dest, source]
  | .unary _ _ operand | .cast _ _ operand => [operand]
  | .binary _ _ _ lhs rhs | .compare _ _ _ lhs rhs => [lhs, rhs]
  | .elementPtr _ source index => [source, index]
  | .call callee arguments _ => callee.operands ++ arguments
  | .branch condition _ _ => [condition]
  | .switch value _ _ => [value]
  | .ret value => value.toList

def Code.Instr.dest? : Instr → Option Register
  | .alloc dest _ _ | .load dest _ | .move dest _ | .unary _ dest _ | .binary _ _ dest _ _
  | .compare _ _ dest _ _ | .cast _ dest _ | .fieldPtr dest _ _ | .elementPtr dest _ _ => some dest
  | .call _ _ dest => dest
  | _ => none

def Location.alloc (l : Location) : Instr := .alloc l.slot l.slotType (some l.name)

def Symbols.SymbolTable.Plans (table : SymbolTable) (v : VariableId) (l : Location) : Prop :=
  ∃ role symbol, Storage.plan table v role = .ok (symbol, l.shape, l.slotType) ∧ symbol.ty = l.ty

theorem Storage.plan_iff {table : SymbolTable} {role : Role} {symbol : VariableSymbol}
    {shape : Shape} {ty : Ty} : Storage.plan table v role = .ok (symbol, shape, ty) ↔
      table.variableSymbol v = .ok symbol ∧ (∃ kind, table.typeKind symbol.ty = .ok kind ∧
        shape = Storage.shapeOf kind role) ∧ Storage.slotType table symbol.ty role = .ok ty := by
  unfold Storage.plan
  cases hv : table.variableSymbol v with
  | error e => simp [bind, Except.bind]
  | ok found =>
    cases hk : table.typeKind found.ty with
    | error e =>
      simp only [hk, bind, Except.bind, reduceCtorEq, Except.ok.injEq, false_iff]
      rintro ⟨rfl, ⟨kind, hk', -⟩, -⟩
      cases hk.symm.trans hk'
    | ok kind =>
      cases ht : Storage.slotType table found.ty role with
      | error e =>
        simp only [hk, ht, bind, Except.bind, reduceCtorEq, Except.ok.injEq, false_iff]
        rintro ⟨rfl, -, ht'⟩
        cases ht.symm.trans ht'
      | ok held =>
        simp only [hk, ht, bind, Except.bind, pure, Except.pure, Except.ok.injEq, Prod.mk.injEq]
        constructor
        · rintro ⟨rfl, rfl, rfl⟩
          exact ⟨rfl, ⟨kind, hk, rfl⟩, ht⟩
        · rintro ⟨rfl, ⟨kind', hk', rfl⟩, ht'⟩
          cases hk.symm.trans hk'
          cases ht.symm.trans ht'
          exact ⟨rfl, rfl, rfl⟩

namespace Lower

variable {s t : State}

def State.location? (s : State) (v : VariableId) : Option Location := s.storage.locations.lookup v

inductive State.Allocates (table : SymbolTable) (s : State) (v : VariableId) (role : Role) :
    EStateM.Result Error State Location → Prop
  | known {l : Location} (h : s.location? v = some l) : Allocates table s v role (.ok l s)
  | refused {e : Error} (new : s.location? v = none)
    (h : Storage.plan table v role = .error e) : Allocates table s v role (.error e s)
  | made {symbol : VariableSymbol} {l : Location} (new : s.location? v = none)
    (planned : Storage.plan table v role = .ok (symbol, l.shape, l.slotType))
    (ty : symbol.ty = l.ty) (slot : l.slot = ⟨s.draft.registers.size⟩)
    (name : l.name = (s.storage.uniqueName symbol.name).1) :
    Allocates table s v role (.ok l { s with
      draft := { s.draft with
        registers := s.draft.registers.push (.ptr l.slotType)
        entry := s.draft.entry.push l.alloc }
      storage := { (s.storage.uniqueName symbol.name).2 with
        locations := (v, l) :: s.storage.locations } })

/-- The slot of a variable has been made before, cannot be planned, or is made in the next
register under a new name. -/
theorem allocate_allocates (v : VariableId) (role : Role) (env : Env) (s : State) :
    s.Allocates env.symbols v role (allocate v role env s) := by
  rw [allocate, get_bind]
  cases hv : s.storage.locations.lookup v with
  | some l => exact .known hv
  | none =>
    change State.Allocates _ _ _ _
      ((liftM (Storage.plan env.symbols v role) >>= _ : LowerM _) env s)
    cases hp : Storage.plan env.symbols v role with
    | error e => exact .refused hv hp
    | ok found =>
      obtain ⟨symbol, shape, ty⟩ := found
      have kept : (s.storage.uniqueName symbol.name).2.locations = s.storage.locations := by
        unfold Storage.uniqueName
        split <;> rfl
      have made := State.Allocates.made (l := ⟨⟨s.draft.registers.size⟩, ty, shape, symbol.ty,
        (s.storage.uniqueName symbol.name).1⟩) hv hp rfl rfl rfl
      rw [← kept] at made
      exact made

/-- Slots that were made stay where they are. A new one is in a new register, which is no other
variable's, and is as the table plans it. -/
structure State.Houses (table : SymbolTable) (s t : State) : Prop where
  types : ∃ added : Array Ty, t.draft.registers = s.draft.registers ++ added
  stays : ∀ v l, s.location? v = some l → t.location? v = some l
  added : ∀ v l, t.location? v = some l → s.location? v = some l ∨
    s.draft.registers.size ≤ l.slot.index ∧ l.slot.index < t.draft.registers.size ∧
      table.Plans v l
  apart : ∀ v v' l l', s.location? v = none → s.location? v' = none → t.location? v = some l →
    t.location? v' = some l' → l.slot = l'.slot → v = v'

namespace State.Houses
variable {table : SymbolTable} {s t u : State}

theorem registers (h : s.Houses table t) : s.draft.registers.size ≤ t.draft.registers.size := by
  obtain ⟨added, types⟩ := h.types
  simp [types]

theorem of_storage (storage : t.storage = s.storage)
    (types : ∃ added : Array Ty, t.draft.registers = s.draft.registers ++ added) :
    s.Houses table t := by
  have same (v : VariableId) : t.location? v = s.location? v := by
    unfold State.location?
    rw [storage]
  refine ⟨types, fun v l h => (same v).trans h, fun v l h => .inl ((same v).symm.trans h), ?_⟩
  intro v v' l l' new _ h _ _
  rw [same, new] at h
  cases h

theorem of_new {l : Location} (fresh : s.location? v = none)
    (locations : t.storage.locations = (v, l) :: s.storage.locations) (planned : table.Plans v l)
    (slot : l.slot.index = s.draft.registers.size)
    {ty : Ty} (types : t.draft.registers = s.draft.registers.push ty) : s.Houses table t := by
  have registers : t.draft.registers.size = s.draft.registers.size + 1 := by simp [types]
  have here : t.location? v = some l := by simp [State.location?, locations]
  have others {w : VariableId} (h : w ≠ v) : t.location? w = s.location? w := by
    unfold State.location?
    rw [locations, lookup_cons, beq_eq_false_iff_ne.2 h]
  refine ⟨⟨#[ty], by rw [types, Array.push_eq_append]⟩, fun w k hk => ?_, fun w k hk => ?_,
    fun w w' k k' hw hw' hk hk' _ => ?_⟩
  · refine (others ?_).trans hk
    rintro rfl
    rw [fresh] at hk
    cases hk
  · by_cases h : w = v
    · subst h
      obtain rfl : l = k := by simpa [here] using hk
      exact .inr ⟨by omega, by omega, planned⟩
    · exact .inl ((others h).symm.trans hk)
  · have only {w : VariableId} {k : Location} (hw : s.location? w = none)
        (hk : t.location? w = some k) : w = v := by
      by_cases h : w = v
      · exact h
      · rw [others h, hw] at hk
        cases hk
    rw [only hw hk, only hw' hk']

theorem trans (h : s.Houses table t) (k : t.Houses table u) : s.Houses table u := by
  obtain ⟨added, types⟩ := h.types
  obtain ⟨added', types'⟩ := k.types
  refine ⟨⟨added ++ added', by rw [types', types, Array.append_assoc]⟩,
    fun v l hl => k.stays v l (h.stays v l hl), fun v l hl => ?_,
      fun v v' l l' hv hv' hl hl' hs => ?_⟩
  · rcases k.added v l hl with hl | ⟨least, below, planned⟩
    · rcases h.added v l hl with hl | ⟨least, below, planned⟩
      · exact .inl hl
      · exact .inr ⟨least, Nat.lt_of_lt_of_le below k.registers, planned⟩
    · exact .inr ⟨Nat.le_trans h.registers least, below, planned⟩
  -- what is new in the first step is below what is new in the second one
  · have below {v : VariableId} {l : Location} (hv : s.location? v = none)
        (hl : t.location? v = some l) : l.slot.index < t.draft.registers.size := by
      rcases h.added v l hl with old | ⟨-, below, -⟩
      · rw [hv] at old
        cases old
      · exact below
    have above {v : VariableId} {l : Location} (hv : t.location? v = none)
        (hl : u.location? v = some l) : t.draft.registers.size ≤ l.slot.index := by
      rcases k.added v l hl with old | ⟨above, -, -⟩
      · rw [hv] at old
        cases old
      · exact above
    have kept {v : VariableId} {l l1 : Location} (hl : u.location? v = some l)
        (hl1 : t.location? v = some l1) : l1 = l := by
      simpa [k.stays v l1 hl1] using hl
    cases ht : t.location? v with
    | none =>
      cases ht' : t.location? v' with
      | none => exact k.apart v v' l l' ht ht' hl hl' hs
      | some l1 =>
        have first := below hv' ht'
        have second := above ht hl
        rw [kept hl' ht', ← hs] at first
        omega
    | some l1 =>
      cases ht' : t.location? v' with
      | none =>
        have first := below hv ht
        have second := above ht' hl'
        rw [kept hl ht, hs] at first
        omega
      | some l2 =>
        rw [kept hl ht] at ht
        rw [kept hl' ht'] at ht'
        exact h.apart v v' l l' hv hv' ht ht' hs

end State.Houses

def State.Named (table : SymbolTable) (s : State) : Prop :=
  (s.draft.entry.toList.filterMap Instr.slotName?).Perm
    (s.status.toList.map (fun _ => "exception_status") ++ s.storage.taken) ∧ s.storage.Named table

/-- Every slot is as the table plans it, and its register has the type of an address of what the
slot holds. -/
def State.Lodged (table : SymbolTable) (s : State) : Prop :=
  ∀ v l, s.location? v = some l →
    table.Plans v l ∧ s.draft.registers[l.slot.index]? = some (.ptr l.slotType)

theorem State.Lodged.of_storage {table : SymbolTable} (h : s.Lodged table)
    (storage : t.storage = s.storage)
    (registers : ∃ added : Array Ty, t.draft.registers = s.draft.registers ++ added) :
    t.Lodged table := by
  intro v l located
  obtain ⟨added, more⟩ := registers
  obtain ⟨planned, typed⟩ := h v l (by rwa [State.location?, storage] at located)
  refine ⟨planned, ?_⟩
  rw [more, Array.getElem?_append_left (Array.getElem?_eq_some_iff.1 typed).1, typed]

theorem perm_snoc {names before behind : List String} (h : names.Perm (before ++ behind))
    (name : String) : (names ++ [name]).Perm (before ++ name :: behind) :=
  (perm_append_singleton name names).trans ((h.cons name).trans perm_middle.symm)

structure State.Adds (table : SymbolTable) (p : Instr → Bool) (s t : State) : Prop where
  body : ∃ added : Array Instr, t.draft.body = s.draft.body ++ added ∧ ∀ i ∈ added, p i
  entry : ∃ added : Array Instr, t.draft.entry = s.draft.entry ++ added ∧ ∀ i ∈ added, i.isSetup
  labels : t.draft.labels = s.draft.labels
  cleanups : t.cleanups = s.cleanups
  pads : t.pads = s.pads
  gotos : t.gotos = s.gotos
  compounds : t.compounds = s.compounds
  houses : s.Houses table t
  status : ∀ slot, s.status = some slot → t.status = some slot
  named : s.Named table → t.Named table
  lodged : s.Lodged table → t.Lodged table

namespace State.Adds
variable {table : SymbolTable} {p : Instr → Bool}

theorem registers (h : s.Adds table p t) :
    ∃ added : Array Ty, t.draft.registers = s.draft.registers ++ added := h.houses.types

theorem of_draft {d : Draft}
    (body : ∃ added : Array Instr, d.body = s.draft.body ++ added ∧ ∀ i ∈ added, p i)
    (entry : ∃ added : Array Instr, d.entry = s.draft.entry ++ added ∧
      ∀ i ∈ added, i.isSetup ∧ i.slotName? = none)
    (registers : ∃ added : Array Ty, d.registers = s.draft.registers ++ added)
    (labels : d.labels = s.draft.labels) : s.Adds table p { s with draft := d } := by
  obtain ⟨slots, hslots, nameless⟩ := entry
  refine ⟨body, ⟨slots, hslots, fun i hi => (nameless i hi).1⟩, labels, rfl, rfl, rfl, rfl,
    .of_storage rfl registers, fun _ h => h, fun h => ⟨?_, h.2⟩, fun h =>
      h.of_storage rfl registers⟩
  have none : slots.toList.filterMap Instr.slotName? = [] :=
    filterMap_eq_nil_iff.2 fun i hi => (nameless i (Array.mem_toList_iff.1 hi)).2
  rw [hslots, Array.toList_append, filterMap_append, none, append_nil]
  exact h.1

theorem refl (s : State) : s.Adds table p s :=
  of_draft ⟨#[], by simp, by simp⟩ ⟨#[], by simp, by simp⟩ ⟨#[], by simp⟩ rfl

theorem mono {q : Instr → Bool} (h : ∀ i, p i → q i) (ht : s.Adds table p t) :
    s.Adds table q t := by
  obtain ⟨added, hbody, hp⟩ := ht.body
  exact { ht with body := ⟨added, hbody, fun i hi => h i (hp i hi)⟩ }

theorem trans {u : State} (h : s.Adds table p t) (k : t.Adds table p u) : s.Adds table p u := by
  obtain ⟨code, hcode, allowed⟩ := h.body
  obtain ⟨code', hcode', allowed'⟩ := k.body
  obtain ⟨slots, hslots, plain⟩ := h.entry
  obtain ⟨slots', hslots', plain'⟩ := k.entry
  refine ⟨⟨code ++ code', ?_, ?_⟩, ⟨slots ++ slots', ?_, ?_⟩,
    k.labels.trans h.labels, k.cleanups.trans h.cleanups, k.pads.trans h.pads,
    k.gotos.trans h.gotos, k.compounds.trans h.compounds,
    h.houses.trans k.houses, fun slot hs => k.status slot (h.status slot hs),
    fun named => k.named (h.named named), fun lodged => k.lodged (h.lodged lodged)⟩
  · rw [hcode', hcode, Array.append_assoc]
  · intro i hi
    rcases Array.mem_append.1 hi with hi | hi
    · exact allowed i hi
    · exact allowed' i hi
  · rw [hslots', hslots, Array.append_assoc]
  · intro i hi
    rcases Array.mem_append.1 hi with hi | hi
    · exact plain i hi
    · exact plain' i hi

theorem body_eq (h : s.Adds table (fun _ => false) t) : t.draft.body = s.draft.body := by
  obtain ⟨added, body, none⟩ := h.body
  obtain rfl : added = #[] := by
    refine Array.eq_empty_iff_forall_not_mem.2 fun i hi => ?_
    simpa using none i hi
  rw [body, Array.append_empty]

end State.Adds

def Adding (p : Instr → Bool) (m : LowerM α) : Prop :=
  ∀ env s, Ends Error.IsFault (fun _ t => s.Adds env.symbols p t) (m env s)

abbrev StraightLine (m : LowerM α) : Prop := Adding Instr.isInline m

namespace Adding
variable {p : Instr → Bool}

theorem mono {q : Instr → Bool} (h : ∀ i, p i → q i) {m : LowerM α} (hm : Adding p m) :
    Adding q m :=
  fun env s => (hm env s).mono fun _ _ ht => ht.mono h

theorem pure (a : α) : Adding p (pure a) :=
  fun _ s => .ret (State.Adds.refl s)

theorem fail {e : Error} (h : e.IsFault) : Adding p (throw e : LowerM α) :=
  fun _ _ => .fail h

theorem bind {m : LowerM α} {f : α → LowerM β} (hm : Adding p m)
    (hf : ∀ a, Adding p (f a)) : Adding p (m >>= f) :=
  fun env s => (hm env s).seq fun a t h => (hf a env t).mono fun _ _ k => h.trans k

theorem look {f : State → LowerM α} (h : ∀ s, Adding p (f s)) : Adding p (get >>= f) :=
  fun env s => .look (h s env s)

theorem ask {f : Env → LowerM α} (h : ∀ env, Adding p (f env)) : Adding p (read >>= f) :=
  fun env s => .ask (h env env s)

theorem answered {x : Except Error α} (h : ReportsFaults x) :
    Adding p (liftM x : LowerM α) :=
  fun _ s => .answered (fun _ _ => State.Adds.refl s) h

theorem newRegister (ty : Ty) : Adding p (liftM (Draft.newRegister ty) : LowerM Register) :=
  fun _ _ => .of_draft ⟨#[], by simp, by simp⟩ ⟨#[], by simp, by simp⟩
    ⟨#[ty], Array.push_eq_append⟩ rfl

theorem allocSlot (ty : Ty) : Adding p (liftM (Draft.allocSlot ty none) : LowerM Register) :=
  fun _ s => .of_draft ⟨#[], by simp, by simp⟩
    ⟨#[.alloc ⟨s.draft.registers.size⟩ ty none], Array.push_eq_append,
      by simp [Instr.isSetup, Instr.slotName?]⟩
    ⟨#[.ptr ty], Array.push_eq_append⟩ rfl

theorem emit (h : p i) : Adding p (Lower.emit i) :=
  fun _ _ => .of_draft ⟨#[i], Array.push_eq_append, by simpa using h⟩ ⟨#[], by simp, by simp⟩
    ⟨#[], by simp⟩ rfl

theorem mapM {f : α → LowerM β} (h : ∀ a, Adding p (f a)) :
    ∀ as : List α, Adding p (as.mapM f)
  | [] => pure []
  | a :: as => by
    rw [mapM_cons]
    exact (h a).bind fun b => (mapM h as).bind fun bs => pure (b :: bs)

theorem forM {f : α → LowerM PUnit} (h : ∀ a, Adding p (f a)) :
    ∀ as : List α, Adding p (as.forM f)
  | [] => pure PUnit.unit
  | a :: as => (h a).bind fun _ => forM h as

end Adding

theorem symbols_straight : StraightLine symbols := .ask fun _ => .pure _

theorem addressOfVariable_straight (v : VariableId) : StraightLine (addressOfVariable v) := by
  refine .look fun s => (Adding.answered (s.storage.lookup_faults v)).bind fun l => ?_
  split
  · exact .pure _
  · exact .pure _
  all_goals exact (Adding.newRegister _).bind fun r => (Adding.emit rfl).bind fun _ => .pure _

def Known (operands known : List Operand) : Prop := ∀ r, .reg r ∈ operands → .reg r ∈ known

/-- Steps that derive operands from known ones: they ask the table, read what is known, write new
registers, and hand out what is known by then. -/
inductive Derives : {α : Type} → List Operand → (α → List Operand) → LowerM α → Prop
  | pure {a : α} (h : Known (out a) known) : Derives known out (pure a)
  | fail {out : α → List Operand} (h : e.IsFault) : Derives known out (throw e : LowerM α)
  | answered {x : Except Error α} (h : ReportsFaults x) :
    Derives [] (fun _ => []) (liftM x : LowerM α)
  | table {f : SymbolTable → LowerM α} (h : ∀ table, Derives known out (f table)) :
    Derives known out (symbols >>= f)
  | look {f : State → LowerM α} (h : ∀ s, Derives known out (f s))
    (same : ∀ s t : State, t.draft.registers = s.draft.registers → t.storage = s.storage →
      f t = f s) : Derives known out (get >>= f)
  | emit (i : Instr) (straight : i.isInline) (dest : i.dest? = none) :
    Derives i.operands (fun _ => []) (emit i)
  | compute {i : Register → Instr} {f : Register → LowerM α} (straight : ∀ r, (i r).isInline)
    (dest : ∀ r, (i r).dest? = some r) (reads : ∀ r, Known (i r).operands known)
    (h : ∀ r, Derives (.reg r :: known) out (f r)) :
    Derives known out (do
      let r ← Draft.newRegister ty
      emit (i r)
      f r)
  | address (v : VariableId) : Derives [] (fun o => [o]) (addressOfVariable v)
  | bind {m : LowerM α} {f : α → LowerM β} (hm : Derives known mid m)
    (hf : ∀ a, Derives (mid a ++ known') out (f a)) (sub : Known known known') :
    Derives known' out (m >>= f)
  | mono {m : LowerM α} (h : Derives known out m) (sub : Known known known') : Derives known' out m

theorem Derives.straight {known : List Operand} {out : α → List Operand} {m : LowerM α}
    (h : Derives known out m) : StraightLine m := by
  induction h with
  | pure => exact .pure _
  | fail fault => exact .fail fault
  | answered faults => exact .answered faults
  | table _ ih => exact symbols_straight.bind ih
  | look _ _ ih => exact .look ih
  | emit i straight => exact .emit straight
  | compute straight _ _ _ ih =>
    exact (Adding.newRegister _).bind fun r => (Adding.emit (straight r)).bind fun _ => ih r
  | address v => exact addressOfVariable_straight v
  | bind _ _ _ ihm ihf => exact ihm.bind ihf
  | mono _ _ ih => exact ih

namespace Derives
variable {known : List Operand}

theorem after {out : β → List Operand} {m : LowerM α} {f : α → LowerM β}
    (hm : Derives [] (fun _ => []) m) (hf : ∀ a, Derives known out (f a)) :
    Derives known out (m >>= f) :=
  .bind hm hf nofun

theorem computed {ty : Ty} {i : Register → Instr} (straight : ∀ r, (i r).isInline)
    (dest : ∀ r, (i r).dest? = some r) (reads : ∀ r, Known (i r).operands known) :
    Derives known (fun v => [v]) (do
      let r ← Draft.newRegister ty
      Lower.emit (i r)
      return .reg r) :=
  .compute straight dest reads fun r => .pure (by simp [Known])

theorem emitted (straight : i.isInline) (dest : i.dest? = none) (reads : Known i.operands known) :
    Derives known (fun _ => []) (Lower.emit i) :=
  (Derives.emit i straight dest).mono reads

end Derives

section Questions

theorem typeKind_derives (t : TypeId) : Derives [] (fun _ => []) (typeKind t) :=
  .table fun table => .answered (table.typeKind_faults t)

theorem plainType_derives (t : TypeId) : Derives [] (fun _ => []) (plainType t) :=
  .table fun table => .answered (table.plainType_faults t)

theorem classInfo_derives (t : TypeId) : Derives [] (fun _ => []) (classInfo t) :=
  .table fun table => .answered (table.classInfo_faults t)

theorem isVoid_derives (t : TypeId) : Derives [] (fun _ => []) (isVoid t) :=
  .table fun table => .answered (table.isVoid_faults t)

theorem codeType_derives (t : TypeId) : Derives [] (fun _ => []) (codeType t) :=
  .table fun table => .answered (table.codeType_faults t)

theorem pointee_derives (t : TypeId) : Derives [] (fun _ => []) (pointee t) :=
  .table fun table => .answered (table.pointee_faults t)

theorem destructorOf_derives (t : TypeId) : Derives [] (fun _ => []) (destructorOf t) :=
  .table fun table => .answered (table.destructorOf_faults t)

theorem functionSymbol_straight (f : FunctionId) : StraightLine (functionSymbol f) :=
  symbols_straight.bind fun table => .answered (table.functionSymbol_faults f)

end Questions

theorem allocate_adds {p : Instr → Bool} (v : VariableId) (role : Role) :
    Adding p (allocate v role) := by
  intro env s
  have cases := allocate_allocates v role env s
  generalize allocate v role env s = r at cases
  cases cases with
  | known h => exact State.Adds.refl s
  | refused new h => exact Storage.plan_faults env.symbols v role _ h
  | @made symbol l new planned ty slot name =>
    refine ⟨⟨#[], by simp, by simp⟩,
      ⟨#[l.alloc], Array.push_eq_append, by simp [Location.alloc, Instr.isSetup]⟩,
      rfl, rfl, rfl, rfl, rfl,
        .of_new new rfl ⟨role, symbol, planned, ty⟩ (slot ▸ rfl) rfl, fun _ h => h,
      fun h => ⟨?_, h.2.add (Storage.plan_iff.1 planned).1 name⟩, fun h w k located => ?_⟩
    · rw [Storage.uniqueName_taken, ← name, Array.toList_push, filterMap_append]
      exact perm_snoc h.1 l.name
    · rw [State.location?, lookup_cons] at located
      split at located
      · rename_i same
        cases located
        exact ⟨beq_iff_eq.1 same ▸ ⟨role, symbol, planned, ty⟩,
          by rw [slot, Array.getElem?_push_size]⟩
      · obtain ⟨planned, typed⟩ := h w k located
        refine ⟨planned, ?_⟩
        have below := (Array.getElem?_eq_some_iff.1 typed).1
        rw [Array.getElem?_push_lt below, ← Array.getElem?_eq_getElem below, typed]

theorem allocate_located (v : VariableId) (role : Role) {env : Env} :
    Ensures (fun l t => t.location? v = some l) (allocate v role env s) := by
  have cases := allocate_allocates v role env s
  generalize allocate v role env s = r at cases
  cases cases with
  | known h => exact h
  | refused => trivial
  | made => exact lookup_cons_self

theorem allocate_straight (v : VariableId) (role : Role) : StraightLine (allocate v role) :=
  allocate_adds v role

theorem statusSlot_straight : StraightLine statusSlot := by
  intro env s
  refine .look ?_
  cases hs : s.status with
  | some slot => exact State.Adds.refl s
  | none =>
    let slot : Register := ⟨s.draft.registers.size⟩
    have types : ∃ added, s.draft.registers.push (.ptr .status) = s.draft.registers ++ added :=
      ⟨#[.ptr .status], Array.push_eq_append⟩
    refine ⟨⟨#[], by simp, by simp⟩, ⟨#[.alloc slot .status (some "exception_status"),
        .store slot noException], Array.ext' (by simp [slot]), by simp [Instr.isSetup]⟩,
      rfl, rfl, rfl, rfl, rfl, .of_storage rfl types, fun slot hslot => ?_, fun h => ⟨?_, h.2⟩,
      fun h => h.of_storage rfl types⟩
    · rw [hs] at hslot
      cases hslot
    · have before := h.1
      rw [hs] at before
      simp only [Array.toList_push, filterMap_append]
      rw [show [Instr.store slot noException].filterMap Instr.slotName? = [] from rfl,
        append_nil]
      exact @perm_snoc _ [] _ before "exception_status"

theorem defaultReturn_straight : StraightLine defaultReturn := by
  refine .ask fun env => .ask fun env' => ?_
  split
  · exact .pure _
  · refine (isVoid_derives _).straight.bind fun void => ?_
    split
    · exact .pure _
    · refine (codeType_derives _).straight.bind fun ty => ?_
      split
      · exact .pure _
      · exact .fail rfl

theorem passStatus_straight : StraightLine passStatus := by
  refine .ask fun env => ?_
  split
  · exact .pure _
  · exact statusSlot_straight.bind fun slot =>
      (Adding.newRegister _).bind fun _ => (Adding.emit rfl).bind fun _ => .emit rfl

theorem resultSlot_straight (symbol : FunctionSymbol) : StraightLine (resultSlot symbol) := by
  unfold resultSlot
  split
  · exact (codeType_derives _).straight.bind fun _ => (Adding.allocSlot _).bind fun _ => .pure _
  · exact .pure _

theorem resultRegister_straight (symbol : FunctionSymbol) :
    StraightLine (resultRegister symbol) := by
  refine (isVoid_derives _).straight.bind fun void => ?_
  split
  · exact .pure _
  · refine (codeType_derives _).straight.bind fun ty => ?_
    split
    · exact .fail rfl
    · exact (Adding.newRegister _).bind fun _ => .pure _

section Values
attribute [local simp] Instr.operands Callee.operands Known

theorem loadValue_derives (address : Operand) (ty : TypeId) :
    Derives [address] (fun v => [v]) (loadValue address ty) := by
  refine (typeKind_derives ty).after fun kind => ?_
  split
  · exact .pure (by simp)
  · exact .fail rfl
  · exact (codeType_derives ty).after fun ty => .computed (fun _ => rfl) (fun _ => rfl) (by simp)

theorem storeValue_derives (address value : Operand) (ty : TypeId) :
    Derives [address, value] (fun _ => []) (storeValue address value ty) := by
  refine (plainType_derives ty).after fun ty => (typeKind_derives ty).after fun kind => ?_
  split
  · exact (codeType_derives ty).after fun _ => .emitted rfl rfl (by simp)
  · exact .emitted rfl rfl (by simp)

theorem convertToBool_derives (value : Operand) (source : TypeId) (kind : TypeKind) :
    Derives [value] (fun v => [v]) (convertToBool value source kind) := by
  refine (codeType_derives source).after fun ty => ?_
  split
  · exact .fail rfl
  · exact .computed (fun _ => rfl) (fun _ => rfl) (by simp)

theorem convert_derives (value : Operand) (source target : TypeId) :
    Derives [value] (fun v => [v]) (convert value source target) := by
  refine (plainType_derives source).after fun source => ?_
  refine (plainType_derives target).after fun target => ?_
  refine (typeKind_derives source).after fun sourceKind => ?_
  refine (typeKind_derives target).after fun targetKind => ?_
  split
  · exact convertToBool_derives value source sourceKind
  · refine (codeType_derives target).after fun ty => (codeType_derives source).after fun ty' => ?_
    split
    · exact .pure (by simp)
    · split
      · split
        · exact .pure (by simp)
        · exact .computed (fun _ => rfl) (fun _ => rfl) (by simp)
        · exact .fail rfl
      · exact .fail rfl

theorem operandType?_congr (h : t.draft.registers = s.draft.registers) (o : Operand) :
    t.draft.operandType? o = s.draft.operandType? o := by
  cases o with
  | reg r => exact congrArg (·[r.index]?) h
  | imm => rfl

theorem exceptionCode_derives (value : Operand) :
    Derives [value] (fun v => [v]) (exceptionCode value) := by
  unfold exceptionCode
  split
  · exact .pure (by simp)
  · refine .look (fun s => ?_) fun s t registers _ => by rw [operandType?_congr registers]
    split
    · exact .pure (by simp)
    · exact .pure (by simp)
    · exact .computed (fun _ => rfl) (fun _ => rfl) (by simp)
    · exact .fail rfl

theorem emitUnary_derives (op : UnaryOp) (ty : Ty) (operand : Operand) :
    Derives [operand] (fun v => [v]) (emitUnary op ty operand) :=
  .computed (fun _ => rfl) (fun _ => rfl) (by simp)

theorem emitDefault_derives {failure : Error} (h : failure.IsFault) (address : Operand) :
    Derives [address] (fun _ => []) (emitDefault failure address) := by
  refine .look (fun s => ?_) fun s t registers _ => by rw [operandType?_congr registers]
  split
  · split
    · exact .emitted rfl rfl (by simp)
    · exact .fail h
  · exact .fail h

theorem emitElement_derives (op : Operator) (ty : TypeId) (base index : Operand) :
    Derives [base, index] (fun v => [v]) (emitElement op ty base index) := by
  unfold emitElement
  have moved (index : Operand) : Derives [base, index] (fun v => [v]) (do
      let r ← Draft.newRegister (← codeType ty)
      emit (.elementPtr r base index)
      pure (Operand.reg r)) :=
    (codeType_derives ty).after fun _ => .computed (fun _ => rfl) (fun _ => rfl) (by simp)
  split
  · refine .look (fun s => ?_) fun s t registers _ => by rw [operandType?_congr registers]
    exact (emitUnary_derives _ _ _).bind
      (fun index => (moved index).mono (by simp +contextual [or_imp])) (by simp +contextual)
  · exact moved index

theorem emitBinary_derives (op : BinaryOp) (kind : Numeric) (ty : TypeId) (lhs rhs : Operand) :
    Derives [lhs, rhs] (fun v => [v]) (emitBinary op kind ty lhs rhs) :=
  (codeType_derives ty).after fun _ => .computed (fun _ => rfl) (fun _ => rfl) (by simp)

theorem emitCompare_derives (predicate : Predicate) (kind : Numeric) (lhs rhs : Operand) :
    Derives [lhs, rhs] (fun v => [v]) (emitCompare predicate kind lhs rhs) :=
  .computed (fun _ => rfl) (fun _ => rfl) (by simp)

theorem Derives.given {known : List Operand} {m : LowerM Operand}
    (h : Derives known (fun v => [v]) m) :
    Derives known Option.toList (do return some (← m)) :=
  h.bind (fun _ => .pure (by simp +contextual)) (by simp)

theorem emitOperator_derives (op : Operator) (ty : TypeId) (kind : TypeKind) (resultTy : TypeId)
    (operands : List Operand) :
    Derives operands Option.toList (emitOperator op ty kind resultTy operands) := by
  unfold emitOperator
  split
  · refine (emitDefault_derives ?_ _).bind (fun _ => .pure (by simp)) (by simp)
    rfl
  · exact (Derives.emit _ rfl rfl).bind (fun _ => .pure (by simp +contextual)) fun _ h => h
  · exact (Derives.emit _ rfl rfl).bind (fun _ => .pure (by simp +contextual)) fun _ h => h
  · exact .pure (by simp)
  · exact (codeType_derives _).after fun _ => (emitUnary_derives _ _ _).given
  · exact (codeType_derives _).after fun _ => (emitUnary_derives _ _ _).given
  · exact (emitUnary_derives _ _ _).given
  · exact (convert_derives _ _ _).given
  · split
    · exact (emitElement_derives _ _ _ _).given
    · split
      · exact (emitCompare_derives _ _ _ _).given
      · exact (emitBinary_derives _ _ _ _ _).given
      · exact .fail rfl
  · exact .fail rfl

theorem findDispatchTable_derives (function : String) : ∀ (depth : Nat) (object : Operand)
    (ty : TypeId), Derives [object] (fun found => [found.1])
      (findDispatchTable function depth object ty)
  | 0, _, _ => .fail rfl
  | depth + 1, object, ty => by
    refine (classInfo_derives ty).after fun info => ?_
    split
    · exact .pure (by simp)
    · split
      · exact .fail rfl
      · refine (pointee_derives _).after fun base =>
          .compute (fun _ => rfl) (fun _ => rfl) (by simp) fun r => ?_
        exact (findDispatchTable_derives function depth r _).mono (by simp)

theorem dispatch_derives (symbol : FunctionSymbol) (object : Operand) (ty : TypeId) :
    Derives [object] (fun r => [.reg r]) (dispatch symbol object ty) := by
  unfold dispatch
  split
  · exact .fail rfl
  · refine (typeKind_derives ty).after fun kind => .table fun table => ?_
    refine (findDispatchTable_derives _ _ _ _).bind (fun found => ?_) (by simp)
    exact .compute (fun _ => rfl) (fun _ => rfl) (by simp +contextual) fun tableAddress =>
      .compute (fun _ => rfl) (fun _ => rfl) (by simp) fun table =>
        .compute (fun _ => rfl) (fun _ => rfl) (by simp) fun entry =>
          .compute (fun _ => rfl) (fun _ => rfl) (by simp) fun target => .pure (by simp)

theorem callee_derives (symbol : FunctionSymbol) (isVirtual : Bool)
    (object : Option (Operand × TypeId)) :
    Derives (object.toList.map Prod.fst) Callee.operands (callee symbol isVirtual object) := by
  unfold callee
  split
  · split
    · exact .fail rfl
    · exact (dispatch_derives _ _ _).bind (fun _ => .pure (by simp)) (by simp)
  · exact .pure (by simp)

theorem fieldOf_derives (ty : TypeId) (field : UInt32) (address : Operand) :
    Derives [address] (fun v => [v]) (do
      let info ← classInfo (← plainType ty)
      match info.fields[field.toNat]? with
      | none => throw (.notAddressable "member_variable")
      | some ty =>
        let r ← Draft.newRegister (.ptr (← pointee ty))
        emit (.fieldPtr r address (info.fieldSlot field.toNat))
        pure (Operand.reg r)) := by
  refine (plainType_derives ty).after fun ty => (classInfo_derives ty).after fun info => ?_
  split
  · exact .fail rfl
  · exact (pointee_derives _).after fun _ => .computed (fun _ => rfl) (fun _ => rfl) (by simp)

theorem valueOfVariable_derives (v : VariableId) :
    Derives [] Option.toList (valueOfVariable v) := by
  refine .look (fun s => ?_) fun s t _ storage => by rw [storage]
  refine (Derives.answered (s.storage.lookup_faults v)).after fun location => ?_
  refine (Derives.address v).bind (fun address => ?_) (by simp)
  split
  · exact .pure (by simp)
  · exact .pure (by simp)
  · exact (loadValue_derives _ _).given
  · exact (loadValue_derives _ _).given

end Values

end Lower
end FlatCode
