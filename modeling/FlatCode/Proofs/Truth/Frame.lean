import FlatCode.Proofs.Placement
import FlatCode.Proofs.Truth.Source

/-! Runs through code while it is written. The machine runs the code as it is in the end, and
what is known when an instruction is written tells what it does there. Code that is added writes
new registers only, and none of these is the slot of a variable. -/
namespace FlatCode
open Code Symbols Ast

namespace Lower

def State.Housed (table : SymbolTable) (s : State) : Prop :=
  ∀ v l, s.location? v = some l → l.slot.index < s.draft.registers.size ∧ table.Plans v l

structure State.Onward (table : SymbolTable) (s t : State) : Prop where
  later : s.draft.Later t.draft
  houses : s.Houses table t

namespace State.Onward
variable {table : SymbolTable} {s t u : State}

theorem of_storage (later : s.draft.Later t.draft) (storage : t.storage = s.storage) :
    s.Onward table t :=
  ⟨later, .of_storage storage later.registers⟩

theorem refl (s : State) : s.Onward table s := .of_storage (.refl _) rfl

theorem trans (h : s.Onward table t) (k : t.Onward table u) : s.Onward table u :=
  ⟨h.later.trans k.later, h.houses.trans k.houses⟩

theorem housed (h : s.Onward table t) (hs : s.Housed table) : t.Housed table := by
  intro v l hl
  rcases h.houses.added v l hl with old | ⟨-, below, planned⟩
  · exact ⟨Nat.lt_of_lt_of_le (hs v l old).1 h.houses.registers, (hs v l old).2⟩
  · exact ⟨below, planned⟩

end State.Onward

structure State.Writes (s t : State) : Prop where
  later : s.draft.Later t.draft
  storage : t.storage = s.storage
  cleanups : t.cleanups = s.cleanups

namespace State.Writes
variable {s t u : State}

theorem refl (s : State) : s.Writes s := ⟨.refl _, rfl, rfl⟩

theorem trans (h : s.Writes t) (k : t.Writes u) : s.Writes u :=
  ⟨h.later.trans k.later, k.storage.trans h.storage, k.cleanups.trans h.cleanups⟩

theorem onward {table : SymbolTable} (h : s.Writes t) : s.Onward table t :=
  .of_storage h.later h.storage

end State.Writes

structure State.Reserves (s : State) (dest : Option Register) (t : State) : Prop where
  writes : s.Writes t
  body : t.draft.body = s.draft.body
  fresh : ∀ r, dest = some r →
    s.draft.registers.size ≤ r.index ∧ r.index < t.draft.registers.size

structure State.Emits (s : State) (i : Instr) (t : State) : Prop where
  writes : s.Writes t
  body : t.draft.body = s.draft.body.push i

section
variable {env : Env} {s : State}

theorem newRegister_reserves (ty : Ty) :
    Ensures (fun r t => s.Reserves (some r) t)
      ((liftM (Draft.newRegister ty) : LowerM Register) env s) := by
  have made := Adding.newRegister (p := Instr.isStraight) ty env s
  refine ⟨⟨made.later.draft, rfl, rfl⟩, rfl, fun r hr => ?_⟩
  cases hr
  exact ⟨Nat.le_refl _, by simp⟩

theorem resultRegister_reserves (symbol : FunctionSymbol) :
    Ensures (fun dest t => s.Reserves dest t) (resultRegister symbol env s) := by
  refine .asked fun isVoid _ => ?_
  split
  · exact ⟨.refl s, rfl, by simp⟩
  refine .asked fun ty _ => ?_
  dsimp only
  split
  · trivial
  · exact (newRegister_reserves ty).seq fun r t ht => .ret ht

theorem emit_emits (i : Instr) :
    Ensures (fun _ t => s.Emits i t) (emit i env s) :=
  ⟨⟨.push i, rfl, rfl⟩, rfl⟩

end
end Lower

namespace Truth
open Lower
variable {r : Register} {i : Instr}

structure Frame where
  symbols : SymbolTable
  code : Array Instr
  world : World
  /-- The register with the address of a variable. -/
  slot : VariableId → Option Register
  address : VariableId → Nat

namespace Frame
variable {w : Frame} {s t u : State} {m m' m'' : Config} {dest : Option Register}

structure Holds (w : Frame) (t : State) : Prop where
  instr : ∀ (k : Nat) (i : Instr), t.draft.body[k]? = some i →
    ∃ j, w.code[k]? = some j ∧ i.Settles j
  label : ∀ (k : Nat) (l : Label), t.draft.body[k]? = some (.label l) → place? w.code l = some k
  slot : ∀ v l, t.location? v = some l → w.slot v = some l.slot
  known : ∀ v r, w.slot v = some r → r.index < t.draft.registers.size →
    ∃ l, t.location? v = some l ∧ l.slot = r

theorem Holds.earlier (h : w.Holds t) (hs : s.Onward w.symbols t) : w.Holds s := by
  refine ⟨fun k i hi => ?_, fun k l hl => ?_, fun v l hl => h.slot v l (hs.houses.stays v l hl),
    fun v r hr below => ?_⟩
  · obtain ⟨j, hj, hij⟩ := hs.later.body k i hi
    obtain ⟨j', hj', hjj⟩ := h.instr k j hj
    exact ⟨j', hj', hij.trans hjj⟩
  · obtain ⟨j, hj, rfl⟩ := hs.later.body k _ hl
    exact h.label k l hj
  · obtain ⟨l, hl, rfl⟩ := h.known v r hr (Nat.lt_of_lt_of_le below hs.houses.registers)
    rcases hs.houses.added v l hl with old | ⟨above, -, -⟩
    · exact ⟨l, old, rfl⟩
    · omega

abbrev step (w : Frame) (m : Config) : Option Next := Truth.step w.code w.world m

abbrev Reaches (w : Frame) (m m' : Config) : Prop := Truth.Reaches w.code w.world m m'

def Addressed (w : Frame) (m : Config) : Prop :=
  ∀ v r, w.slot v = some r → m.registers r = w.address v

structure At (w : Frame) (s : State) (m : Config) : Prop where
  place : m.place = s.draft.body.size
  addressed : w.Addressed m

structure New (w : Frame) (s : State) (r : Register) : Prop where
  above : s.draft.registers.size ≤ r.index
  noSlot : ∀ v, w.slot v ≠ some r

theorem Holds.new (h : w.Holds t) (housed : s.Housed w.symbols) (reserves : s.Reserves dest t)
    (hr : dest = some r) : w.New s r := by
  obtain ⟨above, below⟩ := reserves.fresh r hr
  refine ⟨above, fun v hv => ?_⟩
  obtain ⟨l, hl, rfl⟩ := h.known v r hv below
  have old : s.location? v = some l := by
    unfold State.location? at hl ⊢
    rw [← reserves.writes.storage]
    exact hl
  have := (housed v l old).1
  omega

structure Runs (w : Frame) (s : State) (m m' : Config) : Prop where
  reaches : w.Reaches m m'
  kept : ∀ r, r.index < s.draft.registers.size → m'.registers r = m.registers r
  addressed : w.Addressed m'

namespace Runs

theorem refl (h : w.Addressed m) : w.Runs s m m := ⟨.refl m, fun _ _ => rfl, h⟩

theorem trans (h : w.Runs s m m') (hst : s.Onward w.symbols t) (k : w.Runs t m' m'') :
    w.Runs s m m'' := by
  refine ⟨h.reaches.trans k.reaches, fun r hr => ?_, k.addressed⟩
  rw [k.kept r (Nat.lt_of_lt_of_le hr hst.houses.registers), h.kept r hr]

theorem of_step (h : w.Addressed m) (hstep : w.step m = some (.goes m'))
    (others : ∀ r, dest ≠ some r → m'.registers r = m.registers r)
    (new : ∀ r, dest = some r → w.New s r) : w.Runs s m m' := by
  refine ⟨reaches_step hstep, fun r hr => others r fun hd => ?_, fun v r hv => ?_⟩
  · have := (new r hd).above
    omega
  · rw [others r fun hd => (new r hd).noSlot v hv]
    exact h v r hv

theorem value (h : w.Runs s m m') {x : Operand}
    (old : ∀ r, x = .reg r → r.index < s.draft.registers.size) : m'.value? x = m.value? x :=
  Config.value?_congr fun r hr => h.kept r (old r hr)

theorem values (h : w.Runs s m m') : ∀ {xs : List Operand},
    (∀ x ∈ xs, ∀ r, x = .reg r → r.index < s.draft.registers.size) →
      xs.mapM m'.value? = xs.mapM m.value?
  | [], _ => rfl
  | x :: xs, old => by
    rw [List.mapM_cons, List.mapM_cons, h.value (old x List.mem_cons_self),
      h.values fun x' hx => old x' (List.mem_cons_of_mem x hx)]

end Runs

theorem Holds.found (h : w.Holds t) (emits : s.Emits i t) (hm : w.At s m) :
    ∃ j, w.code[m.place]? = some j ∧ i.Settles j :=
  h.instr _ i (by rw [hm.place, emits.body]; simp)

theorem At.reserved (hm : w.At s m) (reserves : s.Reserves dest t) : w.At t m :=
  ⟨by rw [reserves.body]; exact hm.place, hm.addressed⟩

theorem At.next (hm : w.At s m) (emits : s.Emits i t) (place : m'.place = m.place + 1)
    (addressed : w.Addressed m') : w.At t m' := by
  refine ⟨?_, addressed⟩
  rw [place, hm.place, emits.body, Array.size_push]

theorem At.put {bits : Nat} (hm : w.At t m) (emits : t.Emits i u) (new : w.New s r)
    (hstep : w.step m = some (.goes (m.put r bits))) :
    w.Runs s m (m.put r bits) ∧ w.At u (m.put r bits) := by
  have others : ∀ r', some r ≠ some r' → (m.put r bits).registers r' = m.registers r' :=
    fun r' hr' => m.put_other bits fun h => hr' (congrArg some h.symm)
  have runs : w.Runs s m (m.put r bits) := .of_step hm.addressed hstep others fun r' hr' => by
    cases hr'
    exact new
  exact ⟨runs, hm.next emits rfl runs.addressed⟩

def Goes (w : Frame) (s t : State) (Q : Config → Config → Prop) : Prop :=
  w.Holds t → ∀ m, w.At s m → ∃ m', w.Runs s m m' ∧ w.At t m' ∧ Q m m'

theorem Goes.mono {Q R : Config → Config → Prop} (h : w.Goes s t Q)
    (weaken : ∀ m m', Q m m' → R m m') : w.Goes s t R := by
  intro holds m hm
  obtain ⟨m', runs, there, hq⟩ := h holds m hm
  exact ⟨m', runs, there, weaken m m' hq⟩

theorem Goes.trans {Q R : Config → Config → Prop} (h : w.Goes s t Q) (hst : s.Onward w.symbols t)
    (htu : t.Onward w.symbols u) (k : w.Goes t u R) :
    w.Goes s u fun m m'' => ∃ m', Q m m' ∧ w.Runs t m' m'' ∧ R m' m'' := by
  intro holds m hm
  obtain ⟨m', runs, there, hq⟩ := h (holds.earlier htu) m hm
  obtain ⟨m'', runs', there', hr⟩ := k holds m' there
  exact ⟨m'', runs.trans hst runs', there', m', hq, runs', hr⟩

/-- Code that calls nothing. -/
structure Glides (w : Frame) (s t : State) : Prop where
  onward : s.Onward w.symbols t
  cleanups : t.cleanups = s.cleanups
  goes : w.Goes s t fun m m' => m'.log = m.log

def Gliding (w : Frame) (m : LowerM α) : Prop :=
  ∀ ⦃env s⦄, env.symbols = w.symbols → s.Housed w.symbols →
    Ends (fun _ => True) (fun _ t => w.Glides s t) (m env s)

namespace Glides

theorem refl (s : State) : w.Glides s s :=
  ⟨.refl s, rfl, fun _ m hm => ⟨m, .refl hm.addressed, hm, rfl⟩⟩

theorem trans (h : w.Glides s t) (k : w.Glides t u) : w.Glides s u := by
  refine ⟨h.onward.trans k.onward, k.cleanups.trans h.cleanups, ?_⟩
  refine (h.goes.trans h.onward k.onward k.goes).mono ?_
  rintro m m'' ⟨m', first, -, second⟩
  exact second.trans first

end Glides

namespace Gliding

theorem pure (a : α) : w.Gliding (pure a : LowerM α) := fun _ s _ _ => Glides.refl s

theorem fail (e : Error) : w.Gliding (throw e : LowerM α) := fun _ _ _ _ => trivial

theorem bind {m : LowerM α} {f : α → LowerM β} (hm : w.Gliding m) (hf : ∀ a, w.Gliding (f a)) :
    w.Gliding (m >>= f) := by
  intro env s henv housed
  refine (hm henv housed).seq fun a t ht => ?_
  exact (hf a henv (ht.onward.housed housed)).mono fun _ u hu => ht.trans hu

theorem ask {f : SymbolTable → LowerM α} (h : ∀ table, w.Gliding (f table)) :
    w.Gliding (Lower.symbols >>= f) :=
  fun env _ henv housed => .table (h env.symbols henv housed)

theorem answered (x : Except Error α) : w.Gliding (liftM x : LowerM α) :=
  fun _ s _ _ => .answered (fun _ _ => Glides.refl s) fun _ _ => trivial

end Gliding
end Frame

def lookup? : Instr → Option Register
  | .load r _ | .fieldPtr r _ _ | .elementPtr r _ _ => some r
  | _ => none

theorem step_lookup {code : Array Instr} {world : World} {m : Config} {j : Instr}
    (h : lookup? i = some r) (hij : i.Settles j) (hj : code[m.place]? = some j) :
    step code world m = some (.goes (m.put r (world.memory m))) := by
  unfold step
  cases i with
  | load | fieldPtr | elementPtr =>
    cases h
    cases hij
    rw [hj]
  | _ => cases h

namespace Frame
variable {w : Frame}

theorem Gliding.lookup (ty : Ty) {i : Register → Instr} (hi : ∀ r, lookup? (i r) = some r)
    {k : Register → LowerM α} (hk : ∀ r, w.Gliding (k r)) :
    w.Gliding (do
      let r ← Draft.newRegister ty
      emit (i r)
      k r) := by
  intro env s henv housed
  refine (newRegister_reserves ty).seq fun r t made => ?_
  refine (emit_emits (i r)).seq fun _ u emits => ?_
  have glides : w.Glides s u := by
    refine ⟨made.writes.onward.trans emits.writes.onward,
      emits.writes.cleanups.trans made.writes.cleanups, fun holds m hm => ?_⟩
    have hm' : w.At t m := hm.reserved made
    obtain ⟨j, hj, hij⟩ := holds.found emits hm'
    have new := (holds.earlier emits.writes.onward).new housed made rfl
    obtain ⟨runs, there⟩ := hm'.put emits new (step_lookup (hi r) hij hj)
    exact ⟨_, runs, there, rfl⟩
  exact (hk r henv (glides.onward.housed housed)).mono fun _ v hv => glides.trans hv

end Frame
end Truth
end FlatCode
