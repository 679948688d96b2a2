import FlatCode.Proofs.Marks.Rules

/-! Scenes. A scene is a point of a run of lowering, together with the marks of the code written
so far. A sound scene has marks that fit, and its books of slots, obligations, landing pads and
names agree with them. What is said here holds of one scene or leads from one to a later one. -/
namespace FlatCode
open Code Symbols Ast Lower

def Draft.EndsInSwitch (d : Draft) : Prop :=
  ∃ (k : Nat) (value : Operand) (cases : List (Imm × Label)) (default : Label),
    d.body[k]? = some (.switch value cases default) ∧
    ∀ (j : Nat) (i : Instr), k < j → d.body[j]? = some i → i.isComment

namespace Marks

structure Scene where
  state : State
  /-- For each instruction of the body, the mark in front of it and its origin. -/
  notes : Array Note
  /-- What each label promises. -/
  promises : Array Mark
  /-- The mark behind the body. -/
  mark : Mark
  /-- The registers that hold values in use. -/
  held : List Register
  /-- The objects that are alive, if control can come here. -/
  live : List Operand

def Phase.pad? : Phase → Instr → Option Label
  | .loaded _ _ _, .branch _ (some pad) _ => some pad
  | .thrown, .jump (some pad) => some pad
  | _, _ => none

theorem Phase.pad?_cases {phase : Phase} {i : Instr} {l : Label} (h : phase.pad? i = some l) :
    (∃ code objects loss condition next, phase = .loaded code objects loss ∧
      i = .branch condition (some l) next) ∨ phase = .thrown ∧ i = .jump (some l) := by
  unfold Phase.pad? at h
  split at h
  · cases h
    exact .inl ⟨_, _, _, _, _, rfl, rfl⟩
  · cases h
    exact .inr ⟨rfl, rfl⟩
  · cases h

/-- What stands in front of a body: slots, and one store that clears the status. -/
inductive Entry : List Instr → Option Register → Prop where
  | nil : Entry [] none
  | slot {code : List Instr} {status : Option Register} {r : Register} {ty : Ty}
      {name : Option String} : Entry code status → Entry (code ++ [.alloc r ty name]) status
  | status {code : List Instr} {slot : Register} {ty : Ty} {name : Option String} :
    Entry code none → Entry (code ++ [.alloc slot ty name, .store (.reg slot) noException])
      (some slot)

namespace Scene
variable (S : Setting) (P : Scene)

def promise (l : Label) : Option Mark := P.promises[l.index]?

def markAt (k : Nat) : Mark := (P.notes[k]?.map Note.mark).getD P.mark

def calls : List Site := P.notes.toList.filterMap fun note => note.origin.site?

def raised : List Label :=
  (List.zipWith (fun note i => note.mark.phase.pad? i) P.notes.toList
    P.state.draft.body.toList).filterMap id

structure Raises (pads : List Label) : Prop where
  raised : P.raised = pads
  calm : ∀ note ∈ P.notes, note.mark.phase ≠ .unwinding

def Built (x : Operand) : Prop := ∃ note ∈ P.notes, x ∈ note.origin.objects S

def BuiltOn (x : Operand) (others : List Operand) : Prop :=
  ∃ note ∈ P.notes, x ∈ note.origin.objects S ∧
    ∀ y ∈ others, y ∈ note.mark.live ∨ y ∈ note.origin.objects S ∧ y ≠ x

def Stacked : List Operand → Prop
  | [] => True
  | x :: others => P.BuiltOn S x others ∧ Stacked others

def EndsWith (origin : Origin) (live : List Operand) : Prop :=
  ∃ (j : Nat) (note : Note), P.notes[j]? = some note ∧ note.origin = origin ∧
    note.mark.live = live ∧
    ∀ (i : Nat) (note' : Note), j < i → P.notes[i]? = some note' → note'.origin.site? = none

def Latest (site : CallSite) (x : Operand) : Prop :=
  ∃ symbol slot live, P.EndsWith (.site site symbol slot (some x)) live

/-- At `k` a temporary is destroyed, and the last call of the tree in front of it has built the
object of a variable. -/
def LeavesOut (k : Nat) (x : Operand) : Prop :=
  ∃ (j : Nat) (note call : Note) (v : VariableId) (ctor : FunctionId) (symbol : FunctionSymbol)
    (slot : Option Register) (o : Obligation), j < k ∧
    P.notes[j]? = some note ∧ note.origin = .site (.construction v ctor) symbol slot (some x) ∧
    P.notes[k]? = some call ∧ call.origin = .destructor o ∧ S.Temp P.state o.object ∧
    ∀ (i : Nat) (note' : Note), j < i → i < k → P.notes[i]? = some note' →
      note'.origin.site? = none

def Level : Prop := P.live = S.alive P.state.cleanups

def Keeps (o : Operand) : Prop :=
  ∀ r, o = .reg r → S.Given P.state r ∧ r.index < P.state.draft.registers.size ∧
    P.state.status ≠ some r

/-- The destructor is the one of what is in the slot: of a variable, or of the result of a call. -/
def Due (o : Obligation) : Prop :=
  (∃ v l, P.state.location? v = some l ∧ o.object = .reg l.slot ∧
    S.table.destructor? l.ty = some o.destructor) ∨
  ∃ note ∈ P.notes, ∃ site symbol r object, note.origin = .site site symbol (some r) object ∧
    o.object = .reg r ∧ S.table.destructor? symbol.returnType = some o.destructor

def Owes (o : Obligation) : Prop :=
  P.Keeps S o.object ∧ (S.follows = true → P.Due S o)

def Holds (o : Operand) : Prop :=
  ∀ r, o = .reg r → (S.Given P.state r ∨ r ∈ P.held) ∧
    r.index < P.state.draft.registers.size ∧ P.state.status ≠ some r

def Promises (l : Label) (m : Mark) : Prop := ∃ q, P.promise l = some q ∧ m.le q

def Carries (b : PendingBranch) (held : List Register) (live : List Operand) : Prop :=
  ∃ note, P.notes[b.instr.index]? = some note ∧ note.mark.phase = .ordinary ∧
    note.mark.live = live ∧ ∀ r ∈ held, r ∈ note.mark.held

structure Typed : Prop where
  size : P.notes.size = P.state.draft.body.size
  labels : P.promises.size = P.state.draft.labels
  start : Mark.le ⟨.ordinary, [], []⟩ (P.markAt 0)
  fits : ∀ (k : Nat) (i : Instr) (note : Note), P.state.draft.body[k]? = some i →
    P.notes[k]? = some note →
    Fits S P.state P.promise note i (P.markAt (k + 1))

/-- What a landing pad destroys is alive when control comes to it, and what is alive behind that
is what its handler expects. -/
structure PadFits (pad : LandingPad) : Prop where
  objects : ∀ o ∈ pad.cleanups, P.Owes S o
  promised : ∃ below, P.Promises pad.label
      ⟨.unwinding, [], S.seen (pad.cleanups.map Obligation.object) ++ below⟩ ∧
    P.Stacked S (S.seen (pad.cleanups.map Obligation.object) ++ below) ∧
    match pad.handler with
    | some handler => P.Promises handler ⟨.caught, [], below⟩
    | none => below = []

structure Books : Prop where
  entry : Entry P.state.draft.entry.toList P.state.status
  allocs : ∀ i ∈ P.state.draft.entry, ∀ r, i.dest? = some r →
    r.index < P.state.draft.registers.size
  housed : State.empty.Houses S.table P.state
  slots : ∀ v l, P.state.location? v = some l → P.Keeps S (.reg l.slot)
  owed : ∀ o ∈ P.state.cleanups.pendingFrom 0, P.Owes S o
  pads : ∀ pad ∈ P.state.pads.pads, P.PadFits S pad
  placed : S.follows = false → ∀ p ∈ P.state.gotos.placed, P.Promises p.2 ⟨.ordinary, [], []⟩
  /-- Names are jumped to only where objects are not followed. -/
  waiting : ∀ p ∈ P.state.gotos.pending, ∀ b ∈ p.2, S.follows = false ∧ P.Carries b [] []

structure Lived : Prop where
  once : ∀ (j k : Nat) (note note' : Note) (r : Register), P.notes[j]? = some note →
    P.notes[k]? = some note' →
    note.origin.slot? = some r → note'.origin.slot? = some r → j = k
  apart : ∀ note ∈ P.notes, ∀ r, note.origin.slot? = some r →
    r.index < P.state.draft.registers.size ∧ ∀ v l, P.state.location? v = some l → l.slot ≠ r
  built : ∀ (k : Nat) (note : Note), P.notes[k]? = some note → ∀ x ∈ note.mark.live,
    ∃ (j : Nat) (note' : Note), j < k ∧ P.notes[j]? = some note' ∧ x ∈ note'.origin.objects S
  owed : P.Stacked S (S.alive P.state.cleanups)
  due : S.follows = true → ∀ note ∈ P.notes, ∀ o, note.origin = .destructor o → P.Due S o
  left : ∀ (k : Nat) (note : Note), P.notes[k]? = some note → ∀ x ∈ note.mark.phase.left,
    ∃ j, k = j + 1 ∧ P.LeavesOut S j x

structure Firm : Prop where
  typed : P.Typed S
  /-- A label at the end that promises registers stands nowhere else. -/
  tail : ∀ l q, P.state.draft.body.back? = some (.label l) → P.promise l = some q → q.held ≠ [] →
    ∀ k : Nat, P.state.draft.body[k]? = some (.label l) → k + 1 = P.state.draft.body.size
  held : ∀ r ∈ P.held, r.index < P.state.draft.registers.size ∧ P.state.status ≠ some r
  live : ∀ x ∈ P.live, P.Built S x
  books : P.Books S
  lived : P.Lived S

structure Sound : Prop extends P.Firm S where
  mark : P.mark.le ⟨.ordinary, P.held, P.live⟩
  closed : P.state.draft.endsInTerminator = true → P.mark.phase = .dead
  raises : P.Raises P.state.pads.labels

structure Later (Q : Scene) : Prop where
  notes : ∀ (k : Nat) (note : Note), P.notes[k]? = some note → Q.notes[k]? = some note
  promises : ∀ l q, P.promise l = some q → ∃ q', Q.promise l = some q' ∧ q.le q'
  widens : S.Widens P.state Q.state

structure Follows (sites : List Site) (Q : Scene) : Prop extends P.Later S Q where
  held : ∀ r ∈ P.held, r ∈ Q.held
  calls : ∃ made, Q.calls = P.calls ++ made ∧ Site.Done sites made
  slots : ∀ note ∈ Q.notes, ∀ r, note.origin.slot? = some r →
    note ∈ P.notes ∨ P.state.draft.registers.size ≤ r.index

/-- The second scene comes from the first one by whole steps: no multiway jump is left without
the code that it chooses from. -/
structure Leads (sites : List Site) (Q : Scene) : Prop extends P.Follows S sites Q where
  switch : Q.state.draft.EndsInSwitch → P.state.draft.EndsInSwitch

end Scene

section Leads
variable {S : Setting} {P Q R : Scene} {a b : List Site}

namespace Scene.Later

theorem refl (P : Scene) : P.Later S P :=
  ⟨fun _ _ h => h, fun _ q h => ⟨q, h, q.le_refl⟩, .refl _⟩

theorem trans (h : P.Later S Q) (k : Q.Later S R) : P.Later S R := by
  refine ⟨fun j note hj => k.notes j note (h.notes j note hj), fun l q hq => ?_,
    h.widens.trans k.widens⟩
  obtain ⟨q', hq', le⟩ := h.promises l q hq
  obtain ⟨q'', hq'', le'⟩ := k.promises l q' hq'
  exact ⟨q'', hq'', Mark.le_trans le le'⟩

theorem mem_notes (h : P.Later S Q) {note : Note} (hn : note ∈ P.notes) : note ∈ Q.notes := by
  obtain ⟨k, hk⟩ := Array.mem_iff_getElem?.1 hn
  exact Array.mem_iff_getElem?.2 ⟨k, h.notes k note hk⟩

end Scene.Later

namespace Scene.Follows

theorem trans (h : P.Follows S a Q) (k : Q.Follows S b R) : P.Follows S (a ++ b) R := by
  refine ⟨h.toLater.trans k.toLater, fun r hr => k.held r (h.held r hr), ?_,
    fun note hn r hr => ?_⟩
  · obtain ⟨made, hmade, sub⟩ := h.calls
    obtain ⟨made', hmade', sub'⟩ := k.calls
    exact ⟨made ++ made', by rw [hmade', hmade, List.append_assoc], sub.append sub'⟩
  · rcases k.slots note hn r hr with hn | new
    · exact h.slots note hn r hr
    · exact .inr (Nat.le_trans h.widens.registers new)

theorem mono (h : P.Follows S a Q) (done : Site.Done b a) : P.Follows S b Q := by
  obtain ⟨made, hmade, hdone⟩ := h.calls
  exact { h with calls := ⟨made, hmade, done.trans hdone⟩ }

end Scene.Follows

namespace Scene.Leads

theorem refl (P : Scene) : P.Leads S [] P :=
  ⟨⟨.refl P, fun _ h => h, ⟨[], by simp, .refl _⟩, fun _ h _ _ => .inl h⟩, fun h => h⟩

theorem trans (h : P.Leads S a Q) (k : Q.Leads S b R) : P.Leads S (a ++ b) R :=
  ⟨h.toFollows.trans k.toFollows, fun ends => h.switch (k.switch ends)⟩

theorem mono (h : P.Leads S a Q) (done : Site.Done b a) : P.Leads S b Q :=
  ⟨h.toFollows.mono done, h.switch⟩

theorem of_notes (h : P.Later S Q) (held : ∀ r ∈ P.held, r ∈ Q.held)
    (notes : Q.notes = P.notes)
    (switch : Q.state.draft.EndsInSwitch → P.state.draft.EndsInSwitch) : P.Leads S [] Q := by
  refine ⟨⟨h, held, ⟨[], ?_, .refl _⟩, fun note hn _ _ => .inl (notes ▸ hn)⟩, switch⟩
  rw [Scene.calls, notes, List.append_nil, Scene.calls]

end Scene.Leads

namespace Scene

variable {x o : Operand}

theorem Built.mono (h : P.Built S x) (later : P.Later S Q) : Q.Built S x := by
  obtain ⟨note, hn, hx⟩ := h
  exact ⟨note, later.mem_notes hn, hx⟩

theorem BuiltOn.mono {others others' : List Operand} (h : P.BuiltOn S x others)
    (later : P.Later S Q) (sub : ∀ y ∈ others', y ∈ others) : Q.BuiltOn S x others' := by
  obtain ⟨note, hn, hx, all⟩ := h
  exact ⟨note, later.mem_notes hn, hx, fun y hy => all y (sub y hy)⟩

namespace Stacked
variable {l l' : List Operand}

theorem mono (h : P.Stacked S l) (later : P.Later S Q) : Q.Stacked S l := by
  induction l with
  | nil => trivial
  | cons x others ih => exact ⟨h.1.mono later fun _ hy => hy, ih h.2⟩

theorem sublist (h : P.Stacked S l) (sub : l'.Sublist l) : P.Stacked S l' := by
  induction sub with
  | slnil => trivial
  | cons _ _ ih => exact ih h.2
  | cons_cons _ sub ih => exact ⟨h.1.mono (.refl P) fun _ hy => sub.subset hy, ih h.2⟩

theorem built (h : P.Stacked S l) : ∀ x ∈ l, P.Built S x := by
  induction l with
  | nil => simp
  | cons x others ih =>
    obtain ⟨⟨note, hn, hx, -⟩, rest⟩ := h
    exact List.forall_mem_cons.2 ⟨⟨note, hn, hx⟩, ih rest⟩

end Stacked

theorem Keeps.mono (h : P.Keeps S o) (later : P.Later S Q) : Q.Keeps S o := by
  intro r hr
  obtain ⟨given, lt, spared⟩ := h r hr
  exact ⟨given.widen later.widens, Nat.lt_of_lt_of_le lt later.widens.registers,
    later.widens.spares lt spared⟩

theorem Due.mono {o : Obligation} (h : P.Due S o) (later : P.Later S Q) : Q.Due S o := by
  rcases h with ⟨v, l, hl, object, type⟩ | ⟨note, hn, result⟩
  · exact .inl ⟨v, l, later.widens.houses.stays v l hl, object, type⟩
  · exact .inr ⟨note, later.mem_notes hn, result⟩

theorem LeavesOut.mono {k : Nat} (h : P.LeavesOut S k x) (later : P.Later S Q) :
    Q.LeavesOut S k x := by
  obtain ⟨j, note, call, v, ctor, symbol, slot, o, lt, hj, built, hk, destroys, temp, between⟩ := h
  refine ⟨j, note, call, v, ctor, symbol, slot, o, lt, later.notes j note hj, built,
    later.notes k call hk, destroys, temp.widen later.widens, fun i note' after before hi => ?_⟩
  obtain ⟨inside, -⟩ := Array.getElem?_eq_some_iff.1 hk
  have old : P.notes[i]? = some P.notes[i] := Array.getElem?_eq_getElem (Nat.lt_trans before inside)
  cases (later.notes i _ old).symm.trans hi
  exact between i _ after before old

theorem Due.calm {o : Obligation} (h : P.Due S o) (calm : S.table.destructorsCalm)
    {symbol : FunctionSymbol} (hs : S.table.functionSymbol o.destructor = .ok symbol) :
    symbol.canRaise = false := by
  rcases h with ⟨_, _, _, _, type⟩ | ⟨_, _, _, _, _, _, _, _, type⟩
  · exact SymbolTable.calm_of_destructorsCalm calm type hs
  · exact SymbolTable.calm_of_destructorsCalm calm type hs

theorem Owes.mono {o : Obligation} (h : P.Owes S o) (later : P.Later S Q) : Q.Owes S o :=
  ⟨h.1.mono later, fun follows => (h.2 follows).mono later⟩

theorem Holds.mono (h : P.Holds S o) (leads : P.Leads S a Q) : Q.Holds S o := by
  intro r hr
  obtain ⟨there, lt, spared⟩ := h r hr
  exact ⟨there.imp (·.widen leads.widens) (leads.held r),
    Nat.lt_of_lt_of_le lt leads.widens.registers, leads.widens.spares lt spared⟩

theorem Keeps.holds (h : P.Keeps S o) : P.Holds S o := fun r hr =>
  ⟨.inl (h r hr).1, (h r hr).2⟩

theorem Keeps.imm (value : Imm) : P.Keeps S (.imm value) := fun _ hr => nomatch hr

theorem Promises.mono {l : Label} {m : Mark} (h : P.Promises l m) (later : P.Later S Q) :
    Q.Promises l m := by
  obtain ⟨q, hq, le⟩ := h
  obtain ⟨q', hq', le'⟩ := later.promises l q hq
  exact ⟨q', hq', Mark.le_trans le le'⟩

theorem Carries.mono {b : PendingBranch} {held : List Register} {live : List Operand}
    (h : P.Carries b held live) (later : P.Later S Q) : Q.Carries b held live := by
  obtain ⟨note, hn, carries⟩ := h
  exact ⟨note, later.notes _ note hn, carries⟩

theorem PadFits.mono {pad : LandingPad} (h : P.PadFits S pad) (later : P.Later S Q) :
    Q.PadFits S pad := by
  refine ⟨fun o ho => (h.objects o ho).mono later, ?_⟩
  obtain ⟨below, label, built, handler⟩ := h.promised
  refine ⟨below, label.mono later, built.mono later, ?_⟩
  cases hp : pad.handler with
  | none =>
    rw [hp] at handler
    exact handler
  | some l =>
    rw [hp] at handler
    exact handler.mono later

end Scene
end Leads

section Arrives
variable {S : Setting} {P Q : Scene} {a b : List Site} {post : α → Scene → Prop}

/-- The run ends in a sound scene that continues `P`, with a value and a scene as `post` says, or
it fails. -/
def Arrives (S : Setting) (P : Scene) (sites : List Site) (post : α → Scene → Prop)
    (r : EStateM.Result Error State α) : Prop :=
  Ends (fun _ => True) (fun v t => ∃ Q : Scene, Q.state = t ∧ Q.Sound S ∧ P.Leads S sites Q ∧
    post v Q) r

namespace Arrives

variable {r : EStateM.Result Error State α}

theorem mono {post' : α → Scene → Prop} (h : Arrives S P a post r)
    (weaken : ∀ v Q, Q.Sound S → P.Leads S a Q → post v Q → post' v Q) :
    Arrives S P a post' r := by
  refine Ends.mono h ?_
  rintro v _ ⟨Q, rfl, sound, leads, hv⟩
  exact ⟨Q, rfl, sound, leads, weaken v Q sound leads hv⟩

theorem sites (h : Arrives S P a post r) (done : Site.Done b a) : Arrives S P b post r := by
  refine Ends.mono h ?_
  rintro v _ ⟨Q, rfl, sound, leads, hv⟩
  exact ⟨Q, rfl, sound, leads.mono done, hv⟩

theorem after {O : Scene} (leads : O.Leads S [] P) (h : Arrives S P a post r) :
    Arrives S O a post r := by
  refine Ends.mono h ?_
  rintro v _ ⟨Q, rfl, sound, leads', hv⟩
  exact ⟨Q, rfl, sound, leads.trans leads', hv⟩

theorem since {O : Scene} (follows : O.Follows S a P) (h : Arrives S P b post r)
    (closed : ∀ v Q, post v Q → ¬ Q.state.draft.EndsInSwitch) :
    Arrives S O (a ++ b) post r := by
  refine Ends.mono h ?_
  rintro v _ ⟨Q, rfl, sound, leads, hv⟩
  exact ⟨Q, rfl, sound,
    ⟨follows.trans leads.toFollows, fun ends => absurd ends (closed v Q hv)⟩, hv⟩

theorem here {env : Env} {v : α} (sound : P.Sound S) (h : post v P) :
    Arrives S P [] post ((pure v : LowerM α) env P.state) :=
  Ends.ret ⟨P, rfl, sound, .refl P, h⟩

variable {env : Env} {mid : α → Scene → Prop} {after : β → Scene → Prop} {m : LowerM α}
  {f : α → LowerM β}

theorem seq (h : Arrives S P a mid (m env P.state))
    (k : ∀ v Q, Q.Sound S → P.Leads S a Q → mid v Q → Arrives S Q b after (f v env Q.state)) :
    Arrives S P (a ++ b) after ((m >>= f) env P.state) := by
  refine Ends.seq h ?_
  rintro v _ ⟨Q, rfl, sound, leads, hv⟩
  refine Ends.mono (k v Q sound leads hv) ?_
  rintro w _ ⟨R, rfl, sound', leads', hw⟩
  exact ⟨R, rfl, sound', leads.trans leads', hw⟩

theorem next (h : Arrives S P [] mid (m env P.state))
    (k : ∀ v Q, Q.Sound S → P.Leads S [] Q → mid v Q → Arrives S Q b after (f v env Q.state)) :
    Arrives S P b after ((m >>= f) env P.state) :=
  seq h k

theorem last (h : Arrives S P a mid (m env P.state))
    (k : ∀ v Q, Q.Sound S → P.Leads S a Q → mid v Q → Arrives S Q [] after (f v env Q.state)) :
    Arrives S P a after ((m >>= f) env P.state) := by
  have both := seq h k
  rwa [List.append_nil] at both

theorem ending {f : Bool → LowerM β}
    (h : Arrives S P b after (f P.state.draft.endsInTerminator env P.state)) :
    Arrives S P b after ((endsInTerminator >>= f) env P.state) := h

theorem query {x : Except Error α} (h : ∀ v, x = .ok v → Arrives S P b after (f v env P.state)) :
    Arrives S P b after (((liftM x : LowerM α) >>= f) env P.state) := Ends.query h

end Arrives
end Arrives
end Marks
end FlatCode
