import FlatCode.Proofs.Landing
import FlatCode.Proofs.Placement
import FlatCode.Proofs.Lifetime.Source

/-! Marks. In front of every instruction of a body stands a mark. It says what is known when
control comes there: whether a failure is under way, which registers have been written, and which
objects are alive. An instruction fits between two marks when it finds what it needs at the first
one and leaves what the second one says; a label promises its mark to everyone who jumps to it. -/
namespace FlatCode
open Code Symbols Ast Lower

namespace Code

namespace Instr

def address? : Instr → Option Operand
  | .store address _ | .copy address _ _ => some address
  | _ => none

def goesOn : Instr → Bool
  | .branch _ _ _ | .jump _ | .switch _ _ _ | .ret _ => false
  | _ => true

def inline : Instr → Bool
  | .label _ | .branch _ _ _ | .jump _ | .switch _ _ _ => false
  | _ => true

def choices : Instr → List Label
  | .switch _ cases default => default :: cases.map Prod.snd
  | _ => []

theorem address?_mem {i : Instr} {o : Operand} (h : i.address? = some o) : o ∈ i.operands := by
  cases i <;> cases h <;> exact List.mem_cons_self

end Instr
end Code

abbrev Lower.State.Usable (s : State) (r : Register) : Prop :=
  r.index < s.draft.registers.size ∧ s.status ≠ some r

namespace Marks

variable {callee : Callee} {arguments : List Operand} {raises : Bool} {l : Label}
  {loss : Option (List Operand)}

inductive Phase where
  | ordinary
  /-- Control does not come here from above. -/
  | dead
  /-- Behind a call that may have failed; unless it has, it has built objects. Behind a destructor,
  `loss` holds the objects that its landing pad leaves out. -/
  | called (objects : List Operand) (loss : Option (List Operand))
  /-- The status of the call has been loaded. -/
  | loaded (code : Register) (objects : List Operand) (loss : Option (List Operand))
  /-- Behind the test of the status. Only the label of its other way out can stand here. -/
  | tested (next : Label)
  /-- Behind the store of a code that is thrown. -/
  | thrown
  /-- At the beginning of a handler. -/
  | caught
  /-- In a landing pad. -/
  | unwinding
  deriving DecidableEq

def Phase.Idle (phase : Phase) : Prop := phase = .dead ∨ phase = .ordinary

def Phase.left : Phase → List Operand
  | .called _ (some left) => left
  | _ => []

structure Mark where
  phase : Phase
  /-- Registers that have been written and are still needed, but for arguments and slots. -/
  held : List Register
  /-- The objects that are alive, the latest first. -/
  live : List Operand

inductive Origin where
  | plain
  | trace
  /-- A call of the tree, with its result slot and the object it is made for. -/
  | site (site : CallSite) (symbol : FunctionSymbol) (slot : Option Register)
      (object : Option Operand)
  | destructor (o : Obligation)
  /-- The jump of a throw. -/
  | throw_
  /-- The label of a handler. -/
  | handler

structure Note where
  mark : Mark
  origin : Origin

structure Setting where
  table : SymbolTable
  /-- The name of the function. -/
  caller : String
  /-- The registers in which its arguments come. -/
  arguments : List Register
  /-- The calls, throws and handlers of its tree. -/
  sites : List Site
  /-- Whether the lives of objects are followed. -/
  follows : Bool
  called : follows = true → ∀ site, .call site ∈ sites → site.isCalled table

namespace Setting
variable (S : Setting) {r : Register}

def seen (l : List α) : List α := if S.follows then l else []

@[simp] theorem seen_nil : S.seen ([] : List α) = [] := by
  unfold seen
  split <;> rfl

theorem seen_append (a b : List α) : S.seen (a ++ b) = S.seen a ++ S.seen b := by
  unfold seen
  split <;> rfl

variable {S} in
theorem mem_of_seen {l : List α} {x : α} (h : x ∈ S.seen l) : x ∈ l := by
  unfold seen at h
  split at h
  · exact h
  · cases h

variable {S} in
theorem seen_eq (h : S.follows = true) (l : List α) : S.seen l = l := if_pos h

def alive (c : Cleanups) : List Operand := S.seen ((c.pendingFrom 0).map Obligation.object)

def aliveBelow (c : Cleanups) (depth : Nat) : List Operand :=
  S.seen ((c.pendingBelow depth).map Obligation.object)

def Given (s : State) (r : Register) : Prop :=
  r ∈ S.arguments ∨ ∃ ty name, .alloc r ty name ∈ s.draft.entry

abbrev Reads (s : State) (held : List Register) (r : Register) : Prop :=
  (S.Given s r ∨ r ∈ held) ∧ r.index < s.draft.registers.size

/-- The slot of an object that an expression builds: that of a temporary, or one that belongs to
no variable. -/
def Temp (s : State) (x : Operand) : Prop :=
  ∃ r : Register, x = .reg r ∧ ((∃ v ctor l, .call (.temporary v ctor true) ∈ S.sites ∧
      S.table.isDestructible v ∧ s.location? v = some l ∧ l.slot = r) ∨
    r.index < s.draft.registers.size ∧ ∀ v l, s.location? v = some l → l.slot ≠ r)

structure Widens (s t : State) : Prop where
  houses : s.Houses S.table t
  entry : ∀ i ∈ s.draft.entry, i ∈ t.draft.entry
  status : ∀ r, s.status = some r → t.status = some r
  fresh : ∀ r, t.status = some r → s.status = some r ∨ s.draft.registers.size ≤ r.index

variable {S} {s t u : State}

namespace Widens

theorem of_same (storage : t.storage = s.storage)
    (registers : t.draft.registers = s.draft.registers) (entry : t.draft.entry = s.draft.entry)
    (status : t.status = s.status) : S.Widens s t :=
  ⟨.of_storage storage ⟨#[], by simp [registers]⟩, fun _ h => entry ▸ h, fun _ h => status ▸ h,
    fun _ h => .inl (status ▸ h)⟩

theorem refl (s : State) : S.Widens s s :=
  .of_same rfl rfl rfl rfl

theorem trans (h : S.Widens s t) (k : S.Widens t u) : S.Widens s u := by
  refine ⟨h.houses.trans k.houses, fun i hi => k.entry i (h.entry i hi),
    fun r hr => k.status r (h.status r hr), fun r hr => ?_⟩
  rcases k.fresh r hr with hr | hr
  · exact h.fresh r hr
  · exact .inr (Nat.le_trans h.houses.registers hr)

theorem registers (h : S.Widens s t) : s.draft.registers.size ≤ t.draft.registers.size :=
  h.houses.registers

theorem spares (h : S.Widens s t) (hr : r.index < s.draft.registers.size) (hs : s.status ≠ some r) :
    t.status ≠ some r := by
  intro ht
  rcases h.fresh r ht with ht | ht
  · exact hs ht
  · omega

theorem usable (h : S.Widens s t) (hr : s.Usable r) : t.Usable r :=
  ⟨Nat.lt_of_lt_of_le hr.1 h.registers, h.spares hr.1 hr.2⟩

end Widens

theorem Given.widen (h : S.Given s r) (w : S.Widens s t) : S.Given t r := by
  rcases h with h | ⟨ty, name, h⟩
  · exact .inl h
  · exact .inr ⟨ty, name, w.entry _ h⟩

theorem Temp.widen {x : Operand} (h : S.Temp s x) (w : S.Widens s t) : S.Temp t x := by
  obtain ⟨r, rfl, ⟨v, ctor, l, site, destroyed, hl, slot⟩ | ⟨lt, apart⟩⟩ := h
  · exact ⟨r, rfl, .inl ⟨v, ctor, l, site, destroyed, w.houses.stays v l hl, slot⟩⟩
  · refine ⟨r, rfl, .inr ⟨Nat.lt_of_lt_of_le lt w.registers, fun v l hl same => ?_⟩⟩
    rcases w.houses.added v l hl with old | ⟨new, -, -⟩
    · exact apart v l old same
    · rw [same] at new
      omega

end Setting

namespace Origin
variable (S : Setting)

def site? : Origin → Option Site
  | .site here _ _ _ => some (.call here)
  | .throw_ => some .throw_
  | .handler => some .handler
  | .plain | .trace | .destructor _ => none

def slot? : Origin → Option Register
  | .site _ _ slot _ => slot
  | .plain | .trace | .destructor _ | .throw_ | .handler => none

def objects : Origin → List Operand
  | .site here symbol slot object => S.seen (here.objects S.table symbol slot object)
  | .plain | .trace | .destructor _ | .throw_ | .handler => []

end Origin

section Rules
variable (S : Setting) (s : State)

/-- The last arguments of a call: the slot of the status, if the function can raise. -/
def Reports (raises : Bool) (status : List Operand) : Prop :=
  if raises then ∃ slot, s.status = some slot ∧ status = [.reg slot] else status = []

/-- The object that a call is made for: the one in the slot of the variable that it builds. -/
def Receives (site : CallSite) (object : Option Operand) : Prop :=
  match site.built? with
  | some v => ∃ l, s.location? v = some l ∧ object = some (.reg l.slot)
  | none => object = none

inductive Calls : Origin → Callee → List Operand → Bool → Prop where
  | trace {name : String} : name = traceEnter ∨ name = traceLeave →
    Calls .trace (.direct name) [Imm.fn S.caller] false
  | site {site : CallSite} {symbol : FunctionSymbol} {slot : Option Register}
      {object : Option Operand} {operands status : List Operand} {callee : Callee} :
    .call site ∈ S.sites → S.table.functionSymbol site.function = .ok symbol →
      symbol.operator = none →
    slot.isSome = symbol.returnsByHiddenSlot → Receives s site object →
    callee = .direct symbol.name ∨ (site.isVirtual ∧ ∃ r, callee = .indirect r) →
    Reports s symbol.canRaise status →
    Calls (.site site symbol slot object) callee
      (slot.toList.map Operand.reg ++ object.toList ++ operands ++ status) symbol.canRaise
  | destructor {o : Obligation} {symbol : FunctionSymbol} {status : List Operand} :
    S.table.functionSymbol o.destructor = .ok symbol → Reports s symbol.canRaise status →
    Calls (.destructor o) (.direct symbol.name) (o.object :: status) symbol.canRaise

def Drops (x : Operand) (live live' : List Operand) : Prop :=
  S.follows = false ∧ live' = live ∨
    ∃ later earlier, live = later ++ x :: earlier ∧ live' = later ++ earlier ∧
      (later = [] ∨ S.Temp s x)

def Completes : Origin → List Operand → List Operand → Prop
  | .destructor o, live, live' => Drops S s o.object live live'
  | origin, live, live' => live' = origin.objects S ++ live

/-- What a call that may have failed has done to objects, and what it builds otherwise. Only the
landing pad of a destructor may leave objects out. -/
def Attempts : Origin → List Operand → List Operand → Option (List Operand) → List Operand → Prop
  | .destructor o, live, objects, loss, live' =>
    objects = [] ∧ loss.isSome ∧ Drops S s o.object live live'
  | origin, live, objects, loss, live' => objects = origin.objects S ∧ loss = none ∧ live' = live

/-- How what is going on, and the objects alive, change at an instruction. Behind one that control
does not run past, anything is alive. -/
inductive Turn : Origin → Phase → List Operand → Instr → Phase → List Operand → Prop where
  | straight {live : List Operand} {i : Instr} : i.isStraight →
    (∀ r, i.address? = some (.reg r) → s.status ≠ some r) →
    Turn .plain .ordinary live i .ordinary live
  | comment {live : List Operand} {text : String} :
    Turn .plain .ordinary live (.comment text) .ordinary live
  | idle {live live' : List Operand} {text : String} {phase : Phase} : phase.Idle →
    Turn .plain .dead live (.comment text) phase live'
  | label {live : List Operand} {l : Label} : Turn .plain .ordinary live (.label l) .ordinary live
  | passed {live : List Operand} {l : Label} :
    Turn .plain (.tested l) live (.label l) .ordinary live
  | entered {live live' : List Operand} {l : Label} {phase : Phase} :
    phase = .ordinary ∨ phase = .unwinding → Turn .plain .dead live (.label l) phase live'
  | handler {live live' : List Operand} {l : Label} :
    Turn .handler .dead live (.label l) .caught live'
  | branch {live : List Operand} {condition : Operand} {positive negative : Option Label} :
    Turn .plain .ordinary live (.branch condition positive negative) .ordinary live
  | jump {live live' : List Operand} {target : Option Label} {phase : Phase} : phase.Idle →
    Turn .plain .ordinary live (.jump target) phase live'
  | switch {live live' : List Operand} {value : Operand} {cases : List (Imm × Label)}
      {default : Label} {phase : Phase} : phase.Idle →
    Turn .plain .ordinary live (.switch value cases default) phase live'
  | ret {live : List Operand} {value : Option Operand} {phase : Phase} : phase.Idle →
    Turn .plain .ordinary [] (.ret value) phase live
  | call {origin : Origin} {live live' : List Operand} {callee : Callee} {arguments : List Operand}
      {dest : Option Register} : Calls S s origin callee arguments false →
    (∀ r, .reg r ∈ arguments → s.status ≠ some r) → Completes S s origin live live' →
    Turn origin .ordinary live (.call callee arguments dest) .ordinary live'
  | attempt {origin : Origin} {live live' objects : List Operand} {loss : Option (List Operand)}
      {callee : Callee} {arguments : List Operand} {dest : Option Register} :
    Calls S s origin callee arguments true → Attempts S s origin live objects loss live' →
    Turn origin .ordinary live (.call callee arguments dest) (.called objects loss) live'
  | load {live objects : List Operand} {loss : Option (List Operand)} {slot code : Register} :
    s.status = some slot →
    Turn .plain (.called objects loss) live (.load code (.reg slot))
      (.loaded code objects loss) live
  | test {live objects : List Operand} {loss : Option (List Operand)} {code : Register}
      {pad next : Label} :
    Turn .plain (.loaded code objects loss) live (.branch (.reg code) (some pad) (some next))
      (.tested next) (objects ++ live)
  | throw {live : List Operand} {slot : Register} {code : Operand} : s.status = some slot →
    Turn .plain .ordinary live (.store (.reg slot) code) .thrown live
  | raise {live live' : List Operand} {pad : Label} {phase : Phase} : phase.Idle →
    Turn .throw_ .thrown live (.jump (some pad)) phase live'
  | clear {live : List Operand} {slot : Register} : s.status = some slot →
    Turn .plain .caught live (.store (.reg slot) noException) .ordinary live
  | unwindStraight {live : List Operand} {i : Instr} : i.isStraight →
    (∀ r, i.address? = some (.reg r) → s.status ≠ some r) →
    Turn .plain .unwinding live i .unwinding live
  | unwindCall {origin : Origin} {live live' : List Operand} {callee : Callee}
      {arguments : List Operand} {dest : Option Register} {raises : Bool} :
    Calls S s origin callee arguments raises → Completes S s origin live live' →
    Turn origin .unwinding live (.call callee arguments dest) .unwinding live'
  | unwindJump {live live' : List Operand} {handler : Label} {phase : Phase} : phase.Idle →
    Turn .plain .unwinding live (.jump (some handler)) phase live'
  | unwindRet {live : List Operand} {value : Option Operand} {phase : Phase} : phase.Idle →
    Turn .plain .unwinding [] (.ret value) phase live

/-- What a landing pad finds alive: what is alive at the test; behind a destructor, at least what
it does not leave out. -/
def Finds (live : List Operand) : Option (List Operand) → List Operand → Prop
  | none, found => found = live
  | some left, found => ∀ x ∈ live, x ∈ left ∨ x ∈ found

def Phase.Cross (live : List Operand) : Phase → Edge → Mark → Prop
  | .ordinary, _, q => q.phase = .ordinary ∧ q.live = live
  | .loaded _ _ loss, .positive, q => q.phase = .unwinding ∧ Finds live loss q.live
  | .loaded _ objects _, .negative, q => q.phase = .ordinary ∧ q.live = objects ++ live
  | .thrown, _, q => q.phase = .unwinding ∧ q.live = live
  | .unwinding, _, q => q.phase = .caught ∧ q.live = live
  | _, _, _ => False

namespace Mark

def le (m n : Mark) : Prop :=
  m.phase = .dead ∧ n.phase.Idle ∨
    m.phase = n.phase ∧ m.live = n.live ∧ ∀ r ∈ n.held, r ∈ m.held

def Crosses (m : Mark) (e : Edge) (q : Mark) : Prop :=
  m.phase.Cross m.live e q ∧ ∀ r ∈ q.held, r ∈ m.held

end Mark

structure Fits (promise : Label → Option Mark) (note : Note) (i : Instr) (n : Mark) : Prop where
  reads : ∀ r, .reg r ∈ i.operands → S.Given s r ∨ r ∈ note.mark.held
  bounds : ∀ r, .reg r ∈ i.operands ∨ i.dest? = some r → r.index < s.draft.registers.size
  holds : note.mark.phase ≠ .dead → i.goesOn → ∀ r ∈ n.held,
    r ∈ note.mark.held ∨ i.dest? = some r
  turn : Turn S s note.origin note.mark.phase note.mark.live i n.phase n.live
  edge : ∀ e l, i.target? e = some (some l) → ∃ q, promise l = some q ∧ note.mark.Crosses e q
  choice : ∀ l ∈ i.choices, ∃ q, promise l = some q ∧ note.mark.Crosses .unconditional q
  label : ∀ l, i = .label l → ∃ q, promise l = some q ∧ q.phase = n.phase ∧ q.live = n.live ∧
    (note.mark.phase = .dead ∨ ∀ r ∈ q.held, r ∈ note.mark.held) ∧ ∀ r ∈ n.held, r ∈ q.held
  /-- The address of the status is not overwritten. -/
  apart : ∀ r, i.dest? = some r → s.status ≠ some r

end Rules

namespace Mark
variable {m n k : Mark}

theorem le_refl (m : Mark) : m.le m := .inr ⟨rfl, rfl, fun _ h => h⟩

theorem le_trans (h : m.le n) (h' : n.le k) : m.le k := by
  rcases h with ⟨dead, idle⟩ | ⟨phase, live, held⟩
  · refine .inl ⟨dead, ?_⟩
    rcases h' with ⟨-, idle'⟩ | ⟨phase', -⟩
    · exact idle'
    · rwa [← phase']
  · rcases h' with ⟨dead, idle⟩ | ⟨phase', live', held'⟩
    · exact .inl ⟨phase.trans dead, idle⟩
    · exact .inr ⟨phase.trans phase', live.trans live', fun r hr => held r (held' r hr)⟩

end Mark

namespace Phase.Cross
variable {phase : Phase} {live : List Operand} {e : Edge} {q q' : Mark}

theorem congr (h : phase.Cross live e q) (hp : q.phase = q'.phase) (hl : q.live = q'.live) :
    phase.Cross live e q' := by
  cases phase <;> cases e <;> simp only [Cross, hp, hl] at h ⊢ <;> exact h

theorem awake (h : phase.Cross live e q) : q.phase ≠ .dead := by
  intro dead
  cases phase <;> cases e <;> simp [Cross, dead] at h

theorem live_eq (h : phase.Cross live e q)
    (other : ∀ code objects loss, phase ≠ .loaded code objects loss) : q.live = live := by
  cases phase with
  | loaded code objects loss => exact absurd rfl (other code objects loss)
  | ordinary | thrown | unwinding => exact h.2
  | _ => cases h

end Phase.Cross

theorem Mark.Crosses.le {m q k : Mark} {e : Edge} (h : m.Crosses e q) (le : q.le k) :
    m.Crosses e k := by
  rcases le with ⟨dead, -⟩ | ⟨phase, live, held⟩
  · exact absurd dead h.1.awake
  · exact ⟨h.1.congr phase live, fun r hr => h.2 r (held r hr)⟩

theorem Calls.isCall {S : Setting} {s : State} {origin : Origin}
    (h : Calls S s origin callee arguments raises) {site : Site}
    (shows : origin.site? = some site) : site.isCall = true := by
  cases h <;> cases shows
  rfl

theorem Calls.reports {S : Setting} {s : State} {origin : Origin}
    (h : Calls S s origin callee arguments raises) (can : raises = true) :
    ∃ slot front, s.status = some slot ∧ arguments = front ++ [.reg slot] := by
  cases h with
  | trace _ => cases can
  | @site _ symbol _ _ operands status _ _ _ _ _ _ _ reports =>
    rw [Reports, if_pos can] at reports
    obtain ⟨slot, hs, rfl⟩ := reports
    exact ⟨slot, _, hs, rfl⟩
  | @destructor o symbol status _ reports =>
    rw [Reports, if_pos can] at reports
    obtain ⟨slot, hs, rfl⟩ := reports
    exact ⟨slot, [o.object], hs, rfl⟩

namespace Turn
variable {S : Setting} {s t : State} {origin : Origin} {phase phase' : Phase}
  {live live' : List Operand} {i : Instr}

theorem any (h : Turn S s origin phase live i .dead live') {phase'' : Phase} (idle : phase''.Idle)
    (live'' : List Operand) : Turn S s origin phase live i phase'' live'' := by
  cases h with
  | idle _ => exact .idle idle
  | entered h => simp at h
  | jump _ => exact .jump idle
  | switch _ => exact .switch idle
  | ret _ => exact .ret idle
  | raise _ => exact .raise idle
  | unwindJump _ => exact .unwindJump idle
  | unwindRet _ => exact .unwindRet idle

theorem dead_cases (h : Turn S s origin phase live i .dead live') :
    i.goesOn = false ∨ phase = .dead := by
  cases h with
  | idle _ => exact .inr rfl
  | entered _ => exact .inr rfl
  | _ => exact .inl rfl

theorem label_awake (h : Turn S s origin phase live (.label l) phase' live') : phase' ≠ .dead := by
  rintro rfl
  cases h with
  | entered h => simp at h

theorem of_called {objects : List Operand}
    (h : Turn S s origin (.called objects loss) live i phase' live') : ∃ slot code,
      s.status = some slot ∧ i = .load code (.reg slot) ∧ phase' = .loaded code objects loss ∧
      live' = live := by
  cases h with
  | load status => exact ⟨_, _, status, rfl, rfl, rfl⟩

theorem of_loaded {objects : List Operand} {code : Register}
    (h : Turn S s origin (.loaded code objects loss) live i phase' live') : ∃ pad next,
      i = .branch (.reg code) (some pad) (some next) ∧ phase' = .tested next ∧
      live' = objects ++ live := by
  cases h with
  | test => exact ⟨_, _, rfl, rfl, rfl⟩

theorem of_tested {next : Label} (h : Turn S s origin (.tested next) live i phase' live') :
    i = .label next ∧ phase' = .ordinary ∧ live' = live := by
  cases h with
  | passed => exact ⟨rfl, rfl, rfl⟩

theorem of_thrown (h : Turn S s origin .thrown live i phase' live') :
    (∃ pad, i = .jump (some pad)) ∧ origin = .throw_ := by
  cases h with
  | raise _ => exact ⟨⟨_, rfl⟩, rfl⟩

theorem of_caught (h : Turn S s origin .caught live i phase' live') : ∃ slot,
    s.status = some slot ∧ i = .store (.reg slot) noException ∧ phase' = .ordinary ∧
      live' = live := by
  cases h with
  | clear status => exact ⟨_, status, rfl, rfl, rfl⟩

theorem to_loaded {code : Register} {objects : List Operand}
    (h : Turn S s origin phase live i (.loaded code objects loss) live') : ∃ slot,
      s.status = some slot ∧ phase = .called objects loss ∧ i = .load code (.reg slot) := by
  cases h with
  | load status => exact ⟨_, status, rfl, rfl⟩
  | entered h | idle h | jump h | switch h | ret h | raise h | unwindJump h | unwindRet h =>
    simp [Phase.Idle] at h

theorem to_called {objects : List Operand}
    (h : Turn S s origin phase live i (.called objects loss) live') : ∃ callee arguments dest,
      i = .call callee arguments dest ∧ Calls S s origin callee arguments true ∧
      Attempts S s origin live objects loss live' := by
  cases h with
  | attempt calls attempts => exact ⟨_, _, _, rfl, calls, attempts⟩
  | entered h | idle h | jump h | switch h | ret h | raise h | unwindJump h | unwindRet h =>
    simp [Phase.Idle] at h

theorem to_thrown (h : Turn S s origin phase live i .thrown live') : ∃ slot code,
    s.status = some slot ∧ phase = .ordinary ∧ i = .store (.reg slot) code := by
  cases h with
  | throw status => exact ⟨_, _, status, rfl, rfl⟩
  | entered h | idle h | jump h | switch h | ret h | raise h | unwindJump h | unwindRet h =>
    simp [Phase.Idle] at h

theorem of_throw (h : Turn S s origin phase live i phase' live')
    (shows : origin.site? = some .throw_) : phase = .thrown := by
  cases h with
  | raise _ => rfl
  | call calls | attempt calls | unwindCall calls => cases calls.isCall shows
  | _ => cases shows

theorem of_label_caught (h : Turn S s origin phase live (.label l) .caught live') :
    origin = .handler := by
  cases h with
  | entered h => simp at h
  | handler => rfl

theorem of_label (h : Turn S s origin phase live (.label l) phase' live') :
    phase' = .ordinary ∨ phase' = .caught ∨ phase' = .unwinding := by
  cases h with
  | straight straight _ | unwindStraight straight _ => cases straight
  | label | passed => exact .inl rfl
  | entered phase => exact phase.imp_right .inr
  | handler => exact .inr (.inl rfl)

theorem to_caught (h : Turn S s origin phase live i .caught live') : ∃ l, i = .label l := by
  cases h with
  | entered _ | handler => exact ⟨_, rfl⟩
  | idle h | jump h | switch h | ret h | raise h | unwindJump h | unwindRet h =>
    simp [Phase.Idle] at h

theorem of_handler (h : Turn S s origin phase live i phase' live')
    (shows : origin.site? = some .handler) : ∃ l, i = .label l ∧ phase' = .caught := by
  cases h with
  | handler => exact ⟨_, rfl, rfl⟩
  | call calls | attempt calls | unwindCall calls => cases calls.isCall shows
  | _ => cases shows

theorem of_store {slot : Register} {code : Operand} (status : s.status = some slot)
    (h : Turn S s origin phase live (.store (.reg slot) code) phase' live') :
    phase = .ordinary ∧ phase' = .thrown ∨
      phase = .caught ∧ phase' = .ordinary ∧ code = noException := by
  cases h with
  | straight _ spares => exact absurd status (spares slot rfl)
  | unwindStraight _ spares => exact absurd status (spares slot rfl)
  | throw _ => exact .inl ⟨rfl, rfl⟩
  | clear _ => exact .inr ⟨rfl, rfl, rfl⟩

theorem setTarget (h : Turn S s origin .ordinary live i phase' live') (l : Label) (e : Edge) :
    Turn S s origin .ordinary live (i.setTarget l e) phase' live' := by
  cases i with
  | branch c positive negative =>
    cases h with
    | straight straight _ => cases straight
    | branch => cases e <;> exact .branch
  | jump target =>
    cases h with
    | straight straight _ => cases straight
    | jump idle => cases e <;> exact .jump idle
  | _ => cases e <;> exact h

end Turn

section Widen
variable {S : Setting} {s t : State} {origin : Origin} {phase phase' : Phase}
  {live live' : List Operand} {i : Instr}

theorem Reports.widen {status : List Operand} (h : Reports s raises status) (w : S.Widens s t) :
    Reports t raises status := by
  cases raises with
  | true =>
    obtain ⟨slot, hs, rfl⟩ := h
    exact ⟨slot, w.status slot hs, rfl⟩
  | false => exact h

theorem Receives.widen {site : CallSite} {object : Option Operand} (h : Receives s site object)
    (w : S.Widens s t) : Receives t site object := by
  unfold Receives at h ⊢
  split at h
  · obtain ⟨l, hl, rfl⟩ := h
    exact ⟨l, w.houses.stays _ l hl, rfl⟩
  · exact h

theorem Calls.widen (h : Calls S s origin callee arguments raises) (w : S.Widens s t) :
    Calls S t origin callee arguments raises := by
  cases h with
  | trace h => exact .trace h
  | site known symbol operator slot receives callee reports =>
    exact .site known symbol operator slot (receives.widen w) callee (reports.widen w)
  | destructor symbol reports => exact .destructor symbol (reports.widen w)

theorem Drops.widen {x : Operand} (h : Drops S s x live live') (w : S.Widens s t) :
    Drops S t x live live' := by
  rcases h with h | ⟨later, earlier, hl, hl', top | temp⟩
  · exact .inl h
  · exact .inr ⟨later, earlier, hl, hl', .inl top⟩
  · exact .inr ⟨later, earlier, hl, hl', .inr (temp.widen w)⟩

theorem Completes.widen (h : Completes S s origin live live') (w : S.Widens s t) :
    Completes S t origin live live' := by
  cases origin with
  | destructor o => exact Drops.widen h w
  | _ => exact h

theorem Attempts.widen {objects : List Operand} (h : Attempts S s origin live objects loss live')
    (w : S.Widens s t) :
    Attempts S t origin live objects loss live' := by
  cases origin with
  | destructor o => exact ⟨h.1, h.2.1, Drops.widen h.2.2 w⟩
  | _ => exact h

theorem Turn.widen (h : Turn S s origin phase live i phase' live') (w : S.Widens s t)
    (bounds : ∀ r, .reg r ∈ i.operands → r.index < s.draft.registers.size) :
    Turn S t origin phase live i phase' live' := by
  cases h with
  | straight straight spares =>
    exact .straight straight fun r hr =>
      w.spares (bounds r (Instr.address?_mem hr)) (spares r hr)
  | unwindStraight straight spares =>
    exact .unwindStraight straight fun r hr =>
      w.spares (bounds r (Instr.address?_mem hr)) (spares r hr)
  | call calls spares completes =>
    refine .call (calls.widen w) (fun r hr => ?_) (completes.widen w)
    exact w.spares (bounds r (List.mem_append_right _ hr)) (spares r hr)
  | attempt calls attempts => exact .attempt (calls.widen w) (attempts.widen w)
  | load status => exact .load (w.status _ status)
  | throw status => exact .throw (w.status _ status)
  | clear status => exact .clear (w.status _ status)
  | unwindCall calls completes => exact .unwindCall (calls.widen w) (completes.widen w)
  | comment => exact .comment
  | idle idle => exact .idle idle
  | label => exact .label
  | passed => exact .passed
  | entered h => exact .entered h
  | handler => exact .handler
  | branch => exact .branch
  | jump idle => exact .jump idle
  | switch idle => exact .switch idle
  | ret idle => exact .ret idle
  | test => exact .test
  | raise idle => exact .raise idle
  | unwindJump idle => exact .unwindJump idle
  | unwindRet idle => exact .unwindRet idle

end Widen

namespace Fits
variable {S : Setting} {s t : State} {promise promise' : Label → Option Mark} {note : Note}
  {i : Instr} {n n' : Mark}

theorem widen (h : Fits S s promise note i n) (w : S.Widens s t) : Fits S t promise note i n :=
  { h with
    reads := fun r hr => (h.reads r hr).imp_left (·.widen w)
    bounds := fun r hr => Nat.lt_of_lt_of_le (h.bounds r hr) w.registers
    turn := h.turn.widen w fun r hr => h.bounds r (.inl hr)
    apart := fun r hr => w.spares (h.bounds r (.inr hr)) (h.apart r hr) }

theorem le (h : Fits S s promise note i n) (le : n.le n') : Fits S s promise note i n' := by
  rcases le with ⟨dead, idle⟩ | ⟨phase, live, held⟩
  · have turn := h.turn
    rw [dead] at turn
    refine { h with holds := fun awake on => ?_, turn := turn.any idle _, label := ?_ }
    · rcases turn.dead_cases with off | asleep
      · rw [off] at on
        cases on
      · exact absurd asleep awake
    · rintro l rfl
      exact absurd rfl turn.label_awake
  · refine { h with holds := fun awake on r hr => h.holds awake on r (held r hr), turn := ?_,
                    label := fun l hl => ?_ }
    · rw [← phase, ← live]
      exact h.turn
    · obtain ⟨q, hq, hphase, hlive, before, after⟩ := h.label l hl
      exact ⟨q, hq, hphase.trans phase, hlive.trans live, before, fun r hr => after r (held r hr)⟩

theorem repromise (h : Fits S s promise note i n)
    (less : ∀ l q, promise l = some q → ∃ q', promise' l = some q' ∧ q.le q')
    (here : ∀ l, i = .label l → promise' l = promise l) : Fits S s promise' note i n := by
  refine { h with edge := fun e l hl => ?_, choice := fun l hl => ?_, label := fun l hl => ?_ }
  · obtain ⟨q, hq, crosses⟩ := h.edge e l hl
    obtain ⟨q', hq', le⟩ := less l q hq
    exact ⟨q', hq', crosses.le le⟩
  · obtain ⟨q, hq, crosses⟩ := h.choice l hl
    obtain ⟨q', hq', le⟩ := less l q hq
    exact ⟨q', hq', crosses.le le⟩
  · rw [here l hl]
    exact h.label l hl

/-- A target that is not set may be set to a label that promises what the edge brings. -/
theorem set (h : Fits S s promise note i n) {e : Edge} {q : Mark}
    (ordinary : note.mark.phase = .ordinary) (hq : promise l = some q)
    (crosses : note.mark.Crosses e q) : Fits S s promise note (i.setTarget l e) n := by
  have edge : ∀ e' l', (i.setTarget l e).target? e' = some (some l') →
      ∃ q, promise l' = some q ∧ note.mark.Crosses e' q := by
    intro e' l' ht
    rw [Instr.target?_setTarget] at ht
    split at ht
    · rename_i same
      subst same
      obtain ⟨old, -, rfl⟩ : ∃ old, i.target? e' = some old ∧ l = l' := by
        obtain ⟨old, hold, heq⟩ := Option.map_eq_some_iff.1 ht
        exact ⟨old, hold, by simpa using heq⟩
      exact ⟨q, hq, crosses⟩
    · exact h.edge e' l' ht
  have turn := h.turn
  rw [ordinary] at turn
  have turn := turn.setTarget l e
  rw [← ordinary] at turn
  cases i with
  | branch c p k =>
    cases e <;>
      exact ⟨h.reads, h.bounds, h.holds, turn, edge, h.choice, fun _ hl => (nomatch hl), h.apart⟩
  | jump t =>
    cases e <;>
      exact ⟨h.reads, h.bounds, h.holds, turn, edge, h.choice, fun _ hl => (nomatch hl), h.apart⟩
  | _ => cases e <;> exact h

end Fits
end Marks
end FlatCode
