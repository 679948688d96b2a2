import FlatCode.Proofs.Growth.Basic

/-! Lowering as a sequence of small edits: it adds straight code, makes labels, adds one
instruction, sets a target that was not set, and keeps its books; scopes are opened and closed in
pairs. Some edits are only made by some steps. What a step may do besides plain code is told by its
effects, and each property that all edits have is a property of the whole. -/
namespace FlatCode
open Code Symbols Ast
variable {c : Cleanups}

namespace Cleanups

def grow (c : Cleanups) (added : List Obligation) : Cleanups :=
  match c.scopes with
  | [] => c
  | scope :: outer => ⟨(added ++ scope) :: outer⟩

/-- The second stack is the first one, perhaps with more obligations in the innermost scope. -/
def Grows (c c' : Cleanups) : Prop := ∃ added, c' = c.grow added

theorem grow_nil : ∀ c : Cleanups, c.grow [] = c
  | ⟨[]⟩ => rfl
  | ⟨_ :: _⟩ => rfl

theorem grow_grow (a b : List Obligation) : ∀ c : Cleanups, (c.grow a).grow b = c.grow (b ++ a)
  | ⟨[]⟩ => rfl
  | ⟨_ :: _⟩ => by simp [grow]

@[simp] theorem depth_grow (a : List Obligation) : ∀ c : Cleanups, (c.grow a).depth = c.depth
  | ⟨[]⟩ => rfl
  | ⟨_ :: _⟩ => rfl

@[simp] theorem depth_openScope (c : Cleanups) : c.openScope.depth = c.depth + 1 := rfl

theorem closeScope_grow (c : Cleanups) (a : List Obligation) :
    (c.openScope.grow a).closeScope = .ok c := rfl

namespace Grows

theorem refl (c : Cleanups) : c.Grows c := ⟨[], c.grow_nil.symm⟩

theorem trans {a b : Cleanups} (h : a.Grows b) (k : b.Grows c) : a.Grows c := by
  obtain ⟨x, rfl⟩ := h
  obtain ⟨y, rfl⟩ := k
  exact ⟨y ++ x, grow_grow x y a⟩

theorem depth_eq {a b : Cleanups} (h : a.Grows b) : b.depth = a.depth := by
  obtain ⟨x, rfl⟩ := h
  exact depth_grow x a

end Grows
end Cleanups

def CaseMap.jump (cases : CaseMap) (ty : Ty) (value : Operand) (past : Label) : Instr :=
  .switch value (cases.cases.map fun c => (c.value.toImm ty, c.label))
    ((cases.default.map CaseTarget.label).getD past)

namespace Lower

variable {m : LowerM α} {env : Env}

def State.inScope (s : State) : State := { s with cleanups := s.cleanups.openScope }

inductive Effect where
  /-- The innermost scope owes one more destructor. -/
  | owe
  /-- A name is placed or awaited. -/
  | name
  | compound
  | comment
  /-- The jump of a switch is written. -/
  | choose (e : Expr) (clauses : List Clause)

def owing (may : Effect → Prop) : Effect → Prop := fun x => x = .owe ∨ may x

/-- The second state comes from the first one by small edits, with no other effects than those
given. -/
inductive State.Trace (table : SymbolTable) : (Effect → Prop) → State → State → Prop
  | refl {may : Effect → Prop} (s : State) : Trace table may s s
  | trans {may : Effect → Prop} {s t u : State} (h : Trace table may s t)
    (k : Trace table may t u) :
    Trace table may s u
  | straight {may : Effect → Prop} {s t : State} (h : s.Adds table Instr.isInline t) :
    Trace table may s t
  | edit {may : Effect → Prop} {s : State} {d : Draft} (h : s.draft.Trace d) :
    Trace table may s { s with draft := d }
  | note {may : Effect → Prop} (s : State) (pad : LandingPad) :
    Trace table may s { s with pads := ⟨s.pads.pads.push pad⟩ }
  | scope {may : Effect → Prop} {s t : State} (h : Trace table (owing may) s.inScope t) :
    Trace table may s { t with cleanups := s.cleanups }
  | owe {may : Effect → Prop} (s : State) {o : Obligation} {ty : TypeId} (h : may .owe)
    (due : table.destructorOf ty = .ok (some o.destructor)) :
    Trace table may s { s with cleanups := s.cleanups.grow [o] }
  | name {may : Effect → Prop} (s : State) (g : Gotos) (h : may .name) :
    Trace table may s { s with gotos := g }
  | compound {may : Effect → Prop} (s : State) (h : may .compound) :
    Trace table may s { s with compounds := s.compounds + 1 }
  | comment {may : Effect → Prop} (s : State) (text : String) (h : may .comment) :
    Trace table may s { s with draft := { s.draft with body := s.draft.body.push (.comment text) } }
  | choose {may : Effect → Prop} (s : State) {e : Expr} {clauses : List Clause} {cases : CaseMap}
    {labels : List Label} {d d' : Draft} {ty : Ty} (h : may (.choose e clauses))
    (built : CaseMap.build clauses d = .ok (cases, labels) d')
    (typed : table.codeType e.ty = .ok ty)
    (value : Operand) (past : Label) :
    Trace table may s
      { s with draft := { s.draft with body := s.draft.body.push (cases.jump ty value past) } }

namespace State.Trace
variable {table : SymbolTable} {may : Effect → Prop} {s t : State}

theorem later (h : s.Trace table may t) : s.Later t := by
  induction h with
  | refl s => exact .refl s
  | trans _ _ h k => exact h.trans k
  | straight h => exact h.later
  | edit h => exact .of_draft h.later _ _ _
  | note s pad => exact ⟨.refl _, ⟨#[_], Array.push_eq_append⟩, fun _ h => h, fun _ _ h => h⟩
  | scope _ h => exact ⟨h.draft, h.pads, h.status, h.locations⟩
  | owe s _ _ => exact .of_cleanups s _
  | name s g _ => exact .of_draft (.refl _) s.cleanups g s.compounds
  | compound s _ => exact .of_draft (.refl _) s.cleanups s.gotos _
  | comment s _ _ | choose s _ _ _ _ _ => exact .of_draft (.push _) _ _ _

theorem piles (h : s.Trace table may t) : ∃ added, t.cleanups = s.cleanups.grow added ∧
    ∀ o ∈ added, ∃ ty, table.destructorOf ty = .ok (some o.destructor) := by
  induction h with
  | trans _ _ h k =>
    obtain ⟨first, ht, due⟩ := h
    obtain ⟨second, hu, due'⟩ := k
    refine ⟨second ++ first, by rw [hu, ht, Cleanups.grow_grow], fun o ho => ?_⟩
    rcases List.mem_append.1 ho with ho | ho
    · exact due' o ho
    · exact due o ho
  | straight h => exact ⟨[], h.cleanups.trans (Cleanups.grow_nil _).symm, by simp⟩
  | owe s _ due => exact ⟨[_], rfl, by simpa using ⟨_, due⟩⟩
  | _ => exact ⟨[], (Cleanups.grow_nil _).symm, by simp⟩

theorem grows (h : s.Trace table may t) : s.cleanups.Grows t.cleanups := by
  obtain ⟨added, ht, -⟩ := h.piles
  exact ⟨added, ht⟩

theorem rests (h : s.Trace table may t) (not : ¬ may .owe) : t.cleanups = s.cleanups := by
  induction h with
  | trans _ _ h k => exact (k not).trans (h not)
  | straight h => exact h.cleanups
  | owe s h _ => exact absurd h not
  | _ => rfl

theorem mono {may' : Effect → Prop} (h : s.Trace table may t) (weaken : ∀ x, may x → may' x) :
    s.Trace table may' t := by
  induction h generalizing may' with
  | refl s => exact .refl s
  | trans _ _ h k => exact (h weaken).trans (k weaken)
  | straight h => exact .straight h
  | edit h => exact .edit h
  | note s pad => exact .note s pad
  | scope _ h => exact .scope (h fun x hx => hx.imp_right (weaken x))
  | owe s h due => exact .owe s (weaken _ h) due
  | name s g h => exact .name s g (weaken _ h)
  | compound s h => exact .compound s (weaken _ h)
  | comment s text h => exact .comment s text (weaken _ h)
  | choose s h built typed value past => exact .choose s (weaken _ h) built typed value past

end State.Trace

/-- What holds from a state to itself and over two steps. -/
class Passage (R : SymbolTable → State → State → Prop) : Prop where
  refl : ∀ table s, R table s s
  trans : ∀ {table s t u}, R table s t → R table t u → R table s u

instance : Passage fun _ => State.Later := ⟨fun _ => .refl, .trans⟩

instance (may : Effect → Prop) : Passage fun table => State.Trace table may :=
  ⟨fun _ => .refl, .trans⟩

def Passes (R : SymbolTable → State → State → Prop) (m : LowerM α) : Prop :=
  ∀ env s, Ends (fun _ => True) (fun _ t => R env.symbols s t) (m env s)

abbrev Growing (m : LowerM α) : Prop := Passes (fun _ => State.Later) m

abbrev Traced (may : Effect → Prop) (m : LowerM α) : Prop :=
  Passes (fun table => State.Trace table may) m

namespace Passes
variable {R : SymbolTable → State → State → Prop} [Passage R]

theorem pure (a : α) : Passes R (pure a) := fun _ s => .ret (Passage.refl _ s)

omit [Passage R] in
theorem fail (e : Error) : Passes R (throw e : LowerM α) := fun _ _ => .fail trivial

theorem bind {f : α → LowerM β} (hm : Passes R m) (hf : ∀ a, Passes R (f a)) : Passes R (m >>= f) :=
  fun env s => (hm env s).seq fun a t h => (hf a env t).mono fun _ _ k => Passage.trans h k

omit [Passage R] in
theorem look {f : State → LowerM α} (h : ∀ s, Passes R (f s)) : Passes R (get >>= f) :=
  fun env s => .look (h s env s)

omit [Passage R] in
theorem ask {f : Env → LowerM α} (h : ∀ env, Passes R (f env)) : Passes R (read >>= f) :=
  fun env s => .ask (h env env s)

theorem answered (x : Except Error α) : Passes R (liftM x : LowerM α) :=
  fun _ s => .answered (fun _ _ => Passage.refl _ s) fun _ _ => trivial

omit [Passage R] in
theorem discarded (h : Passes R m) : Passes R (discard m : LowerM PUnit) :=
  fun env s => .discarded (h env s)

omit [Passage R] in
theorem inside {g : Env → Env} (h : Passes R m) (same : ∀ env, (g env).symbols = env.symbols) :
    Passes R (withReader g m) :=
  fun env s => .inside ((h (g env) s).mono fun _ _ k => same env ▸ k)

omit [Passage R] in
theorem inLoop (h : Passes R m) : Passes R (inLoop m) :=
  .look fun _ => h.inside fun _ => rfl

end Passes

theorem Adding.growing {p : Instr → Bool} (h : Adding p m) : Growing m :=
  fun env s => ((h env s).mono fun _ _ ht => ht.later).anyError

theorem Traced.later {may : Effect → Prop} (h : Traced may m) : Growing m :=
  fun env s => (h env s).mono fun _ _ ht => ht.later

theorem Traced.growing (h : Traced (fun _ => True) m) : Growing m := h.later

theorem edit_frame {m : Draft.Edit α} (h : Draft.Adds m) {s : State} :
    Ensures (fun _ t => s.draft.Later t.draft ∧ t = { s with draft := t.draft })
      ((liftM m : LowerM α) env s) :=
  Ends.edited ((h s.draft).mono fun _ _ hd => ⟨hd, rfl⟩)

section Steps
variable {may : Effect → Prop}

theorem Traced.weaken (h : Traced may m) : Traced (owing may) m :=
  fun env s => (h env s).mono fun _ _ ht => ht.mono fun _ => .inr

theorem Traced.strengthen (h : Traced (owing may) m) (owes : may .owe) : Traced may m :=
  fun env s => (h env s).mono fun _ _ ht => ht.mono fun _ hx => hx.elim (· ▸ owes) id

theorem StraightLine.traced (h : StraightLine m) : Traced may m :=
  fun env s => ((h env s).mono fun _ _ ht => .straight ht).anyError

theorem Traced.edited {m : Draft.Edit α} (h : Draft.Traced m) : Traced may (liftM m : LowerM α) :=
  fun _ s => .edited ((h s.draft).mono fun _ _ hd => .edit hd)

theorem emit_traced {i : Instr} (h : i.isPlain) : Traced may (emit i) :=
  (Traced.edited (Draft.emit_traced h)).bind fun _ => .pure _

theorem resolveHere_traced (pending : Pending) : Traced may (resolveHere pending) :=
  (Traced.edited (Draft.resolveHere_traced pending)).bind fun _ => .pure _

theorem newRegister_traced (ty : Ty) :
    Traced may (liftM (Draft.newRegister ty) : LowerM Register) :=
  StraightLine.traced (.newRegister ty)

theorem pendingJump_traced : Traced may (liftM Draft.pendingJump : LowerM Pending) :=
  .edited Draft.pendingJump_traced

theorem endsInTerminator_traced : Traced may endsInTerminator := .look fun _ => .pure _

theorem emitDestructor_traced (o : Obligation) : Traced may (emitDestructor o) := by
  refine (functionSymbol_straight _).traced.bind fun symbol => ?_
  split
  · exact statusSlot_straight.traced.bind fun _ => (emit_traced rfl).bind fun _ => .pure _
  · exact (emit_traced rfl).bind fun _ => .pure _

theorem notePad_traced (destroyed : Nat) : Traced may (notePad destroyed) := by
  refine .ask fun env => .look fun s => (Traced.edited Draft.newLabel_traced).bind fun l => ?_
  intro env' t
  exact State.Trace.note t _

theorem testStatus_traced (destroyed : Nat) : Traced may (testStatus destroyed) :=
  statusSlot_straight.traced.bind fun _ => (newRegister_traced _).bind fun _ =>
    (emit_traced rfl).bind fun _ => (notePad_traced destroyed).bind fun _ =>
      (Traced.edited (Draft.emit_traced rfl)).bind fun _ =>
        (Traced.edited (Draft.resolveRequiredHere_traced _)).bind fun _ => .pure _

theorem emitCleanups_traced : ∀ (owed : List Obligation) (destroyed : Nat),
    Traced may (emitCleanups destroyed owed)
  | [], _ => .pure _
  | o :: owed, destroyed => by
    refine (emitDestructor_traced o).bind fun raises => ?_
    split
    · exact (testStatus_traced _).bind fun _ => emitCleanups_traced owed _
    · exact emitCleanups_traced owed _

theorem leaveTo_traced (depth : Nat) : Traced may (leaveTo depth) :=
  .look fun _ => emitCleanups_traced _ 0

theorem emitTrace_traced (function : String) : Traced may (emitTrace function) := by
  refine .ask fun env => ?_
  split
  · exact .ask fun _ => emit_traced rfl
  · exact .pure _

theorem emitReturn_traced (value : Option Operand) : Traced may (emitReturn value) :=
  (emitTrace_traced _).bind fun _ => emit_traced rfl

theorem owe_grows (o : Obligation) (env : Env) (s : State) :
    Ensures (fun _ t => 0 < s.cleanups.depth ∧
      t = { s with cleanups := s.cleanups.grow [o] }) (owe o env s) := by
  refine .look (Ends.seq (P := fun c t => 0 < s.cleanups.depth ∧ c = s.cleanups.grow [o] ∧ t = s)
    (Ends.answered (fun c hc => ?_) fun _ _ => trivial) ?_)
  · unfold Cleanups.push at hc
    split at hc
    · cases hc
    · rename_i scope outer hs
      cases hc
      rw [Cleanups.depth, Cleanups.grow, hs]
      exact ⟨Nat.succ_pos _, rfl, rfl⟩
  · rintro _ _ ⟨inside, rfl, rfl⟩
    exact .put ⟨inside, rfl⟩

theorem oweDestructor_traced (object : Operand) (t : TypeId) :
    Traced (owing may) (oweDestructor object t) := by
  intro env s
  refine .seq (P := fun d u => u = s ∧ env.symbols.destructorOf t = .ok d)
    (Ends.table (Ends.answered (fun _ hd => ⟨rfl, hd⟩) fun _ _ => trivial)) ?_
  rintro destructor _ ⟨rfl, due⟩
  cases destructor with
  | none => exact .ret (.refl _)
  | some d => exact (owe_grows ⟨object, d⟩ env _).mono fun _ u hu => hu.2 ▸ .owe _ (.inl rfl) due

theorem dropScope_ends {E : Error → Prop} {t : State} (h : c.openScope.Grows t.cleanups) :
    Ends E (fun _ u => u = { t with cleanups := c }) (dropScope env t) := by
  obtain ⟨owed, hc⟩ := h
  refine .look (Ends.seq (P := fun c' u => c' = c ∧ u = t) ?_ ?_)
  · rw [hc, Cleanups.closeScope_grow]
    exact ⟨rfl, rfl⟩
  · rintro _ _ ⟨rfl, rfl⟩
    exact .put rfl

/-- A scope that owes nothing is closed without code. -/
theorem closeScope_drops {E : Error → Prop} {t : State} (h : t.cleanups = c.openScope) :
    Ends E (fun _ u => u = { t with cleanups := c }) (closeScope env t) := by
  have dropped : Ends E (fun _ u => u = { t with cleanups := c }) (dropScope env t) :=
    dropScope_ends (h ▸ .refl _)
  have empty : t.cleanups.pendingFrom (t.cleanups.depth - 1) = [] := by
    rw [h]
    simp [Cleanups.pendingFrom, Cleanups.openScope, Cleanups.depth]
  refine .look ?_
  rw [if_neg (by rw [h]; exact Nat.succ_ne_zero _)]
  refine .known (t := t) rfl ?_
  split
  · exact dropped
  · refine .seq (P := fun _ u => t = u) (Ends.look ?_) ?_
    · rw [empty]
      exact rfl
    · rintro _ _ rfl
      exact dropped

theorem closeScope_ends {t : State} (h : c.openScope.Grows t.cleanups) :
    Ensures (fun _ u => ∃ v, t.Trace env.symbols (fun _ => False) v ∧
      u = { v with cleanups := c }) (closeScope env t) := by
  refine .look ?_
  dsimp only
  split
  · trivial
  · refine .seq (P := fun _ u => u = t) rfl ?_
    rintro _ t rfl
    split
    · exact (dropScope_ends h).mono fun _ u hu => ⟨_, .refl _, hu⟩
    · have leaving : Traced (fun _ => False) (leaveTo (t.cleanups.depth - 1)) := leaveTo_traced _
      refine (leaving env t).seq fun _ v hv => ?_
      exact (dropScope_ends (h.trans hv.grows)).mono fun _ u hu => ⟨v, hv, hu⟩

theorem withTemporaries_traced (h : Traced (owing may) m) : Traced may (withTemporaries m) := by
  intro env s
  refine .known (t := s.inScope) rfl ?_
  refine (h env s.inScope).seq fun a t ht => (closeScope_ends ht.grows).seq ?_
  rintro _ _ ⟨v, hv, rfl⟩
  exact .ret (.scope (ht.trans (hv.mono fun _ => False.elim)))

end Steps

end Lower
end FlatCode
