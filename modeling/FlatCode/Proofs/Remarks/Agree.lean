import FlatCode.Proofs.Remarks.Weave

/-! Two runs side by side. The first run may write comments that the second one does not, or it
traces calls and the second one does not. Their states are the same except for the labels and the
places of instructions, and a growing list of ties says which of these correspond. Steps of both
runs agree if they end in states that are tied again, with values that are tied, or fail for the
same reason. -/
namespace FlatCode
open Code Symbols Ast List
variable {l l' : Label} {T U : Ties} {V : Ties → α → α' → Prop} {W : Ties → β → β' → Prop} {a : α}

structure Ties where
  /-- What only the first run writes. -/
  extra : Extra
  /-- For each label of the first run, the label of the second one at the same place. -/
  labels : List Label
  /-- The places of corresponding instructions. -/
  sites : List (InstrId × InstrId)

namespace Ties

variable {p : Pending}

def Joins (T : Ties) (l l' : Label) : Prop := T.labels[l.index]? = some l'

def Waits (T : Ties) : Pending → Pending → Prop :=
  List.Forall₂ fun b b' => (b.instr, b'.instr) ∈ T.sites ∧ b.edge = b'.edge

structure Later (T U : Ties) : Prop where
  extra : U.extra = T.extra
  labels : T.labels <+: U.labels
  sites : T.sites ⊆ U.sites

namespace Later
variable {T U V : Ties}

theorem refl (T : Ties) : T.Later T := ⟨rfl, prefix_refl _, List.Subset.refl _⟩

theorem trans (h : T.Later U) (k : U.Later V) : T.Later V :=
  ⟨k.extra.trans h.extra, h.labels.trans k.labels, List.Subset.trans h.sites k.sites⟩

theorem joins (h : T.Later U) (hl : T.Joins l l') : U.Joins l l' := by
  obtain ⟨more, same⟩ := h.labels
  unfold Joins at hl ⊢
  rw [← same, List.getElem?_append_left (List.getElem?_eq_some_iff.1 hl).1, hl]

theorem waits (h : T.Later U) {q : Pending} (hp : T.Waits p q) : U.Waits p q :=
  hp.imp fun _ _ hb => ⟨h.sites hb.1, hb.2⟩

theorem joins_option (h : T.Later U) {l l' : Option Label} (hl : Option.Rel T.Joins l l') :
    Option.Rel U.Joins l l' :=
  Instr.Match.mono_target (fun _ _ => h.joins) hl

end Later

def label (T : Ties) (l : Label) : Ties := ⟨T.extra, T.labels ++ [l], T.sites⟩

theorem later_label (T : Ties) (l : Label) : T.Later (T.label l) :=
  ⟨rfl, prefix_append _ _, List.Subset.refl _⟩

theorem Waits.append {p' q q' : Pending} (hp : T.Waits p p') (hq : T.Waits q q') :
    T.Waits (p ++ q) (p' ++ q') := rel_append hp hq

theorem Waits.isEmpty {p' : Pending} (h : T.Waits p p') : p'.isEmpty = p.isEmpty := by
  cases h <;> rfl

end Ties

/-- The same failure, unless both are failures of the bookkeeping. -/
def Error.Like (e e' : Error) : Prop := e = e' ∨ e.isInternal = true ∧ e'.isInternal = true

def Together (V : Ties → α → β → Prop) (R : Ties → σ → σ → Prop) (T : Ties) :
    EStateM.Result Error σ α → EStateM.Result Error σ β → Prop
  | .ok a s, .ok b t => ∃ U, T.Later U ∧ R U s t ∧ V U a b
  | .error e _, .error e' _ => e.Like e'
  | _, _ => False

def Same (_ : Ties) (a b : α) : Prop := a = b

namespace Together
variable {R : Ties → σ → σ → Prop} {T : Ties}

theorem next {m : EStateM Error σ α} {m' : EStateM Error σ α'} {f : α → EStateM Error σ β}
    {f' : α' → EStateM Error σ β'} {s t : σ} (h : Together V R T (m s) (m' t))
    (k : ∀ U a a' s1 t1, m s = .ok a s1 → m' t = .ok a' t1 → T.Later U → R U s1 t1 → V U a a' →
      Together W R U (f a s1) (f' a' t1)) :
    Together W R T ((m >>= f) s) ((m' >>= f') t) := by
  change Together W R T (EStateM.bind m f s) (EStateM.bind m' f' t)
  unfold EStateM.bind
  cases hm : m s with
  | ok a s1 =>
    cases hm' : m' t with
    | ok a' t1 =>
      rw [hm, hm'] at h
      obtain ⟨U, later, related, value⟩ := h
      have rest := k U a a' s1 t1 hm hm' later related value
      change Together W R T (f a s1) (f' a' t1)
      revert rest
      cases f a s1 <;> cases f' a' t1 <;> intro rest
      · obtain ⟨V, later', rest⟩ := rest
        exact ⟨V, later.trans later', rest⟩
      · exact rest
      · exact rest
      · exact rest
    | error e' t1 =>
      rw [hm, hm'] at h
      exact h.elim
  | error e s1 =>
    cases hm' : m' t with
    | ok a' t1 =>
      rw [hm, hm'] at h
      exact h.elim
    | error e' t1 =>
      rw [hm, hm'] at h
      exact h

end Together

section Drafts

structure Draft.Tied (T : Ties) (d d' : Draft) : Prop where
  labels : T.labels.length = d.labels
  registers : d'.registers = d.registers
  entry : d'.entry = d.entry
  body : Weave T.extra T.Joins T.sites d.body d'.body
  /-- Tracing does not change labels. -/
  counted : T.extra = .traces → T.labels = (List.range d'.labels).map Label.mk

theorem Draft.Tied.joins_label {d d' : Draft} (h : d.Tied T d') (l : Label) :
    (T.label l).Joins ⟨d.labels⟩ l := by
  simp [Ties.Joins, Ties.label, ← h.labels]

def Draft.Agree (T : Ties) (V : Ties → α → α' → Prop) (m : Draft.Edit α) (m' : Draft.Edit α') :
    Prop :=
  ∀ U d d', T.Later U → d.Tied U d' → Together V Draft.Tied U (m d) (m' d')

namespace Draft.Agree
variable {T : Ties}

theorem pure {a' : α'} (h : ∀ U, T.Later U → V U a a') : Agree T V (pure a) (pure a') :=
  fun U _ _ later tied => ⟨U, .refl U, tied, h U later⟩

theorem fail {e e' : Error} (h : e.Like e') : Agree T V (throw e) (throw e') :=
  fun _ _ _ _ _ => h

theorem bind {m : Edit α} {m' : Edit α'} {f : α → Edit β} {f' : α' → Edit β'} (hm : Agree T V m m')
    (hf : ∀ U a a', T.Later U → V U a a' → Agree U W (f a) (f' a')) :
    Agree T W (m >>= f) (m' >>= f') :=
  fun U d d' later tied => (hm U d d' later tied).next
    fun X a a' s t _ _ later' tied' value =>
      hf X a a' (later.trans later') value X s t (.refl X) tied'

theorem look {f : Draft → Edit α} {f' : Draft → Edit α'}
    (h : ∀ U d d', T.Later U → d.Tied U d' → Together V Draft.Tied U (f d d) (f' d' d')) :
    Agree T V (get >>= f) (get >>= f') := h

end Draft.Agree

namespace Draft
variable {T : Ties} {pending pending' : Pending}

theorem newRegister_agrees (ty : Ty) : Agree T Same (newRegister ty) (newRegister ty) := by
  intro U d d' _ tied
  refine ⟨U, .refl U, { tied with registers := ?_ }, ?_⟩
  · exact congrArg (·.push ty) tied.registers
  · exact congrArg (fun registers : Array Ty => (⟨registers.size⟩ : Register)) tied.registers.symm

theorem emitEntry_agrees (i : Instr) : Agree T Same (emitEntry i) (emitEntry i) :=
  fun U _ _ _ tied => ⟨U, .refl U,
    { tied with entry := congrArg (·.push i) tied.entry }, rfl⟩

theorem allocSlot_agrees (ty : Ty) (name : Option String) :
    Agree T Same (allocSlot ty name) (allocSlot ty name) := by
  refine (newRegister_agrees (.ptr ty)).bind fun U r r' _ same => ?_
  cases same
  exact (emitEntry_agrees _).bind fun _ _ _ _ _ => .pure fun _ _ => rfl

theorem newLabel_agrees : Agree T Ties.Joins newLabel newLabel := by
  intro U d d' _ tied
  refine ⟨_, U.later_label ⟨d'.labels⟩, ⟨?_, tied.registers, tied.entry, ?_, fun traces => ?_⟩,
    tied.joins_label _⟩
  · simp [Ties.label, tied.labels]
  · exact tied.body.mono fun _ _ => (U.later_label _).joins
  · simp [Ties.label, tied.counted traces, range_succ]

theorem emit_agrees {i j : Instr} (h : ∀ U, T.Later U → i.Match U.extra U.Joins j) :
    Agree T (fun U k k' => (k, k') ∈ U.sites) (emit i) (emit j) := by
  intro U d d' before tied
  let X : Ties := ⟨U.extra, U.labels, U.sites ++ [(⟨d.body.size⟩, ⟨d'.body.size⟩)]⟩
  have later : U.Later X := ⟨rfl, prefix_refl _, subset_append_left _ _⟩
  refine ⟨X, later, ⟨tied.labels, tied.registers, tied.entry, ?_, tied.counted⟩, ?_⟩
  · exact tied.body.both (h U before)
  · simp [X]

theorem place_agrees (h : T.Joins l l') : Agree T Same (place l) (place l') :=
  fun U _ _ before tied => ⟨U, .refl U,
    { tied with body := tied.body.label (before.joins h) }, rfl⟩

/-- The label of the point reached. It may be new in the first run only. -/
theorem hereLabel_agrees : Agree T Ties.Joins hereLabel hereLabel := by
  intro U d d' _ tied
  obtain ⟨l, last, hl⟩ | ⟨other, hl⟩ := hereLabel_cases d
  · obtain ⟨l', last', tied'⟩ := tied.body.last last
    obtain ⟨l1, last1, hl'⟩ | ⟨other', -⟩ := hereLabel_cases d'
    · rw [hl, hl']
      rw [last1] at last'
      cases last'
      exact ⟨U, .refl U, tied, tied'⟩
    · exact absurd last' (other' l')
  · rw [hl]
    obtain ⟨l', last', hl'⟩ | ⟨-, hl'⟩ := hereLabel_cases d'
    · rw [hl']
      obtain ⟨returns, comments⟩ : ∃ returns, U.extra = .comments returns := by
        have body := tied.body
        cases hx : U.extra with
        | comments returns => exact ⟨returns, rfl⟩
        | traces =>
          rw [hx] at body
          obtain ⟨l, last⟩ := body.last_of_traces last'
          exact absurd last (other l)
      refine ⟨_, U.later_label l', ⟨?_, tied.registers, tied.entry, ?_, fun traces => ?_⟩,
        tied.joins_label l'⟩
      · simp [Ties.label, tied.labels]
      · exact (tied.body.mono fun _ _ => (U.later_label l').joins).again comments last'
          (tied.joins_label l')
      · cases comments.symm.trans traces
    · rw [hl']
      exact (newLabel_agrees.bind fun X l l' _ hl => (place_agrees hl).bind fun _ _ _ later _ =>
        .pure fun _ more => (later.trans more).joins hl) U d d' (.refl U) tied

theorem patch_agrees (hl : T.Joins l l') {b b' : PendingBranch}
    (site : (b.instr, b'.instr) ∈ T.sites) (edge : b.edge = b'.edge) :
    Agree T Same (patch l b) (patch l' b') := by
  refine .look fun U d d' before tied => ?_
  obtain ⟨i, j, hi, hj, same⟩ := tied.body.site (before.sites site)
  have targets := same.target b.edge
  rw [hi, hj, ← edge, Option.bind_some, Option.bind_some]
  generalize i.target? b.edge = x at targets ⊢
  generalize j.target? b.edge = y at targets ⊢
  cases targets with
  | none => exact .inr ⟨rfl, rfl⟩
  | some targets =>
    cases targets with
    | some _ => exact .inr ⟨rfl, rfl⟩
    | none =>
      refine ⟨U, .refl U, { tied with body := ?_ }, rfl⟩
      refine tied.body.modify (before.sites site) (fun i j same => ?_) (fun l => ?_)
        (fun i hi => ?_) fun i hi => ?_
      · exact same.setTarget (before.joins hl) b.edge
      · cases b.edge <;> rfl
      · exact Instr.setTarget_straight hi l b.edge
      · exact Instr.setTarget_straight hi l' b.edge

theorem forM_patch_agrees (hl : T.Joins l l') (h : T.Waits pending pending') :
    Agree T Same (pending.forM (patch l)) (pending'.forM (patch l')) := by
  induction pending generalizing T pending' with
  | nil =>
    cases h
    exact .pure fun _ _ => rfl
  | cons b pending ih =>
    cases h with
    | cons hb rest =>
      exact (patch_agrees hl hb.1 hb.2).bind fun U _ _ later _ =>
        ih (later.joins hl) (later.waits rest)

theorem backpatch_agrees (hl : T.Joins l l') (h : T.Waits pending pending') :
    Agree T Same (backpatch pending l) (backpatch pending' l') := by
  unfold backpatch
  rw [h.isEmpty]
  split
  · exact .fail (.inl rfl)
  · exact forM_patch_agrees hl h

theorem resolveHere_agrees (h : T.Waits pending pending') :
    Agree T (fun U => Option.Rel U.Joins) (resolveHere pending) (resolveHere pending') := by
  unfold resolveHere
  rw [h.isEmpty]
  split
  · exact .pure fun _ _ => .none
  · refine hereLabel_agrees.bind fun U l l' later hl => ?_
    refine (backpatch_agrees hl (later.waits h)).bind fun X _ _ later' _ => ?_
    exact .pure fun _ later'' => .some ((later'.trans later'').joins hl)

theorem resolveRequiredHere_agrees (h : T.Waits pending pending') :
    Agree T Ties.Joins (resolveRequiredHere pending) (resolveRequiredHere pending') := by
  unfold resolveRequiredHere
  rw [h.isEmpty]
  split
  · exact .fail (.inl rfl)
  · refine hereLabel_agrees.bind fun U l l' later hl => ?_
    refine (backpatch_agrees hl (later.waits h)).bind fun X _ _ later' _ => ?_
    exact .pure fun _ later'' => (later'.trans later'').joins hl

theorem resolveTo_agrees (h : T.Waits pending pending') (hl : T.Joins l l') :
    Agree T Same (resolveTo pending l) (resolveTo pending' l') := by
  unfold resolveTo
  rw [h.isEmpty]
  split
  · exact .pure fun _ _ => rfl
  · exact backpatch_agrees hl h

theorem pendingJump_agrees : Agree T Ties.Waits pendingJump pendingJump := by
  refine (emit_agrees fun _ _ => .jump .none).bind fun U k k' _ site => ?_
  exact .pure fun _ later => .cons ⟨later.sites site, rfl⟩ .nil

end Draft

end Drafts

structure Gotos.Tied (T : Ties) (g g' : Gotos) : Prop where
  placed : List.Forall₂ (fun p q => p.1 = q.1 ∧ T.Joins p.2 q.2) g.placed g'.placed
  pending : List.Forall₂ (fun p q => p.1 = q.1 ∧ T.Waits p.2 q.2) g.pending g'.pending

theorem Gotos.Tied.mono (later : T.Later U) {g g' : Gotos} (h : g.Tied T g') : g.Tied U g' :=
  ⟨h.placed.imp fun _ _ hp => ⟨hp.1, later.joins hp.2⟩,
    h.pending.imp fun _ _ hp => ⟨hp.1, later.waits hp.2⟩⟩

def Extra.Asked : Extra → Options → Options → Prop
  | .comments _, first, second =>
    second.traceCalls = first.traceCalls ∧ second.debugComments = false
  | .traces, first, second => first.traceCalls = true ∧ second.traceCalls = false ∧
    second.debugComments = first.debugComments

def Symbols.SymbolTable.returnsInRegister (table : SymbolTable) (symbol : FunctionSymbol)
    (hidden : Bool) : Bool :=
  !hidden && (table.isVoid symbol.returnType).toOption == some false

def Ties.Returns (T : Ties) (value : Option Operand) : Prop :=
  ∀ b, T.extra = .comments (some b) → value.isSome = b

theorem Ties.Later.returns (later : T.Later U) {value : Option Operand} (h : T.Returns value) :
    U.Returns value :=
  fun b known => h b (later.extra.symm.trans known)

/-- A call that does not trace where only the first run traces. -/
def Ties.Calls (T : Ties) (callee : Callee) : Prop := T.extra = .traces → callee.isTrace = false

theorem Ties.Later.calls (later : T.Later U) {callee : Callee} (h : T.Calls callee) :
    U.Calls callee :=
  fun traces => h (later.extra.symm.trans traces)

namespace Lower

variable {m : LowerM α} {f : α → LowerM β}

structure PadTied (T : Ties) (p q : LandingPad) : Prop where
  id : p.id = q.id
  label : T.Joins p.label q.label
  handler : Option.Rel T.Joins p.handler q.handler
  cleanups : p.cleanups = q.cleanups

structure State.Tied (T : Ties) (s t : State) : Prop where
  draft : s.draft.Tied T t.draft
  storage : t.storage = s.storage
  cleanups : t.cleanups = s.cleanups
  pads : List.Forall₂ (PadTied T) s.pads.pads.toList t.pads.pads.toList
  gotos : s.gotos.Tied T t.gotos
  compounds : t.compounds = s.compounds
  status : t.status = s.status

structure CaseTied (T : Ties) (c c' : CaseTarget) : Prop where
  label : T.Joins c.label c'.label
  clause : c.clause = c'.clause
  value : c.value = c'.value

structure CasesTied (T : Ties) (m m' : CaseMap) : Prop where
  cases : List.Forall₂ (CaseTied T) m.cases m'.cases
  default : Option.Rel (CaseTied T) m.default m'.default

structure Env.Tied (T : Ties) (env env' : Env) : Prop where
  symbols : env'.symbols = env.symbols
  symbol : env'.symbol = env.symbol
  options : T.extra.Asked env.options env'.options
  /-- No function traces calls where only one run does. -/
  apart : ∀ f symbol, env.symbols.functionSymbol f = .ok symbol → T.Calls (.direct symbol.name)
  /-- Whether a return carries a value can be seen by the surroundings. -/
  returns : ∀ b, T.extra = .comments (some b) →
    b = env.symbols.returnsInRegister env.symbol env.result.isSome
  labels : env'.labels = env.labels
  result : env'.result = env.result
  callerStatus : env'.callerStatus = env.callerStatus
  scopes : env'.scopes = env.scopes
  breakDepth : env'.breakDepth = env.breakDepth
  loopDepth : env'.loopDepth = env.loopDepth
  switch : Option.Rel (fun a b => CasesTied T a.cases b.cases ∧ a.depth = b.depth) env.switch
    env'.switch
  region : Option.Rel (fun a b => T.Joins a.handler b.handler ∧ a.depth = b.depth) env.region
    env'.region

section Later
variable {T U : Ties}

theorem rel_cases {P : α → β → Prop} {x : Option α} {y : Option β} (h : Option.Rel P x y) :
    x = none ∧ y = none ∨ ∃ a b, x = some a ∧ y = some b ∧ P a b := by
  cases h with
  | none => exact .inl ⟨rfl, rfl⟩
  | some h => exact .inr ⟨_, _, rfl, rfl, h⟩

theorem rel_mono {P Q : α → β → Prop} (weaken : ∀ a b, P a b → Q a b) {x : Option α}
    {y : Option β} (h : Option.Rel P x y) : Option.Rel Q x y := by
  cases h with
  | none => exact .none
  | some h => exact .some (weaken _ _ h)

theorem CaseTied.mono (later : T.Later U) {c c' : CaseTarget} (h : CaseTied T c c') :
    CaseTied U c c' :=
  ⟨later.joins h.label, h.clause, h.value⟩

theorem CasesTied.mono (later : T.Later U) {m m' : CaseMap} (h : CasesTied T m m') :
    CasesTied U m m' :=
  ⟨h.cases.imp fun _ _ => .mono later, rel_mono (fun _ _ => .mono later) h.default⟩

theorem PadTied.mono (later : T.Later U) {p q : LandingPad} (h : PadTied T p q) : PadTied U p q :=
  ⟨h.id, later.joins h.label, later.joins_option h.handler, h.cleanups⟩

theorem Env.Tied.mono (later : T.Later U) {env env' : Env} (h : env.Tied T env') :
    env.Tied U env' :=
  { h with
    options := by rw [later.extra]; exact h.options
    apart := fun f symbol hf => later.calls (h.apart f symbol hf)
    returns := fun b known => h.returns b (later.extra.symm.trans known)
    switch := rel_mono (fun _ _ hs => ⟨hs.1.mono later, hs.2⟩) h.switch
    region := rel_mono (fun _ _ hr => ⟨later.joins hr.1, hr.2⟩) h.region }

theorem State.Tied.edit (later : T.Later U) {s t : State} (h : s.Tied T t) {d d' : Draft}
    (draft : d.Tied U d') : State.Tied U { s with draft := d } { t with draft := d' } :=
  { draft := draft
    storage := h.storage
    cleanups := h.cleanups
    pads := h.pads.imp fun _ _ => .mono later
    gotos := h.gotos.mono later
    compounds := h.compounds
    status := h.status }

end Later

def Agree (T : Ties) (V : Ties → α → α' → Prop) (m : LowerM α) (m' : LowerM α') : Prop :=
  ∀ U env env' s t, T.Later U → env.Tied U env' → s.Tied U t →
    Together V State.Tied U (m env s) (m' env' t)

def Mirrored (V : Ties → α → α → Prop) (m : LowerM α) : Prop := ∀ T, Agree T V m m

namespace Agree
variable {T : Ties} {m' : LowerM α'}

theorem pure {a' : α'} (h : ∀ U, T.Later U → V U a a') : Agree T V (pure a) (pure a') :=
  fun U _ _ _ _ later _ tied => ⟨U, .refl U, tied, h U later⟩

theorem fail (e : Error) : Agree T V (throw e) (throw e) :=
  fun _ _ _ _ _ _ _ _ => .inl rfl

theorem bind {f' : α' → LowerM β'} (hm : Agree T V m m')
    (hf : ∀ U a a', T.Later U → V U a a' → Agree U W (f a) (f' a')) :
    Agree T W (m >>= f) (m' >>= f') :=
  fun U env env' s t later around tied =>
    Together.next (hm U env env' s t later around tied) fun X a a' s t _ _ later' tied' value =>
      hf X a a' (later.trans later') value X env env' s t (.refl X) (around.mono later') tied'

theorem seq {m' : LowerM α} {f' : α → LowerM β'} (hm : Agree T Same m m')
    (hf : ∀ U a, T.Later U → Agree U W (f a) (f' a)) :
    Agree T W (m >>= f) (m' >>= f') := by
  refine hm.bind fun U a a' later same => ?_
  cases same
  exact hf U a later

theorem later (h : Agree T V m m') (more : T.Later U) : Agree U V m m' :=
  fun X env env' s t after => h X env env' s t (more.trans after)

theorem look {f : State → LowerM α} {f' : State → LowerM α'}
    (h : ∀ U s t, T.Later U → s.Tied U t → Agree U V (f s) (f' t)) :
    Agree T V (get >>= f) (get >>= f') :=
  fun U env env' s t later around tied =>
    h U s t later tied U env env' s t (.refl U) around tied

theorem ask {f : Env → LowerM α} {f' : Env → LowerM α'}
    (h : ∀ U env env', T.Later U → env.Tied U env' → Agree U V (f env) (f' env')) :
    Agree T V (read >>= f) (read >>= f') :=
  fun U env env' s t later around tied =>
    h U env env' later around U env env' s t (.refl U) around tied

theorem table {f : SymbolTable → LowerM α} {f' : SymbolTable → LowerM α'}
    (h : ∀ table, Agree T V (f table) (f' table)) :
    Agree T V (symbols >>= f) (symbols >>= f') := by
  intro U env env' s t later around tied
  change Together V State.Tied U (f env.symbols env s) (f' env'.symbols env' t)
  rw [around.symbols]
  exact h env.symbols U env env' s t later around tied

theorem edited {m : Draft.Edit α} {m' : Draft.Edit α'} (h : Draft.Agree T V m m') :
    Agree T V (liftM m : LowerM α) (liftM m' : LowerM α') := by
  intro U env env' s t later _ tied
  have run := h U s.draft t.draft later tied.draft
  change Together V State.Tied U (edit m s) (edit m' t)
  unfold edit
  cases hm : m s.draft with
  | ok a d =>
    cases hm' : m' t.draft with
    | ok a' d' =>
      rw [hm, hm'] at run
      obtain ⟨X, later', drafts, value⟩ := run
      simp only [hm, hm']
      exact ⟨X, later', tied.edit later' drafts, value⟩
    | error e' d' =>
      rw [hm, hm'] at run
      exact run.elim
  | error e d =>
    cases hm' : m' t.draft with
    | ok a' d' =>
      rw [hm, hm'] at run
      exact run.elim
    | error e' d' =>
      rw [hm, hm'] at run
      simp only [hm, hm']
      exact run

theorem answered (x : Except Error α) : Agree T Same (liftM x : LowerM α) (liftM x) := by
  cases x with
  | ok a => exact .pure fun _ _ => rfl
  | error e => exact .fail e

theorem inside {g g' : Env → Env}
    (hg : ∀ U env env', T.Later U → env.Tied U env' → (g env).Tied U (g' env'))
    (h : Agree T V m m') : Agree T V (withReader g m) (withReader g' m') :=
  fun U env env' s t later around tied =>
    h U (g env) (g' env') s t later (hg U env env' later around) tied

theorem modify {g g' : State → State} (h : ∀ U s t, T.Later U → s.Tied U t → (g s).Tied U (g' t)) :
    Agree T Same (modify g : LowerM PUnit) (modify g') :=
  fun U _ _ s t later _ tied => ⟨U, .refl U, h U s t later tied, rfl⟩

theorem discarded (h : Agree T V m m') : Agree T Same (discard m : LowerM PUnit) (discard m') :=
  h.bind fun _ _ _ _ _ => .pure fun _ _ => rfl

end Agree

namespace Mirrored
variable {V : Ties → α → α → Prop}

theorem ret (h : ∀ T, V T a a) : Mirrored V (pure a) := fun _ => .pure fun U _ => h U

theorem pure (a : α) : Mirrored Same (pure a) := .ret fun _ => rfl

theorem fail (e : Error) : Mirrored V (throw e : LowerM α) := fun _ => .fail e

theorem bind {W : Ties → β → β → Prop} (hm : Mirrored V m)
    (hf : ∀ T a a', V T a a' → Agree T W (f a) (f a')) : Mirrored W (m >>= f) :=
  fun T => (hm T).bind fun U a a' _ value => hf U a a' value

theorem seq {W : Ties → β → β → Prop} (hm : Mirrored Same m) (hf : ∀ a, Mirrored W (f a)) :
    Mirrored W (m >>= f) :=
  fun T => (hm T).seq fun U a _ => hf a U

theorem look {f : State → LowerM α} (h : ∀ T s t, s.Tied T t → Agree T V (f s) (f t)) :
    Mirrored V (get >>= f) :=
  fun _ => .look fun U s t _ => h U s t

theorem ask {f : Env → LowerM α} (h : ∀ T env env', env.Tied T env' → Agree T V (f env) (f env')) :
    Mirrored V (read >>= f) :=
  fun _ => .ask fun U env env' _ => h U env env'

theorem table {f : SymbolTable → LowerM α} (h : ∀ table, Mirrored V (f table)) :
    Mirrored V (symbols >>= f) :=
  fun T => .table fun table => h table T

theorem edited {m : Draft.Edit α} (h : ∀ T, Draft.Agree T V m m) :
    Mirrored V (liftM m : LowerM α) :=
  fun T => .edited (h T)

theorem answered (x : Except Error α) : Mirrored Same (liftM x : LowerM α) := fun _ => .answered x

theorem forM {f : α → LowerM PUnit} (h : ∀ a, Mirrored Same (f a)) : ∀ as : List α,
    Mirrored Same (as.forM f)
  | [] => pure _
  | a :: as => (h a).seq fun _ => forM h as

end Mirrored

end Lower
end FlatCode
