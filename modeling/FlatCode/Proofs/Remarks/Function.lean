import FlatCode.Proofs.Balance.Function
import FlatCode.Proofs.Remarks.Stmt

/-! Functions in two runs. Comments do not change the program: with and without them lowering fails
for the same reason, or makes functions that are the same once labels and comments are left out and
targets are counted in the instructions that remain. -/
namespace FlatCode
open Code Symbols Ast List
variable {T : Ties} {env env' : Env} {s t : State} {f : Ast.Function} {x : Extra}

namespace Lower

section Function

theorem receiveResult_mirrored (f : Ast.Function) : Mirrored Same (receiveResult f) := by
  unfold receiveResult
  split
  · refine .ask fun T env env' around => ?_
    rw [around.symbol]
    exact ((pointee_derives _).mirrored T).seq fun U _ _ =>
      (newRegister_mirrored _ U).seq fun _ _ _ =>
      .pure fun _ _ => rfl
  · exact .pure _

theorem receiveStatus_mirrored (f : Ast.Function) : Mirrored Same (receiveStatus f) := by
  unfold receiveStatus
  split
  · exact (newRegister_mirrored _).seq fun _ => .pure _
  · exact .pure _

theorem receive_mirrored (f : Ast.Function) : Mirrored Same (receive f) := by
  refine (receiveResult_mirrored f).seq fun result => Mirrored.seq ?_ fun parameters =>
    (receiveStatus_mirrored f).seq fun status => Mirrored.seq ?_ fun _ => .pure _
  · have received (v : VariableId) : Mirrored Same (receiveParameter v) :=
      (allocate_mirrored v _).seq fun _ => (newRegister_mirrored _).seq fun _ =>
        (emit_mirrored rfl).seq fun _ => .pure _
    exact fun T => (agree_steps T).mapM fun v _ => received v T
  · exact Mirrored.forM (fun v T => (allocate_mirrored v _ T).discarded) f.locals

theorem emitUnwinding_mirrored : ∀ owed : List Obligation, Mirrored Same (emitUnwinding owed)
  | [] => .pure _
  | o :: owed => (emitDestructor_mirrored o).seq fun _ => emitUnwinding_mirrored owed

theorem passStatus_mirrored : Mirrored Same passStatus := by
  refine .ask fun T env env' around => ?_
  rw [around.callerStatus]
  split
  · exact .pure fun _ _ => rfl
  · exact (statusSlot_mirrored T).seq fun U _ _ => (newRegister_mirrored _ U).seq fun X _ _ =>
      (emit_mirrored rfl X).seq fun Y _ _ => emit_mirrored rfl Y

theorem emitPad_agrees {pad pad' : LandingPad} (h : PadTied T pad pad') :
    Agree T Same (emitPad pad) (emitPad pad') := by
  unfold emitPad unwindPad
  rw [← h.cleanups]
  refine (place_agrees h.label).seq fun U _ l1 => (emitUnwinding_mirrored _ U).seq fun X _ l2 => ?_
  obtain ⟨hx, hy⟩ | ⟨_, _, hx, hy, hl⟩ := rel_cases h.handler
  · rw [hx, hy]
    exact (passStatus_mirrored X).seq fun Y _ _ => (defaultReturn_mirrored Y).bind
      fun Z _ _ _ carried => carried.emitReturn_agrees
  · rw [hx, hy]
    exact jumpTo_agrees ((l1.trans l2).joins hl)

theorem forM_emitPad_agrees {pads pads' : List LandingPad}
    (h : List.Forall₂ (PadTied T) pads pads') :
    Agree T Same (pads.forM emitPad) (pads'.forM emitPad) := by
  induction pads generalizing T pads' with
  | nil =>
    cases h
    exact .pure fun _ _ => rfl
  | cons pad pads ih =>
    cases h with
    | cons first rest =>
      exact (emitPad_agrees first).seq fun U _ later => ih (rest.imp fun _ _ => .mono later)

theorem emitPads_mirrored : Mirrored Same emitPads := by
  refine .look fun T s t tied => ?_
  have size : t.pads.pads.size = s.pads.pads.size := by simpa using tied.pads.length_eq.symm
  dsimp only
  rw [size]
  refine (Agree.modify fun U s t _ tied => ?_).seq fun U _ later =>
    (forM_emitPad_agrees (tied.pads.imp fun _ _ => .mono later)).seq fun _ _ _ =>
    .pure fun _ _ => rfl
  exact { tied with pads := .nil }

theorem lowerBody_mirrored (body : List Stmt) : Mirrored Same (lowerBody body) := by
  unfold lowerBody
  refine (inCompound_mirrored (lowerStmts_mirrored body)).bind fun T _ _ _ => Agree.seq ?_
    fun U _ _ => .look fun U s t _ tied => ?_
  · refine (endsInTerminator_mirrored T).seq fun U ends _ => ?_
    split
    · exact .pure fun _ _ => rfl
    · exact (defaultReturn_mirrored U).bind fun X _ _ _ carried => carried.emitReturn_agrees
  · rw [tied.cleanups]
    dsimp only
    split
    · exact .fail _
    · exact emitPads_mirrored U

def lowerRest (f : Ast.Function) (incoming : Incoming) : LowerM (Incoming × Nat) := do
  let pads ← withReader (fun env =>
    { env with result := incoming.result, callerStatus := incoming.callerStatus })
    (lowerBody f.body)
  let s ← get
  s.gotos.finish
  pure (incoming, pads)

def lowerFront (f : Ast.Function) : LowerM (Incoming × Nat) := do
  let incoming ← receive f
  emitTrace traceEnter
  lowerRest f incoming

theorem lowerAll_eq (f : Ast.Function) : lowerAll f = (do
    let found ← lowerFront f
    let s ← get
    s.draft.toFunction (← read).symbol.name found.1.arguments found.2) := by
  unfold lowerAll lowerFront lowerRest
  unfold prologue
  simp only [bind_assoc, pure_bind]
  refine bind_congr fun incoming => bind_congr fun _ => bind_congr fun pads => ?_
  funext env s
  change ((liftM s.gotos.finish : LowerM Unit) >>= _) env s =
    ((liftM s.gotos.finish : LowerM Unit) >>= _) env s
  generalize s.gotos.finish = finished
  cases finished <;> rfl

theorem lowerRest_agrees (silent : T.extra.Silent) (f : Ast.Function) (incoming : Incoming) :
    Agree T Same (lowerRest f incoming) (lowerRest f incoming) := by
  refine Agree.seq ?_ fun U pads _ => ?_
  · refine .inside (fun U env env' later around => ?_) (lowerBody_mirrored f.body T)
    exact { around with
      returns := fun b known => absurd (later.extra.symm.trans known) (silent b)
      result := rfl
      callerStatus := rfl }
  · refine .look fun T s t _ tied => ?_
    have finish : t.gotos.finish = s.gotos.finish := by
      have pending := tied.gotos.pending
      unfold Gotos.finish
      generalize s.gotos.pending = x at pending ⊢
      generalize t.gotos.pending = y at pending ⊢
      cases pending with
      | nil => rfl
      | @cons p q _ _ same _ =>
        obtain ⟨name, _⟩ := p
        obtain ⟨name', _⟩ := q
        exact congrArg (fun n => Except.error (Error.unknownLabel n)) same.1.symm
    rw [finish]
    exact (Agree.answered _).seq fun _ _ _ => .pure fun _ _ => rfl

theorem emitEnter_together (around : env.Tied T env') (tied : s.Tied T t)
    (flat : ∀ i ∈ s.draft.body, i.isStraight) (flat' : ∀ i ∈ t.draft.body, i.isStraight) :
    Together Same State.Tied T (emitTrace traceEnter env s) (emitTrace traceEnter env' t) := by
  cases hx : T.extra with
  | comments _ => exact emitTrace_agrees hx _ T env env' s t (.refl T) around tied
  | traces =>
    have options := around.options
    rw [hx] at options
    rw [emitTrace_asked options.1, emitTrace_skipped options.2.1]
    exact ⟨T, .refl T, { tied with draft := { tied.draft with
      body := tied.draft.body.entered hx flat flat' env.symbol.name } }, rfl⟩

theorem receive_flat {incoming : Incoming} (h : receive f env .empty = .ok incoming s) :
    ∀ i ∈ s.draft.body, i.isStraight := by
  obtain ⟨code, hcode, flat⟩ :=
    ((receive_adds (p := Instr.isStraight) (fun _ _ => rfl) f env .empty).of_ok h).body
  rw [hcode]
  intro i hi
  rcases Array.mem_append.1 hi with hi | hi
  · exact absurd hi (Array.not_mem_empty i)
  · exact flat i hi

theorem State.Tied.empty (x : Extra) : State.Tied ⟨x, [], []⟩ .empty .empty where
  draft := ⟨rfl, rfl, rfl, .empty, fun _ => rfl⟩
  storage := rfl
  cleanups := rfl
  pads := .nil
  gotos := ⟨.nil, .nil⟩
  compounds := rfl
  status := rfl

theorem lowerFront_together (f : Ast.Function) (silent : x.Silent)
    (around : env.Tied ⟨x, [], []⟩ env') :
    Together Same State.Tied ⟨x, [], []⟩ (lowerFront f env .empty) (lowerFront f env' .empty) := by
  have received := receive_mirrored f _ _ env env' .empty .empty (.refl _) around (.empty x)
  refine Together.next received fun U incoming incoming' s t hs ht later tied same => ?_
  cases same
  have around := around.mono later
  refine Together.next (emitEnter_together around tied (receive_flat hs) (receive_flat ht))
    fun X _ _ s t _ _ later' tied _ => ?_
  have extra : X.extra = x := (later.trans later').extra
  exact lowerRest_agrees (extra ▸ silent) f incoming X env env' s t (.refl X)
    (around.mono later') tied

end Function
end Lower

section Essence

def Code.Instr.retarget? (g : Label → Option Label) : Instr → Option Instr
  | .branch condition positive negative => do
    return .branch condition (some (← g (← positive))) (some (← g (← negative)))
  | .jump target => do return .jump (some (← g (← target)))
  | .switch value cases default => do
    let cases ← cases.mapM fun c => do return (c.1, ← g c.2)
    return .switch value cases (← g default)
  | i => some i

/-- Where a label leads, counted in the instructions before it, labels and comments aside. -/
def Code.Function.aim? (f : Code.Function) (l : Label) : Option Label :=
  f.labels[l.index]?.map fun place => ⟨keptBefore f.instrs.toList place.index⟩

/-- What a function does: its instructions without labels and comments, and targets counted in
these. -/
def Code.Function.essence? (f : Code.Function) : Option (List Instr) :=
  (f.instrs.toList.filter Instr.isKept).mapM (Instr.retarget? f.aim?)

theorem mapM_same {P : α → β → Prop} {f : α → Option γ} {g : β → Option γ} {as : List α}
    {bs : List β} (h : List.Forall₂ P as bs)
    (same : ∀ a ∈ as, ∀ b, P a b → ∃ c, f a = some c ∧ g b = some c) :
    ∃ cs, as.mapM f = some cs ∧ bs.mapM g = some cs := by
  induction h with
  | nil => exact ⟨[], rfl, rfl⟩
  | @cons a b as bs first _ ih =>
    obtain ⟨c, hf, hg⟩ := same a mem_cons_self b first
    obtain ⟨cs, hfs, hgs⟩ := ih fun a ha => same a (mem_cons_of_mem _ ha)
    refine ⟨c :: cs, ?_, ?_⟩
    · simp [mapM_cons, hf, hfs]
    · simp [mapM_cons, hg, hgs]

variable {x : Extra} {R : Label → Label → Prop} {g g' : Label → Option Label}

theorem Code.Instr.Match.retarget {i j : Instr} (h : i.Match x R j)
    (agree : ∀ l l', R l l' → ∃ p, g l = some p ∧ g' l' = some p) (set : i.openEdges = []) :
    ∃ k, i.retarget? g = some k ∧ j.retarget? g' = some k := by
  cases h with
  | straight h => cases i <;> first | exact ⟨_, rfl, rfl⟩ | cases h
  | call _ arguments dest => exact ⟨_, rfl, rfl⟩
  | ret _ value => exact ⟨_, rfl, rfl⟩
  | branch c positive negative =>
    cases positive with
    | none => cases negative <;> cases set
    | some hp =>
      cases negative with
      | none => cases set
      | some hn =>
        obtain ⟨p, hp, hp'⟩ := agree _ _ hp
        obtain ⟨n, hn, hn'⟩ := agree _ _ hn
        exact ⟨.branch c (some p) (some n), by simp [retarget?, hp, hn],
          by simp [retarget?, hp', hn']⟩
  | jump target =>
    cases target with
    | none => cases set
    | some ht =>
      obtain ⟨t, ht, ht'⟩ := agree _ _ ht
      exact ⟨.jump (some t), by simp [retarget?, ht], by simp [retarget?, ht']⟩
  | switch v choices default =>
    obtain ⟨d, hd, hd'⟩ := agree _ _ default
    obtain ⟨cases, hc, hc'⟩ := mapM_same choices
      (f := fun c => do return (c.1, ← g c.2)) (g := fun c => do return (c.1, ← g' c.2))
      fun c _ c' same => by
        obtain ⟨p, hp, hp'⟩ := agree _ _ same.2
        exact ⟨(c.1, p), by simp [hp], by simp [hp', same.1]⟩
    refine ⟨.switch v cases d, ?_, ?_⟩
    · simp only [retarget?, hc, hd]
      rfl
    · simp only [retarget?, hc', hd']
      rfl

/-- Finished functions of two drafts that differ in comments do the same. -/
theorem Draft.Tied.essence {d d' : Draft} (tied : d.Tied T d') {returns : Option Bool}
    (comments : T.extra = .comments returns) (accounts : d.Accounts [] [])
    (setup : ∀ i ∈ d.entry, i.isSetup) {c c' : Code.Function} (finished : d.Finished c)
    (finished' : d'.Finished c') :
    ∃ code, c.essence? = some code ∧ c'.essence? = some code := by
  have body := tied.body
  rw [comments] at body
  have entry : List.Forall₂ (Instr.Match (.comments returns) T.Joins)
    (d.entry.toList.filter Instr.isKept)
      (d.entry.toList.filter Instr.isKept) := by
    refine forall₂_same.2 fun i hi => .straight (Instr.isStraight_of_setup (setup i ?_))
    exact Array.mem_toList_iff.1 (mem_filter.1 hi).1
  have all : List.Forall₂ (Instr.Match (.comments returns) T.Joins)
    (c.instrs.toList.filter Instr.isKept)
      (c'.instrs.toList.filter Instr.isKept) := by
    rw [finished.instrs, finished'.instrs, tied.entry, Array.toList_append, Array.toList_append,
      filter_append, filter_append]
    exact rel_append entry body.kept
  have before (body : Array Instr) (k : Nat) :
      keptBefore (d.entry ++ body).toList (d.entry.size + k) =
        (d.entry.toList.filter Instr.isKept).length + keptBefore body.toList k := by
    rw [keptBefore, Array.toList_append, ← Array.length_toList, take_length_add_append,
      filter_append, length_append]
    rfl
  refine mapM_same all fun i hi j same => same.retarget (fun l l' hl => ?_) ?_
  · have made : l.index < d.labels := by
      rw [← tied.labels]
      exact (List.getElem?_eq_some_iff.1 hl).1
    obtain ⟨k, hk⟩ := accounts.exists_place made
    obtain ⟨k', l1, hk', hl1, count⟩ := body.place hk
    obtain rfl : l1 = l' := Option.some.inj (hl1.symm.trans hl)
    refine ⟨⟨keptBefore c.instrs.toList (d.entry.size + k)⟩, ?_, ?_⟩
    · rw [Code.Function.aim?, finished.labels k l hk]
      rfl
    · rw [Code.Function.aim?, finished'.labels k' l1 hk', finished.instrs, finished'.instrs,
        tied.entry, before, count, ← before]
      rfl
  · refine accounts.openEdges_eq_nil setup ?_
    rw [← finished.instrs]
    exact Array.mem_toList_iff.1 (mem_filter.1 hi).1

end Essence

section Failures

theorem Draft.mapM_requirePlace_error : ∀ {places : List (Option InstrId × Nat)} {e : Error},
    places.mapM requirePlace = .error e → e.isInternal = true
  | [], _, h => by cases h
  | (none, k) :: places, e, h => by
    cases h
    rfl
  | (some i, k) :: places, e, h => by
    rw [mapM_cons] at h
    cases rest : places.mapM requirePlace with
    | error e' =>
      rw [rest] at h
      cases h
      exact mapM_requirePlace_error rest
    | ok ids =>
      rw [rest] at h
      cases h

theorem Draft.toFunction_cases (d : Draft) (name : String) (arguments : List Register)
    (pads : Nat) :
    (∃ e, d.toFunction name arguments pads = .error e ∧ e.isInternal = true) ∨
    ∃ labels, d.toFunction name arguments pads =
      .ok ⟨name, d.registers, arguments, d.entry ++ d.body, labels, pads⟩ := by
  unfold toFunction
  dsimp only
  split
  · exact .inl ⟨_, rfl, rfl⟩
  · cases places : (labelPlaces (d.entry ++ d.body) d.labels).toList.zipIdx.mapM requirePlace with
    | error e => exact .inl ⟨e, rfl, mapM_requirePlace_error places⟩
    | ok labels => exact .inr ⟨labels, rfl⟩

end Failures

section Comparison

structure Code.Function.Alike (a b : Code.Function) : Prop where
  name : a.name = b.name
  registers : a.registers = b.registers
  arguments : a.arguments = b.arguments
  landingPads : a.landingPads = b.landingPads
  essence : ∃ code, a.essence? = some code ∧ b.essence? = some code

namespace Lower

theorem Env.Tied.of_asked (silent : x.Silent) {symbols : SymbolTable} {symbol : FunctionSymbol}
    {options options' : Options} {labels : LabelScopes} (asked : x.Asked options options')
    (apart : ∀ f symbol, symbols.functionSymbol f = .ok symbol →
      Ties.Calls ⟨x, [], []⟩ (.direct symbol.name)) :
    Env.Tied ⟨x, [], []⟩ (.start symbols symbol options labels)
      (.start symbols symbol options' labels) where
  symbols := rfl
  symbol := rfl
  options := asked
  apart := apart
  returns := fun b known => absurd known (silent b)
  labels := rfl
  result := rfl
  callerStatus := rfl
  scopes := rfl
  breakDepth := rfl
  loopDepth := rfl
  switch := .none
  region := .none

theorem Env.Tied.start {symbols : SymbolTable} {symbol : FunctionSymbol} {options plain : Options}
    {labels : LabelScopes} (traced : plain.traceCalls = options.traceCalls)
    (quiet : plain.debugComments = false) : Env.Tied ⟨.comments none, [], []⟩
      (.start symbols symbol options labels) (.start symbols symbol plain labels) :=
  .of_asked Extra.silent_comments ⟨traced, quiet⟩ fun _ _ _ => nofun

theorem lowerAll_of_error {e : Error} (h : lowerFront f env s = .error e t) :
    lowerAll f env s = .error e t := by
  rw [lowerAll_eq]
  exact bind_of_error h

theorem lowerAll_of_ok {found : Incoming × Nat} (h : lowerFront f env s = .ok found t) :
    lowerAll f env s =
      (liftM (t.draft.toFunction env.symbol.name found.1.arguments found.2) :
        LowerM Code.Function) env t := by
  rw [lowerAll_eq, run_bind h]
  rfl

theorem lowerAll_finished (breaks : env.breakDepth = none) (loops : env.loopDepth = none)
    {found : Incoming × Nat} (h : lowerFront f env .empty = .ok found t) :
    t.draft.Accounts [] [] ∧ (∀ i ∈ t.draft.entry, i.isSetup) ∧ ∃ c,
      t.draft.toFunction env.symbol.name found.1.arguments found.2 = .ok c ∧
      t.draft.Finished c ∧ lowerAll f env .empty = .ok c t := by
  have closed := lowerAll_closed f breaks loops
  have run := lowerAll_of_ok h
  obtain ⟨e, failed, internal⟩ | ⟨labels, made⟩ :=
    t.draft.toFunction_cases env.symbol.name found.1.arguments found.2
  · rw [failed] at run
    have fault : e.isInternal = false := closed.of_error run
    rw [internal] at fault
    cases fault
  · rw [made] at run
    obtain ⟨accounts, finished, setup⟩ := closed.of_ok run
    exact ⟨accounts, setup, _, made, finished, run⟩

/-- Lowering fails for the same reason in both runs, or comes to tied states. -/
theorem lowerFront_cases (f : Ast.Function) (silent : x.Silent) (around : env.Tied ⟨x, [], []⟩ env')
    (breaks : env.breakDepth = none) (loops : env.loopDepth = none) :
    (∃ e s t, lowerAll f env .empty = .error e s ∧ lowerAll f env' .empty = .error e t) ∨
    ∃ T found s t, T.extra = x ∧ s.Tied T t ∧ lowerFront f env .empty = .ok found s ∧
      lowerFront f env' .empty = .ok found t := by
  have front := lowerFront_together f silent around
  cases first : lowerFront f env .empty with
  | error e s =>
    cases second : lowerFront f env' .empty with
    | ok found' t =>
      rw [first, second] at front
      exact front.elim
    | error e' t =>
      rw [first, second] at front
      have run := lowerAll_of_error first
      have fault : e.isInternal = false := (lowerAll_closed f breaks loops).of_error run
      rcases front with same | internal
      · subst same
        exact .inl ⟨e, s, t, run, lowerAll_of_error second⟩
      · rw [fault] at internal
        cases internal.1
  | ok found s =>
    cases second : lowerFront f env' .empty with
    | error e' t =>
      rw [first, second] at front
      exact front.elim
    | ok found' t =>
      rw [first, second] at front
      obtain ⟨T, later, tied, same⟩ := front
      cases same
      exact .inr ⟨T, found, s, t, later.extra, tied, rfl, rfl⟩

theorem lowerAll_together (f : Ast.Function) (around : env.Tied ⟨.comments none, [], []⟩ env')
    (breaks : env.breakDepth = none) (loops : env.loopDepth = none) :
    (∃ e s t, lowerAll f env .empty = .error e s ∧ lowerAll f env' .empty = .error e t) ∨
    ∃ c c' s t, lowerAll f env .empty = .ok c s ∧ lowerAll f env' .empty = .ok c' t ∧
      c.Alike c' := by
  rcases lowerFront_cases f Extra.silent_comments around breaks loops with
    failed | ⟨T, found, s, t, hx, tied, first, second⟩
  · exact .inl failed
  · obtain ⟨accounts, setup, c, made, finished, run⟩ := lowerAll_finished breaks loops first
    obtain ⟨-, -, c', made', finished', run'⟩ := lowerAll_finished
      (around.breakDepth.trans breaks) (around.loopDepth.trans loops) second
    have fields := Draft.toFunction_fields made
    have fields' := Draft.toFunction_fields made'
    refine .inr ⟨c, c', s, t, run, run', ?_, ?_, fields.arguments.trans fields'.arguments.symm,
      fields.pads.trans fields'.pads.symm, tied.draft.essence hx accounts setup finished finished'⟩
    · rw [fields.name, fields'.name, around.symbol]
    · rw [finished.registers, finished'.registers, tied.draft.registers]

end Lower

/-- Comments do not change the program. With and without them, lowering fails for the same reason,
or makes functions with the same registers, arguments and landing pads, and the same instructions
once labels and comments are left out and each target is the number of instructions before it. -/
theorem lowerFunction_ignores_comments (symbols : SymbolTable) (options : Options)
    (f : Ast.Function) :
    (∃ e, lowerFunction symbols { options with debugComments := true } f = .error e ∧
      lowerFunction symbols { options with debugComments := false } f = .error e) ∨
    ∃ a b, lowerFunction symbols { options with debugComments := true } f = .ok a ∧
      lowerFunction symbols { options with debugComments := false } f = .ok b ∧ a.Alike b := by
  cases hs : symbols.functionSymbol f.function with
  | error e => exact .inl ⟨e, lowerFunction_of_unknown hs, lowerFunction_of_unknown hs⟩
  | ok symbol =>
    cases hl : LabelScopes.collect f.body with
    | error e => exact .inl ⟨e, lowerFunction_of_repeated hs hl, lowerFunction_of_repeated hs hl⟩
    | ok labels =>
      have around : Lower.Env.Tied ⟨.comments none, [], []⟩
          (.start symbols symbol { options with debugComments := true } labels)
          (.start symbols symbol { options with debugComments := false } labels) :=
        .start rfl rfl
      obtain ⟨e, s, t, run, run'⟩ | ⟨c, c', s, t, run, run', alike⟩ :=
        Lower.lowerAll_together f around rfl rfl
      · exact .inl ⟨e, lowerFunction_of_error hs hl run, lowerFunction_of_error hs hl run'⟩
      · exact .inr ⟨c, c', lowerFunction_of_ok hs hl run, lowerFunction_of_ok hs hl run', alike⟩

-- In `for (;;) for (;;);` the inner loop has a label of its own only behind its comment.
example :
    let table : SymbolTable := ⟨#[.void], #[.plain "main" ⟨0⟩], #[]⟩
    let loops : Ast.Function :=
      ⟨⟨0⟩, [], [], [.forLoop none none none (.forLoop none none none .empty)], false, false⟩
    let labels (comments : Bool) := (lowerFunction table ⟨false, comments⟩ loops).toOption.map
      fun code => code.labels.length
    labels true = some 2 ∧ labels false = some 1 := by
  decide +kernel

end Comparison
end FlatCode
