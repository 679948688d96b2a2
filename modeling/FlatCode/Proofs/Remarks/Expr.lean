import FlatCode.Proofs.Plans
import FlatCode.Proofs.Remarks.Agree

/-! Expressions in two runs. Neither run looks at labels or places, or at what only the first one
writes, while it lowers an expression, so both write the same instructions. -/
namespace FlatCode.Lower
open Code Symbols Ast
variable {m : LowerM α} {T : Ties} {value : LowerM (Option Operand)}

section Questions

theorem functionSymbol_mirrored (f : FunctionId) :
    Mirrored (fun T g g' => g = g' ∧ T.Calls (.direct g.name)) (functionSymbol f) := by
  intro T U env env' s t _ around tied
  change Together _ State.Tied U
    ((liftM (env.symbols.functionSymbol f) : LowerM FunctionSymbol) env s)
    ((liftM (env'.symbols.functionSymbol f) : LowerM FunctionSymbol) env' t)
  rw [around.symbols]
  cases known : env.symbols.functionSymbol f with
  | error e => exact .inl rfl
  | ok symbol => exact ⟨U, .refl U, tied, rfl, around.apart f symbol known⟩

theorem Agree.function {W : Ties → β → β → Prop} {f : FunctionId} {k : FunctionSymbol → LowerM β}
    (h : ∀ symbol, T.Calls (.direct symbol.name) → Agree T W (k symbol) (k symbol)) :
    Agree T W (functionSymbol f >>= k) (functionSymbol f >>= k) := by
  refine (functionSymbol_mirrored f T).bind fun U symbol symbol' later known => ?_
  obtain ⟨rfl, apart⟩ := known
  exact (h symbol fun traces => apart (later.extra.trans traces)).later later

end Questions

section Edits
variable {T : Ties}

theorem emit_agrees {i j : Instr} (h : ∀ U, T.Later U → i.Match U.extra U.Joins j) :
    Agree T Same (emit i) (emit j) :=
  (Agree.edited (Draft.emit_agrees h)).bind fun _ _ _ _ _ => .pure fun _ _ => rfl

theorem emit_mirrored {i : Instr} (h : i.isStraight) : Mirrored Same (emit i) :=
  fun _ => emit_agrees fun _ _ => .straight h

theorem emitCall_agrees {callee : Callee} (h : T.Calls callee) (arguments : List Operand)
    (dest : Option Register) :
    Agree T Same (emit (.call callee arguments dest)) (emit (.call callee arguments dest)) :=
  emit_agrees fun _ later => .call (later.calls h) arguments dest

theorem newRegister_mirrored (ty : Ty) :
    Mirrored Same (liftM (Draft.newRegister ty) : LowerM Register) :=
  .edited fun _ => Draft.newRegister_agrees ty

theorem allocSlot_mirrored (ty : Ty) (name : Option String) :
    Mirrored Same (liftM (Draft.allocSlot ty name) : LowerM Register) :=
  .edited fun _ => Draft.allocSlot_agrees ty name

theorem emitEntry_mirrored (i : Instr) : Mirrored Same (liftM (Draft.emitEntry i) : LowerM Unit) :=
  .edited fun _ => Draft.emitEntry_agrees i

theorem newLabel_mirrored : Mirrored Ties.Joins (liftM Draft.newLabel : LowerM Label) :=
  .edited fun _ => Draft.newLabel_agrees

theorem hereLabel_mirrored : Mirrored Ties.Joins (liftM Draft.hereLabel : LowerM Label) :=
  .edited fun _ => Draft.hereLabel_agrees

theorem pendingJump_mirrored : Mirrored Ties.Waits (liftM Draft.pendingJump : LowerM Pending) :=
  .edited fun _ => Draft.pendingJump_agrees

theorem resolveHere_agrees {pending pending' : Pending} (h : T.Waits pending pending') :
    Agree T Same (resolveHere pending) (resolveHere pending') :=
  (Agree.edited (Draft.resolveHere_agrees h)).bind fun _ _ _ _ _ => .pure fun _ _ => rfl

theorem endsInTerminator_mirrored : Mirrored Same endsInTerminator :=
  .look fun _ _ _ tied => .pure fun _ _ => tied.draft.body.endsInTerminator.symm

end Edits

section Values

theorem addressOfVariable_mirrored (v : VariableId) : Mirrored Same (addressOfVariable v) := by
  refine .look fun T s t tied => ?_
  rw [tied.storage]
  refine (Agree.answered _).seq fun U l _ => ?_
  cases l.shape
  case value | pointer => exact .pure fun _ _ => rfl
  case reference | byAddress =>
    exact (newRegister_mirrored _ U).seq fun X r _ => (emit_mirrored rfl X).seq fun _ _ _ =>
      .pure fun _ _ => rfl

theorem Derives.mirrored {known : List Operand} {out : α → List Operand} (h : Derives known out m) :
    Mirrored Same m := by
  induction h with
  | pure => exact .pure _
  | fail => exact .fail _
  | answered => exact .answered _
  | table _ ih => exact .table ih
  | look _ same ih =>
    refine .look fun T s t tied => ?_
    rw [same s t tied.draft.registers tied.storage]
    exact ih s T
  | emit i straight => exact emit_mirrored (Instr.isStraight_of_inline straight)
  | compute straight _ _ _ ih =>
    exact (newRegister_mirrored _).seq fun r =>
      (emit_mirrored (Instr.isStraight_of_inline (straight r))).seq fun _ => ih r
  | address v => exact addressOfVariable_mirrored v
  | bind _ _ _ ihm ihf => exact ihm.seq ihf
  | mono _ _ ih => exact ih

end Values

section Bookkeeping

theorem allocate_mirrored (v : VariableId) (role : Role) : Mirrored Same (allocate v role) := by
  refine .look fun T s t tied => ?_
  rw [tied.storage]
  cases s.storage.locations.lookup v with
  | some l => exact .pure fun _ _ => rfl
  | none =>
    refine .table fun table => (Agree.answered _).seq fun U found _ =>
      (Agree.edited (Draft.allocSlot_agrees _ _)).seq fun X slot _ => ?_
    refine Agree.seq (.modify fun _ _ _ _ tied => ?_) fun _ _ _ => .pure fun _ _ => rfl
    exact { tied with storage := rfl }

theorem setCleanups_agrees (c : Cleanups) :
    Agree T Same (modify fun s => { s with cleanups := c } : LowerM PUnit)
      (modify fun s => { s with cleanups := c }) :=
  .modify fun _ _ _ _ tied => { tied with cleanups := rfl }

theorem owe_mirrored (o : Obligation) : Mirrored Same (owe o) := by
  refine .look fun T s t tied => ?_
  rw [tied.cleanups]
  exact (Agree.answered _).seq fun _ c _ => setCleanups_agrees c

theorem oweDestructor_mirrored (object : Operand) (t : TypeId) :
    Mirrored Same (oweDestructor object t) := by
  refine (destructorOf_derives t).mirrored.seq fun destructor => ?_
  split
  · exact owe_mirrored _
  · exact .pure _

theorem statusSlot_mirrored : Mirrored Same statusSlot := by
  refine .look fun T s t tied => ?_
  rw [tied.status]
  cases s.status with
  | some slot => exact .pure fun _ _ => rfl
  | none =>
    refine (allocSlot_mirrored _ _ T).seq fun U slot _ => ?_
    refine (emitEntry_mirrored _ U).seq fun U _ _ => ?_
    refine (Agree.modify fun U s t _ tied => ?_).seq fun _ _ _ => .pure fun _ _ => rfl
    exact { tied with status := rfl }

theorem openScope_mirrored : Mirrored Same openScope :=
  fun _ => .modify fun _ _ _ _ tied =>
    { tied with cleanups := congrArg Cleanups.openScope tied.cleanups }

theorem dropScope_mirrored : Mirrored Same dropScope := by
  refine .look fun T s t tied => ?_
  rw [tied.cleanups]
  exact (Agree.answered _).seq fun _ c _ => setCleanups_agrees c

end Bookkeeping

section Unwinding

theorem emitDestructor_mirrored (o : Obligation) : Mirrored Same (emitDestructor o) := by
  refine fun T => .function fun symbol apart => ?_
  split
  · exact (statusSlot_mirrored T).seq fun U _ later =>
      (emitCall_agrees (later.calls apart) _ _).seq fun _ _ _ => .pure fun _ _ => rfl
  · exact (emitCall_agrees apart _ _).seq fun _ _ _ => .pure fun _ _ => rfl

theorem addPad_agrees (destroyed : Nat) {depth depth' : Nat} (same : depth = depth')
    {handler handler' : Option Label} (h : Option.Rel T.Joins handler handler') :
    Agree T Ties.Joins (do
      let cleanups := ((← get).cleanups.pendingFrom depth).drop destroyed
      let label ← Draft.newLabel
      modify fun s => { s with pads := s.pads.note label handler cleanups }
      pure label : LowerM Label) (do
      let cleanups := ((← get).cleanups.pendingFrom depth').drop destroyed
      let label ← Draft.newLabel
      modify fun s => { s with pads := s.pads.note label handler' cleanups }
      pure label) := by
  subst same
  refine .look fun U s t later tied => ?_
  rw [tied.cleanups]
  refine (newLabel_mirrored U).bind fun X l l' later' hl => ?_
  refine (Agree.modify fun Y s t later'' tied => ?_).seq fun Y _ later'' =>
    .pure fun Z more => (later''.trans more).joins hl
  have size : s.pads.pads.size = t.pads.pads.size := by simpa using tied.pads.length_eq
  have before := later.trans (later'.trans later'')
  refine { tied with pads := ?_ }
  simp only [LandingPads.note, Array.toList_push]
  exact List.rel_append tied.pads
    (.cons ⟨size, later''.joins hl, before.joins_option h, rfl⟩ .nil)

theorem notePad_mirrored (destroyed : Nat) : Mirrored Ties.Joins (notePad destroyed) := by
  refine .ask fun T env env' around => ?_
  have region := around.region
  revert region
  generalize env.region = r
  generalize env'.region = r'
  intro region
  cases region with
  | none => exact addPad_agrees destroyed rfl .none
  | some same => exact addPad_agrees destroyed same.2 (.some same.1)

theorem testStatus_mirrored (destroyed : Nat) : Mirrored Same (testStatus destroyed) := by
  refine statusSlot_mirrored.seq fun status => (newRegister_mirrored _).seq fun code =>
    (emit_mirrored rfl).seq fun _ => (notePad_mirrored destroyed).bind fun T pad pad' hp => ?_
  refine (Agree.edited (Draft.emit_agrees fun U later =>
    .branch _ (.some (later.joins hp)) .none)).bind fun U k k' _ site => ?_
  refine (Agree.edited (Draft.resolveRequiredHere_agrees ?_)).bind fun _ _ _ _ _ =>
    .pure fun _ _ => rfl
  exact .cons ⟨site, rfl⟩ .nil

theorem emitCleanups_mirrored : ∀ (owed : List Obligation) (destroyed : Nat),
    Mirrored Same (emitCleanups destroyed owed)
  | [], _ => .pure _
  | o :: owed, destroyed => by
    refine (emitDestructor_mirrored o).seq fun raises => ?_
    split
    · exact (testStatus_mirrored _).seq fun _ => emitCleanups_mirrored owed _
    · exact emitCleanups_mirrored owed _

theorem leaveTo_mirrored (depth : Nat) : Mirrored Same (leaveTo depth) := by
  refine .look fun T s t tied => ?_
  rw [tied.cleanups]
  exact emitCleanups_mirrored _ 0 T

theorem closeScope_mirrored : Mirrored Same closeScope := by
  refine .look fun T s t tied => ?_
  rw [tied.cleanups]
  dsimp only
  split
  · exact .fail _
  · refine (endsInTerminator_mirrored T).seq fun U ends _ => ?_
    split
    · exact dropScope_mirrored U
    · exact (leaveTo_mirrored _ U).seq fun U _ _ => dropScope_mirrored U

theorem withTemporaries_kept {V : Ties → α → α → Prop}
    (mono : ∀ {T U a a'}, T.Later U → V T a a' → V U a a') (h : Mirrored V m) :
    Mirrored V (withTemporaries m) := by
  refine openScope_mirrored.seq fun _ => h.bind fun T a a' value => ?_
  exact (closeScope_mirrored T).seq fun U _ later => .pure fun X later' =>
    mono (later.trans later') value

theorem withTemporaries_mirrored (h : Mirrored Same m) : Mirrored Same (withTemporaries m) :=
  withTemporaries_kept (fun _ => id) h

def Carried (T : Ties) (value value' : Option Operand) : Prop := value = value' ∧ T.Returns value

theorem Carried.mono {U : Ties} {value value' : Option Operand} (later : T.Later U)
    (h : Carried T value value') : Carried U value value' :=
  ⟨h.1, later.returns h.2⟩

section Carried
variable {T : Ties} {env env' : Env}

theorem Env.Tied.carries_none (around : env.Tied T env')
    (h : env.result.isSome ∨ env.symbols.isVoid env.symbol.returnType = .ok true) :
    Carried T none none := by
  refine ⟨rfl, fun b known => ?_⟩
  rw [around.returns b known, SymbolTable.returnsInRegister]
  rcases h with hidden | void
  · rw [hidden]
    rfl
  · rw [void, Except.toOption]
    simp

theorem Env.Tied.carries_some (around : env.Tied T env') (hidden : env.result = none)
    (void : env.symbols.isVoid env.symbol.returnType = .ok false) (value : Operand) :
    Carried T (some value) (some value) := by
  refine ⟨rfl, fun b known => ?_⟩
  rw [around.returns b known, SymbolTable.returnsInRegister, hidden, void]
  rfl

theorem isVoid_together {V : Ties → α → α → Prop} (around : env.Tied T env') {s t : State}
    {ty : TypeId} {f f' : Bool → LowerM α}
    (h : ∀ void, env.symbols.isVoid ty = .ok void →
      Together V State.Tied T (f void env s) (f' void env' t)) :
    Together V State.Tied T ((isVoid ty >>= f) env s) ((isVoid ty >>= f') env' t) := by
  change Together V State.Tied T (((liftM (env.symbols.isVoid ty) : LowerM Bool) >>= f) env s)
    (((liftM (env'.symbols.isVoid ty) : LowerM Bool) >>= f') env' t)
  rw [around.symbols]
  cases known : env.symbols.isVoid ty with
  | ok void => exact h void known
  | error e => exact .inl rfl

end Carried

theorem defaultReturn_mirrored : Mirrored Carried defaultReturn := by
  intro T U env env' s t _ around tied
  change Together Carried State.Tied U
    ((if env.result.isSome then pure none else _ : LowerM (Option Operand)) env s)
    ((if env'.result.isSome then pure none else _ : LowerM (Option Operand)) env' t)
  rw [around.result, around.symbol]
  cases hidden : env.result with
  | some slot => exact ⟨U, .refl U, tied, around.carries_none (.inl (by rw [hidden]; rfl))⟩
  | none =>
    refine isVoid_together around fun void known => ?_
    cases void with
    | true => exact ⟨U, .refl U, tied, around.carries_none (.inr known)⟩
    | false =>
      refine Together.next ((codeType_derives _).mirrored U U env env' s t (.refl U) around tied) ?_
      rintro X ty ty' s1 t1 - - later tied' rfl
      dsimp only
      cases Imm.zero? ty with
      | some zero => exact ⟨X, .refl X, tied', (around.carries_some hidden known zero).mono later⟩
      | none => exact .inl rfl

theorem emitTrace_asked {env : Env} (asked : env.options.traceCalls = true) (function : String)
    (s : State) : emitTrace function env s =
      .ok ⟨⟩ { s with draft.body := s.draft.body.push (.trace function env.symbol.name) } := by
  change (if env.options.traceCalls then _ else _ : LowerM Unit) env s = _
  rw [asked]
  rfl

theorem emitTrace_skipped {env : Env} (asked : env.options.traceCalls = false) (function : String)
    (s : State) : emitTrace function env s = .ok ⟨⟩ s := by
  change (if env.options.traceCalls then _ else _ : LowerM Unit) env s = _
  rw [asked]
  rfl

theorem emitTrace_agrees {returns : Option Bool} (comments : T.extra = .comments returns)
    (function : String) :
    Agree T Same (emitTrace function) (emitTrace function) := by
  refine .ask fun U env env' later around => ?_
  have comments : U.extra = .comments returns := later.extra.trans comments
  have options := around.options
  rw [comments] at options
  rw [options.1]
  split
  · refine .ask fun X env env' later' around => ?_
    rw [around.symbol]
    refine emitCall_agrees (fun traces => ?_) _ _
    cases (later'.extra.trans comments).symm.trans traces
  · exact .pure fun _ _ => rfl

theorem Carried.emitReturn_agrees {value value' : Option Operand} (h : Carried T value value') :
    Agree T Same (emitReturn value) (emitReturn value') := by
  obtain ⟨rfl, h⟩ := h
  cases hx : T.extra with
  | comments returns =>
    refine (emitTrace_agrees hx _).seq fun U _ later => emit_agrees fun X later' => ?_
    refine .ret ((later.trans later').extra.trans hx) fun b known => h b ?_
    rw [hx, known]
  | traces =>
    -- The call and the return come together, so the bodies are not compared between them.
    intro U env env' s t later around tied
    have traces : U.extra = .traces := later.extra.trans hx
    have options := around.options
    rw [traces] at options
    change Together Same State.Tied U (EStateM.bind (emitTrace traceLeave env) _ s)
      (EStateM.bind (emitTrace traceLeave env') _ t)
    unfold EStateM.bind
    rw [emitTrace_asked options.1, emitTrace_skipped options.2.1]
    exact ⟨U, .refl U, { tied with draft := { tied.draft with
      body := tied.draft.body.returned traces env.symbol.name value } }, rfl⟩

end Unwinding

structure BranchesTied (T : Ties) (b b' : Branches) : Prop where
  onTrue : T.Waits b.onTrue b'.onTrue
  onFalse : T.Waits b.onFalse b'.onFalse
  constant : b.constant = b'.constant

namespace BranchesTied
variable {T : Ties} {b b' : Branches}

theorem mono {U : Ties} (later : T.Later U) (h : BranchesTied T b b') : BranchesTied U b b' :=
  ⟨later.waits h.onTrue, later.waits h.onFalse, h.constant⟩

theorem swap (h : BranchesTied T b b') : BranchesTied T b.swap b'.swap :=
  ⟨h.onFalse, h.onTrue, congrArg (Option.map not) h.constant⟩

theorem side (h : BranchesTied T b b') (x : Bool) : T.Waits (b.side x) (b'.side x) := by
  cases x with
  | true => exact h.onTrue
  | false => exact h.onFalse

theorem alone (h : BranchesTied T b b') (x : Bool) : BranchesTied T (b.alone x) (b'.alone x) := by
  cases x with
  | true => exact ⟨.nil, h.onFalse, rfl⟩
  | false => exact ⟨h.onTrue, .nil, rfl⟩

theorem joined {c c' : Branches} (h : BranchesTied T b b') (x : Bool) (k : BranchesTied T c c') :
    BranchesTied T (b.joined x c) (b'.joined x c') := by
  have constant : (b.joined x c).constant = (b'.joined x c').constant := by
    simp [h.constant, k.constant]
  cases x with
  | true => exact ⟨k.onTrue, h.onFalse.append k.onFalse, constant⟩
  | false => exact ⟨h.onTrue.append k.onTrue, k.onFalse, constant⟩

theorem known (value : Bool) {jump jump' : Pending} (h : T.Waits jump jump') :
    BranchesTied T (.known value jump) (.known value jump') := by
  cases value with
  | true => exact ⟨h, .nil, rfl⟩
  | false => exact ⟨.nil, h, rfl⟩

end BranchesTied

section Conditions
variable {T : Ties} {jump lhs rhs : LowerM Branches}

theorem agree_steps (T : Ties) : Steps fun m => Agree T Same m m where
  bind hm hf := hm.seq fun _ a later => (hf a).later later
  derives h := h.mirrored T

theorem splice_agrees {pending pending' : Pending} (h : T.Waits pending pending')
    (owed : List Obligation) : Agree T Ties.Waits (splice pending owed) (splice pending' owed) := by
  unfold splice
  rw [h.isEmpty]
  split
  · exact .pure fun _ _ => .nil
  · exact (resolveHere_agrees h).seq fun U _ _ => (emitCleanups_mirrored owed 0 U).seq fun X _ _ =>
      pendingJump_mirrored X

theorem fullJump_agrees (h : Agree T BranchesTied jump jump) :
    Agree T BranchesTied (fullJump jump) (fullJump jump) := by
  refine .look fun T s t before tied => ?_
  rw [tied.cleanups]
  refine (openScope_mirrored T).seq fun T _ opened => (h.later (before.trans opened)).bind
    fun T b b' _ hb => .look fun T s t later tied => ?_
  rw [tied.cleanups]
  have hb := hb.mono later
  split
  · exact (dropScope_mirrored T).seq fun U _ later => .pure fun X later' =>
      hb.mono (later.trans later')
  · refine (splice_agrees hb.onTrue _).bind fun U p p' later hp => ?_
    refine (splice_agrees (later.waits hb.onFalse) _).bind fun X q q' later' hq => ?_
    refine (dropScope_mirrored X).seq fun Y _ more => .pure fun Z more' => ?_
    have rest := more.trans more'
    exact ⟨(later'.trans rest).waits hp, rest.waits hq, hb.constant⟩

theorem connective_agrees (x : Bool) (hl : Agree T BranchesTied lhs lhs)
    (hr : Agree T BranchesTied rhs rhs) :
    Agree T BranchesTied (connective x lhs rhs) (connective x lhs rhs) := by
  refine (fullJump_agrees hl).bind fun T left left' before tied => ?_
  rw [← tied.constant]
  split
  · exact .pure fun U later => (tied.mono later).alone x
  · refine (resolveHere_agrees (tied.side x)).seq fun U _ later => ?_
    refine (fullJump_agrees (hr.later (before.trans later))).bind
      fun X right right' later' tied' => ?_
    exact .pure fun Y more =>
      (tied.mono ((later.trans later').trans more)).joined x (tied'.mono more)

theorem trueSide_agrees {b b' : Branches} (h : BranchesTied T b b') (r : Register) :
    Agree T Ties.Waits (trueSide b r) (trueSide b' r) := by
  unfold trueSide
  rw [h.onFalse.isEmpty]
  have onTrue := h.onTrue
  revert onTrue
  generalize b.onTrue = p
  generalize b'.onTrue = p'
  intro onTrue
  cases onTrue with
  | nil => exact .pure fun _ _ => .nil
  | cons first rest =>
    refine (resolveHere_agrees (.cons first rest)).seq fun U _ _ => ?_
    refine (emit_mirrored rfl U).seq fun X _ _ => ?_
    split
    · exact .pure fun _ _ => .nil
    · exact pendingJump_mirrored X

theorem falseSide_agrees {b b' : Branches} (h : BranchesTied T b b') (r : Register) :
    Agree T Same (falseSide b r) (falseSide b' r) := by
  unfold falseSide
  rw [h.onFalse.isEmpty]
  split
  · exact .pure fun _ _ => rfl
  · exact (resolveHere_agrees h.onFalse).seq fun U _ _ => emit_mirrored rfl U

theorem materialize_agrees (h : Agree T BranchesTied jump jump) :
    Agree T Same (materialize jump) (materialize jump) := by
  unfold materialize
  refine h.bind fun T b b' _ tied => (newRegister_mirrored _ T).seq fun U r later => ?_
  refine (trueSide_agrees (tied.mono later) r).bind fun X done done' later' waits => ?_
  refine (falseSide_agrees (tied.mono (later.trans later')) r).seq fun Y _ more => ?_
  exact (resolveHere_agrees (more.waits waits)).seq fun _ _ _ => .pure fun _ _ => rfl

theorem jumpOn_agrees (e : Expr) (h : Agree T Same value value) :
    Agree T BranchesTied (jumpOn e value) (jumpOn e value) := by
  refine .table fun table => ?_
  split
  · exact (pendingJump_mirrored T).bind fun _ p p' _ waits => .pure fun _ later =>
      .known _ (later.waits waits)
  · refine ((agree_steps T).requireValue _ h).seq fun U condition _ => Agree.bind
      (V := fun T k k' => (k, k') ∈ T.sites) (.edited ?_) fun U k k' _ site => ?_
    · exact Draft.emit_agrees fun _ _ => .branch _ .none .none
    · exact .pure fun _ later => ⟨.cons ⟨later.sites site, rfl⟩ .nil,
        .cons ⟨later.sites site, rfl⟩ .nil, rfl⟩

end Conditions

theorem agree_rules (T : Ties) :
    Rules (fun m => Agree T Same m m) (fun m => Agree T BranchesTied m m) T.Calls where
  toSteps := agree_steps T
  register ty := newRegister_mirrored ty T
  slot ty := allocSlot_mirrored ty none T
  place v role := allocate_mirrored v role T
  status := statusSlot_mirrored T
  function := .function
  indirect _ _ := rfl
  invoke arguments dest h := emitCall_agrees h arguments dest
  test := testStatus_mirrored 0 T
  debt object t := oweDestructor_mirrored object t T
  negation h := .function fun symbol _ => h symbol
  swap h := h.bind fun _ _ _ _ tied => .pure fun _ later => (tied.mono later).swap
  jumpOn e _ h := jumpOn_agrees e h
  connective x _ _ hl hr := connective_agrees x hl hr
  materialize := materialize_agrees

theorem value_mirrored (e : Expr) : Mirrored Same (plan e).value :=
  fun T => ((agree_rules T).plan e).value

theorem operand_mirrored (e : Expr) : Mirrored Same (plan e).operand :=
  fun T => (agree_rules T).operand ((agree_rules T).plan e)

theorem address_mirrored (e : Expr) : Mirrored Same (plan e).address :=
  fun T => ((agree_rules T).plan e).address

theorem fullValue_mirrored (e : Expr) : Mirrored Same (fullValue e) :=
  withTemporaries_mirrored (value_mirrored e)

theorem fullOperand_mirrored (e : Expr) : Mirrored Same (fullOperand e) :=
  withTemporaries_mirrored (operand_mirrored e)

theorem condition_mirrored (e : Expr) : Mirrored BranchesTied (condition e) :=
  fun T => fullJump_agrees ((agree_rules T).plan e).jump

end FlatCode.Lower
