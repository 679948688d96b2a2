import FlatCode.Proofs.Marks.Flow
import FlatCode.Proofs.Marks.Pad

/-! Functions. The code of a function that was lowered has marks that fit, from its entry to its
last landing pad. -/
namespace FlatCode.Marks
open Code Symbols Ast Lower List

section Receive
variable {S : Setting} {P : Scene} {env : Env}
open Scene

def Scene.Usable (P : Scene) (r : Register) : Prop :=
  r.index < P.state.draft.registers.size ∧ P.state.status ≠ some r

theorem receiveResult_arrives (h : P.Sound S) (f : Ast.Function) :
    Arrives S P [] (fun result Q => P.Stands P.held P.live Q ∧ ∀ r ∈ result, Q.Usable r)
      (receiveResult f env P.state) := by
  unfold receiveResult
  split
  · refine .ask ?_
    refine Arrives.query fun ty _ => ?_
    refine (newRegister_arrives h _).next fun r Q sound _ ⟨stands, fresh⟩ => ?_
    exact .here sound ⟨stands, fun r' hr => by cases hr; exact fresh.2⟩
  · exact .here h ⟨⟨rfl, rfl, rfl⟩, fun r hr => nomatch hr⟩

theorem receiveStatus_arrives (h : P.Sound S) (f : Ast.Function) :
    Arrives S P [] (fun status Q => P.Stands P.held P.live Q ∧ ∀ r ∈ status, Q.Usable r)
      (receiveStatus f env P.state) := by
  unfold receiveStatus
  split
  · refine (newRegister_arrives h _).next fun r Q sound _ ⟨stands, fresh⟩ => ?_
    exact .here sound ⟨stands, fun r' hr => by cases hr; exact fresh.2⟩
  · exact .here h ⟨⟨rfl, rfl, rfl⟩, fun r hr => nomatch hr⟩

theorem receiveParameter_ends (h : P.Sound S) (table : env.symbols = S.table) (v : VariableId) :
    Ensures (fun r t => r ∈ S.arguments → ∃ Q : Scene, Q.state = t ∧ Q.Sound S ∧
        P.Leads S [] Q ∧ P.Stands P.held P.live Q ∧ Q.Usable r)
      (receiveParameter v env P.state) := by
  refine .seq (allocate_arrives h table v .parameter) ?_
  rintro l _ ⟨P1, rfl, sound1, leads1, stands1, hl⟩
  refine .seq (newRegister_arrives sound1 l.slotType) ?_
  rintro r _ ⟨P2, rfl, sound2, leads2, stands2, fresh⟩
  by_cases given : r ∈ S.arguments
  · have holds : P2.Holds S (.reg r) := fun r' hr => by
      cases hr
      exact ⟨.inl (.inl given), fresh.2⟩
    have slot := (sound1.books.slots v l hl).mono leads2.toLater
    refine .seq (emit_straight (i := .store (.reg l.slot) (.reg r)) sound2 rfl
      (fun o ho => ?_) fun r hr => nomatch hr) ?_
    · simp only [Instr.operands, mem_cons, not_mem_nil, or_false] at ho
      rcases ho with rfl | rfl
      · exact slot.holds
      · exact holds
    · rintro _ _ ⟨P3, rfl, sound3, leads3, stands3⟩
      exact .ret fun _ => ⟨P3, rfl, sound3, (leads1.trans leads2).trans leads3,
        (stands1.same stands2).same stands3, leads3.widens.usable fresh.2⟩
  · exact .seq (Ends.any _) fun _ _ _ => .ret fun given' => absurd given' given

theorem receiveParameters_ends (table : env.symbols = S.table) : ∀ (vs : List VariableId)
    {P : Scene}, P.Sound S →
    Ensures (fun rs t => (∀ r ∈ rs, r ∈ S.arguments) → ∃ Q : Scene, Q.state = t ∧
        Q.Sound S ∧ P.Leads S [] Q ∧ P.Stands P.held P.live Q ∧ ∀ r ∈ rs, Q.Usable r)
      (vs.mapM receiveParameter env P.state)
  | [], P, h => .ret fun _ => ⟨P, rfl, h, .refl P, ⟨rfl, rfl, rfl⟩, fun r hr => nomatch hr⟩
  | v :: vs, P, h => by
    rw [mapM_cons]
    refine .seq (receiveParameter_ends h table v) fun r t taken => ?_
    by_cases given : r ∈ S.arguments
    · obtain ⟨P1, rfl, sound1, leads1, stands1, usable⟩ := taken given
      refine .seq (receiveParameters_ends table vs sound1) fun rs t' rest => .ret fun all => ?_
      obtain ⟨Q, rfl, sound, leads, stands, others⟩ :=
        rest fun r hr => all r (mem_cons_of_mem _ hr)
      refine ⟨Q, rfl, sound, leads1.trans leads, stands1.same stands, fun r' hr => ?_⟩
      rcases mem_cons.1 hr with rfl | hr
      · exact leads.widens.usable usable
      · exact others r' hr
    · exact .seq (Ends.any _) fun rs _ _ => .ret fun all =>
        absurd (all r mem_cons_self) given

theorem allocateAll_arrives (table : env.symbols = S.table) (role : Role) :
    ∀ (vs : List VariableId) {P : Scene}, P.Sound S →
    Arrives S P [] (fun _ Q => P.Stands P.held P.live Q)
      (vs.forM (fun v => (discard (allocate v role) : LowerM PUnit)) env P.state)
  | [], P, h => .here h ⟨rfl, rfl, rfl⟩
  | v :: vs, P, h => by
    refine Arrives.next (m := discard (allocate v role)) (Ends.discarded
      ((allocate_arrives h table v role).mono fun _ _ _ _ ⟨stands, _⟩ => stands))
      fun _ Q sound _ stands => ?_
    refine (allocateAll_arrives table role vs sound).mono fun _ R _ _ stands' => ?_
    exact stands.same stands'

theorem prologue_ends (h : P.Sound S) (table : env.symbols = S.table)
    (caller : env.symbol.name = S.caller) (f : Ast.Function) :
    Ensures (fun incoming t => (∀ r ∈ incoming.arguments, r ∈ S.arguments) →
        ∃ Q : Scene, Q.state = t ∧ Q.Sound S ∧ P.Leads S [] Q ∧ P.Stands P.held P.live Q ∧
          ∀ r ∈ incoming.arguments, Q.Usable r)
      (prologue f env P.state) := by
  unfold prologue receive
  simp only [bind_assoc, pure_bind]
  refine .seq (receiveResult_arrives h f) ?_
  rintro result _ ⟨P1, rfl, sound1, leads1, stands1, usable1⟩
  refine .seq (receiveParameters_ends table f.parameters sound1) fun rs t taken => ?_
  by_cases given : ∀ r ∈ rs, r ∈ S.arguments
  · obtain ⟨P2, rfl, sound2, leads2, stands2, usable2⟩ := taken given
    refine .seq (receiveStatus_arrives sound2 f) ?_
    rintro status _ ⟨P3, rfl, sound3, leads3, stands3, usable3⟩
    refine .seq (allocateAll_arrives table .localVariable f.locals sound3) ?_
    rintro _ _ ⟨P4, rfl, sound4, leads4, stands4⟩
    refine .seq (emitTrace_arrives sound4 caller (.inl rfl)) ?_
    rintro _ _ ⟨P5, rfl, sound5, leads5, stands5⟩
    refine .ret fun _ => ⟨P5, rfl, sound5,
      (((leads1.trans leads2).trans leads3).trans leads4).trans leads5, ?_, fun r hr => ?_⟩
    · have all := (((stands1.trans stands2).trans stands3).trans stands4).trans stands5
      rwa [stands4.held, stands4.live, stands3.held, stands3.live, stands2.held, stands2.live,
        stands1.held, stands1.live] at all
    · have later : S.Widens P3.state P5.state := (leads4.trans leads5).widens
      simp only [Incoming.arguments, mem_append, Option.mem_toList] at hr
      rcases hr with (hr | hr) | hr
      · exact later.usable ((leads2.trans leads3).widens.usable (usable1 r hr))
      · exact later.usable (leads3.widens.usable (usable2 r hr))
      · exact later.usable (usable3 r hr)
  · refine .seq (Ends.any _) fun status _ _ => .seq (Ends.any _) fun _ _ _ =>
      Ends.seq (Ends.any _) fun _ _ _ => .ret fun all => absurd (fun r hr => all r ?_) given
    simp [Incoming.arguments, hr]

end Receive

section Body
variable {S : Setting} {P : Scene} {env : Env}
open Scene

theorem fallOut_arrives (h : P.Sound S) (caller : env.symbol.name = S.caller) (idle : P.held = [])
    (empty : P.live = []) :
    Arrives S P [] (fun _ Q => P.Stands [] [] Q ∧ Q.mark.phase = .dead) (fallOut env P.state) := by
  refine Arrives.ending ?_
  cases ends : P.state.draft.endsInTerminator with
  | true => exact Arrives.here h ⟨⟨idle, empty, rfl⟩, h.closed ends⟩
  | false =>
    refine Arrives.next (defaultReturn_arrives h) fun value Q sound _ ⟨stands, keeps⟩ => ?_
    have returned : Arrives S Q [] (fun _ R => Q.Stands Q.held [] R ∧ R.mark.phase = .dead)
        (emitReturn value env Q.state) :=
      emitReturn_arrives sound caller (stands.live.trans empty) (fun o ho => (keeps o ho).holds)
        fun x hx => nomatch hx
    refine returned.mono fun _ R _ _ ⟨stands', dead⟩ => ⟨?_, dead⟩
    rw [stands.held, idle] at stands'
    exact stands.trans stands'

structure Laid (S : Setting) (env : Env) (B Q : Scene) (codes : List (List Instr)) : Prop where
  body : B.Sound S
  closed : B.mark.phase = .dead
  single : ¬ B.state.draft.EndsInSwitch
  firm : Q.Firm S
  dead : Q.mark.phase = .dead
  writes : B.Writes S codes.flatten Q
  pads : List.Forall₂ (PadCode env Q.state) B.state.pads.pads.toList codes
  calls : Site.Done S.sites Q.calls
  arguments : ∀ r ∈ S.arguments, r.index < Q.state.draft.registers.size

theorem body_closes (begins : Begins S env P) (idle : P.held = [])
    (depth : P.state.cleanups.depth = 0) {body : List Stmt} (known : Stmt.sitesOfAll body = S.sites)
    (tidy : S.follows = true → Stmt.allScoped body) {exits : Exits} {q b : State}
    (walked : inCompound (lowerStmts body) env P.state = .ok exits q)
    (fell : fallOut env q = .ok ⟨⟩ b) :
    ∃ B : Scene, B.state = b ∧ B.Sound S ∧ P.Leads S S.sites B ∧ B.held = [] ∧
      B.mark.phase = .dead := by
  obtain ⟨P1, rfl, sound1, leads1, past⟩ := (compound_arrives true
    (lowerStmts_walks body (known ▸ List.Subset.refl _) tidy) begins idle).of_ok walked
  have depth1 : P1.state.cleanups.depth = 0 := past.grows.depth.trans depth
  have empty : P1.live = [] := by
    rw [past.level]
    simp only [Cleanups.depth, length_eq_zero_iff] at depth1
    simp [Setting.alive, Cleanups.pendingFrom_zero, depth1]
  obtain ⟨B, rfl, sound, leads, stands, dead⟩ :=
    (fallOut_arrives sound1 begins.suits.caller past.held empty).of_ok fell
  have whole := leads1.trans leads
  rw [append_nil, known] at whole
  exact ⟨B, rfl, sound, whole, stands.held, dead⟩

theorem pads_laid (begins : Begins S env P) (single : ¬ P.state.draft.EndsInSwitch)
    (silent : P.calls = []) (bounds : ∀ r ∈ S.arguments, r.index < P.state.draft.registers.size)
    {B : Scene} (sound : B.Sound S) (leads : P.Leads S S.sites B) (idle : B.held = [])
    (dead : B.mark.phase = .dead) :
    Ensures (fun _ t => ∃ (Q : Scene) (codes : List (List Instr)), Q.state = t ∧
      Laid S env B Q codes) (finishBody env B.state) := by
  refine .look ?_
  dsimp only
  split
  · exact trivial
  refine (emitPads_writes sound.toFirm dead idle begins.suits.table begins.suits.caller
    fun r hr => (begins.suits.callerStatus r hr).mono leads.toLater).mono ?_
  rintro _ _ ⟨Q, codes, rfl, firm, dead', writes, pads, -⟩
  refine ⟨Q, codes, rfl, sound, dead, fun ends => single (leads.switch ends), firm, dead', writes,
    pads, ?_, fun r hr => ?_⟩
  · obtain ⟨made, hmade, sub⟩ := (leads.toFollows.trans writes.toFollows).calls
    rw [hmade, silent]
    simpa using sub
  · exact Nat.lt_of_lt_of_le (bounds r hr) (leads.toFollows.trans writes.toFollows).widens.registers

end Body

section Whole
open Scene

def Scene.start : Scene := ⟨.empty, #[], #[], ⟨.ordinary, [], []⟩, [], []⟩

theorem start_books (S : Setting) : Scene.start.Books S := by
  refine ⟨.nil, ?_, .of_storage rfl ⟨#[], rfl⟩, ?_, ?_, ?_, ?_, ?_⟩
  all_goals simp [Scene.start, State.empty, Draft.empty, State.location?, Storage.empty,
    Cleanups.pendingFrom_zero, Cleanups.empty, LandingPads.empty, Gotos.empty]

theorem start_sound (S : Setting) : Scene.start.Sound S := by
  refine ⟨⟨⟨rfl, rfl, Mark.le_refl _, ?_⟩, ?_, ?_, ?_, start_books S, ⟨?_, ?_, ?_, ?_, ?_, ?_⟩⟩,
    Mark.le_refl _, fun ends => (nomatch ends), ⟨rfl, ?_⟩⟩
  all_goals simp [Scene.start, State.empty, Draft.empty, Setting.alive, Cleanups.pendingFrom_zero,
    Cleanups.empty, Stacked]

theorem start_single : ¬ Scene.start.state.draft.EndsInSwitch := by
  rintro ⟨k, value, cases, default, hk, -⟩
  simp [Scene.start, State.empty, Draft.empty] at hk

end Whole

section Function
variable {symbols : SymbolTable} {options : Options} {f : Ast.Function}
open Scene

theorem prologue_status (f : Ast.Function) (env : Env) (s : State) :
    Ensures (fun incoming _ => incoming.callerStatus.isSome = f.canRaise)
      (prologue f env s) := by
  unfold prologue receive
  simp only [bind_assoc, pure_bind]
  refine .seq (Ends.any _) fun _ _ _ => .seq (Ends.any _) fun _ _ _ =>
    Ends.seq (P := fun status _ => status.isSome = f.canRaise) ?_ fun status _ raises =>
    Ends.seq (Ends.any _) fun _ _ _ => .seq (Ends.any _) fun _ _ _ => .ret raises
  unfold receiveStatus
  cases f.canRaise with
  | true => exact .seq (Ends.any _) fun _ _ _ => .ret rfl
  | false => exact .ret rfl

def Setting.of (symbols : SymbolTable) (symbol : FunctionSymbol) (f : Ast.Function)
    (arguments : List Register) (follows : Bool) (inScopes : follows = true → f.Scoped symbols) :
    Setting :=
  ⟨symbols, symbol.name, arguments, f.sites, follows, fun h => (inScopes h).called⟩

structure Marked (S : Setting) (env : Env) (B Q : Scene) (codes : List (List Instr))
    (code : Code.Function) : Prop extends Laid S env B Q codes where
  accounts : Q.state.draft.Accounts [] []
  finished : Q.state.draft.Finished code
  labels : code.labels.length = Q.state.draft.labels
  received : code.arguments = S.arguments
  count : code.landingPads = B.state.pads.pads.size

variable {code : Code.Function} {env : Env} {incoming : Incoming} {b s : State}

theorem marked_of_staged (staged : Staged symbols options f env incoming b s code) (follows : Bool)
    (inScopes : follows = true → f.Scoped symbols) :
    ∃ (B Q : Scene) (codes : List (List Instr)), B.state = b ∧ Q.state = s ∧
      incoming.callerStatus.isSome = f.canRaise ∧
      Marked (.of symbols env.symbol f incoming.arguments follows inScopes) (bodyEnv env incoming)
        B Q codes code := by
  obtain ⟨p, q, exits, received, walked, fell⟩ := staged.body
  have table : env.symbols = symbols := by rw [staged.start]; rfl
  let S := Setting.of symbols env.symbol f incoming.arguments follows inScopes
  obtain ⟨P, rfl, sound, leads, stands, usable⟩ :=
    (prologue_ends (start_sound S) table rfl f).of_ok received fun r hr => hr
  have keeps (r : Register) (hr : r ∈ incoming.arguments) : P.Keeps S (.reg r) := fun r' hr' => by
    cases hr'
    exact ⟨.inl hr, usable r hr⟩
  have begins : Begins S (bodyEnv env incoming) P := by
    refine ⟨sound, ⟨table, rfl, fun r hr => keeps r ?_, fun r hr => keeps r ?_, fun _ hr => ?_,
      fun _ hr => ?_⟩, ?_, fun depth hd => ?_⟩
    · simp [Incoming.arguments, show incoming.result = some r from hr]
    · simp [Incoming.arguments, show incoming.callerStatus = some r from hr]
    · rw [staged.start] at hr
      cases hr
    · rw [staged.start] at hr
      cases hr
    · rw [Level, stands.live, stands.cleanups]
      exact (S.seen_nil).symm
    · rw [staged.start] at hd
      cases hd
  have silent : P.calls = [] := by
    obtain ⟨made, hmade, sub⟩ := leads.calls
    rw [hmade, sub.eq_nil]
    rfl
  obtain ⟨B, rfl, closed, leads', idle, dead⟩ := body_closes begins stands.held
    (congrArg Cleanups.depth stands.cleanups) rfl (fun h => (inScopes h).inScopes) walked fell
  obtain ⟨Q, codes, rfl, laid⟩ := (pads_laid begins (fun ends => start_single (leads.switch ends))
    silent (fun r hr => (usable r hr).1) closed leads' idle dead).of_ok staged.pads
  have fields := Draft.toFunction_fields staged.made
  have noLoop : env.breakDepth = none ∧ env.loopDepth = none := by
    rw [staged.start]
    exact ⟨rfl, rfl⟩
  obtain ⟨accounts, finished, -⟩ := (lowerAll_closed f noLoop.1 noLoop.2).of_ok staged.whole
  exact ⟨B, Q, codes, rfl, rfl, (prologue_status f _ _).of_ok received,
    ⟨laid, accounts, finished, fields.labels, fields.arguments, fields.pads⟩⟩

/-- The code of a function has marks. Objects are followed only if scopes alone owe them. -/
theorem lowerFunction_marked (h : lowerFunction symbols options f = .ok code) (follows : Bool)
    (inScopes : follows = true → f.Scoped symbols) :
    ∃ (env : Env) (incoming : Incoming) (B Q : Scene) (codes : List (List Instr)),
      Staged symbols options f env incoming B.state Q.state code ∧
      incoming.callerStatus.isSome = f.canRaise ∧
      Marked (.of symbols env.symbol f incoming.arguments follows inScopes) (bodyEnv env incoming)
        B Q codes code := by
  obtain ⟨env, incoming, b, s, staged⟩ := lowerFunction_staged h
  obtain ⟨B, Q, codes, rfl, rfl, raises, marked⟩ := marked_of_staged staged follows inScopes
  exact ⟨env, incoming, B, Q, codes, staged, raises, marked⟩

theorem entry_of_run {symbol : FunctionSymbol} {labels : LabelScopes}
    (known : symbols.functionSymbol f.function = .ok symbol)
    (collected : LabelScopes.collect f.body = .ok labels)
    (run : lowerAll f (.start symbols symbol options labels) .empty = .ok code s) :
    Entry s.draft.entry.toList s.status := by
  obtain ⟨env, incoming, B, Q, codes, staged, -, marked⟩ := lowerFunction_marked
    (lowerFunction_of_ok known collected run) false fun follows => nomatch follows
  have whole := staged.whole
  rw [staged.start, Except.ok.inj (staged.known.symm.trans known),
    Except.ok.inj (staged.collected.symm.trans collected), run] at whole
  cases whole
  exact marked.firm.books.entry

end Function
end FlatCode.Marks
