import FlatCode.Proofs.Balance.Stmt
import FlatCode.Proofs.Complete
import FlatCode.Proofs.Growth.Tree

/-! Whole functions keep the books. Lowering a function begins with empty books and, unless
the tree is at fault, ends with closed ones. -/
namespace FlatCode
namespace Lower
open Code Symbols Ast

theorem prologue_settled (f : Ast.Function) : Adding Instr.isSettled (prologue f) := by
  unfold prologue
  exact (receive_adds (fun _ _ => rfl) f).bind fun _ => (emitTrace_settled _).bind fun _ => .pure _

theorem emitUnwinding_settled : ∀ owed : List Obligation,
    Adding Instr.isSettled (emitUnwinding owed)
  | [] => .pure _
  | o :: owed => (emitDestructor_settled o).bind fun _ => emitUnwinding_settled owed

theorem unwindPad_settled (pad : LandingPad) : Adding Instr.isSettled (unwindPad pad) := by
  refine (emitUnwinding_settled pad.cleanups).bind fun _ => ?_
  split
  · exact .emit rfl
  · refine passStatus_straight.settled.bind fun _ => ?_
    exact defaultReturn_straight.settled.bind fun _ => emitReturn_settled _

section Pads
variable {env : Env} {owed : List Label}

theorem emitPad_balanced {s : State} {live : Pending} (pad : LandingPad)
    (hb : s.Balanced live (pad.label :: owed)) :
    Ends Error.IsFault (fun _ t => s.Keeps live owed t ∧ t.pads = s.pads) (emitPad pad env s) := by
  unfold emitPad
  have placed : Ends Error.IsFault (fun _ t => s.Keeps live owed t ∧ t.pads = s.pads)
      ((liftM (Draft.place pad.label) : LowerM Unit) env s) :=
    (place_keeps hb).and (F := Error.IsFault) rfl
  refine placed.seq fun _ t ⟨ht, pads⟩ => ?_
  exact (unwindPad_settled pad env t).mono fun _ u hu =>
    ⟨ht.trans (hu.keeps ht.balanced), hu.pads.trans pads⟩

theorem forM_emitPad_balanced {live : Pending} : ∀ (pads : List LandingPad) {s : State},
    s.Balanced live (pads.map LandingPad.label ++ owed) →
      Ends Error.IsFault (fun _ t => s.Keeps live owed t ∧ t.pads = s.pads)
        (pads.forM emitPad env s)
  | [], _, hb => .ret ⟨.refl hb, rfl⟩
  | pad :: pads, s, hb => by
    refine (emitPad_balanced pad hb).seq fun _ t ⟨ht, kept⟩ => ?_
    exact (forM_emitPad_balanced pads ht.balanced).mono fun _ u ⟨hu, kept'⟩ =>
      ⟨ht.trans hu, kept'.trans kept⟩

theorem emitPads_balanced {s : State} {live : Pending} (hb : s.Balanced live owed) :
    Ends Error.IsFault (fun _ t => s.Keeps live owed t ∧ t.pads = .empty) (emitPads env s) := by
  let written : State := { s with pads := .empty }
  have hb' : written.Balanced live (s.pads.pads.toList.map LandingPad.label ++ owed) :=
    ⟨hb.accounts.perm (.refl _) (by simp [written, LandingPads.labels, LandingPads.empty]; grind),
      hb.names⟩
  refine .look (Ends.known (t := written) rfl ?_)
  refine (forM_emitPad_balanced _ hb').seq fun _ t keeps => .ret ⟨?_, keeps.2⟩
  exact ⟨keeps.1.balanced, keeps.1.cleanups⟩

end Pads

theorem fallOut_settled : Adding Instr.isSettled fallOut := by
  refine Adding.bind (.look fun s => .pure _) fun ends => ?_
  split
  · exact .pure _
  · refine Adding.bind defaultReturn_straight.settled ?_
    exact emitReturn_settled

theorem lowerBody_balanced (body : List Stmt) {env : Env} {s : State} (hb : s.Balanced [] [])
    (hdepth : s.cleanups.depth = 0) (hbreak : env.breakDepth = none)
    (hloop : env.loopDepth = none) :
    Ends Error.IsFault (fun _ t => t.Balanced [] [] ∧ t.pads = .empty) (lowerBody body env s) := by
  unfold lowerBody
  refine (inCompound_keeps (lowerStmts_walks body) hb).seq fun x t walked => ?_
  obtain ⟨ht, fits, hnext⟩ := walked
  -- outside of loops and switches nothing can be left over
  have none_left : x.all ++ [] = [] := by simp [Exits.all, hnext, fits.1 hbreak, fits.2 hloop]
  rw [none_left] at ht
  refine (fallOut_settled.keeps ht.balanced).seq fun _ u hu => .look ?_
  have hd : ¬ u.cleanups.depth ≠ 0 := by rw [hu.depth_eq, ht.depth_eq, hdepth]; simp
  dsimp only
  rw [if_neg hd]
  exact (emitPads_balanced hu.balanced).mono fun _ v keeps => ⟨keeps.1.balanced, keeps.2⟩

/-- A function that can be lowered comes from a draft whose books are closed. -/
theorem lowerAll_closed (f : Ast.Function) {env : Env} (hbreak : env.breakDepth = none)
    (hloop : env.loopDepth = none) :
    Ends Error.IsFault (fun c t => t.draft.Accounts [] [] ∧ t.draft.Finished c ∧
      ∀ i ∈ t.draft.entry, i.isSetup) (lowerAll f env .empty) := by
  have start : State.empty.Balanced [] [] := ⟨Draft.accounts_empty, List.nodup_nil⟩
  refine (prologue_settled f env .empty).seq fun incoming s hs => ?_
  have hb := (hs.keeps start).balanced
  have hd : s.cleanups.depth = 0 := by rw [hs.cleanups]; rfl
  refine .seq (P := fun _ t => (t.Balanced [] [] ∧ t.pads = .empty) ∧
    State.Later { s with pads := .empty } t) (Ends.inside ?_)
    fun pads t ⟨⟨ht, hpads⟩, later⟩ => .look ?_
  · refine .and (lowerBody_balanced f.body hb hd ?_ ?_) (lowerBody_later f.body)
    · exact hbreak
    · exact hloop
  refine .seq (P := fun _ u => t.gotos.pending = [] ∧ u = t) (Ends.answered ?_
    t.gotos.finish_faults) ?_
  · intro _ hfinish
    unfold Gotos.finish at hfinish
    split at hfinish
    · exact ⟨by assumption, rfl⟩
    · cases hfinish
  · rintro _ u ⟨hpending, rfl⟩
    have accounts : u.draft.Accounts [] [] := by
      simpa [Gotos.jumps, hpending, hpads, LandingPads.labels, LandingPads.empty] using ht.accounts
    obtain ⟨slots, hslots, setup⟩ := (hs.later.draft.trans later.draft).entry
    have entry : ∀ i ∈ u.draft.entry, i.isSetup := by
      rw [hslots]
      simpa [State.empty, Draft.empty] using setup
    obtain ⟨c, hc, finished⟩ :=
      Draft.toFunction_finished accounts entry env.symbol.name incoming.arguments pads
    refine .ask (Ends.answered (fun c' hc' => ?_) fun e he => ?_)
    · obtain rfl : c = c' := by simpa [hc] using hc'
      exact ⟨accounts, finished, entry⟩
    · rw [hc] at he
      cases he

def Env.start (symbols : SymbolTable) (symbol : FunctionSymbol) (options : Options)
    (labels : LabelScopes) : Env :=
  ⟨symbols, symbol, options, labels, none, none, [], none, none, none, none⟩

def bodyEnv (env : Env) (incoming : Incoming) : Env :=
  { env with result := incoming.result, callerStatus := incoming.callerStatus }

/-- How the code of a function comes about. The prologue takes the arguments, `b` is the state
behind the body, in which all landing pads have been noted, and `s` is the state behind them. -/
structure Staged (symbols : SymbolTable) (options : Options) (f : Ast.Function) (env : Env)
    (incoming : Incoming) (b s : State) (code : Code.Function) : Prop where
  known : symbols.functionSymbol f.function = .ok env.symbol
  collected : LabelScopes.collect f.body = .ok env.labels
  start : env = .start symbols env.symbol options env.labels
  whole : lowerAll f env .empty = .ok code s
  body : ∃ p q exits, prologue f env .empty = .ok incoming p ∧
    inCompound (lowerStmts f.body) (bodyEnv env incoming) p = .ok exits q ∧
    fallOut (bodyEnv env incoming) q = .ok ⟨⟩ b
  pads : finishBody (bodyEnv env incoming) b = .ok b.pads.pads.size s
  made : s.draft.toFunction env.symbol.name incoming.arguments b.pads.pads.size = .ok code

theorem finishBody_size {env : Env} {s : State} :
    Ensures (fun count _ => count = s.pads.pads.size) (finishBody env s) := by
  refine .look ?_
  dsimp only
  split
  · exact trivial
  · exact .look (Ends.seq (Ends.any _) fun _ _ _ => Ends.seq (Ends.any _) fun _ _ _ => .ret rfl)

end Lower

open Symbols Ast
variable {symbols : SymbolTable} {options : Options} {f : Ast.Function}

section Run
variable {symbol : FunctionSymbol} {labels : LabelScopes} {t : Lower.State}

theorem lowerFunction_of_ok (hs : symbols.functionSymbol f.function = .ok symbol)
    (hl : LabelScopes.collect f.body = .ok labels) {code : Code.Function}
    (hr : Lower.lowerAll f (.start symbols symbol options labels) .empty = .ok code t) :
    lowerFunction symbols options f = .ok code := by
  unfold Lower.Env.start at hr
  simp only [lowerFunction, hs, hl, hr, bind, Except.bind]

theorem lowerFunction_of_error (hs : symbols.functionSymbol f.function = .ok symbol)
    (hl : LabelScopes.collect f.body = .ok labels) {e : Error}
    (hr : Lower.lowerAll f (.start symbols symbol options labels) .empty = .error e t) :
    lowerFunction symbols options f = .error e := by
  unfold Lower.Env.start at hr
  simp only [lowerFunction, hs, hl, hr, bind, Except.bind]

theorem lowerFunction_of_unknown {e : Error} (hs : symbols.functionSymbol f.function = .error e) :
    lowerFunction symbols options f = .error e := by
  simp only [lowerFunction, hs, bind, Except.bind]

theorem lowerFunction_of_repeated (hs : symbols.functionSymbol f.function = .ok symbol) {e : Error}
    (hl : LabelScopes.collect f.body = .error e) : lowerFunction symbols options f = .error e := by
  simp only [lowerFunction, hs, hl, bind, Except.bind]

end Run

theorem lowerFunction_run {code : Code.Function} (h : lowerFunction symbols options f = .ok code) :
    ∃ symbol labels t, symbols.functionSymbol f.function = .ok symbol ∧
      LabelScopes.collect f.body = .ok labels ∧
      Lower.lowerAll f (.start symbols symbol options labels) .empty = .ok code t := by
  cases hs : symbols.functionSymbol f.function with
  | error e =>
    rw [lowerFunction_of_unknown hs] at h
    cases h
  | ok symbol =>
    cases hl : LabelScopes.collect f.body with
    | error e =>
      rw [lowerFunction_of_repeated hs hl] at h
      cases h
    | ok labels =>
      cases hr : Lower.lowerAll f (.start symbols symbol options labels) .empty with
      | error e t =>
        rw [lowerFunction_of_error hs hl hr] at h
        cases h
      | ok c t =>
        rw [lowerFunction_of_ok hs hl hr] at h
        cases h
        exact ⟨symbol, labels, t, rfl, rfl, hr⟩

theorem lowerFunction_staged {code : Code.Function}
    (h : lowerFunction symbols options f = .ok code) :
    ∃ env incoming b s, Lower.Staged symbols options f env incoming b s code := by
  obtain ⟨symbol, labels, t, known, collected, run⟩ := lowerFunction_run h
  generalize start : Lower.Env.start symbols symbol options labels = env at run
  have stages : Ensures (fun code s => Lower.lowerAll f env .empty = .ok code s → ∃ incoming b,
      Lower.Staged symbols options f env incoming b s code) (Lower.lowerAll f env .empty) := by
    refine .seq (Ends.any _).recorded fun incoming p ⟨_, received⟩ => ?_
    refine .seq (P := fun count s => ∃ q exits b,
      Lower.inCompound (Lower.lowerStmts f.body) (Lower.bodyEnv env incoming) p = .ok exits q ∧
      Lower.fallOut (Lower.bodyEnv env incoming) q = .ok ⟨⟩ b ∧
      Lower.finishBody (Lower.bodyEnv env incoming) b = .ok count s) (Ends.inside ?_) ?_
    · unfold Lower.lowerBody
      refine .seq (Ends.any _).recorded fun exits q ⟨_, walked⟩ => ?_
      refine .seq (Ends.any _).recorded fun _ b ⟨_, fell⟩ => ?_
      exact (Ends.any _).recorded.mono fun count s ⟨_, written⟩ =>
        ⟨q, exits, b, walked, fell, written⟩
    · rintro count s ⟨q, exits, b, walked, fell, written⟩
      obtain rfl := Lower.finishBody_size.of_ok written
      refine .look (Ends.query fun _ _ => .ask (Ends.answered (fun code made whole => ?_)
        fun _ _ => trivial))
      subst start
      exact ⟨incoming, b, known, collected, rfl, whole, ⟨p, q, exits, received, walked, fell⟩,
        written, made⟩
  obtain ⟨incoming, b, staged⟩ := stages.of_ok run run
  exact ⟨env, incoming, b, t, staged⟩

/-- A function is not lowered only because of the tree or the symbol table. -/
theorem lowerFunction_faults : ReportsFaults (lowerFunction symbols options f) := by
  cases hs : symbols.functionSymbol f.function with
  | error e =>
    rw [lowerFunction_of_unknown hs]
    exact .error (symbols.functionSymbol_faults f.function e hs)
  | ok symbol =>
    cases hl : LabelScopes.collect f.body with
    | error e =>
      rw [lowerFunction_of_repeated hs hl]
      exact .error (LabelScopes.collect_faults f.body e hl)
    | ok labels =>
      have closed := @Lower.lowerAll_closed f (.start symbols symbol options labels) rfl rfl
      cases hr : Lower.lowerAll f (.start symbols symbol options labels) .empty with
      | error e t =>
        rw [lowerFunction_of_error hs hl hr]
        exact .error (closed.of_error hr)
      | ok code t =>
        rw [lowerFunction_of_ok hs hl hr]
        exact .ok code

/-- Lowering a function fails only because of the tree or the symbol table, never because of its
own bookkeeping. The books balance at the beginning, every statement and every way of lowering
an expression keeps them, whatever lists are in flight around it, and a function that was lowered
comes from a draft whose books are closed. -/
theorem lowerFunction_keeps_books (symbols : SymbolTable) (options : Options) (f : Ast.Function) :
    (∀ e, lowerFunction symbols options f = .error e → e.isInternal = false) ∧
    Lower.State.empty.Balanced [] [] ∧
    (∀ statement, Lower.Walks (Lower.lowerStmt statement)) ∧
    (∀ e, (Lower.plan e).Sound) ∧
    (∀ code, lowerFunction symbols options f = .ok code →
      ∃ d : Draft, d.Accounts [] [] ∧ d.Finished code) := by
  refine ⟨lowerFunction_faults, ⟨Draft.accounts_empty, List.nodup_nil⟩, Lower.lowerStmt_walks,
    Lower.plan_sound, fun code h => ?_⟩
  obtain ⟨symbol, labels, t, -, -, hr⟩ := lowerFunction_run h
  obtain ⟨accounts, finished, -⟩ := (Lower.lowerAll_closed f rfl rfl).of_ok hr
  exact ⟨t.draft, accounts, finished⟩

end FlatCode
