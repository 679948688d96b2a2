import Mathlib.Data.List.Forall2
import FlatCode.Proofs.Balance.Function
import FlatCode.Proofs.Marks.Unwind

/-! Landing pads. A pad is entered from a test or a throw, where the objects are alive that it
destroys, and it ends in its handler or in a return. What it consists of is known to the last
instruction. -/
namespace FlatCode.Marks
open Code Symbols Ast Lower List
variable {o : Obligation} {live : List Operand}

def Destroys (table : SymbolTable) (s : State) (o : Obligation) (i : Instr) : Prop :=
  ∃ symbol status, table.functionSymbol o.destructor = .ok symbol ∧
    Reports s symbol.canRaise status ∧ i = .call (.direct symbol.name) (o.object :: status) none

/-- The status is copied to where the caller wants it, if it wants it. -/
def Passes (s : State) : Option Register → List Instr → Prop
  | none, code => code = []
  | some caller, code => ∃ slot r, s.status = some slot ∧
      s.draft.registers[r.index]? = some .status ∧
      code = [.load r (.reg slot), .store (.reg caller) (.reg r)]

def returning (env : Env) (value : Option Operand) : List Instr :=
  (if env.options.traceCalls then [.call (.direct traceLeave) [Imm.fn env.symbol.name] none]
    else []) ++ [.ret value]

inductive PadCode (env : Env) (s : State) (pad : LandingPad) : List Instr → Prop where
  | handled {handler : Label} {calls : List Instr} : pad.handler = some handler →
    List.Forall₂ (Destroys env.symbols s) pad.cleanups calls →
    PadCode env s pad (.label pad.label :: (calls ++ [.jump (some handler)]))
  | returned {calls copy : List Instr} {value : Option Operand} : pad.handler = none →
    List.Forall₂ (Destroys env.symbols s) pad.cleanups calls →
    Passes s env.callerStatus copy →
    PadCode env s pad (.label pad.label :: (calls ++ (copy ++ returning env value)))

section Widen
variable {S : Setting} {s t : State}

theorem Destroys.widen {table : SymbolTable} {i : Instr} (h : Destroys table s o i)
    (w : S.Widens s t) : Destroys table t o i := by
  obtain ⟨symbol, status, hsymbol, reports, rfl⟩ := h
  exact ⟨symbol, status, hsymbol, reports.widen w, rfl⟩

theorem Passes.widen {caller : Option Register} {code : List Instr} (h : Passes s caller code)
    (w : S.Widens s t) : Passes t caller code := by
  cases caller with
  | none => exact h
  | some caller =>
    obtain ⟨slot, r, hs, typed, rfl⟩ := h
    obtain ⟨added, types⟩ := w.houses.types
    refine ⟨slot, r, w.status slot hs, ?_, rfl⟩
    rw [types, Array.getElem?_append_left (Array.getElem?_eq_some_iff.1 typed).1, typed]

theorem PadCode.widen {env : Env} {pad : LandingPad} {code : List Instr}
    (h : PadCode env s pad code) (w : S.Widens s t) : PadCode env t pad code := by
  cases h with
  | handled handler calls => exact .handled handler (calls.imp fun _ _ h => h.widen w)
  | returned handler calls copy =>
    exact .returned handler (calls.imp fun _ _ h => h.widen w) (copy.widen w)

end Widen

namespace Scene
variable (S : Setting)

structure Writes (P : Scene) (code : List Instr) (Q : Scene) : Prop extends
    P.Follows S [] Q where
  body : Q.state.draft.body.toList = P.state.draft.body.toList ++ code
  raised : Q.raised = P.raised

structure Unwinds (P : Scene) : Prop extends P.Firm S where
  mark : P.mark = ⟨.unwinding, P.held, P.live⟩

variable {S} {P Q R : Scene}

theorem Writes.refl (P : Scene) : P.Writes S [] P :=
  ⟨(Leads.refl P).toFollows, by simp, rfl⟩

theorem Writes.trans {a b : List Instr} (h : P.Writes S a Q) (k : Q.Writes S b R) :
    P.Writes S (a ++ b) R :=
  ⟨h.toFollows.trans k.toFollows, by rw [k.body, h.body, append_assoc],
    k.raised.trans h.raised⟩

theorem Writes.keep {a : List Instr} (h : P.Writes S a Q) (live : List Operand) :
    P.Writes S a (Q.keep P.held live) :=
  ⟨⟨⟨h.notes, h.promises, h.widens⟩, fun _ hr => hr, h.calls, h.slots⟩, h.body, h.raised⟩

theorem writes_push {note : Note} {i : Instr} {n : Mark} (h : P.Typed S)
    (site : note.origin.site? = none)
    (slot : note.origin.slot? = none) (pad : note.mark.phase.pad? i = none)
    (held : ∀ r ∈ P.held, r ∈ n.held) : P.Writes S [i] (P.push note i n) :=
  ⟨follows_push site slot held, Array.toList_push, by rw [raised_push h.size, pad]; simp⟩

theorem writes_widen {t : State} (w : S.Widens P.state t)
    (body : t.draft.body = P.state.draft.body) : P.Writes S [] (P.widen t) := by
  refine ⟨(Leads.of_notes (later_widen w) (fun _ hr => hr) rfl (·.of_body body)).toFollows, ?_, ?_⟩
  · simp [Scene.widen, body]
  · unfold Scene.raised
    simp only [Scene.widen, body]

theorem Unwinds.widen (h : P.Unwinds S) {t : State} (firm : (P.widen t).Firm S) :
    (P.widen t).Unwinds S := ⟨firm, h.mark⟩

theorem Unwinds.push (h : P.Unwinds S) (origin : Origin) (i : Instr) (inline : i.inline)
    (reads : ∀ r, .reg r ∈ i.operands → S.Reads P.state P.held r)
    (dest : ∀ r, i.dest? = some r → P.state.Usable r)
    (turn : Turn S P.state origin .unwinding P.live i .unwinding live)
    (after : ∀ x ∈ live, P.Built S x) (site : origin.site? = none) (slot : origin.slot? = none)
    (due : S.follows = true → ∀ o, origin = .destructor o → P.Due S o) :
    ∃ note, (P.push note i ⟨.unwinding, i.dest?.toList ++ P.held, live⟩).Unwinds S ∧
      P.Writes S [i] (P.push note i ⟨.unwinding, i.dest?.toList ++ P.held, live⟩) := by
  refine ⟨⟨⟨.unwinding, P.held, P.live⟩, origin⟩, ⟨h.toFirm.push (h.mark ▸ Mark.le_refl _)
    (fits_inline turn inline reads dest fun r hr => mem_dest_append hr)
    (fun r hr => held_dest dest hr) h.live (fun x hx => .inr (after x hx)) (fun r hr => ?_)
    (fun l _ hl => ?_) due (fun _ hx => nomatch hx), rfl⟩,
    writes_push h.typed site slot rfl fun r hr => mem_append_right _ hr⟩
  · rw [slot] at hr
    cases hr
  · subst hl
    cases inline

theorem Unwinds.push_end (h : P.Unwinds S) (i : Instr) (closing : i.goesOn = false)
    (choices : i.choices = [])
    (reads : ∀ r, .reg r ∈ i.operands → S.Reads P.state P.held r)
    (turn : Turn S P.state .plain .unwinding P.live i .dead live)
    (edge : ∀ e l, i.target? e = some (some l) → P.Promises l ⟨.caught, [], P.live⟩)
    (after : ∀ x ∈ live, P.Built S x) :
    ∃ note, (P.push note i ⟨.dead, P.held, live⟩).Firm S ∧
      P.Writes S [i] (P.push note i ⟨.dead, P.held, live⟩) := by
  refine ⟨⟨⟨.unwinding, P.held, P.live⟩, .plain⟩,
    h.toFirm.push (h.mark ▸ Mark.le_refl _) (fits_end turn closing reads (fun e l hl => ?_)
    fun l hl => ?_) (fun r hr => .inl hr) h.live (fun x hx => .inr (after x hx))
    (fun r hr => nomatch hr) (fun l _ hl => ?_) nofun (fun _ hx => nomatch hx),
    writes_push h.typed rfl rfl rfl fun r hr => hr⟩
  · exact ⟨_, (edge e l hl).get_idle nofun, ⟨rfl, rfl⟩, fun r hr => nomatch hr⟩
  · rw [choices] at hl
    cases hl
  · subst hl
    cases closing

end Scene

section Pads
variable {S : Setting} {P : Scene} {env : Env}
open Scene

theorem Unwinds.destroy (h : P.Unwinds S) {symbol : FunctionSymbol} {status : List Operand}
    (hsymbol : S.table.functionSymbol o.destructor = .ok symbol)
    (reports : Reports P.state symbol.canRaise status) (owes : P.Owes S o)
    (drops : Drops S P.state o.object P.live live) :
    ∃ Q : Scene, Q.state = { P.state with draft := { P.state.draft with
        body := P.state.draft.body.push
          (.call (.direct symbol.name) (o.object :: status) none) } } ∧
      Q.Unwinds S ∧ P.Writes S [.call (.direct symbol.name) (o.object :: status) none] Q ∧
      Q.held = P.held ∧ Q.live = live := by
  have reads : ∀ r, .reg r ∈ o.object :: status → S.Reads P.state P.held r := by
    intro r hr
    rcases mem_cons.1 hr with same | hr
    · have keeps := owes.1
      rw [← same] at keeps
      exact keeps.holds.read
    · unfold Reports at reports
      split at reports
      · obtain ⟨slot, hs, rfl⟩ := reports
        exact h.books.read_status ⟨slot, hs, mem_singleton.1 hr⟩
      · rw [reports] at hr
        cases hr
  obtain ⟨_, unwinds, writes⟩ := h.push (.destructor o)
    (.call (.direct symbol.name) (o.object :: status) none) rfl reads (fun r hr => nomatch hr)
    (.unwindCall (.destructor hsymbol reports) drops) (fun x hx => h.live x (drops.mem hx)) rfl rfl
    (fun follows o' ho' => by cases ho'; exact owes.2 follows)
  exact ⟨_, rfl, unwinds, writes, rfl, rfl⟩

theorem statusSlot_unwinds (h : P.Unwinds S) :
    Ensures (fun slot t => ∃ Q : Scene, Q.state = t ∧ Q.Unwinds S ∧
        P.Writes S [] Q ∧ Q.held = P.held ∧ Q.live = P.live ∧ Q.state.status = some slot)
      (statusSlot env P.state) := by
  obtain ⟨slot, status, made⟩ := withStatus_status P.state
  obtain ⟨firm, w⟩ := firm_status h.toFirm
  rw [made env]
  exact ⟨P.widen (withStatus P.state), rfl, h.widen firm,
    writes_widen w (withStatus_frame P.state).1, rfl, rfl, status⟩

theorem emitDestructor_unwinds (h : P.Unwinds S) (table : env.symbols = S.table) (owes : P.Owes S o)
    (drops : Drops S P.state o.object P.live live) :
    Ensures (fun _ t => ∃ (Q : Scene) (i : Instr), Q.state = t ∧ Q.Unwinds S ∧
        P.Writes S [i] Q ∧ Destroys env.symbols Q.state o i ∧ Q.held = P.held ∧ Q.live = live)
      (emitDestructor o env P.state) := by
  refine .query fun symbol hsymbol => ?_
  have known := hsymbol
  rw [table] at known
  cases raises : symbol.canRaise with
  | false =>
    have reports : Reports P.state symbol.canRaise [] := by simp [Reports, raises]
    obtain ⟨Q, hQ, unwinds, writes, held, live⟩ := Unwinds.destroy h known reports owes drops
    exact ⟨Q, _, hQ, unwinds, writes,
      ⟨symbol, [], hsymbol, reports.widen writes.widens, rfl⟩, held, live⟩
  | true =>
    refine .seq (statusSlot_unwinds h) ?_
    rintro slot _ ⟨P1, rfl, unwinds1, writes1, held1, live1, hs⟩
    have reports : Reports P1.state symbol.canRaise [.reg slot] := by simp [Reports, raises, hs]
    have drops1 := drops.widen writes1.widens
    rw [← live1] at drops1
    obtain ⟨Q, hQ, unwinds, writes, held, live⟩ :=
      Unwinds.destroy unwinds1 known reports (owes.mono writes1.toLater) drops1
    exact ⟨Q, _, hQ, unwinds, writes1.trans writes,
      ⟨symbol, _, hsymbol, reports.widen writes.widens, rfl⟩, held.trans held1, live⟩

theorem emitUnwinding_unwinds (table : env.symbols = S.table) (rest : List Operand) :
    ∀ (owed : List Obligation) {P : Scene}, P.Unwinds S → (∀ o ∈ owed, P.Owes S o) →
    P.live = S.seen (owed.map Obligation.object) ++ rest →
    Ensures (fun _ t => ∃ (Q : Scene) (calls : List Instr), Q.state = t ∧
        Q.Unwinds S ∧ P.Writes S calls Q ∧ List.Forall₂ (Destroys env.symbols Q.state) owed calls ∧
        Q.held = P.held ∧ Q.live = rest)
      (emitUnwinding owed env P.state)
  | [], P, h, _, live => ⟨P, [], rfl, h, .refl P, .nil, rfl, by simpa using live⟩
  | o :: owed, P, h, owes, live => by
    have drops : Drops S P.state o.object P.live
        (S.seen (owed.map Obligation.object) ++ rest) := by
      rw [live, map_cons]
      exact .seen [] (.inl rfl)
    refine .seq (emitDestructor_unwinds h table (owes o mem_cons_self) drops) ?_
    rintro _ _ ⟨P1, i, rfl, unwinds1, writes1, destroys, held1, live1⟩
    refine Ends.mono (emitUnwinding_unwinds table rest owed unwinds1
      (fun o' ho' => (owes o' (mem_cons_of_mem _ ho')).mono writes1.toLater) live1) ?_
    rintro _ _ ⟨Q, calls, rfl, unwinds, writes, all, held, live⟩
    exact ⟨Q, i :: calls, rfl, unwinds, writes1.trans writes,
      .cons (destroys.widen writes.widens) all, held.trans held1, live⟩

theorem passStatus_unwinds (h : P.Unwinds S)
    (caller : ∀ r, env.callerStatus = some r → P.Keeps S (.reg r)) :
    Ensures (fun _ t => ∃ (Q : Scene) (code : List Instr), Q.state = t ∧
        Q.Unwinds S ∧ P.Writes S code Q ∧ Passes Q.state env.callerStatus code ∧ Q.live = P.live)
      (passStatus env P.state) := by
  refine .ask ?_
  cases hc : env.callerStatus with
  | none => exact ⟨P, [], rfl, h, .refl P, rfl, rfl⟩
  | some r =>
    refine .seq (statusSlot_unwinds h) ?_
    rintro slot _ ⟨P1, rfl, unwinds1, writes1, held1, live1, hs⟩
    let code : Register := ⟨P1.state.draft.registers.size⟩
    let P2 := P1.widen (withRegister P1.state .status)
    have unwinds2 : P2.Unwinds S := unwinds1.widen (firm_register unwinds1.toFirm .status)
    have writes2 : P1.Writes S [] P2 := writes_widen (widens_register .status) rfl
    have typed : P2.state.draft.registers[code.index]? = some .status := Array.getElem?_push_size
    have usable : P2.state.Usable code :=
      ⟨(Array.getElem?_eq_some_iff.1 typed).1, status_ne unwinds1.books⟩
    obtain ⟨_, unwinds3, writes3⟩ := unwinds2.push .plain (.load code (.reg slot)) rfl
      (fun r hr => unwinds2.books.read_status ⟨slot, hs, mem_singleton.1 hr⟩)
      (fun r hr => by cases hr; exact usable) (.unwindStraight rfl fun r hr => by cases hr)
      unwinds2.live rfl rfl (by simp)
    have keeps := ((caller r hc).mono writes1.toLater).mono (writes2.trans writes3).toLater
    have stored := unwinds3.push .plain (.store (.reg r) (.reg code)) rfl
      (fun r' hr => ?_) (fun r hr => by cases hr) (.unwindStraight rfl fun r' hr => ?_)
      unwinds3.live rfl rfl (by simp)
    · obtain ⟨_, unwinds, writes⟩ := stored
      exact ⟨_, _, rfl, unwinds, (writes1.trans writes2).trans (writes3.trans writes),
        ⟨slot, code, hs, typed, rfl⟩, live1⟩
    · simp only [Instr.operands, mem_cons, not_mem_nil, or_false] at hr
      rcases hr with same | same
      · cases same
        exact keeps.holds.read
      · cases same
        exact ⟨.inr mem_cons_self, usable.1⟩
    · cases hr
      exact (keeps r rfl).2.2

theorem emitReturn_unwinds (h : P.Unwinds S) (caller : env.symbol.name = S.caller)
    (empty : P.live = []) {value : Option Operand} (constant : ∀ o ∈ value, ∃ c, o = .imm c) :
    Ensures (fun _ t => ∃ Q : Scene, Q.state = t ∧ Q.Firm S ∧
        Q.mark.phase = .dead ∧ P.Writes S (returning env value) Q)
      (emitReturn value env P.state) := by
  have traced : Ensures (fun _ t => ∃ (Q : Scene) (code : List Instr), Q.state = t ∧
      Q.Unwinds S ∧ P.Writes S code Q ∧ Q.live = [] ∧ returning env value = code ++ [.ret value])
      (emitTrace traceLeave env P.state) := by
    refine .ask ?_
    cases ht : env.options.traceCalls with
    | false => exact ⟨P, [], rfl, h, .refl P, empty, by simp [returning, ht]⟩
    | true =>
      have calls : Calls S P.state .trace (.direct traceLeave) [Imm.fn env.symbol.name] false := by
        rw [caller]
        exact .trace (.inr rfl)
      obtain ⟨_, unwinds, writes⟩ := h.push .trace
        (.call (.direct traceLeave) [Imm.fn env.symbol.name] none) rfl
        (fun r hr => by simp [Instr.operands, Callee.operands] at hr) (fun r hr => by cases hr)
        (.unwindCall calls rfl) h.live rfl rfl (by simp)
      exact ⟨_, _, rfl, unwinds, writes, empty, by simp [returning, ht]⟩
  refine .seq traced ?_
  rintro _ _ ⟨Q, code, rfl, unwinds, writes, empty', whole⟩
  have turn : Turn S Q.state .plain .unwinding Q.live (.ret value) .dead [] := by
    rw [empty']
    exact .unwindRet (.inl rfl)
  have returned := unwinds.push_end (.ret value) rfl rfl (fun r hr => ?_) turn
    (fun e l hl => ?_) (by simp)
  · obtain ⟨_, firm, returns⟩ := returned
    rw [whole]
    exact ⟨_, rfl, firm, rfl, writes.trans returns⟩
  · obtain ⟨c, hc⟩ := constant _ (by simpa [Instr.operands] using hr)
    cases hc
  · cases e <;> cases hl

theorem placePad_unwinds (h : P.Firm S) (dead : P.mark.phase = .dead) (idle : P.held = [])
    {l : Label} (promised : P.Promises l ⟨.unwinding, [], live⟩) (built : ∀ x ∈ live, P.Built S x) :
    ∃ Q : Scene, Q.state = { P.state with draft := { P.state.draft with
        body := P.state.draft.body.push (.label l) } } ∧
      Q.Unwinds S ∧ P.Writes S [.label l] Q ∧ Q.live = live := by
  exact ⟨_, rfl, ⟨h.push_entry dead (promised.get_idle nofun) (.entered (.inr rfl)) built rfl, rfl⟩,
    writes_push h.typed rfl rfl rfl (by simp [idle]), rfl⟩

/-- A landing pad is written behind code that control does not run past. -/
theorem emitPad_writes (h : P.Firm S) (dead : P.mark.phase = .dead) (idle : P.held = [])
    (table : env.symbols = S.table) (caller : env.symbol.name = S.caller)
    (status : ∀ r, env.callerStatus = some r → P.Keeps S (.reg r)) {pad : LandingPad}
    (fits : P.PadFits S pad) :
    Ensures (fun _ t => ∃ (Q : Scene) (code : List Instr), Q.state = t ∧ Q.Firm S ∧
        Q.mark.phase = .dead ∧ Q.held = [] ∧ P.Writes S code Q ∧ PadCode env Q.state pad code)
      (emitPad pad env P.state) := by
  obtain ⟨below, promised, built, handler⟩ := fits.promised
  obtain ⟨P1, hP1, unwinds1, writes1, live1⟩ := placePad_unwinds h dead idle promised built.built
  have placed : (liftM (Draft.place pad.label) : LowerM Unit) env P.state = .ok ⟨⟩ P1.state := by
    rw [hP1]
    rfl
  rw [emitPad, run_bind placed]
  refine .seq (emitUnwinding_unwinds table below pad.cleanups unwinds1
    (fun o ho => (fits.objects o ho).mono writes1.toLater) live1) ?_
  rintro _ _ ⟨P2, calls, rfl, unwinds2, writes2, destroys, -, live2⟩
  have close {Q : Scene} {code : List Instr} (firm : Q.Firm S) (dead : Q.mark.phase = .dead)
      (writes : P2.Writes S code Q)
        (made : PadCode env Q.state pad (.label pad.label :: (calls ++ code))) :
      ∃ (R : Scene) (code : List Instr), R.state = Q.state ∧ R.Firm S ∧ R.mark.phase = .dead ∧
        R.held = [] ∧ P.Writes S code R ∧ PadCode env R.state pad code :=
    ⟨Q.keep P.held Q.live, _, rfl, firm.keep (by simp [idle]) firm.live, dead, idle,
      (writes1.trans (writes2.trans writes)).keep Q.live, made⟩
  cases hh : pad.handler with
  | some l =>
    rw [hh] at handler
    have caught := handler.mono (writes1.trans writes2).toLater
    rw [← live2] at caught
    obtain ⟨_, firm, writes⟩ := unwinds2.push_end (.jump (some l)) rfl rfl
      (fun r hr => nomatch hr) (.unwindJump (.inl rfl))
      (fun e l' hl => by cases e <;> cases hl; exact caught)
      unwinds2.live
    exact close firm rfl writes (.handled hh (destroys.imp fun _ _ h => h.widen writes.widens))
  | none =>
    rw [hh] at handler
    refine .seq (passStatus_unwinds unwinds2
      fun r hr => (status r hr).mono (writes1.trans writes2).toLater) ?_
    rintro _ _ ⟨P3, copy, rfl, unwinds3, writes3, passes, live3⟩
    refine .seq (defaultReturn_ends env P3.state) ?_
    rintro value _ ⟨rfl, constant⟩
    refine Ends.mono (emitReturn_unwinds unwinds3 caller
      ((live3.trans live2).trans handler) constant) ?_
    rintro _ _ ⟨Q, rfl, firm, dead, writes⟩
    exact close firm dead (writes3.trans writes) (.returned hh
      (destroys.imp fun _ _ h =>
        h.widen (writes3.trans writes).widens) (passes.widen writes.widens))

theorem forM_emitPad_writes (table : env.symbols = S.table) (caller : env.symbol.name = S.caller) :
    ∀ (pads : List LandingPad) {P : Scene}, P.Firm S → P.mark.phase = .dead → P.held = [] →
    (∀ r, env.callerStatus = some r → P.Keeps S (.reg r)) → (∀ pad ∈ pads, P.PadFits S pad) →
    Ensures (fun _ t => ∃ (Q : Scene) (codes : List (List Instr)), Q.state = t ∧
        Q.Firm S ∧ Q.mark.phase = .dead ∧ P.Writes S codes.flatten Q ∧
        List.Forall₂ (PadCode env Q.state) pads codes)
      (pads.forM emitPad env P.state)
  | [], P, h, dead, _, _, _ => ⟨P, [], rfl, h, dead, .refl P, .nil⟩
  | pad :: pads, P, h, dead, idle, status, fits => by
    refine .seq (emitPad_writes h dead idle table caller status
      (fits pad mem_cons_self)) ?_
    rintro _ _ ⟨P1, code, rfl, firm1, dead1, idle1, writes1, made⟩
    refine Ends.mono (forM_emitPad_writes table caller pads firm1 dead1 idle1
      (fun r hr => (status r hr).mono writes1.toLater)
      fun pad' hp => (fits pad' (mem_cons_of_mem _ hp)).mono writes1.toLater) ?_
    rintro _ _ ⟨Q, codes, rfl, firm, dead, writes, all⟩
    exact ⟨Q, code :: codes, rfl, firm, dead, writes1.trans writes,
      .cons (made.widen writes.widens) all⟩

theorem emitPads_writes (h : P.Firm S) (dead : P.mark.phase = .dead) (idle : P.held = [])
    (table : env.symbols = S.table) (caller : env.symbol.name = S.caller)
    (status : ∀ r, env.callerStatus = some r → P.Keeps S (.reg r)) :
    Ensures (fun count t => ∃ (Q : Scene) (codes : List (List Instr)), Q.state = t ∧
        Q.Firm S ∧ Q.mark.phase = .dead ∧ P.Writes S codes.flatten Q ∧
        List.Forall₂ (PadCode env Q.state) P.state.pads.pads.toList codes ∧
        count = P.state.pads.pads.size)
      (emitPads env P.state) := by
  let t : State := { P.state with pads := .empty }
  have w : S.Widens P.state t :=
    .of_same rfl rfl rfl rfl
  have writes : P.Writes S [] (P.widen t) := writes_widen w rfl
  have books : (P.widen t).Books S := by
    refine h.books.mono writes.toLater h.books.entry (fun i hi => .inl hi) (fun v l hl => .inl hl)
      (fun o ho => .inl ho) (fun pad hp => ?_) (fun _ p hp => .inl hp)
      fun p hp b hb => .inl ⟨p, hp, hb⟩
    simp [Scene.widen, t, LandingPads.empty] at hp
  have firm : (P.widen t).Firm S := h.widen w rfl rfl books h.lived.owed
  refine .look (Ends.known (t := t) rfl ?_)
  refine .seq (forM_emitPad_writes table caller P.state.pads.pads.toList firm dead idle
    (fun r hr => (status r hr).mono writes.toLater)
    fun pad hp => (h.books.pads pad (Array.mem_toList_iff.1 hp)).mono writes.toLater) ?_
  rintro _ _ ⟨Q, codes, rfl, firm, dead, writes', all⟩
  exact .ret ⟨Q, codes, rfl, firm, dead, writes.trans writes', all, rfl⟩

end Pads
end FlatCode.Marks
