import FlatCode.Proofs.Balance.Function
import FlatCode.Proofs.Control.Switch

/-! Control flow is preserved. The code of a function that only calls and branches makes the calls
that the statements of the function make, in their order, and returns if and only if they end. -/
namespace FlatCode
open Code Symbols Ast Lower

section Tree
variable {w : Setting} {n : Nat}

-- follows the recursion of `lowerStmt`; all the work is in the lemma for each statement
mutual
theorem lowerStmt_simulates : ∀ st : Stmt, st.isControl w.symbols →
    w.Simulates n (lowerStmt st) (st.exec w.symbols w.oracle n)
  | .compound body, h => by
    rw [lowerStmt]
    exact .commented _ (.compound (lowerStmts_simulates body h))
  | .expression e, h => by
    rw [lowerStmt]
    exact .commented _ (.expression h)
  | .ifElse e then_ none, h => by
    rw [Stmt.isControl, Bool.and_eq_true] at h
    rw [lowerStmt]
    exact .commented _ (.ifThen h.1 (lowerStmt_simulates then_ h.2))
  | .ifElse e then_ (some else_), h => by
    rw [Stmt.isControl, Bool.and_eq_true, Bool.and_eq_true] at h
    rw [lowerStmt]
    exact .commented _ (.ifThenElse h.1.1 (lowerStmt_simulates then_ h.1.2)
      (lowerStmt_simulates else_ h.2))
  | .whileLoop e body, h => by
    rw [Stmt.isControl, Bool.and_eq_true] at h
    rw [lowerStmt]
    exact .commented _ (.whileLoop h.1 (lowerStmt_simulates body h.2))
  | .doWhile body e, h => by
    rw [Stmt.isControl, Bool.and_eq_true] at h
    rw [lowerStmt]
    exact .commented _ (.doWhile h.2 (lowerStmt_simulates body h.1))
  | .forLoop none e increment body, h => by
    rw [Stmt.isControl, Bool.and_eq_true, Bool.and_eq_true] at h
    rw [lowerStmt]
    exact .commented _ (.forLoop .none h.1.1 h.1.2 (lowerStmt_simulates body h.2))
  | .forLoop (some init) e increment body, h => by
    rw [Stmt.isControl, Bool.and_eq_true, Bool.and_eq_true, Bool.and_eq_true] at h
    rw [lowerStmt]
    exact .commented _ (.forLoop (lowerStmt_simulates init h.1.1.1) h.1.1.2 h.1.2
      (lowerStmt_simulates body h.2))
  | .switch e clauses, h => by
    rw [Stmt.isControl, Bool.and_eq_true] at h
    rw [lowerStmt]
    exact .commented _ (.switch h.1 (lowerClauses_simulates clauses h.2))
  | .return_ none, _ => by
    rw [lowerStmt]
    exact .commented _ .returns
  | .break_, _ => by
    rw [lowerStmt]
    exact .commented _ .breaks
  | .continue_, _ => by
    rw [lowerStmt]
    exact .commented _ .continues
  | .gotoCase (.signed v), _ => by
    rw [lowerStmt]
    exact .commented _ (.gotoCase v)
  | .gotoDefault, _ => by
    rw [lowerStmt]
    exact .commented _ .gotoDefault
  | .empty, _ => by
    rw [lowerStmt]
    exact .commented _ .none
theorem lowerStmts_simulates : ∀ body : List Stmt, allControl w.symbols body →
    w.Simulates n (lowerStmts body) (execAll w.symbols w.oracle n body)
  | [], _ => by
    rw [lowerStmts]
    exact .none
  | st :: rest, h => by
    rw [allControl, Bool.and_eq_true] at h
    rw [lowerStmts]
    exact (lowerStmt_simulates st h.1).seq (lowerStmts_simulates rest h.2)
theorem lowerClauses_simulates : ∀ clauses : List Clause, clausesControl w.symbols clauses →
    w.SimulatesClauses n clauses
  | [], _ => .nil
  | .mk kind body :: rest, h => by
    rw [clausesControl, Bool.and_eq_true] at h
    exact .cons (lowerStmts_simulates body h.1) (lowerClauses_simulates rest h.2)
end

end Tree

/-- What the machine does from here on is what the body of a function means: it comes to a return
if the body ends, and otherwise runs on. -/
def Setting.Finishes (w : Setting) (n : Nat) (env : Env) (m : Machine) : Outcome → Prop
  | (h, none) => w.code.Lasts w.oracle n h m
  | (h, some _) => ∃ m', w.Reaches m m' ∧
    m'.history = h ++ traceCall env.options traceLeave env.symbol.name ∧ w.code.AtReturn m'

theorem Setting.Finishes.after {w : Setting} {n : Nat} {env : Env} {m m' : Machine} {o : Outcome}
    (h : w.Reaches m m') (hf : w.Finishes n env m' o) : w.Finishes n env m o := by
  obtain ⟨history, flow⟩ := o
  cases flow with
  | none => exact Function.Lasts.after h hf
  | some _ =>
    obtain ⟨m'', reaches, rest⟩ := hf
    exact ⟨m'', h.trans reaches, rest⟩

section Body
variable (w : Setting) (n : Nat) {env : Env} {s : State}

theorem fallOut_returns : Ensures (fun _ t => s.draft.Later t.draft ∧
    (s.draft.endsInTerminator = false → Returns w env s t)) (fallOut env s) := by
  refine .known (a := s.draft.endsInTerminator) (t := s) rfl ?_
  cases hs : s.draft.endsInTerminator with
  | true => exact ⟨.refl _, nofun⟩
  | false =>
    refine defaultReturn_silent.seq ?_
    rintro value _ rfl
    exact (emitReturn_returns w value).mono fun _ t ⟨quiet, returns⟩ =>
      ⟨quiet.later, fun _ => returns⟩

/-- The body of a function is in no loop and no switch, so control leaves it at its end or by a
return. -/
theorem lowerBody_finishes {body : List Stmt} (control : allControl w.symbols body)
    (henv : env.symbols = w.symbols) (hbreak : env.breakDepth = none)
    (hloop : env.loopDepth = none) (hswitch : env.switch = none) (clear : s.cleanups.Clear)
    (hb : s.Balanced [] []) :
    Ensures (fun _ t => s.draft.Later t.draft ∧
      (w.Holds t.draft → s.draft.endsInTerminator = false → ∀ m, w.Behind s.draft m →
        w.Finishes n env m (execAll w.symbols w.oracle n body m.history)))
      (lowerBody body env s) := by
  unfold lowerBody
  have simulates : w.Simulates n _ _ := (lowerStmts_simulates body control).compound
  refine ((simulates henv clear).and
    (inCompound_keeps (lowerStmts_walks body) hb)).seq
    fun x t ⟨⟨quiet, behaves⟩, _, fits, hnext⟩ => ?_
  refine (fallOut_returns w).seq fun _ u ⟨later, returns⟩ => ?_
  refine finishBody_later.mono fun _ v ⟨later', _, _, _⟩ => ?_
  refine ⟨(quiet.later.trans later).trans later', fun holds goes m hm => ?_⟩
  have holds' := holds.earlier later'
  have behaves' := behaves (holds'.earlier later) goes m hm
  generalize execAll w.symbols w.oracle n body m.history = o at behaves' ⊢
  have taken (m : Machine) : ¬ w.Taken [] m := fun ⟨_, hb, _⟩ => by cases hb
  obtain ⟨h, flow⟩ := o
  cases flow with
  | none => exact behaves'
  | some flow =>
    obtain ⟨m', reaches, leaves⟩ := behaves'
    cases flow with
    | next =>
      obtain ⟨rfl, comes⟩ := leaves
      have comes' : w.Comes t.draft x.next m' := comes
      rw [hnext] at comes'
      obtain ⟨behind, goes'⟩ := comes'.falls_of_nil
      obtain ⟨m'', onward, rest⟩ := returns goes' holds' m' behind
      exact ⟨m'', reaches.trans onward, rest⟩
    | break_ => exact (taken m' (fits.1 hbreak ▸ leaves.2)).elim
    | continue_ => exact (taken m' (fits.2 hloop ▸ leaves.2)).elim
    | gotoCase _ =>
      obtain ⟨-, -, switch, target, inSwitch, -⟩ := leaves
      rw [hswitch] at inSwitch
      cases inSwitch
    | gotoDefault =>
      obtain ⟨-, switch, target, inSwitch, -⟩ := leaves
      rw [hswitch] at inSwitch
      cases inSwitch
    | return_ => exact ⟨m', reaches, leaves⟩

theorem setup_passed {d : Draft} (setup : ∀ i ∈ d.body, i.isSetup) :
    d.endsInTerminator = false ∧ (w.Holds d → ∀ m, m.place = w.base →
      ∃ m', w.Reaches m m' ∧ w.Behind d m' ∧ m'.history = m.history) := by
  refine ⟨?_, fun holds m hm => ⟨w.moved d m, ?_, rfl, rfl⟩⟩
  · rw [Draft.endsInTerminator_eq]
    refine Draft.closes_of_open fun i hi => ?_
    have hset := setup i (by simpa using hi)
    cases i <;> first | rfl | cases hset
  · unfold Setting.moved
    rw [← hm]
    refine Function.reaches_idle d.body.size fun j hj => ?_
    have hset := setup _ (Array.getElem_mem hj)
    obtain ⟨i, hi, settles⟩ := holds.instr j _ (Array.getElem?_eq_getElem hj)
    refine ⟨i, by rw [hm]; exact hi, ?_⟩
    generalize d.body[j] = i' at settles hset
    cases i' with
    | alloc | store =>
      cases settles
      rfl
    | _ => cases hset

theorem prologue_passed (f : Ast.Function) :
    Ensures (fun _ t => (t.Balanced [] [] ∧ t.cleanups.Clear) ∧
      t.draft.endsInTerminator = false ∧ (w.Holds t.draft → ∀ m, m.place = w.base → ∃ m',
        w.Reaches m m' ∧ w.Behind t.draft m' ∧
          m'.history = m.history ++ traceCall env.options traceEnter env.symbol.name))
      (prologue f env .empty) := by
  have start : State.empty.Balanced [] [] := ⟨Draft.accounts_empty, List.nodup_nil⟩
  refine .and ((prologue_settled f env .empty).mono fun _ t ht => ?_).anyError
    (F := fun _ => True) ?_
  · refine ⟨(ht.keeps start).balanced, ?_⟩
    rw [ht.cleanups]
    exact fun scope hs => by cases hs
  unfold prologue
  refine (receive_adds (p := Instr.isSetup) (fun _ _ => rfl) f env .empty).anyError.seq
    fun incoming s hs => ?_
  refine (emitTrace_called w traceEnter).seq fun _ t ⟨quiet, goes, called⟩ => .ret ?_
  obtain ⟨added, body, setup⟩ := hs.body
  have setup' : ∀ i ∈ s.draft.body, i.isSetup := by
    rw [body]
    simpa [State.empty, Draft.empty] using setup
  obtain ⟨goes', passed⟩ := setup_passed w setup'
  refine ⟨goes goes', fun holds m hm => ?_⟩
  obtain ⟨m1, first, behind, history⟩ := passed (holds.earlier quiet.later) m hm
  obtain ⟨m2, second, behind', history'⟩ := called holds m1 behind
  exact ⟨m2, first.trans second, behind', by rw [history', history]⟩

theorem lowerAll_finishes {f : Ast.Function} (control : allControl w.symbols f.body)
    (henv : env.symbols = w.symbols) (hbreak : env.breakDepth = none)
    (hloop : env.loopDepth = none) (hswitch : env.switch = none) :
    Ensures (fun _ t => w.Holds t.draft → ∀ m, m.place = w.base →
      w.Finishes n env m (execAll w.symbols w.oracle n f.body
        (m.history ++ traceCall env.options traceEnter env.symbol.name)))
      (lowerAll f env .empty) := by
  refine (prologue_passed w f).seq fun incoming s ⟨⟨hb, clear⟩, goes, passed⟩ => ?_
  refine .seq (Ends.inside (lowerBody_finishes w n control henv hbreak hloop hswitch clear hb))
    fun pads t ⟨later, finishes⟩ => ?_
  refine .look (Ends.query fun _ _ => ?_)
  refine .ask (Ends.answered (fun _ _ holds m hm => ?_) fun _ _ => trivial)
  obtain ⟨m', reaches, behind, history⟩ := passed (holds.earlier later) m hm
  rw [← history]
  exact (finishes holds goes m' behind).after reaches

end Body

def Machine.start (registers : Register → Nat) : Machine := ⟨0, registers, []⟩

section Function
variable {symbols : SymbolTable} {options : Options} {f : Ast.Function} {code : Code.Function}

theorem lowerFunction_follows (control : allControl symbols f.body)
    (lowered : lowerFunction symbols options f = .ok code) (oracle : Oracle)
    (registers : Register → Nat) :
    code.Follows oracle (.start registers) (f.calls symbols options oracle) := by
  intro n
  obtain ⟨symbol, labels, t, hs, -, run⟩ := lowerFunction_run lowered
  obtain ⟨-, finished, setup⟩ := (lowerAll_closed f rfl rfl).of_ok run
  let w : Setting := ⟨symbols, code, t.draft.entry.size, oracle⟩
  have finishes := (lowerAll_finishes w n control rfl rfl rfl rfl).of_ok run finished.inside
    ((Machine.start registers).goto t.draft.entry.size) rfl
  -- the slots in front of the body are passed first
  have entered : code.Reaches oracle (.start registers)
      ((Machine.start registers).goto (0 + t.draft.entry.size)) := by
    refine Function.reaches_idle (m := .start registers) t.draft.entry.size fun j hj => ?_
    refine ⟨t.draft.entry[j], ?_, ?_⟩
    · rw [finished.instrs]
      simp [Machine.start, Array.getElem?_append_left, hj]
    · have hset := setup _ (Array.getElem_mem hj)
      generalize t.draft.entry[j] = i at hset
      cases i <;> first | rfl | cases hset
  rw [Nat.zero_add] at entered
  have whole := Setting.Finishes.after (w := w) entered finishes
  have name : f.name symbols = symbol.name := by rw [Ast.Function.name, hs]
  unfold Ast.Function.calls
  rw [name]
  change w.Finishes n _ _ (execAll symbols oracle n f.body
    (traceCall options traceEnter symbol.name)) at whole
  generalize execAll symbols oracle n f.body (traceCall options traceEnter symbol.name) = o
    at whole
  obtain ⟨h, flow⟩ := o
  cases flow <;> exact whole

/-- Control flow is preserved. The code of a function that only calls and branches makes the same
calls as the function, in the same order; it comes to a return with certain calls made if and only
if the function ends with them made; and it never gets stuck. What calls return is arbitrary, and
so is what the registers hold at first. -/
theorem lowerFunction_preserves_control (symbols : SymbolTable) (options : Options)
    (f : Ast.Function) (code : Code.Function) (control : allControl symbols f.body)
    (lowered : lowerFunction symbols options f = .ok code) (oracle : Oracle)
    (registers : Register → Nat) :
    (∀ h, (∃ m, code.Reaches oracle (.start registers) m ∧ h <+: m.history) ↔
      ∃ n, h <+: (f.calls symbols options oracle n).1) ∧
    (∀ h, (∃ m, code.Reaches oracle (.start registers) m ∧ code.AtReturn m ∧ m.history = h) ↔
      ∃ n, f.calls symbols options oracle n = (h, true)) ∧
    (∀ m, code.Reaches oracle (.start registers) m →
      code.AtReturn m ∨ ∃ m', code.step oracle m = some m') := by
  have follows := lowerFunction_follows control lowered oracle registers
  exact ⟨follows.calls_iff, follows.returns_iff, fun _ => follows.progress⟩

section Example

def queueSymbols : SymbolTable where
  types := #[.void, .bool, .integer .w32]
  functions := #[.plain "main" ⟨0⟩, .plain "ready" ⟨1⟩, .plain "closed" ⟨1⟩,
    .plain "!" ⟨1⟩ (some .logicalNot), .plain "next" ⟨2⟩, .plain "handle" ⟨0⟩]
  vars := #[]

/-- `while (ready() && !closed()) switch (next()) { default: goto case 0; case -1: return; case 0:
handle(); }` -/
def queueLoop : Ast.Function where
  function := ⟨0⟩
  parameters := []
  locals := []
  body := [.whileLoop (.conjunction ⟨1⟩ (.call ⟨1⟩ ⟨1⟩ [] false)
      (.unary ⟨1⟩ ⟨3⟩ (.call ⟨1⟩ ⟨2⟩ [] false)))
    (.switch (.call ⟨2⟩ ⟨4⟩ [] false) [.mk .default [.gotoCase (.signed 0)],
      .mk (.case [.signed (-1)]) [.return_ none],
      .mk (.case [.signed 0]) [.expression (.call ⟨0⟩ ⟨5⟩ [] false)]])]
  returnsByHiddenSlot := false
  canRaise := false

theorem queueLoop_preserved : ∃ code, lowerFunction queueSymbols .default queueLoop = .ok code ∧
    ∀ oracle registers h,
      (∃ m, code.Reaches oracle (.start registers) m ∧ code.AtReturn m ∧ m.history = h) ↔
        ∃ n, queueLoop.calls queueSymbols .default oracle n = (h, true) := by
  have control : allControl queueSymbols queueLoop.body := by decide +kernel
  obtain ⟨code, lowered⟩ :=
    exists_ok_of_isSome (x := lowerFunction queueSymbols .default queueLoop) (by decide +kernel)
  exact ⟨code, lowered, fun oracle registers =>
    (lowerFunction_preserves_control _ _ _ code control lowered oracle registers).2.1⟩

end Example
end Function
end FlatCode
