import FlatCode.Proofs.Layout
import FlatCode.Proofs.Throw.Code

/-! What becomes of a throw that no `try` catches. Its code is stored as the status, the landing pad
destroys what is alive, and the function returns with the status handed on as it is. So the caller
takes a throw for a failure exactly if its code is not zero. -/
namespace FlatCode
open Code Symbols Ast Lower Marks List

namespace Throw
variable {c : Code.Function} {Q : Memory → Prop} {p : Nat} {m next : Memory}
  {slot caller r : Register} {code rest : List Instr}

/-- Control that is at `p` comes to a return where `Q` holds. A call can leave anything in registers
and in the slots that it is given. -/
inductive ReturnsWith (c : Code.Function) (Q : Memory → Prop) : Nat → Memory → Prop where
  | here {p : Nat} {m : Memory} {value : Option Operand} :
    c.instrs[p]? = some (.ret value) → Q m → ReturnsWith c Q p m
  | on {p : Nat} {m next : Memory} {i : Instr} : c.instrs[p]? = some i →
    m.step c.registers i = some next → ReturnsWith c Q (p + 1) next → ReturnsWith c Q p m
  | idle {p : Nat} {m : Memory} {i : Instr} : c.instrs[p]? = some i →
    i.isComment ∨ (∃ l, i = .label l) → ReturnsWith c Q (p + 1) m → ReturnsWith c Q p m
  | jump {p k : Nat} {m : Memory} {l : Label} : c.instrs[p]? = some (.jump (some l)) →
    c.labels[l.index]? = some ⟨k⟩ → ReturnsWith c Q k m → ReturnsWith c Q p m
  | call {p : Nat} {m : Memory} {callee : Callee} {arguments : List Operand}
    {dest : Option Register} : c.instrs[p]? = some (.call callee arguments dest) →
    (∀ next : Memory, (∀ slot, .reg slot ∉ arguments → next.slots slot = m.slots slot) →
      ReturnsWith c Q (p + 1) next) → ReturnsWith c Q p m

def Stands (c : Code.Function) : Nat → List Instr → Prop
  | _, [] => True
  | p, i :: rest => c.instrs[p]? = some i ∧ Stands c (p + 1) rest

theorem stands_of_getElem? : ∀ {code : List Instr} {p : Nat},
    (∀ (k : Nat) (i : Instr), code[k]? = some i → c.instrs[p + k]? = some i) → Stands c p code
  | [], _, _ => trivial
  | i :: code, p, h => by
    refine ⟨h 0 i rfl, stands_of_getElem? fun k j hj => ?_⟩
    rw [Nat.add_right_comm]
    exact h (k + 1) j hj

theorem ReturnsWith.of_run :
    ∀ {code : List Instr} {p : Nat} {m : Memory}, Stands c p (code ++ rest) →
    m.run c.registers code = some next →
    (∀ p, Stands c p rest → ReturnsWith c Q p next) → ReturnsWith c Q p m
  | [], p, m, stands, ran, behind => by
    cases ran
    exact behind p stands
  | i :: code, p, m, stands, ran, behind => by
    obtain ⟨between, step, ran⟩ := Option.bind_eq_some_iff.1 (foldlM_cons.symm.trans ran)
    exact .on stands.1 step (of_run stands.2 ran behind)

/-- Destructors that cannot raise are not given the status. -/
theorem ReturnsWith.of_destroys {table : SymbolTable} {s : State} {owed : List Obligation}
    {calls : List Instr} (h : List.Forall₂ (Destroys table s) owed calls) :
    ∀ {p : Nat} {m : Memory},
    (∀ o ∈ owed, o.object ≠ .reg slot ∧
      ∀ symbol, table.functionSymbol o.destructor = .ok symbol → symbol.canRaise = false) →
    Stands c p (calls ++ rest) →
    (∀ p next, Stands c p rest → next.slots slot = m.slots slot → ReturnsWith c Q p next) →
    ReturnsWith c Q p m := by
  induction h with
  | nil =>
    intro p m _ stands behind
    exact behind p m stands rfl
  | @cons o i owed calls destroys _ ih =>
    intro p m calm stands behind
    obtain ⟨symbol, given, known, reports, rfl⟩ := destroys
    obtain ⟨apart, silent⟩ := calm o mem_cons_self
    rw [silent symbol known] at reports
    obtain rfl : given = [] := reports
    refine .call stands.1 fun next spared => ?_
    have kept : next.slots slot = m.slots slot := spared slot (by simpa using apart.symm)
    refine ih (fun o ho => calm o (mem_cons_of_mem _ ho)) stands.2 fun p last there same => ?_
    exact behind p last there (same.trans kept)

theorem ReturnsWith.of_returning {env : Env} {value : Option Operand}
    (stands : Stands c p (returning env value)) :
    ReturnsWith c (fun last => last.slots caller = m.slots caller) p m := by
  unfold returning at stands
  split at stands
  · exact .call stands.1 fun next spared => .here stands.2.1 (spared caller (by simp))
  · exact .here stands.1 rfl

theorem Memory.run_passes {types : Array Ty}
    (typed : types[r.index]? = some (.int (m.slots slot).width)) (caller : Register) :
    ∃ next, m.run types [.load r (.reg slot), .store (.reg caller) (.reg r)] = some next ∧
      next.slots caller = m.slots slot := by
  have loads : m.step types (.load r (.reg slot)) = some (m.put r (m.slots slot)) := if_pos typed
  have stores : (m.put r (m.slots slot)).step types (.store (.reg caller) (.reg r)) =
      some ((m.put r (m.slots slot)).write caller (m.slots slot)) :=
    congrArg (fun a => some ((m.put r (m.slots slot)).write caller a)) (if_pos rfl)
  exact ⟨_, (run_cons loads).trans (run_cons stores), if_pos rfl⟩

/-- A landing pad that no handler follows hands the status on. -/
theorem ReturnsWith.of_pad {env : Env} {s : State} {pad : LandingPad}
    (made : PadCode env s pad code)
    (out : pad.handler = none) (given : env.callerStatus = some caller)
    (status : s.status = some slot) (registers : c.registers = s.draft.registers)
    (calm : ∀ o ∈ pad.cleanups, o.object ≠ .reg slot ∧
      ∀ symbol, env.symbols.functionSymbol o.destructor = .ok symbol → symbol.canRaise = false)
    (stands : Stands c p code) (width : (m.slots slot).width = .w32) :
    ReturnsWith c (fun last => last.slots caller = m.slots slot) p m := by
  cases made with
  | handled handler _ => cases out.symm.trans handler
  | @returned calls copy value _ destroys passes =>
    rw [given] at passes
    obtain ⟨slot', r, status', typed, rfl⟩ := passes
    cases status.symm.trans status'
    refine .idle stands.1 (.inr ⟨_, rfl⟩) (of_destroys destroys calm stands.2 ?_)
    intro p before there kept
    have typed : c.registers[r.index]? = some (.int (before.slots slot).width) := by
      rw [registers, typed, kept, width]
      rfl
    obtain ⟨next, ran, handed⟩ := Memory.run_passes typed caller
    refine of_run there ran fun p last => ?_
    rw [← kept, ← handed]
    exact of_returning last

end Throw

namespace Marks.Marked
open Throw
variable {S : Setting} {env : Env} {B Q : Scene} {codes : List (List Instr)} {code : Code.Function}

theorem pad_stands (h : Marked S env B Q codes code) {pad : LandingPad}
    (hp : pad ∈ B.state.pads.pads) : ∃ k made, PadCode env Q.state pad made ∧
      code.labels[pad.label.index]? = some ⟨k⟩ ∧ Stands code k made := by
  obtain ⟨before, after, split⟩ := append_of_mem (Array.mem_toList_iff.2 hp)
  have tail := forall₂_drop_append _ before (pad :: after) (split ▸ h.pads.flip)
  generalize hd : codes.drop before.length = rest at tail
  cases tail with
  | @cons made _ rest _ padCode _ =>
  let front := B.state.draft.body.toList ++ (codes.take before.length).flatten
  have parts : Q.state.draft.body.toList = front ++ (made ++ rest.flatten) := by
    rw [append_assoc, ← flatten_cons (l := made), ← hd, ← flatten_append, take_append_drop,
      h.writes.body]
  have there (k : Nat) (i : Instr) (hi : made[k]? = some i) :
      Q.state.draft.body[front.length + k]? = some i := by
    rw [← Array.getElem?_toList, parts, getElem?_append_right (Nat.le_add_right _ _),
      Nat.add_sub_cancel_left, getElem?_append_left (List.getElem?_eq_some_iff.1 hi).1, hi]
  refine ⟨_, made, padCode, h.finished.labels front.length pad.label ?_,
    stands_of_getElem? fun k i hi => ?_⟩
  · exact there 0 _ (head?_eq_getElem? ▸ padCode.head)
  · rw [Nat.add_assoc, h.instr]
    exact there k i hi

end Marks.Marked

namespace Lower
open Throw
variable {env : Env} {s t u : State} {e : Expr} {x : Operand} {w : IntWidth} {m : Memory} {a : Word}
  {symbols : SymbolTable} {caller : Register} {n : Int}

theorem status_eq_zero_iff (n : Int) : Word.ofInt .w32 n = .ofInt .w32 0 ↔ (2 : Int) ^ 32 ∣ n := by
  have bits : Word.ofInt .w32 n = .ofInt .w32 0 ↔ BitVec.ofInt 32 n = 0 :=
    ⟨fun same => by injection same, congrArg (Word.mk .w32)⟩
  have nonneg := Int.emod_nonneg n (b := 2 ^ 32) (by decide)
  rw [bits, ← BitVec.toNat_inj, BitVec.toNat_ofInt, BitVec.ofNat_eq_ofNat, BitVec.toNat_zero]
  omega

/-- A landing pad that has no handler stores the word as the status of the caller. -/
def State.HandsOn (s : State) (env : Env) (m : Memory) (caller : Register) (a : Word) : Prop :=
  ∃ t code next, passStatus env s = .ok () t ∧
    t.draft.body.toList = s.draft.body.toList ++ code ∧
    m.run t.draft.registers code = some next ∧ next.slots caller = a

theorem State.handsOn {slot : Register} (callerStatus : env.callerStatus = some caller)
    (status : s.status = some slot) (width : (m.slots slot).width = .w32) :
    s.HandsOn env m caller (m.slots slot) := by
  have typed : (s.draft.registers.push .status)[s.next.index]? =
      some (.int (m.slots slot).width) := by
    rw [width]
    exact Array.getElem?_push_size
  have found : Ends (fun _ => False) (fun a t => a = slot ∧ t = s) (statusSlot env s) := by
    refine .look ?_
    rw [status]
    exact ⟨rfl, rfl⟩
  have passed : Ends (fun _ => False) (fun _ t =>
    t.draft.registers = s.draft.registers.push .status ∧
      t.draft.body.toList = s.draft.body.toList ++
        [.load s.next (.reg slot), .store (.reg caller) (.reg s.next)]) (passStatus env s) := by
    refine .ask ?_
    rw [callerStatus]
    refine found.seq ?_
    rintro _ _ ⟨rfl, rfl⟩
    exact ⟨rfl, by simp [State.next]⟩
  obtain ⟨_, t, run, registers, body⟩ := passed.exists_ok
  obtain ⟨next, ran, handed⟩ := Memory.run_passes typed caller
  exact ⟨t, _, next, run, body, by rw [registers, ran], handed⟩

/-- No destructor of what is alive can raise. -/
def State.Calm (s : State) (symbols : SymbolTable) : Prop :=
  ∀ o ∈ s.cleanups.pendingFrom 0, ∀ symbol, symbols.functionSymbol o.destructor = .ok symbol →
    symbol.canRaise = false

/-- In every function with a body that goes on from `t`, control that is behind the code of `s`
comes to a return with the word as the status of the caller. -/
def State.Delivers (s t : State) (symbols : SymbolTable) (caller : Register) (m : Memory)
    (a : Word) : Prop :=
  ∀ options f env incoming b last code, Staged symbols options f env incoming b last code →
    t.Later b → incoming.callerStatus = some caller →
    ReturnsWith code (fun next => next.slots caller = a)
      (last.draft.entry.size + s.draft.body.size) m

theorem Narrows.set {types : Array Ty} {code : List Instr} {y : Operand} {slot : Register}
    {pad : Label} (h : Narrows types w x code y) :
    ∀ i ∈ code ++ [.store (.reg slot) y] ++ [.jump (some pad)], ∀ e, i.target? e ≠ some none := by
  intro i hi e
  simp only [mem_append, mem_singleton] at hi
  rcases hi with (hi | rfl) | rfl
  · cases h with
    | literal | same => cases hi
    | cast =>
      cases mem_singleton.1 hi
      cases e <;> nofun
  · cases e <;> nofun
  · cases e <;> nofun

theorem State.Codes.delivers (codes : s.Codes t x w) (lands : s.Lands t none)
    (calm : s.Calm symbols) (word : x.word? m.registers = some a) (width : a.width = w)
    (number : x.number? m.registers = some n) :
    s.Delivers t symbols caller m (.ofInt .w32 n) := by
  intro options f env incoming b last code staged later given
  obtain ⟨B, Q, parts, rfl, rfl, -, marked⟩ :=
    marked_of_staged staged false fun follows => nomatch follows
  obtain ⟨slot, pad, narrowing, y, status, narrows, body⟩ := codes
  obtain ⟨pad', back, pads⟩ := lands
  obtain rfl : pad' = pad := by
    rw [← Array.getLast?_toList, body] at back
    simpa using back.symm
  have table : env.symbols = symbols := by rw [staged.start]; rfl
  have status' : Q.state.status = some slot :=
    marked.writes.widens.status slot (later.status slot status)
  have narrows' : Narrows code.registers w x narrowing y := by
    obtain ⟨added, types⟩ := later.draft.registers
    obtain ⟨added', types'⟩ := marked.writes.widens.houses.types
    rw [marked.finished.registers, types', types]
    exact narrows.later.later
  have noted : ⟨s.pads.pads.size, pad', none, s.cleanups.pendingFrom 0⟩ ∈ B.state.pads.pads := by
    obtain ⟨added, more⟩ := later.pads
    rw [more, pads]
    exact Array.mem_append_left _ (Array.mem_push.2 (.inr rfl))
  have stands : Stands code (Q.state.draft.entry.size + s.draft.body.size)
      ((narrowing ++ [.store (.reg slot) y]) ++ [.jump (some pad')]) := by
    refine stands_of_getElem? fun k i hi => ?_
    have here : t.draft.body[s.draft.body.size + k]? = some i := by
      rw [← Array.getElem?_toList, body, append_assoc, getElem?_append_right (by simp)]
      simpa using hi
    have there := later.draft.keeps here (narrows.set i (mem_of_getElem? hi))
    rw [Nat.add_assoc, marked.instr, ← Array.getElem?_toList, marked.writes.body,
      getElem?_append_left (by simpa using (Array.getElem?_eq_some_iff.1 there).1),
      Array.getElem?_toList, there]
  obtain ⟨k, made, padCode, label, padStands⟩ := marked.pad_stands noted
  obtain ⟨n', next, spelled, stored, held⟩ := Memory.run_narrows slot narrows' word width
  cases number.symm.trans spelled
  refine .of_run stands stored fun p there => .jump there.1 label ?_
  rw [← held]
  refine .of_pad padCode rfl given status' marked.finished.registers (fun o ho => ⟨?_, ?_⟩)
    padStands (by rw [held]; rfl)
  · intro same
    exact (((marked.body.books.pads _ noted).objects o ho).1 slot same).2.2
      (later.status slot status)
  · exact table ▸ calm o ho

/-- A thrown integer is stored as the status, cut to its width, and a landing pad for the region of
the throw is jumped to. Where a pad has no handler, the status that it finds is stored as the status
of the caller as it is. It tells of no failure exactly if `2 ^ 32` divides the number. Outside of
every `try`, the throw is run to a return with this status, if nothing that is destroyed on the way
can raise. -/
theorem throw_hands_on (callerStatus : env.callerStatus = some caller)
    (evaluated : fullOperand e env s = .ok x u) (typed : u.draft.operandType? x = some (.int w)) :
    ∃ t slot, lowerThrow e env s = .ok () t ∧ t.status = some slot ∧ u.Lands t env.region ∧
      ∀ (m : Memory) (a : Word), x.word? m.registers = some a → a.width = w →
        ∃ n, x.number? m.registers = some n ∧ u.SetsStatus t m (.ofInt .w32 n) ∧
          (Word.ofInt .w32 n = .ofInt .w32 0 ↔ (2 : Int) ^ 32 ∣ n) ∧
          (∀ (pad : State) (m' : Memory), pad.status = some slot → m'.slots slot = .ofInt .w32 n →
            pad.HandsOn env m' caller (.ofInt .w32 n)) ∧
          (env.region = none → u.Calm env.symbols →
            u.Delivers t env.symbols caller m (.ofInt .w32 n)) := by
  obtain ⟨t, thrown, ⟨codes, lands⟩, -⟩ := lowerThrow_codes evaluated typed
  obtain ⟨slot, -, -, -, status, -⟩ := id codes
  refine ⟨t, slot, thrown, status, lands, fun m a word width => ?_⟩
  obtain ⟨n, spelled, sets⟩ :=
    codes.setsStatus (append_nil _).symm (n := m) rfl word width
  refine ⟨n, spelled, sets, status_eq_zero_iff n, fun pad m' status' held => ?_,
    fun outside calm => codes.delivers (outside ▸ lands) calm word width spelled⟩
  rw [← held]
  exact State.handsOn callerStatus status' (by rw [held]; rfl)

section Example

/-- A throw that a body starts with. -/
theorem Staged.first_throw {options : Options} {f : Ast.Function} {incoming : Incoming}
    {b last : State} {code : Code.Function} {rest : List Stmt}
    (staged : Staged symbols options f env incoming b last code)
    (first : f.body = .throw_ e :: rest) :
    ∃ env' s t, env'.symbols = symbols ∧ env'.region = none ∧
      env'.callerStatus = incoming.callerStatus ∧ s.cleanups.pendingFrom 0 = [] ∧
      lowerThrow e env' s = .ok () t ∧ t.Later b := by
  obtain ⟨p, q, exits, received, walked, fell⟩ := staged.body
  have idle : p.cleanups = .empty := ((prologue_settled f env .empty).of_ok received).cleanups
  have after := (fallOut_traced.growing _ _).of_ok fell
  rw [first] at walked
  let env' : Env := { bodyEnv env incoming with scopes :=
    env.scopes ++ [⟨⟨p.compounds⟩, p.cleanups.depth⟩] }
  let start : State := State.inScope { p with compounds := p.compounds + 1 }
  let Thrown (t : State) : Prop := ∃ s u, s.cleanups = start.cleanups ∧
    lowerThrow e env' s = .ok () u ∧ u.Later t
  have statement : Ensures (fun _ t => Thrown t) (lowerStmt (.throw_ e) env' start) := by
    rw [lowerStmt]
    refine (comment_settled _ env' start).anyError.seq fun _ s added => ?_
    exact .seq (Ends.any _).recorded fun _ u thrown =>
      .ret ⟨s, u, added.cleanups, thrown.2, .refl u⟩
  have body : Ensures (fun _ t => Thrown t) (lowerStmts (.throw_ e :: rest) env' start) := by
    refine statement.seq ?_
    rintro x t1 ⟨s, u, same, thrown, later⟩
    refine ((settle_traced x).growing env' t1).seq fun _ t2 h2 => ?_
    refine (lowerStmts_traced rest 0 (.all _) env' t2).seq fun _ t3 h3 => ?_
    exact .ret ⟨s, u, same, thrown, later.trans (h2.trans h3.later)⟩
  have whole : Ensures (fun _ t => Thrown t)
      (inCompound (lowerStmts (.throw_ e :: rest)) (bodyEnv env incoming) p) := by
    refine .look (Ends.seq (P := fun _ t => t = start) rfl ?_)
    rintro _ _ rfl
    refine .seq (Ends.inside (body.and (lowerStmts_traced _ 0 (.all _) env' start))) ?_
    rintro _ t ⟨⟨s, u, same, thrown, later⟩, trace⟩
    refine (closeScope_ends (c := p.cleanups) trace.grows).seq ?_
    rintro _ _ ⟨v, hv, rfl⟩
    have later := later.trans hv.later
    exact .ret ⟨s, u, same, thrown, later.draft, later.pads, later.status, later.locations⟩
  obtain ⟨s, t, same, thrown, later⟩ := whole.of_ok walked
  refine ⟨env', s, t, ?_, ?_, rfl, ?_, thrown, later.trans after⟩
  · change env.symbols = symbols
    rw [staged.start]
    rfl
  · change env.region = none
    rw [staged.start]
    rfl
  · rw [same]
    simp [start, State.inScope, idle, Cleanups.openScope, Cleanups.empty, Cleanups.pendingFrom_zero]

/-- `main() { throw 0; }` -/
def throwsZero : Ast.Function := ⟨⟨4⟩, [], [], [.throw_ (.literal ⟨3⟩ (.signed 0))], false, true⟩

/-- A thrown zero is run to a return, with a status that tells of no failure. -/
theorem zero_hands_on : ∃ code caller p, lowerFunction guardSymbols .default throwsZero = .ok code ∧
    code.arguments.getLast? = some caller ∧
    ∀ m, ReturnsWith code (fun last => last.slots caller = .ofInt .w32 0) p m := by
  obtain ⟨code, lowered⟩ :=
    exists_ok_of_isSome (x := lowerFunction guardSymbols .default throwsZero) (by decide +kernel)
  obtain ⟨env, incoming, B, Q, codes, staged, raises, marked⟩ :=
    lowerFunction_marked lowered false fun follows => nomatch follows
  obtain ⟨caller, given⟩ := Option.isSome_iff_exists.1 raises
  obtain ⟨env', s, t, table, outside, callerStatus, idle, thrown, later⟩ := staged.first_throw rfl
  have evaluated : fullOperand (.literal ⟨3⟩ (.signed 0)) env' s = .ok (.imm (.int 0 .w32)) s :=
    fullOperand_literal (by rw [table]; rfl) rfl
  obtain ⟨t', slot, thrown', -, -, runs⟩ := throw_hands_on (callerStatus.trans given) evaluated rfl
  cases thrown.symm.trans thrown'
  refine ⟨code, caller, Q.state.draft.entry.size + s.draft.body.size, lowered, ?_, fun m => ?_⟩
  · rw [marked.received]
    simp [Setting.of, Incoming.arguments, given]
  · obtain ⟨n, spelled, -, -, -, delivers⟩ := runs m (.ofInt .w32 0) rfl rfl
    cases spelled
    have calm : s.Calm env'.symbols := fun o ho => by rw [idle] at ho; cases ho
    exact delivers outside calm _ _ env incoming B.state Q.state code (table ▸ staged) later given

end Example
end Lower
end FlatCode
