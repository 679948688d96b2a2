import FlatCode.Proofs.Balance.Unwind
import FlatCode.Proofs.Control.Source
import FlatCode.Proofs.Growth.Tree

/-! Conditions. The code of a condition makes the calls that the condition makes, and then
takes one of the branches that stand for its truth. -/
namespace FlatCode
open Code Symbols Ast
variable {s t : State} {env : Env} {d d' : Draft} {m : Machine} {e : Expr}

namespace Lower

structure State.Quiet (s t : State) : Prop where
  later : s.draft.Later t.draft
  cleanups : t.cleanups = s.cleanups

namespace State.Quiet
variable {s t u : State}

theorem refl (s : State) : s.Quiet s := ⟨.refl _, rfl⟩

theorem trans (h : s.Quiet t) (k : t.Quiet u) : s.Quiet u :=
  ⟨h.later.trans k.later, k.cleanups.trans h.cleanups⟩

end State.Quiet

theorem State.Adds.quiet {table : SymbolTable} {p : Instr → Bool} (h : s.Adds table p t) :
    s.Quiet t :=
  ⟨h.later.draft, h.cleanups⟩

theorem edit_quiet {m : Draft.Edit α} {Q : α → Draft → Prop}
    (h : Ensures (fun a d => s.draft.Later d ∧ Q a d) (m s.draft)) :
    Ensures (fun a t => s.Quiet t ∧ Q a t.draft) ((liftM m : LowerM α) env s) :=
  Ends.edited (h.mono fun _ _ hd => ⟨⟨hd.1, rfl⟩, hd.2⟩)

theorem resolveHere_joined (pending : Pending) :
    Ensures (fun _ t => s.Quiet t ∧ s.draft.Joined pending t.draft)
      (resolveHere pending env s) := by
  refine .seq (P := fun _ t => s.Quiet t ∧ s.draft.Joined pending t.draft) (edit_quiet ?_)
    fun _ t ht => .ret ht
  exact (Draft.resolveHere_joined pending s.draft).mono fun _ d hd => ⟨hd.later, hd⟩

theorem emit_pushed (i : Instr) :
    Ensures (fun _ t => s.Quiet t ∧ t.draft.body = s.draft.body.push i)
      (emit i env s) :=
  ⟨⟨.push i, rfl⟩, rfl⟩

theorem dropScope_quiet (h : s.inScope.Quiet t) :
    Ensures (fun _ u => s.Quiet u ∧ u.draft = t.draft) (dropScope env t) := by
  refine (dropScope_ends ⟨[], h.cleanups.trans (Cleanups.grow_nil _).symm⟩).mono ?_
  rintro _ _ rfl
  exact ⟨⟨h.later, rfl⟩, rfl⟩

theorem closeScope_quiet (h : s.inScope.Quiet t) :
    Ensures (fun _ u => s.Quiet u ∧ u.draft = t.draft) (closeScope env t) := by
  refine (closeScope_drops h.cleanups).mono ?_
  rintro _ _ rfl
  exact ⟨⟨h.later, rfl⟩, rfl⟩

theorem withTemporaries_quiet {m : LowerM α} {Q : α → Draft → Prop}
    (h : Ensures (fun a t => s.inScope.Quiet t ∧ Q a t.draft) (m env s.inScope)) :
    Ensures (fun a t => s.Quiet t ∧ Q a t.draft) (withTemporaries m env s) := by
  refine .known (t := s.inScope) rfl ?_
  refine h.seq fun a t ⟨ht, hq⟩ => ?_
  refine (closeScope_quiet ht).seq fun _ u ⟨hu, hd⟩ => .ret ⟨hu, ?_⟩
  rw [hd]
  exact hq

end Lower

structure Setting where
  symbols : SymbolTable
  code : Code.Function
  base : Nat
  oracle : Oracle

namespace Setting
variable {w : Setting} {pending : Pending}

abbrev Holds (w : Setting) (d : Draft) : Prop := d.Inside w.code w.base

abbrev step (w : Setting) (m : Machine) : Option Machine := w.code.step w.oracle m

abbrev Reaches (w : Setting) (m m' : Machine) : Prop := w.code.Reaches w.oracle m m'

def Behind (w : Setting) (d : Draft) (m : Machine) : Prop := m.place = w.base + d.body.size

def moved (w : Setting) (d : Draft) (m : Machine) : Machine := m.goto (w.base + d.body.size)

theorem behind_moved (d : Draft) (m : Machine) : w.Behind d (w.moved d m) := rfl

theorem Behind.moved_eq (h : w.Behind d m) : w.moved d m = m := by
  unfold moved Machine.goto
  rw [← h]

def Runs (w : Setting) (s t : Lower.State) (P : Machine → Machine → Prop) : Prop :=
  w.Holds t.draft → ∀ m, w.Behind s.draft m → ∃ m', w.Reaches m m' ∧ P m m'

def Poised (w : Setting) (b : PendingBranch) (m : Machine) : Prop :=
  ∀ p, w.code.Leads (w.base + b.instr.index) b.edge p → w.step m = some (m.goto p)

def Taken (w : Setting) (pending : Pending) (m : Machine) : Prop := ∃ b ∈ pending, w.Poised b m

theorem Taken.mono {pending' : Pending} (h : w.Taken pending m) (sub : pending ⊆ pending') :
    w.Taken pending' m := by
  obtain ⟨b, hb, poised⟩ := h
  exact ⟨b, sub hb, poised⟩

/-- Control comes to the end of a draft: it falls there, or takes an edge of a list. -/
inductive Comes (w : Setting) (d : Draft) (pending : Pending) (m : Machine) : Prop where
  | falls : w.Behind d m → d.endsInTerminator = false → Comes w d pending m
  | jumps : w.Taken pending m → Comes w d pending m

theorem Comes.mono {pending' : Pending} (h : w.Comes d pending m) (sub : pending ⊆ pending') :
    w.Comes d pending' m := by
  cases h with
  | falls hm goes => exact .falls hm goes
  | jumps taken => exact .jumps (taken.mono sub)

theorem Comes.falls_of_nil (h : w.Comes d [] m) : w.Behind d m ∧ d.endsInTerminator = false := by
  cases h with
  | falls hm goes => exact ⟨hm, goes⟩
  | jumps taken =>
    obtain ⟨b, hb, -⟩ := taken
    cases hb

theorem passes {l : Label} (h : d.Marked l d') (hd : w.Holds d') :
    ∃ k, k + 1 = w.base + d'.body.size ∧ w.code.labels[l.index]? = some ⟨k⟩ ∧
      ∀ m : Machine, m.place = k → w.step m = some (w.moved d' m) := by
  obtain ⟨k, hk, hl⟩ := h.place
  obtain ⟨i, hi, rfl⟩ := hd.instr k _ hl
  refine ⟨w.base + k, by omega, hd.label k l hl, fun m hm => ?_⟩
  unfold step
  rw [Function.step_idle (by rw [hm]; exact hi) rfl]
  unfold moved Machine.advance
  rw [hm, ← hk, Nat.add_assoc]

theorem Behind.marked {l : Label} (hm : w.Behind d m) (h : d.Marked l d') (hd : w.Holds d') :
    w.Reaches m (w.moved d' m) := by
  obtain ⟨k, hk, -, pass⟩ := passes h hd
  rcases h.size with same | more
  · have behind : w.Behind d' m := by rw [Behind, same]; exact hm
    rw [behind.moved_eq]
    exact .refl m
  · have place := hm
    unfold Behind at place
    exact .of_step (pass m (by omega))

theorem Comes.joined (h : w.Comes d pending m) (hj : d.Joined pending d') (hd : w.Holds d') :
    w.Reaches m (w.moved d' m) ∧ d'.endsInTerminator = false := by
  cases h with
  | falls hm goes =>
    refine ⟨?_, hj.goesOn goes⟩
    cases hj with
    | none _ =>
      rw [hm.moved_eq]
      exact .refl m
    | here l _ marked _ => exact hm.marked marked hd
  | jumps taken =>
    obtain ⟨b, hb, poised⟩ := taken
    cases hj with
    | none empty =>
      rw [empty] at hb
      cases hb
    | here l _ marked targets =>
      obtain ⟨k, -, hl, pass⟩ := passes marked hd
      have first := poised k (hd.leads (targets b hb) hl)
      have second := pass (m.goto k) rfl
      exact ⟨(Run.Reaches.of_step first).trans (.of_step second), marked.goesOn⟩

end Setting

namespace Lower

end Lower

def Symbols.TypeKind.scalarWidth? : TypeKind → Option IntWidth
  | .bool => some .w8
  | .integer w | .unsignedInteger w => some w
  | _ => none

theorem Symbols.SymbolTable.codeType_scalar {symbols : SymbolTable} {t : TypeId} {kind : TypeKind}
    {w : IntWidth} (hk : symbols.typeKind t = .ok kind) (hw : kind.scalarWidth? = some w) :
    symbols.codeType t = .ok (.int w) := by
  unfold codeType codeTypeWithin
  rw [hk]
  cases kind <;> simp only [TypeKind.scalarWidth?, Option.some.injEq, reduceCtorEq] at hw
  all_goals
    subst hw
    rfl

namespace Lower

theorem resultRegister_typed (symbol : FunctionSymbol) :
    Ensures (fun dest t => s.Quiet t ∧ t.draft.body = s.draft.body ∧
      ∀ r, dest = some r → ∃ ty, env.symbols.codeType symbol.returnType = .ok ty ∧
        t.draft.registers[r.index]? = some ty) (resultRegister symbol env s) := by
  refine .asked fun isVoid _ => ?_
  split
  · exact ⟨.refl s, rfl, by simp⟩
  · refine .asked fun ty hty => ?_
    dsimp only
    split
    · trivial
    · refine ⟨(State.Adds.quiet (Adding.newRegister (p := Instr.isStraight) ty env s)), rfl, ?_⟩
      rintro r ⟨⟩
      exact ⟨ty, hty, by simp⟩

end Lower

structure Setting.Called (w : Setting) (e : Expr) (value : Option Operand) (m : Machine)
    (m' : Machine) : Prop where
  history : m'.history = e.perform w.symbols m.history
  result : ∀ operand kind b, value = some operand → e.resultKind? w.symbols = some kind →
    kind.scalarWidth? = some b → m'.value? operand = some (b.pattern (w.oracle m'.history))

def Setting.Makes (w : Setting) (e : Expr) (value : Option Operand) (s : Lower.State) (d : Draft) :
    Prop :=
  w.Holds d → ∀ m, w.Behind s.draft m → ∃ m', w.step m = some m' ∧ w.Behind d m' ∧
    w.Called e value m m'

structure Setting.Performed (w : Setting) (e : Expr) (s t : Lower.State) : Prop where
  quiet : s.Quiet t
  goes : t.draft.endsInTerminator = false
  performs : w.Holds t.draft → ∀ m, w.Behind s.draft m → ∃ m', w.step m = some m' ∧
    w.Behind t.draft m' ∧ m'.history = e.perform w.symbols m.history

namespace Lower
variable (w : Setting) {env : Env} {s : State}

theorem emitCall_called {ty : TypeId} {f : FunctionId} {isVirtual : Bool} {g : FunctionSymbol}
    (henv : env.symbols = w.symbols) (hf : w.symbols.functionSymbol f = .ok g) :
    Ensures (fun value t => s.Quiet t ∧ t.draft.endsInTerminator = false ∧
        w.Makes (.call ty f [] isVirtual) value s t.draft) ((do
        let dest ← resultRegister g
        emit (.call (.direct g.name) [] dest)
        pure (dest.map Operand.reg) : LowerM (Option Operand)) env s) := by
  refine (resultRegister_typed g).seq fun dest t ⟨quiet, body, typed⟩ => ?_
  refine (emit_pushed _).seq fun _ u ⟨quiet', pushed⟩ => .ret ?_
  refine ⟨quiet.trans quiet', ?_, fun holds m hm => ?_⟩
  · rw [Draft.endsInTerminator_pushed pushed]
    rfl
  unfold Setting.Behind at hm
  obtain ⟨_, found, rfl⟩ := holds.pushed pushed
  rw [body, ← hm] at found
  refine ⟨w.code.call w.oracle m ⟨.direct g.name, []⟩ dest, ?_, ?_, ?_, ?_⟩
  · unfold Setting.step Function.step
    rw [found]
  · change m.place + 1 = _
    rw [hm, pushed, Array.size_push, body, Nat.add_assoc]
  · simp [Function.call, Expr.perform, hf]
  intro operand kind b hvalue hkind hb
  cases dest with
  | none => cases hvalue
  | some r =>
    obtain rfl : Operand.reg r = operand := by simpa using hvalue
    obtain ⟨ty', hty, hreg⟩ := typed r rfl
    have hkind' : w.symbols.typeKind g.returnType = .ok kind := by
      simp only [Expr.resultKind?, hf] at hkind
      cases hk : w.symbols.typeKind g.returnType with
      | error _ => simp [hk, Except.toOption] at hkind
      | ok kind' =>
        obtain rfl : kind' = kind := by simpa [hk, Except.toOption] using hkind
        rfl
    rw [henv, SymbolTable.codeType_scalar hkind' hb] at hty
    cases hty
    have hreg' := (holds.earlier quiet'.later).register _ _ hreg
    simp [Function.call, Machine.value?, Function.resultBits, hreg']

theorem call_called (he : e.isCall w.symbols) (henv : env.symbols = w.symbols) :
    Ensures (fun value t => s.Quiet t ∧ t.draft.endsInTerminator = false ∧
      w.Makes e value s t.draft) ((plan e).value env s) := by
  obtain ⟨ty, f, isVirtual, g, rfl, hf, hop, raises, slot⟩ := Expr.isCall_cases he
  change Ends _ _ (call f none [] isVirtual ty env s)
  refine .told (a := g) (by rw [henv, hf]) ?_
  rw [hop]
  change Ends _ _ (callFunction g none [] isVirtual env s)
  rw [callFunction_plain raises slot, List.mapM_nil, pure_bind]
  refine .seq (P := fun target t => .direct g.name = target ∧ s = t) ?_ ?_
  · unfold callee
    split
    · trivial
    · exact ⟨rfl, rfl⟩
  rintro _ _ ⟨rfl, rfl⟩
  exact emitCall_called w henv hf

theorem fullValue_performed (he : e.isCall w.symbols) (henv : env.symbols = w.symbols) :
    Ensures (fun _ t => w.Performed e s t) (fullValue e env s) := by
  refine (withTemporaries_quiet (Q := fun value d => d.endsInTerminator = false ∧
    w.Makes e value s d) (call_called w he henv)).mono
      fun _ t ⟨quiet, goes, makes⟩ => ⟨quiet, goes, fun holds m hm => ?_⟩
  obtain ⟨m', first, behind, called⟩ := makes holds m hm
  exact ⟨m', first, behind, called.history⟩

theorem operand_called (he : e.isCall w.symbols) (henv : env.symbols = w.symbols) :
    Ensures (fun operand t => s.Quiet t ∧ w.Makes e (some operand) s t.draft)
      ((plan e).operand env s) := by
  refine (call_called w he henv).seq fun value t ⟨quiet, _, called⟩ => ?_
  cases value with
  | none => trivial
  | some operand => exact ⟨quiet, called⟩

theorem fullOperand_called (he : e.isCall w.symbols) (henv : env.symbols = w.symbols) :
    Ensures (fun operand t => s.Quiet t ∧ w.Makes e (some operand) s t.draft)
      (fullOperand e env s) :=
  withTemporaries_quiet (Q := fun operand d => w.Makes e (some operand) s d)
    (operand_called w he henv)

theorem pendingJump_poised :
    Ensures (fun jump t => s.Quiet t ∧ ∃ edge, jump = [edge] ∧
      (w.Holds t.draft → ∀ m, w.Behind s.draft m → w.Poised edge m))
      ((liftM Draft.pendingJump : LowerM Pending) env s) := by
  refine ⟨⟨.push _, rfl⟩, _, rfl, fun holds m hm p leads => ?_⟩
  obtain ⟨i, l, hi, ht, hl⟩ := leads
  obtain ⟨_, found, target, rfl, -⟩ := holds.pushed rfl
  obtain rfl : Instr.jump target = i := by simpa [found] using hi
  obtain rfl : target = some l := by simpa [Instr.target?] using ht
  unfold Setting.step Function.step
  rw [hm, found]
  simp [Function.follow, hl]

variable {w}

theorem branch_poised {condition : Operand} (holds : w.Holds d')
    (pushed : d'.body = d.body.push (.branch condition none none)) {bits : Nat} (hm : w.Behind d m)
    (hv : m.value? condition = some bits) :
    w.Poised ⟨⟨d.body.size⟩, if bits ≠ 0 then .positive else .negative⟩ m := by
  obtain ⟨_, found, positive, negative, rfl, -, -⟩ := holds.pushed pushed
  rintro p ⟨i, l, hi, ht, hl⟩
  obtain rfl : Instr.branch condition positive negative = i := by simpa [found] using hi
  have target : (if bits ≠ 0 then positive else negative) = some l := by
    by_cases hb : bits = 0 <;> simpa [Instr.target?, hb] using ht
  unfold Setting.step Function.step
  rw [hm, found]
  simp only [hv, Option.bind_some, target, Function.follow, hl, Option.map_some]

end Lower

def Setting.Decides (w : Setting) (jump : Lower.LowerM Lower.Branches)
    (test : History → Bool × History) : Prop :=
  ∀ ⦃env s⦄, env.symbols = w.symbols → Ends (fun _ => True) (fun b t => s.Quiet t ∧
    (∀ v, b.constant = some v → ∀ h, (test h).1 = v) ∧
    (w.Holds t.draft → ∀ m, w.Behind s.draft m → ∃ m', w.Reaches m m' ∧
      m'.history = (test m.history).2 ∧ w.Taken (b.side (test m.history).1) m')) (jump env s)

namespace Setting.Decides
open Lower
variable {w : Setting} {test left right : History → Bool × History}

theorem literal (ty : TypeId) (b : Bool) : w.Decides (plan (.literal ty (.bool b))).jump
    (Expr.holds w.symbols w.oracle (.literal ty (.bool b))) := by
  intro env s _
  change Ends _ _ ((do
    let jump ← Draft.pendingJump
    pure (.known b jump) : LowerM Branches) env s)
  refine (pendingJump_poised w).seq fun jump t ⟨quiet, edge, hjump, poised⟩ => .ret ?_
  refine ⟨quiet, ?_, fun holds m hm => ⟨m, .refl m, rfl, edge, ?_, poised holds m hm⟩⟩
  · intro v hv h
    cases b <;> simpa [Branches.known, Expr.holds] using hv
  · cases b <;> simp [Branches.known, hjump, Expr.holds]

theorem call (he : e.isCall w.symbols) (hk : e.resultKind? w.symbols = some .bool) :
    w.Decides (plan e).jump (e.holds w.symbols w.oracle) := by
  obtain ⟨ty, f, isVirtual, g, rfl, -⟩ := Expr.isCall_cases he
  intro env s henv
  change Ends _ _ ((do
    let condition ← (plan (.call ty f [] isVirtual)).operand
    let branch ← Draft.emit (.branch condition none none)
    pure ⟨[⟨branch, .positive⟩], [⟨branch, .negative⟩], none⟩ : LowerM Branches) env s)
  refine (operand_called w he henv).seq fun operand t ⟨quiet, called⟩ => ?_
  refine .seq (P := fun branch u => branch = ⟨t.draft.body.size⟩ ∧ t.Quiet u ∧
    u.draft.body = t.draft.body.push (.branch operand none none)) ⟨rfl, ⟨.push _, rfl⟩, rfl⟩ ?_
  rintro _ u ⟨rfl, quiet', pushed⟩
  refine .ret ⟨quiet.trans quiet', by simp, fun holds m hm => ?_⟩
  obtain ⟨m', hstep, behind, hcalled⟩ := called (holds.earlier quiet'.later) m hm
  have bits := hcalled.result operand .bool .w8 rfl hk rfl
  refine ⟨m', .of_step hstep, hcalled.history, _, ?_, branch_poised holds pushed behind bits⟩
  rw [hcalled.history, Expr.holds_call]
  by_cases hb : IntWidth.w8.pattern
      (w.oracle (Expr.perform w.symbols (.call ty f [] isVirtual) m.history)) = 0 <;> simp [hb]

theorem fullJump {jump : LowerM Branches} (h : w.Decides jump test) :
    w.Decides (Lower.fullJump jump) test := by
  intro env s henv
  refine .look (Ends.known (t := s.inScope) rfl ?_)
  refine (h henv).seq fun b t ⟨quiet, constant, takes⟩ => .look ?_
  have hc : t.cleanups = s.cleanups.openScope := quiet.cleanups
  have empty : t.cleanups.pendingFrom s.cleanups.depth = [] := by
    rw [hc]
    simp [Cleanups.pendingFrom, Cleanups.openScope, Cleanups.depth]
  rw [empty]
  refine (dropScope_quiet quiet).seq ?_
  rintro _ u ⟨hu, hd⟩
  refine .ret ⟨hu, constant, ?_⟩
  rw [hd]
  exact takes

theorem swap {jump : LowerM Branches} (h : w.Decides jump test) :
    w.Decides (do return (← jump).swap) fun h => (!(test h).1, (test h).2) := by
  intro env s henv
  refine (h henv).seq fun b t ⟨quiet, constant, takes⟩ => .ret ⟨quiet, ?_, ?_⟩
  · intro v hv h
    cases hb : b.constant with
    | none => simp [Branches.swap, hb] at hv
    | some v' =>
      obtain rfl : (!v') = v := by simpa [Branches.swap, hb] using hv
      exact congrArg not (constant v' hb h)
  · intro holds m hm
    obtain ⟨m', reaches, history, taken⟩ := takes holds m hm
    refine ⟨m', reaches, history, ?_⟩
    cases hv : (test m.history).1 <;> simpa [Branches.swap, hv] using taken

def Takes (w : Setting) (test : History → Bool × History) (b : Branches) (s t : State) : Prop :=
  w.Holds t.draft → ∀ m, w.Behind s.draft m → ∃ m', w.Reaches m m' ∧
    m'.history = (test m.history).2 ∧ w.Taken (b.side (test m.history).1) m'

theorem joins {b : Branches} {u : State} {x : Bool} (takes : Takes w test b s t)
    (joined : t.draft.Joined (b.side x) u.draft) (holds : w.Holds u.draft) (hm : w.Behind s.draft m)
    (hv : (test m.history).1 = x) :
    ∃ m', w.Reaches m m' ∧ m'.history = (test m.history).2 ∧ w.Behind u.draft m' ∧
      u.draft.endsInTerminator = false := by
  obtain ⟨m', reaches, history, taken⟩ := takes (holds.earlier joined.later) m hm
  rw [hv] at taken
  obtain ⟨there, goes⟩ := (Comes.jumps taken).joined joined holds
  exact ⟨w.moved u.draft m', reaches.trans there, history, w.behind_moved _ _, goes⟩

/-- A connective goes to its right side for one value of the left side. Its branches are those
of the right side, and those on which the left side decides. -/
theorem connects {b b' r : Branches} {u v : State} {x : Bool}
    (takes : Takes w left b s t) (joined : t.draft.Joined (b.side x) u.draft) (quiet : u.Quiet v)
    (takes' : Takes w right b' u v)
    (decided : b.side (!x) ⊆ r.side (!x)) (rest : ∀ y, b'.side y ⊆ r.side y)
    (holds : w.Holds v.draft) (hm : w.Behind s.draft m) :
    ∃ m', w.Reaches m m' ∧
      m'.history = (if (left m.history).1 = x then right (left m.history).2
        else left m.history).2 ∧
      w.Taken (r.side (if (left m.history).1 = x then right (left m.history).2
        else left m.history).1) m' := by
  have holds' := holds.earlier quiet.later
  by_cases hv : (left m.history).1 = x
  · rw [if_pos hv]
    obtain ⟨m', reaches, history, behind, -⟩ := joins takes joined holds' hm hv
    obtain ⟨m'', reaches', history', taken⟩ := takes' holds m' behind
    rw [history] at history' taken
    exact ⟨m'', reaches.trans reaches', history', taken.mono (rest _)⟩
  · rw [if_neg hv]
    obtain ⟨m', reaches, history, taken⟩ := takes (holds'.earlier joined.later) m hm
    have other : (left m.history).1 = !x := by
      cases hl : (left m.history).1 <;> cases x <;> simp_all
    refine ⟨m', reaches, history, ?_⟩
    rw [other] at taken ⊢
    exact taken.mono decided

theorem connective (x : Bool) {lhs rhs : LowerM Branches} (hl : w.Decides lhs left)
    (hr : w.Decides rhs right) :
    w.Decides (Lower.connective x lhs rhs) fun h =>
      if (left h).1 = x then right (left h).2 else left h := by
  intro env s henv
  refine (hl.fullJump henv).seq fun b t ⟨quiet, constant, takes⟩ => ?_
  dsimp only
  split
  · -- the left side is known to have the other value
    rename_i known
    have other (h : History) : (left h).1 = !x := constant _ known h
    refine .ret ⟨quiet, fun v hv h => ?_, fun holds m hm => ?_⟩
    · simpa [other] using hv
    · obtain ⟨m', reaches, history, taken⟩ := takes holds m hm
      rw [other] at taken
      exact ⟨m', reaches, by simpa [other] using history, by simpa [other] using taken⟩
  · refine (resolveHere_joined (b.side x)).seq fun _ u ⟨quiet', joined⟩ => ?_
    refine (hr.fullJump henv).seq fun b' v ⟨quiet'', constant', takes'⟩ => .ret ?_
    refine ⟨(quiet.trans quiet').trans quiet'', fun value hvalue h => ?_, fun holds m hm => ?_⟩
    · by_cases known : b.constant = some x
      · simp only [Branches.joined_constant, known, if_true] at hvalue
        simp [constant x known h, constant' value hvalue]
      · simp [known] at hvalue
    · exact connects takes joined quiet'' takes' Branches.left_subset_joined
        Branches.right_subset_joined holds hm

end Setting.Decides

theorem Lower.plan_decides {w : Setting} : ∀ e : Expr, e.isCondition w.symbols →
    w.Decides (plan e).jump (e.holds w.symbols w.oracle)
  | .literal ty (.bool b), _ => .literal ty b
  | .unary ty f operand, h => by
    cases hf : w.symbols.functionSymbol f with
    | error _ => simp [Expr.isCondition, hf] at h
    | ok g =>
      simp only [Expr.isCondition, hf, Bool.and_eq_true, decide_eq_true_eq] at h
      intro env s henv
      refine .told (a := g) (by rw [henv, hf]) ?_
      rw [if_pos h.1]
      exact (plan_decides operand h.2).swap henv
  | .conjunction ty lhs rhs, h => by
    simp only [Expr.isCondition, Bool.and_eq_true] at h
    exact (plan_decides lhs h.1).connective true (plan_decides rhs h.2)
  | .disjunction ty lhs rhs, h => by
    simp only [Expr.isCondition, Bool.and_eq_true] at h
    have turned : (Expr.disjunction ty lhs rhs).holds w.symbols w.oracle = fun h =>
        if (lhs.holds w.symbols w.oracle h).1 = false then
          rhs.holds w.symbols w.oracle (lhs.holds w.symbols w.oracle h).2
        else lhs.holds w.symbols w.oracle h := by
      funext h
      cases hv : (lhs.holds w.symbols w.oracle h).1 <;> simp [Expr.holds, hv]
    rw [turned]
    exact (plan_decides lhs h.1).connective false (plan_decides rhs h.2)
  | .call ty f arguments isVirtual, h => by
    simp only [Expr.isCondition, Bool.and_eq_true, decide_eq_true_eq] at h
    exact .call h.1 h.2

theorem Lower.condition_decides {w : Setting} (h : e.isCondition w.symbols) :
    w.Decides (condition e) (e.holds w.symbols w.oracle) :=
  (plan_decides e h).fullJump

end FlatCode
