import FlatCode.Proofs.Control.Condition

/-! Ways out of a statement. The code of a statement behaves as an outcome says if it makes the
calls of the outcome and then is where control leaves the statement in that way, or, for an
outcome that was cut off, if it runs on for long enough. -/
namespace FlatCode
open Code Symbols Ast Lower List

def Cleanups.Clear (c : Cleanups) : Prop := ∀ scope ∈ c.scopes, scope = []

theorem Cleanups.Clear.openScope {c : Cleanups} (h : c.Clear) : c.openScope.Clear := by
  intro scope hs
  rcases mem_cons.1 hs with rfl | hs
  · rfl
  · exact h scope hs

theorem Cleanups.Clear.pendingFrom {c : Cleanups} (h : c.Clear) (depth : Nat) :
    c.pendingFrom depth = [] := by
  unfold Cleanups.pendingFrom
  refine flatten_eq_nil_iff.2 fun scope hs => ?_
  exact h scope (mem_of_mem_take hs)

/-- Where the machine is when control leaves a statement, for each way out that is up to the
statement around it. -/
structure Outs where
  next : Machine → Prop
  breaks : Machine → Prop
  continues : Machine → Prop

namespace Setting
variable (w : Setting)

def outs (x : Exits) (d : Draft) : Outs := ⟨w.Comes d x.next, w.Taken x.breaks, w.Taken x.continues⟩

def JumpsTo (env : Env) (find : CaseMap → Option CaseTarget) (m : Machine) : Prop :=
  ∃ switch target, env.switch = some switch ∧ find switch.cases = some target ∧
    w.code.instrs[m.place]? = some (.jump (some target.label))

def Leaves (env : Env) (out : Outs) (h : History) (m : Machine) : Flow → Prop
  | .next => m.history = h ∧ out.next m
  | .break_ => m.history = h ∧ out.breaks m
  | .continue_ => m.history = h ∧ out.continues m
  | .gotoCase value =>
    m.history = h ∧ (∃ v, value = .signed v) ∧ w.JumpsTo env (fun cases => cases.find? value.key) m
  | .gotoDefault => m.history = h ∧ w.JumpsTo env CaseMap.default m
  | .return_ =>
    m.history = h ++ traceCall env.options traceLeave env.symbol.name ∧ w.code.AtReturn m

/-- What the machine does from here on is as an outcome says; a run that was cut off goes on
for at least `n` steps. -/
def Behaves (n : Nat) (env : Env) (out : Outs) (m : Machine) : Outcome → Prop
  | (h, none) => w.code.Lasts w.oracle n h m
  | (h, some flow) => ∃ m', w.Reaches m m' ∧ w.Leaves env out h m' flow

variable {w} {n : Nat} {env : Env} {out out1 : Outs} {m m' : Machine} {o : Outcome} {x y : Exits}
  {d : Draft}

structure Within (out1 out : Outs) : Prop where
  next : ∀ m, out1.next m → out.next m
  breaks : ∀ m, out1.breaks m → out.breaks m
  continues : ∀ m, out1.continues m → out.continues m

theorem outs_left : Within (w.outs x d) (w.outs (x ++ y) d) :=
  ⟨fun _ h => h.mono (subset_append_left _ _), fun _ h => h.mono (subset_append_left _ _),
    fun _ h => h.mono (subset_append_left _ _)⟩

theorem outs_right : Within (w.outs y d) (w.outs (x ++ y) d) :=
  ⟨fun _ h => h.mono (subset_append_right _ _),
    fun _ h => h.mono (subset_append_right _ _),
    fun _ h => h.mono (subset_append_right _ _)⟩

theorem Behaves.after (h : w.Reaches m m') (hb : w.Behaves n env out m' o) :
    w.Behaves n env out m o := by
  obtain ⟨history, flow⟩ := o
  cases flow with
  | none => exact Function.Lasts.after h hb
  | some flow =>
    obtain ⟨m'', reaches, leaves⟩ := hb
    exact ⟨m'', h.trans reaches, leaves⟩

theorem Behaves.after_step (h : w.step m = some m') (hb : w.Behaves n env out m' o) :
    w.Behaves (n + 1) env out m o := by
  obtain ⟨history, flow⟩ := o
  cases flow with
  | none => exact Function.Lasts.after_step h hb
  | some flow =>
    obtain ⟨m'', reaches, leaves⟩ := hb
    exact ⟨m'', (Run.Reaches.of_step h).trans reaches, leaves⟩

theorem Behaves.andThen {rest : History → Outcome} (h : w.Behaves n env out1 m o)
    (next : ∀ m', out1.next m' → w.Behaves n env out m' (rest m'.history))
    (breaks : ∀ m', out1.breaks m' → out.breaks m')
    (continues : ∀ m', out1.continues m' → out.continues m') :
    w.Behaves n env out m (o.andThen rest) := by
  obtain ⟨history, flow⟩ := o
  cases flow with
  | none => exact h
  | some flow =>
    obtain ⟨m', reaches, leaves⟩ := h
    cases flow with
    | next =>
      obtain ⟨rfl, there⟩ := leaves
      exact (next m' there).after reaches
    | break_ => exact ⟨m', reaches, leaves.1, breaks m' leaves.2⟩
    | continue_ => exact ⟨m', reaches, leaves.1, continues m' leaves.2⟩
    | gotoCase | gotoDefault | return_ => exact ⟨m', reaches, leaves⟩

theorem Behaves.onward (h : w.Behaves n env out1 m o)
    (next : ∀ m', out1.next m' →
      ∃ m'', w.Reaches m' m'' ∧ m''.history = m'.history ∧ out.next m'')
    (breaks : ∀ m', out1.breaks m' → out.breaks m')
    (continues : ∀ m', out1.continues m' → out.continues m') : w.Behaves n env out m o := by
  have whole : o.andThen (fun h => (h, some .next)) = o := by
    obtain ⟨history, flow⟩ := o
    cases flow with
    | none => rfl
    | some flow => cases flow <;> rfl
  rw [← whole]
  exact h.andThen next breaks continues

theorem Behaves.widen (h : w.Behaves n env out1 m o) (within : Within out1 out) :
    w.Behaves n env out m o :=
  h.onward (fun m' hm => ⟨m', .refl m', rfl, within.next m' hm⟩) within.breaks within.continues

theorem Behaves.endRound (h : w.Behaves n env (w.outs x d) m o) :
    w.Behaves n env ⟨w.Comes d (x.next ++ x.continues), w.Taken x.breaks, fun _ => False⟩ m
      o.endRound := by
  obtain ⟨history, flow⟩ := o
  cases flow with
  | none => exact h
  | some flow =>
    obtain ⟨m', reaches, leaves⟩ := h
    cases flow with
    | next => exact ⟨m', reaches, leaves.1, leaves.2.mono (subset_append_left _ _)⟩
    | continue_ =>
      exact ⟨m', reaches, leaves.1, .jumps (leaves.2.mono (subset_append_right _ _))⟩
    | break_ | gotoCase | gotoDefault | return_ => exact ⟨m', reaches, leaves⟩

theorem Behaves.surroundings {env' : Env} (h : w.Behaves n env' out m o)
    (switch : env'.switch = env.switch) (options : env'.options = env.options)
    (symbol : env'.symbol = env.symbol) : w.Behaves n env out m o := by
  obtain ⟨history, flow⟩ := o
  cases flow with
  | none => exact h
  | some flow =>
    obtain ⟨m', reaches, leaves⟩ := h
    refine ⟨m', reaches, ?_⟩
    cases flow <;> simpa only [Leaves, JumpsTo, switch, options, symbol] using leaves

/-- A loop whose rounds begin at the end of a draft. Going back takes at least one step, so a
loop that is cut off after `k` rounds has run for `k` steps. -/
theorem loop_behaves {round : History → Outcome} {again leave : Machine → Prop}
    (start : ∀ m, w.Behind d m →
      w.Behaves n env ⟨again, leave, fun _ => False⟩ m (round m.history))
    (back : ∀ m, again m → ∃ m1 m', w.step m = some m1 ∧ w.Reaches m1 m' ∧
      m'.history = m.history ∧ w.Behind d m')
    (exits : ∀ m, leave m → ∃ m', w.Reaches m m' ∧ m'.history = m.history ∧ out.next m') :
    ∀ k, k ≤ n → ∀ m, w.Behind d m → w.Behaves k env out m (Outcome.loop round k m.history)
  | 0, _, m, _ => .zero m
  | k + 1, hk, m, hm => by
    have behaves := start m hm
    have rest := loop_behaves start back exits k (by omega)
    unfold Outcome.loop
    generalize round m.history = o at behaves ⊢
    obtain ⟨h, flow⟩ := o
    cases flow with
    | none => exact Function.Lasts.mono hk behaves
    | some flow =>
      obtain ⟨m1, reaches, leaves⟩ := behaves
      cases flow with
      | next =>
        obtain ⟨rfl, goes⟩ := leaves
        obtain ⟨m2, m3, first, returns, same, behind⟩ := back m1 goes
        have behaves := rest m3 behind
        rw [same] at behaves
        exact ((behaves.after returns).after_step first).after reaches
      | break_ =>
        obtain ⟨rfl, goes⟩ := leaves
        obtain ⟨m2, onward, same, there⟩ := exits m1 goes
        exact ⟨m2, reaches.trans onward, same, there⟩
      | continue_ => exact leaves.2.elim
      | gotoCase | gotoDefault | return_ => exact ⟨m1, reaches, leaves⟩

/-- A loop whose rounds begin at a label, to which the next step goes where there is one more. -/
theorem loop_marked {head : Label} {d1 : Draft} {round : History → Outcome}
    {again leave : Machine → Prop} (marked : d.Marked head d1) (holds : w.Holds d1)
    (start : ∀ m, w.Behind d1 m →
      w.Behaves n env ⟨again, leave, fun _ => False⟩ m (round m.history))
    (back : ∀ k, w.code.labels[head.index]? = some ⟨k⟩ → ∀ m, again m → w.step m = some (m.goto k))
    (exits : ∀ m, leave m → ∃ m', w.Reaches m m' ∧ m'.history = m.history ∧ out.next m')
    (hm : w.Behind d m) : w.Behaves n env out m (Outcome.loop round n m.history) := by
  obtain ⟨k, -, place, pass⟩ := passes marked holds
  refine (loop_behaves start (fun m goes => ?_) exits n (Nat.le_refl n) _
    (w.behind_moved _ m)).after (hm.marked marked holds)
  exact ⟨_, w.moved d1 (m.goto k), back k place m goes, .of_step (pass _ rfl), rfl, rfl⟩

end Setting
end FlatCode
