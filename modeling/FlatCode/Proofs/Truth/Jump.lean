import FlatCode.Proofs.Control.Condition
import FlatCode.Proofs.Truth.Value

/-! Jumps. The code of a condition evaluates it, and then takes one of the branches that stand for
its truth. On the way out of a full expression its temporaries are destroyed. -/
namespace FlatCode.Truth
open Code Symbols Ast Lower

namespace Frame
variable {w : Frame} {s t u : State} {m m' m'' : Config} {env : Env} {pending : Pending}
  {jump : LowerM Branches}

def Poised (w : Frame) (b : PendingBranch) (m : Config) : Prop := w.step m = cross w.code m b

def Taken (w : Frame) (pending : Pending) (m : Config) : Prop := ∃ b ∈ pending, w.Poised b m

theorem Taken.mono {pending' : Pending} (h : w.Taken pending m) (sub : pending ⊆ pending') :
    w.Taken pending' m := by
  obtain ⟨b, hb, poised⟩ := h
  exact ⟨b, sub hb, poised⟩

theorem Taken.ne_nil (h : w.Taken pending m) : pending ≠ [] := by
  rintro rfl
  obtain ⟨b, hb, -⟩ := h
  cases hb

section Joining

theorem Holds.passes {d : Draft} {l : Label} (holds : w.Holds u) (marked : d.Marked l u.draft) :
    ∃ k, k + 1 = u.draft.body.size ∧ place? w.code l = some k ∧
      ∀ m : Config, m.place = k → w.step m = some (.goes (m.goto u.draft.body.size)) := by
  obtain ⟨k, hk, hl⟩ := marked.place
  obtain ⟨_, found, rfl⟩ := holds.instr k _ hl
  refine ⟨k, hk, holds.label k l hl, fun m hm => ?_⟩
  unfold Frame.step Truth.step
  rw [hm, found, ← hk]

theorem cross_target {b : PendingBranch} {l : Label} {k : Nat} (holds : w.Holds u)
    (target : u.draft.Targets b l) (place : place? w.code l = some k) (m : Config) :
    cross w.code m b = some (.goes (m.goto k)) := by
  unfold Draft.Targets at target
  cases hi : u.draft.body[b.instr.index]? with
  | none => simp [hi] at target
  | some i =>
    rw [hi] at target
    obtain ⟨j, hj, hij⟩ := holds.instr _ i hi
    have set : (some j).bind (Instr.target? b.edge) = some (some l) := hij.target target
    unfold cross
    rw [hj, set]
    simp [place]

theorem Taken.joined (h : w.Taken pending m) (addressed : w.Addressed m)
    (joined : t.draft.Joined pending u.draft) (holds : w.Holds u) :
    w.Runs s m (m.goto u.draft.body.size) ∧ w.At u (m.goto u.draft.body.size) := by
  refine ⟨⟨?_, fun _ _ => rfl, addressed⟩, rfl, addressed⟩
  obtain ⟨b, hb, poised⟩ := h
  generalize hd : u.draft = d at joined
  cases joined with
  | none empty =>
    rw [empty] at hb
    cases hb
  | here l _ marked targets =>
    subst hd
    obtain ⟨k, -, hl, pass⟩ := holds.passes marked
    have first : w.step m = some (.goes (m.goto k)) :=
      poised.trans (cross_target holds (targets b hb) hl m)
    exact (Truth.reaches_step first).trans (reaches_step (pass (m.goto k) rfl))

theorem At.joined (hm : w.At t m) (joined : t.draft.Joined pending u.draft) (holds : w.Holds u) :
    w.Runs s m (m.goto u.draft.body.size) ∧ w.At u (m.goto u.draft.body.size) := by
  refine ⟨⟨?_, fun _ _ => rfl, hm.addressed⟩, rfl, hm.addressed⟩
  have stays (h : u.draft.body.size = t.draft.body.size) :
      w.Reaches m (m.goto u.draft.body.size) := by
    rw [h, ← hm.place]
    exact .refl m
  generalize hd : u.draft = d at joined
  cases joined with
  | none _ => exact hd ▸ stays (by rw [hd])
  | here l _ marked _ =>
    subst hd
    rcases marked.size with same | more
    · exact stays same
    · obtain ⟨k, hk, -, pass⟩ := holds.passes marked
      exact reaches_step (pass m (by rw [hm.place]; omega))

end Joining

section Steps

theorem resolveHere_writes (pending : Pending) :
    Ensures (fun _ t => s.Writes t ∧ s.draft.Joined pending t.draft)
      (resolveHere pending env s) := by
  refine .seq (P := fun _ t => s.Writes t ∧ s.draft.Joined pending t.draft)
    (Ends.edited ?_) fun _ t ht => .ret ht
  exact (Draft.resolveHere_joined pending s.draft).mono fun _ d hd => ⟨⟨hd.later, rfl, rfl⟩, hd⟩

theorem pendingJump_poised (w : Frame) :
    Ensures (fun jump t => s.Writes t ∧ ∃ b, jump = [b] ∧
      (w.Holds t → ∀ m, w.At s m → w.Poised b m))
      ((liftM Draft.pendingJump : LowerM Pending) env s) := by
  have emits : s.Emits (.jump none)
      { s with draft := { s.draft with body := s.draft.body.push (.jump none) } } :=
    ⟨⟨.push _, rfl, rfl⟩, rfl⟩
  refine ⟨emits.writes, _, rfl, fun holds m hm => ?_⟩
  obtain ⟨_, found, target, rfl, -⟩ := holds.found emits hm
  unfold Poised Frame.step Truth.step
  rw [found, hm.place]

theorem splice_taken (henv : env.symbols = w.symbols) {owed : List Obligation} {calls : Log}
    (destroys : List.Forall₂ (w.Destroys s) owed calls) (pending : Pending) :
    Ensures (fun p t => s.Writes t ∧
      (w.Holds t → ∀ m, w.Addressed m → w.Taken pending m →
        ∃ m', w.Runs s m m' ∧ m'.log = m.log ++ calls ∧ w.Taken p m'))
      (splice pending owed env s) := by
  unfold splice
  split
  · rename_i empty
    refine ⟨.refl s, fun _ m _ taken => absurd ?_ taken.ne_nil⟩
    simpa using empty
  · refine (resolveHere_writes pending).seq fun _ t ⟨writes, joined⟩ => ?_
    have destroys' := destroys.imp fun _ _ h => h.later writes.onward
    refine (emitCleanups_goes henv 0 destroys').seq fun _ u ⟨writes', goes⟩ => ?_
    refine (pendingJump_poised w).mono fun jump v ⟨writes'', b, hjump, poised⟩ => ?_
    refine ⟨(writes.trans writes').trans writes'', fun holds m addressed taken => ?_⟩
    have holds' := holds.earlier writes''.onward
    obtain ⟨runs, there⟩ := taken.joined addressed joined (holds'.earlier writes'.onward)
    obtain ⟨m', runs', there', log⟩ := goes holds' _ there
    refine ⟨m', runs.trans writes.onward runs', log, b, ?_, poised holds m' there'⟩
    simp [hjump]

end Steps

def Forks (w : Frame) (s t : State) (b : Branches) (e : Evaluation) : Prop :=
  w.Holds t → ∀ m, w.At s m → ∃ m', w.Runs s m m' ∧ m'.log = (e m.log).2 ∧
    w.Taken (b.side (isTrue (e m.log).1)) m'

def Decides (w : Frame) (jump : LowerM Branches) (e : Evaluation) (calls : Log) : Prop :=
  ∀ ⦃env s⦄, env.symbols = w.symbols → s.Housed w.symbols →
    Ends (fun _ => True) (fun b t => w.Extends s t calls ∧
      (∀ v, b.constant = some v → ∀ h, isTrue (e h).1 = v) ∧ w.Forks s t b e) (jump env s)

namespace Decides
variable {e e' : Evaluation} {calls calls' : Log}

theorem known (b : Bool) : w.Decides (do
    let jump ← Draft.pendingJump
    pure (.known b jump)) (fun h => (bit b, h)) [] := by
  intro env s _ _
  refine (pendingJump_poised w).seq fun jump t ⟨writes, edge, hjump, poised⟩ => .ret ?_
  refine ⟨.of_writes writes, fun v hv h => ?_, fun holds m hm => ?_⟩
  · cases b <;> simpa [Branches.known] using hv
  · refine ⟨m, .refl hm.addressed, rfl, edge, ?_, poised holds m hm⟩
    cases b <;> simp [Branches.known, hjump]

theorem branch {p : Plan} (h : w.Computes p.value e calls) : w.Decides (do
    let condition ← p.operand
    let branch ← Draft.emit (.branch condition none none)
    pure ⟨[⟨branch, .positive⟩], [⟨branch, .negative⟩], none⟩) e calls := by
  intro env s henv housed
  refine (h.operand henv housed).seq fun x t ⟨ext, made, goes⟩ => ?_
  refine .seq (P := fun branch u => branch = ⟨t.draft.body.size⟩ ∧
    t.Emits (.branch x none none) u) ⟨rfl, ⟨.push _, rfl, rfl⟩, rfl⟩ ?_
  rintro _ u ⟨rfl, emits⟩
  refine .ret ⟨?_, by simp, fun holds m hm => ?_⟩
  · simpa using ext.trans (.of_writes emits.writes)
  obtain ⟨m', runs, there, log, value⟩ := goes (holds.earlier emits.writes.onward) m hm
  obtain ⟨_, found, positive, negative, rfl, -, -⟩ := holds.found emits there
  refine ⟨m', runs, log, ⟨⟨t.draft.body.size⟩, edgeOn (e m.log).1⟩, ?_, ?_⟩
  · by_cases zero : (e m.log).1 = 0
    · simp [zero, edgeOn, isTrue]
    · simp [zero, edgeOn, isTrue]
  · unfold Poised Frame.step Truth.step
    rw [found, there.place]
    simp [value]

theorem swap (h : w.Decides jump e calls) :
    w.Decides (do return (← jump).swap) (negate e) calls := by
  intro env s henv housed
  refine (h henv housed).seq fun b t ⟨ext, constant, forks⟩ => .ret ⟨ext, ?_, ?_⟩
  · intro v hv h
    obtain ⟨v', hb, rfl⟩ := Option.map_eq_some_iff.1 hv
    simp [negate, constant v' hb h]
  · intro holds m hm
    obtain ⟨m', runs, log, taken⟩ := forks holds m hm
    refine ⟨m', runs, log, ?_⟩
    cases hv : isTrue (e m.log).1 <;> simpa [Branches.swap, negate, hv] using taken

theorem leaving (h : w.Decides jump e calls) (henv : env.symbols = w.symbols)
    (housed : s.Housed w.symbols) :
    Ensures (fun b t => (w.Extends s t [] ∧
        (∀ v, b.constant = some v → ∀ h, isTrue (finish e calls h).1 = v) ∧
        w.Forks s t b (finish e calls)) ∧
      ∃ b' u, jump env s.inScope = .ok b' u ∧ t.storage = u.storage)
      (Lower.fullJump jump env s) := by
  refine .look (Ends.known (t := s.inScope) rfl ?_)
  refine (h henv (s := s.inScope) housed).recorded.seq ?_
  rintro b t ⟨⟨ext, constant, forks⟩, ran⟩
  refine .look ?_
  obtain ⟨owed, cleanups, destroys⟩ := ext.owed
  have hc : t.cleanups = s.cleanups.openScope.grow owed := cleanups
  have pending : t.cleanups.pendingFrom s.cleanups.depth = owed := by
    rw [hc]
    simp [Cleanups.pendingFrom, Cleanups.openScope, Cleanups.grow, Cleanups.depth]
  rw [pending]
  have scope : s.Onward w.symbols s.inScope := .of_storage (.refl _) rfl
  have whole : s.Onward w.symbols t := scope.trans ext.onward
  cases owed with
  | nil =>
    -- nothing is destroyed, and nothing is written
    cases destroys
    refine (dropScope_ends ⟨_, hc⟩).seq ?_
    rintro _ _ rfl
    have last : t.Onward w.symbols { t with cleanups := s.cleanups } := .of_storage (.refl _) rfl
    refine .ret ⟨⟨.of_same (whole.trans last) rfl, constant, fun holds m hm => ?_⟩,
      b, t, ran, rfl⟩
    obtain ⟨m', runs, log, taken⟩ := forks (holds.earlier last) m ⟨hm.place, hm.addressed⟩
    exact ⟨m', ⟨runs.reaches, runs.kept, runs.addressed⟩, by simp [finish, log], taken⟩
  | cons o owed =>
    refine (splice_taken henv destroys b.onTrue).seq fun onTrue u first => ?_
    obtain ⟨writes, spliced⟩ := first
    have destroys' := destroys.imp fun _ _ h => h.later writes.onward
    refine (splice_taken henv destroys' b.onFalse).seq fun onFalse v second => ?_
    obtain ⟨writes', spliced'⟩ := second
    have both := writes.trans writes'
    refine (dropScope_ends ⟨_, both.cleanups.trans hc⟩).seq ?_
    rintro _ _ rfl
    have last : v.Onward w.symbols { v with cleanups := s.cleanups } := .of_storage (.refl _) rfl
    refine .ret ⟨⟨.of_same ((whole.trans both.onward).trans last) rfl, constant,
      fun holds m hm => ?_⟩, b, t, ran, both.storage⟩
    have holds' := holds.earlier last
    obtain ⟨m', runs, log, taken⟩ :=
      forks (holds'.earlier both.onward) m ⟨hm.place, hm.addressed⟩
    have runs' : w.Runs s m m' := ⟨runs.reaches, runs.kept, runs.addressed⟩
    cases hv : isTrue (e m.log).1 with
    | true =>
      rw [hv] at taken
      obtain ⟨m'', more, log', taken'⟩ :=
        spliced (holds'.earlier writes'.onward) m' runs.addressed taken
      refine ⟨m'', runs'.trans whole more, by simp [finish, log', log], ?_⟩
      simpa [finish, hv] using taken'
    | false =>
      rw [hv] at taken
      obtain ⟨m'', more, log', taken'⟩ := spliced' holds' m' runs.addressed taken
      refine ⟨m'', runs'.trans (whole.trans writes.onward) more, by simp [finish, log', log], ?_⟩
      simpa [finish, hv] using taken'

theorem fullJump (h : w.Decides jump e calls) :
    w.Decides (Lower.fullJump jump) (finish e calls) [] :=
  fun _ _ henv housed => (h.leaving henv housed).mono fun _ _ ht => ht.1

/-- Control goes to the second operand for one truth of the first one, and leaves for the other.
The branches of a connective are those of its second operand, and those on which the first one
decides. -/
theorem connects {b b' r : Branches} {v : State} {x : Bool} (forks : w.Forks s t b e)
    (hst : s.Onward w.symbols t) (joined : t.draft.Joined (b.side x) u.draft)
    (writes : t.Writes u) (huv : u.Onward w.symbols v) (forks' : w.Forks u v b' e')
    (decided : b.side (!x) ⊆ r.side (!x)) (rest : ∀ y, b'.side y ⊆ r.side y) :
    w.Forks s v r (connect x e e') := by
  intro holds m hm
  have holds' := holds.earlier huv
  obtain ⟨m', runs, log, taken⟩ := forks (holds'.earlier writes.onward) m hm
  unfold connect
  by_cases hv : isTrue (e m.log).1 = x
  · simp only [hv, if_true, isTrue_bit]
    rw [hv] at taken
    obtain ⟨more, there⟩ := taken.joined (s := t) runs.addressed joined holds'
    obtain ⟨m'', last, log', taken'⟩ := forks' holds _ there
    have same : (m'.goto u.draft.body.size).log = (e m.log).2 := log
    rw [same] at log' taken'
    refine ⟨m'', (runs.trans hst more).trans (hst.trans writes.onward) last, log', ?_⟩
    exact taken'.mono (rest _)
  · have other : isTrue (e m.log).1 = !x := by
      cases hl : isTrue (e m.log).1 <;> cases x <;> simp_all
    rw [other] at taken
    simp only [hv, if_false, isTrue_bit]
    exact ⟨m', runs, log, taken.mono decided⟩

theorem connective (x : Bool) {lhs rhs : LowerM Branches} (hl : w.Decides lhs e calls)
    (hr : w.Decides rhs e' calls') :
    w.Decides (Lower.connective x lhs rhs) (connect x (finish e calls) (finish e' calls')) [] := by
  intro env s henv housed
  refine (hl.fullJump henv housed).seq fun b t ⟨ext, constant, forks⟩ => ?_
  split
  · -- the left side is known to have the other value
    rename_i known
    have other (h : Log) : isTrue (finish e calls h).1 = !x := constant _ known h
    refine .ret ⟨ext, fun v hv h => ?_, fun holds m hm => ?_⟩
    · simpa [connect, other] using hv
    · obtain ⟨m', runs, log, taken⟩ := forks holds m hm
      rw [other] at taken
      refine ⟨m', runs, by simp [connect, other, log], ?_⟩
      simpa [connect, other] using taken
  · refine (resolveHere_writes (b.side x)).seq fun _ u ⟨writes, joined⟩ => ?_
    have housed' := writes.onward.housed (ext.onward.housed housed)
    refine (hr.fullJump henv housed').seq fun b' v ⟨ext', constant', forks'⟩ => .ret ?_
    refine ⟨by simpa using (ext.trans (.of_writes writes)).trans ext', fun value hvalue h => ?_, ?_⟩
    · by_cases known : b.constant = some x
      · simp only [Branches.joined_constant, known, if_true] at hvalue
        simp [connect, constant x known h, constant' value hvalue]
      · simp [known] at hvalue
    · exact connects forks ext.onward joined writes ext'.onward forks' Branches.left_subset_joined
        Branches.right_subset_joined

end Decides

section Materialize
variable {b : Branches} {e : Evaluation} {calls : Log}

theorem writesTruth (w : Frame) (old : State) (pending : Pending) (r : Register) (x : Bool) :
    Ensures (fun _ t => s.Writes t ∧
      (w.Holds t → w.New old r → ∀ m, w.Addressed m → w.Taken pending m →
        ∃ m', w.Runs old m m' ∧ w.At t m' ∧ m'.log = m.log ∧ m'.registers r = bit x))
      ((do
        resolveHere pending
        emit (.move r (Imm.bool x)) : LowerM Unit) env s) := by
  refine (resolveHere_writes pending).seq fun _ t ⟨writes, joined⟩ => ?_
  refine (emit_emits _).mono fun _ u emits => ⟨writes.trans emits.writes, ?_⟩
  intro holds new m addressed taken
  obtain ⟨runs, there⟩ := taken.joined (s := old) addressed joined
    (holds.earlier emits.writes.onward)
  obtain ⟨_, found, rfl⟩ := holds.found emits there
  have hstep : w.step (m.goto t.draft.body.size) =
      some (.goes ((m.goto t.draft.body.size).put r (bit x))) := by
    unfold Frame.step Truth.step
    rw [found]
    rfl
  obtain ⟨last, there'⟩ := there.put emits new hstep
  exact ⟨_, ⟨runs.reaches.trans last.reaches, last.kept, last.addressed⟩, there', rfl,
    Config.put_same _ _ _⟩

theorem trueSide_nil (h : b.onTrue = []) (r : Register) : trueSide b r = pure [] := by
  unfold trueSide
  rw [h]

theorem trueSide_eq (h : b.onTrue ≠ []) (r : Register) : trueSide b r = (do
    (do
      resolveHere b.onTrue
      emit (.move r (Imm.bool true)))
    if b.onFalse.isEmpty then pure [] else Draft.pendingJump) := by
  unfold trueSide
  cases hb : b.onTrue with
  | nil => exact absurd hb h
  | cons first more => rw [bind_assoc]

theorem trueSide_taken (w : Frame) (old : State) (b : Branches) (r : Register) :
    Ensures (fun done t => s.Writes t ∧ (b.onFalse = [] → done = []) ∧
      (w.Holds t → w.New old r → ∀ m, w.Addressed m → w.Taken b.onTrue m →
        ∃ m', w.Runs old m m' ∧ m'.log = m.log ∧ m'.registers r = bit true ∧
          (if b.onFalse = [] then w.At t m' else w.Taken done m')))
      (trueSide b r env s) := by
  by_cases none : b.onTrue = []
  · rw [trueSide_nil none]
    exact ⟨.refl s, fun _ => rfl, fun _ _ m _ taken => absurd none taken.ne_nil⟩
  · rw [trueSide_eq none]
    refine (writesTruth w old b.onTrue r true).seq fun _ t ⟨writes, written⟩ => ?_
    by_cases empty : b.onFalse = []
    · rw [empty]
      refine .ret ⟨writes, fun _ => rfl, fun holds new m addressed taken => ?_⟩
      obtain ⟨m', runs, there, log, value⟩ := written holds new m addressed taken
      exact ⟨m', runs, log, value, there⟩
    · rw [if_neg (by simpa using empty)]
      refine (pendingJump_poised w).mono fun jump u ⟨writes', edge, hjump, poised⟩ => ?_
      refine ⟨writes.trans writes', fun absurd => (empty absurd).elim,
        fun holds new m addressed taken => ?_⟩
      obtain ⟨m', runs, there, log, value⟩ :=
        written (holds.earlier writes'.onward) new m addressed taken
      refine ⟨m', runs, log, value, ?_⟩
      rw [if_neg empty]
      exact ⟨edge, by simp [hjump], poised holds m' there⟩

theorem falseSide_taken (w : Frame) (old : State) (b : Branches) (r : Register) :
    Ensures (fun _ t => s.Writes t ∧ (b.onFalse = [] → s = t) ∧
      (w.Holds t → w.New old r → ∀ m, w.Addressed m → w.Taken b.onFalse m →
        ∃ m', w.Runs old m m' ∧ w.At t m' ∧ m'.log = m.log ∧ m'.registers r = bit false))
      (falseSide b r env s) := by
  unfold falseSide
  by_cases empty : b.onFalse = []
  · rw [if_pos (by simpa using empty)]
    exact ⟨.refl s, fun _ => rfl, fun _ _ m _ taken => absurd empty taken.ne_nil⟩
  · rw [if_neg (by simpa using empty)]
    exact (writesTruth w old b.onFalse r false).mono fun _ t ⟨writes, written⟩ =>
      ⟨writes, fun absurd => (empty absurd).elim, written⟩

theorem Decides.joining (h : w.Decides jump e calls) (bits : ∀ h, (e h).1 = bit (isTrue (e h).1))
    (henv : env.symbols = w.symbols) (housed : s.Housed w.symbols) :
    Ensures (fun x t => (w.Extends s t calls ∧ (∀ o, x = some o → Made t o) ∧
        w.Goes s t fun m m' => m'.log = (e m.log).2 ∧
          ∀ o, x = some o → m'.value? o = some (e m.log).1) ∧
      (∃ r, x = some (.reg r)) ∧ ∃ b u, jump env s = .ok b u ∧ t.storage = u.storage)
      (Lower.materialize jump env s) := by
  unfold materialize
  refine (h henv housed).recorded.seq ?_
  rintro b t ⟨⟨ext, constant, forks⟩, ran⟩
  have housed' := ext.onward.housed housed
  refine (newRegister_reserves .bool).seq fun r u reserves => ?_
  refine (trueSide_taken w t b r).seq fun done v ⟨writes, empty, onTrue⟩ => ?_
  refine (falseSide_taken w t b r).seq fun _ x ⟨writes', same, onFalse⟩ => ?_
  refine (resolveHere_writes done).seq fun _ y ⟨writes'', joined⟩ => .ret ?_
  have tail : u.Writes y := (writes.trans writes').trans writes''
  have all : t.Writes y := reserves.writes.trans tail
  refine ⟨⟨?_, ?_, fun holds m hm => ?_⟩, ⟨r, rfl⟩, b, t, ran, all.storage⟩
  · simpa using ext.trans (.of_writes all)
  · rintro _ ⟨rfl⟩ _ ⟨rfl⟩
    have below := (reserves.fresh r rfl).2
    obtain ⟨added, hadded⟩ := tail.later.registers
    rw [hadded, Array.size_append]
    omega
  have new : w.New t r := (holds.earlier tail.onward).new housed' reserves rfl
  have holds' := holds.earlier writes''.onward
  obtain ⟨m', runs, log, taken⟩ := forks (holds.earlier all.onward) m hm
  -- whatever the truth is, control comes to the end with its bits in the register
  suffices ∃ m'', w.Runs t m' m'' ∧ w.At y m'' ∧ m''.log = m'.log ∧
      m''.registers r = bit (isTrue (e m.log).1) by
    obtain ⟨m'', last, there, log', value⟩ := this
    refine ⟨m'', runs.trans ext.onward last, there, log'.trans log, ?_⟩
    rintro _ ⟨rfl⟩
    rw [bits m.log, ← value]
    rfl
  cases hv : isTrue (e m.log).1 with
  | true =>
    rw [hv] at taken
    obtain ⟨m1, runs', log', value, next⟩ :=
      onTrue (holds'.earlier writes'.onward) new m' runs.addressed taken
    suffices w.Runs t m1 (m1.goto y.draft.body.size) ∧ w.At y (m1.goto y.draft.body.size) from
      ⟨_, runs'.trans (.refl t) this.1, this.2, log', value⟩
    split at next
    · rename_i none
      cases same none
      exact next.joined joined holds
    · exact next.joined runs'.addressed joined holds
  | false =>
    rw [hv] at taken
    obtain ⟨m1, runs', there, log', value⟩ := onFalse holds' new m' runs.addressed taken
    obtain ⟨last, there'⟩ := there.joined (s := t) joined holds
    exact ⟨_, runs'.trans (.refl t) last, there', log', value⟩

theorem Decides.materialize (h : w.Decides jump e calls)
    (bits : ∀ h, (e h).1 = bit (isTrue (e h).1)) :
    w.Computes (Lower.materialize jump) e calls :=
  fun _ _ henv housed => (h.joining bits henv housed).mono fun _ _ ht => ht.1

end Materialize
end Frame
end FlatCode.Truth
