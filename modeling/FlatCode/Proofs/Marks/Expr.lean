import FlatCode.Proofs.Marks.Call

/-! Expressions. Every expression can be lowered to a value, to jumps on its truth and to an
address, from any point where a step can begin. -/
namespace FlatCode.Marks
open Code Symbols Ast Lower List
variable {post : α → Scene → Prop} {held : List Register} {jump : LowerM Branches}

section Reset
variable {S : Setting} {env : Env} {P Q : Scene} {own : List Operand} {a : List Site}
open Scene

theorem Ready.keep (h : Ready S env own Q) (leads : P.Leads S a Q) :
    Ready S env own (Q.keep P.held Q.live) :=
  ⟨h.sound.keep leads.held, h.suits.frame later_keep rfl, h.scope, h.inside, h.live⟩

theorem Arrives.reset {mid : α → Scene → Prop} {r : EStateM.Result Error State α}
    (h : Arrives S P a mid r) (k : ∀ v Q, P.Leads S a Q → mid v Q → post v (Q.keep P.held Q.live)) :
    Arrives S P a post r := by
  refine Ends.mono h ?_
  rintro v _ ⟨Q, rfl, sound, leads, hv⟩
  exact ⟨Q.keep P.held Q.live, rfl, sound.keep leads.held, leads.keep, k v Q leads hv⟩

theorem Scene.Carries.sub {b : PendingBranch} {held' : List Register} {live : List Operand}
    (h : P.Carries b held live) (sub : ∀ r ∈ held', r ∈ held) : P.Carries b held' live := by
  obtain ⟨note, hn, ordinary, same, all⟩ := h
  exact ⟨note, hn, ordinary, same, fun r hr => all r (sub r hr)⟩

end Reset

section JumpOn
variable {S : Setting} {env : Env} {P : Scene} {a : List Site}
open Scene

theorem jumpOn_draws {value : LowerM (Option Operand)} (e : Expr) (ready : Ready S env [] P)
    (h : Draws S env P [] e.sites (fun o Q => ∀ x ∈ o, Q.Holds S x) value) :
    Draws S env P [] e.sites (fun b Q => P.Forks b Q) (jumpOn e value) := by
  refine .table ?_
  cases e.truth? env.symbols with
  | some truth =>
    have jumps : Draws S env P [] [] (fun pending Q => Q.held = P.held ∧ pending ≠ [] ∧
        ∀ x ∈ pending, Q.Carries x P.held Q.live) (liftM Draft.pendingJump : LowerM Pending) :=
      .still ready ((pendingJump_arrives ready.sound ready.sound.live).mono
        fun _ _ _ _ ⟨stands, _, taken, carried⟩ =>
          ⟨⟨_, stands⟩, stands.held, taken, by rw [stands.live]; exact carried⟩)
    refine (jumps.next fun pending Q ready' _ _ ⟨held, taken, carried⟩ =>
      .pure ready' ?_).sites (.of_calls e.isCall_of_sites)
    cases truth with
    | true => exact ⟨held, by simpa [Branches.known] using carried, .inl taken,
        by simpa [Branches.known] using taken⟩
    | false => exact ⟨held, by simpa [Branches.known] using carried, .inr taken,
        by simpa [Branches.known] using taken⟩
  | none =>
    have branches : Draws S env P [] e.sites (fun b Q =>
        (∀ x ∈ b.onTrue ++ b.onFalse, Q.Carries x P.held Q.live) ∧ b.onTrue ≠ [] ∧
          b.constant = none) (do
          let condition ← requireValue e.kind value
          let branch ← Draft.emit (.branch condition none none)
          pure (⟨[⟨branch, .positive⟩], [⟨branch, .negative⟩], none⟩ : Branches)) := by
      refine (requireValue_draws e.kind h).last fun x Q ready' leads _ holds => ?_
      have branch : Draws S env Q [] [] (fun id R => ∀ e, R.Carries ⟨id, e⟩ P.held R.live)
          (liftM (Draft.emit (.branch x none none)) : LowerM InstrId) :=
        .still ready' ((emit_branch ready'.sound holds).mono fun _ _ _ _ ⟨stands, carried⟩ =>
          ⟨⟨_, stands⟩, fun e => by rw [stands.live]; exact (carried e).sub leads.held⟩)
      refine branch.next fun id R ready'' _ _ carried => .pure ready'' ⟨?_, by simp, rfl⟩
      intro y hy
      simp only [cons_append, nil_append, mem_cons, not_mem_nil, or_false] at hy
      rcases hy with rfl | rfl <;> exact carried _
    exact Arrives.reset branches fun b Q leads ⟨ready', gains, carried, taken, unknown⟩ =>
      ⟨ready'.keep leads, gains, rfl, carried, .inl taken, fun truth known => by
        simp [unknown] at known⟩

theorem addressIn_draws {value : LowerM (Option Operand)} (e : Expr)
    (h : Draws S env P [] a (fun o Q => ∀ x ∈ o, Q.Holds S x) value) :
    Draws S env P [] a (fun x Q => Q.Holds S x) (addressIn e value) := by
  refine .asked fun kind _ => ?_
  cases kind with
  | classType _ | reference _ => exact requireValue_draws e.kind h
  | _ => exact .fail

end JumpOn

structure Begins (S : Setting) (env : Env) (P : Scene) : Prop where
  sound : P.Sound S
  suits : Suits S env P
  level : P.Level S
  within : ∀ depth ∈ env.depths, depth ≤ P.state.cleanups.depth

section Full
variable {S : Setting} {env : Env} {P Q : Scene} {a : List Site}
open Scene

theorem Ready.begins (h : Ready S env [] P) : Begins S env P :=
  ⟨h.sound, h.suits, h.live, fun depth hd => Nat.le_of_lt (h.inside depth hd)⟩

theorem Begins.stands (h : Begins S env P) (sound : Q.Sound S) (later : P.Later S Q)
    (stands : P.Stands held P.live Q) : Begins S env Q := by
  refine ⟨sound, h.suits.frame later stands.cleanups, ?_, ?_⟩
  · rw [Scene.Level, stands.live, stands.cleanups]
    exact h.level
  · rw [stands.cleanups]
    exact h.within

theorem Begins.opened (h : Begins S env P) (sound : Q.Sound S) (later : P.Later S Q)
    (live : Q.live = P.live) (hc : Q.state.cleanups = P.state.cleanups.openScope) :
    Ready S env [] Q := by
  refine ⟨sound, h.suits.mono later fun depth _ => ?_, ?_, fun depth hd => ?_, ?_⟩
  · rw [hc, S.aliveBelow_openScope]
  · simp [hc]
  · rw [hc, Cleanups.depth_openScope]
    exact Nat.lt_succ_of_le (h.within depth hd)
  · rw [live, hc, S.alive_openScope, h.level, nil_append]

/-- Branches go through the destruction of objects. Control then goes on elsewhere, and what is
alive here is what was before. -/
theorem splice_arrives (h : P.Sound S) (suits : Suits S env P) (level : P.Level S)
    {owed : List Obligation} {rest : List Operand}
    (live : P.live = S.seen (owed.map Obligation.object) ++ rest)
    (owes : ∀ o ∈ owed, P.Owes S o) {pending : Pending}
    (carried : ∀ x ∈ pending, P.Carries x P.held P.live) :
    Arrives S P [] (fun out Q => P.Stands P.held P.live Q ∧ (∀ x ∈ out, Q.Carries x P.held rest) ∧
        (pending = [] → Q.mark = P.mark) ∧ (pending ≠ [] → out ≠ [] ∧ Q.mark.phase = .dead))
      (splice pending owed env P.state) := by
  cases pending with
  | nil => exact Arrives.here h ⟨⟨rfl, rfl, rfl⟩, by simp, fun _ => rfl, by simp⟩
  | cons x xs =>
    refine (resolveHere_arrives h carried).next fun _ Q sound leads stands => ?_
    refine (emitCleanups_arrives [] rest owed 0 sound (suits.frame leads.toLater stands.cleanups)
      (fun o ho => (owes o ho).mono leads.toLater) (stands.live.trans live)
      (by rw [stands.cleanups, drop_zero, ← level, live]) (.inl rfl)).next
      fun _ R sound' leads' stands' => ?_
    have built : ∀ x ∈ P.live, R.Built S x := fun x hx =>
      ((h.live x hx).mono leads.toLater).mono leads'.toLater
    refine (pendingJump_arrives sound' built).mono
      fun out T _ _ ⟨stands'', dead, taken, carried⟩ => ?_
    rw [stands'.held, stands.held] at carried stands''
    rw [stands'.live] at carried
    exact ⟨(stands.trans stands').trans stands'', carried, by simp, fun _ => ⟨taken, dead⟩⟩

theorem fullJump_arrives (begins : Begins S env P)
    (h : ∀ Q, Ready S env [] Q → Draws S env Q [] a (fun b R => Q.Forks b R) jump) :
    Arrives S P a (fun b Q => P.Stands P.held P.live Q ∧ P.Forks b Q)
      (fullJump jump env P.state) := by
  refine Ends.look ?_
  refine (openScope_arrives begins.sound).next fun _ O sound leads ⟨held, live, hc⟩ => ?_
  have ready := begins.opened sound leads.toLater live hc
  refine Arrives.last (h O ready) fun b Q sound' leads' ⟨ready', ⟨added, hc', _⟩, forks⟩ => ?_
  rw [hc] at hc'
  have depth : Q.state.cleanups.pendingFrom P.state.cleanups.depth = added := by
    rw [hc', Cleanups.pendingFrom_inner]
  have split : Q.live = S.seen (added.map Obligation.object) ++ P.live := by
    rw [ready'.live, hc', S.alive_grow _ (by simp), S.alive_openScope, begins.level,
      nil_append]
  have owes : ∀ o ∈ added, Q.Owes S o := fun o ho => by
    refine sound'.books.owed o ?_
    rw [hc', Cleanups.pendingFrom_grow _ (by simp)]
    exact mem_append_left _ ho
  have carried := forks.carried
  rw [← forks.held, forall_mem_append] at carried
  refine Ends.look ?_
  dsimp only
  rw [depth]
  cases added with
  | nil =>
    refine (dropScope_arrives sound' _ [] hc').next
      fun _ R sound'' leads'' ⟨held', live', hc''⟩ => ?_
    have live'' : R.live = P.live := by simpa [split] using live'
    refine .here sound'' ⟨⟨held'.trans (forks.held.trans held), live'', hc''⟩,
      held'.trans (forks.held.trans held), fun x hx => ?_, forks.taken, forks.known⟩
    rw [← held, live']
    exact (forks.carried x hx).mono leads''.toLater
  | cons o owed =>
    refine (splice_arrives sound' ready'.suits ready'.live split owes carried.1).next
      fun onTrue Q1 sound1 leads1 ⟨stands1, carried1, idle1, closed1⟩ => ?_
    refine (splice_arrives sound1 (ready'.suits.frame leads1.toLater stands1.cleanups)
      (by rw [Scene.Level, stands1.live, stands1.cleanups]; exact ready'.live)
        (stands1.live.trans split) (fun o ho => (owes o ho).mono leads1.toLater)
      (fun x hx => ?_)).next fun onFalse Q2 sound2 leads2 ⟨stands2, carried2, idle2, closed2⟩ => ?_
    · rw [stands1.held, stands1.live]
      exact (carried.2 x hx).mono leads1.toLater
    have dead : Q2.mark.phase = .dead := by
      by_cases none : b.onFalse = []
      · rw [idle2 none]
        exact (closed1 (forks.taken.resolve_right fun taken => taken none)).2
      · exact (closed2 none).2
    have built : ∀ x ∈ P.live, Q2.Built S x := fun x hx => by
      refine (sound'.live x ?_).mono (leads1.toLater.trans leads2.toLater)
      rw [split]
      exact mem_append_right _ hx
    have hc2 := stands2.cleanups.trans (stands1.cleanups.trans hc')
    refine Arrives.next (.after leads_keep (dropScope_arrives (sound2.keep_dead dead built)
      P.state.cleanups (o :: owed) hc2)) fun _ R sound3 leads3 ⟨held3, live3, hc3⟩ => ?_
    have held' : R.held = P.held :=
      held3.trans (stands2.held.trans (stands1.held.trans (forks.held.trans held)))
    refine .here sound3 ⟨⟨held', live3, hc3⟩, held', fun x hx => ?_, ?_, fun truth known => ?_⟩
    · have later := leads2.toLater.trans leads3.toLater
      rw [← held, ← forks.held, live3]
      rcases mem_append.1 hx with hx | hx
      · exact (carried1 x hx).mono later
      · rw [← stands1.held]
        exact (carried2 x hx).mono leads3.toLater
    · exact forks.taken.imp (fun taken => (closed1 taken).1) fun taken => (closed2 taken).1
    · have way := forks.known truth known
      cases truth with
      | true => exact (closed1 way).1
      | false => exact (closed2 way).1

section Connectives
variable {lhs rhs : LowerM Branches} {b : List Site}

theorem second_arrives (begins : Begins S env P) (sound : Q.Sound S) (later : P.Later S Q)
    (stands : P.Stands P.held P.live Q) {left : Branches} (forks : P.Forks left Q) {ways : Pending}
    (sub : ∀ x ∈ ways, x ∈ left.onTrue ++ left.onFalse)
    (h : ∀ Q, Ready S env [] Q → Draws S env Q [] b (fun x R => Q.Forks x R) rhs) :
    Arrives S Q b (fun right R => P.Stands P.held P.live R ∧ P.Forks right R ∧
        ∀ x ∈ left.onTrue ++ left.onFalse, R.Carries x P.held R.live)
      ((resolveHere ways >>= fun _ => fullJump rhs) env Q.state) := by
  have carried := forks.carried
  rw [← forks.held] at carried
  refine (resolveHere_arrives sound fun x hx => carried x (sub x hx)).next
    fun _ R sound' leads' stands' => ?_
  have both := stands.same stands'
  refine (fullJump_arrives (begins.stands sound' (later.trans leads'.toLater) both) h).mono
    fun right T _ leads'' ⟨stands'', forks''⟩ => ?_
  have all := both.same stands''
  refine ⟨all, ⟨all.held, ?_, forks''.taken, forks''.known⟩, fun x hx => ?_⟩
  · rw [← both.held]
    exact forks''.carried
  · rw [all.live, ← stands.live]
    exact (forks.carried x hx).mono (leads'.toLater.trans leads''.toLater)

theorem connective_draws (x : Bool) (only : ∀ site ∈ b, site.isCall) (ready : Ready S env [] P)
    (hl : ∀ P, Ready S env [] P → Draws S env P [] a (fun x Q => P.Forks x Q) lhs)
    (hr : ∀ P, Ready S env [] P → Draws S env P [] b (fun x Q => P.Forks x Q) rhs) :
    Draws S env P [] (a ++ b) (fun x Q => P.Forks x Q) (connective x lhs rhs) := by
  refine .still ready ((fullJump_arrives ready.begins hl).seq
    fun left Q sound leads ⟨stands, forks⟩ => ?_)
  split
  · rename_i known
    have way := forks.known (!x) known
    refine Arrives.sites (.here sound ⟨⟨_, stands⟩, forks.held, fun edge he =>
      forks.carried edge ?_,
      ?_, ?_⟩) (.of_calls only)
    all_goals cases x <;> simp_all [Branches.alone]
  · rw [← bind_assoc]
    refine (second_arrives ready.begins sound leads.toLater stands forks
      (fun edge (he : edge ∈ left.side x) => by cases x <;> simp_all) hr).last
      fun right R sound' _ ⟨stands', forks', carried⟩ => ?_
    refine .here sound' ⟨⟨_, stands'⟩, stands'.held, fun edge he => ?_, ?_, fun truth known => ?_⟩
    · have sides : edge ∈ left.onTrue ++ left.onFalse ∨ edge ∈ right.onTrue ++ right.onFalse := by
        cases x <;> grind [Branches.joined]
      exact sides.elim (carried edge) (forks'.carried edge)
    · have taken := forks'.taken
      cases x <;> simp [Branches.joined] <;> grind
    · rw [Branches.joined_constant] at known
      split at known
      · have way := forks'.known truth known
        cases x <;> cases truth <;> simp_all [Branches.joined]
      · cases known

end Connectives

section Materialize
variable {b : Branches} {r : Register}

theorem emit_move (h : P.Sound S) (value : Bool) (usable : P.state.Usable r) :
    Arrives S P [] (fun _ Q => P.Stands (r :: P.held) P.live Q)
      (emit (.move r (Imm.bool value)) env P.state) := by
  refine emit_straight h rfl (holds_one (Keeps.imm _).holds) fun r' hr' => ?_
  cases hr'
  exact usable

/-- The register is written where the condition holds. If there is another way, the register is in
use only behind the jump that is handed out. -/
theorem trueSide_arrives (h : P.Sound S) (usable : P.state.Usable r)
    (carried : ∀ x ∈ b.onTrue, P.Carries x P.held P.live) (taken : b.onTrue ≠ [] ∨ b.onFalse ≠ []) :
    Arrives S P [] (fun done Q =>
        P.Stands (if b.onFalse = [] then r :: P.held else P.held) P.live Q ∧
          ∀ x ∈ done, Q.Carries x (r :: P.held) P.live)
      (trueSide b r env P.state) := by
  unfold trueSide
  cases hb : b.onTrue with
  | nil =>
    have other : b.onFalse ≠ [] := taken.resolve_left fun ne => ne hb
    exact Arrives.here h ⟨⟨by simp [other], rfl, rfl⟩, by simp⟩
  | cons x xs =>
    rw [hb] at carried
    have written : Arrives S P [] (fun _ Q => P.Stands (r :: P.held) P.live Q)
        ((resolveHere (x :: xs) >>= fun _ => emit (.move r (Imm.bool true))) env P.state) := by
      refine (resolveHere_arrives h carried).next fun _ Q sound leads stands => ?_
      refine (emit_move sound true (leads.widens.usable usable)).mono fun _ R _ _ stands' => ?_
      rw [stands.held, stands.live] at stands'
      exact stands.trans stands'
    dsimp only
    rw [← bind_assoc]
    cases hf : b.onFalse with
    | nil =>
      exact written.next fun _ Q sound _ stands => .here sound ⟨by simpa using stands, by simp⟩
    | cons y ys =>
      have jumps : Arrives S P [] (fun done Q => P.Stands (r :: P.held) P.live Q ∧
          ∀ x ∈ done, Q.Carries x (r :: P.held) P.live)
          (((resolveHere (x :: xs) >>= fun _ => emit (.move r (Imm.bool true))) >>= fun _ =>
            Draft.pendingJump) env P.state) := by
        refine written.next fun _ Q sound _ stands => ?_
        refine (pendingJump_arrives sound sound.live).mono
          fun done R _ _ ⟨stands', _, _, carried⟩ => ?_
        rw [stands.held, stands.live] at stands' carried
        exact ⟨stands.trans stands', carried⟩
      exact jumps.reset fun done Q _ ⟨stands, carried⟩ =>
        ⟨⟨by simp [Scene.keep], stands.live, stands.cleanups⟩, carried⟩

theorem falseSide_arrives (h : P.Sound S)
    (hheld : P.held = if b.onFalse = [] then r :: held else held)
    (usable : P.state.Usable r)
    (carried : ∀ x ∈ b.onFalse, P.Carries x held P.live) :
    Arrives S P [] (fun _ Q => P.Stands (r :: held) P.live Q) (falseSide b r env P.state) := by
  unfold falseSide
  cases hf : b.onFalse with
  | nil => exact Arrives.here h ⟨by simpa [hf] using hheld, rfl, rfl⟩
  | cons x xs =>
    rw [hf] at carried hheld
    simp only [reduceCtorEq, if_false] at hheld
    rw [← hheld] at carried ⊢
    refine (resolveHere_arrives h carried).next fun _ Q sound leads stands => ?_
    refine (emit_move sound false (leads.widens.usable usable)).mono fun _ R _ _ stands' => ?_
    rw [stands.held, stands.live] at stands'
    exact stands.trans stands'

theorem materialize_draws (h : Draws S env P [] a (fun b Q => P.Forks b Q) jump) :
    Draws S env P [] a (fun o Q => ∀ x ∈ o, Q.Holds S x) (materialize jump) := by
  unfold materialize
  refine h.last fun b Q ready _ _ forks => .still ready ?_
  have carried := forks.carried
  rw [← forks.held, forall_mem_append] at carried
  refine (newRegister_arrives ready.sound .bool).next fun r R sound leads ⟨stands, fresh⟩ => ?_
  have before : ∀ x ∈ b.onTrue, R.Carries x R.held R.live := fun x hx => by
    rw [stands.held, stands.live]
    exact (carried.1 x hx).mono leads.toLater
  refine (trueSide_arrives sound fresh.2 before forks.taken).next
    fun done R1 sound1 leads1 ⟨stands1, carried1⟩ => ?_
  rw [stands.held, stands.live] at stands1 carried1
  have both := stands.trans stands1
  refine (falseSide_arrives sound1 both.held (leads1.widens.usable fresh.2) fun x hx => ?_).next
    fun _ R2 sound2 leads2 stands2 => ?_
  · rw [both.live]
    exact (carried.2 x hx).mono (leads.toLater.trans leads1.toLater)
  rw [both.live] at stands2
  refine (resolveHere_arrives sound2 fun x hx => ?_).next fun _ R3 sound3 leads3 stands3 => ?_
  · rw [stands2.held, stands2.live]
    exact (carried1 x hx).mono leads2.toLater
  have all := (both.trans stands2).same stands3
  refine .here sound3 ⟨⟨_, all⟩, fun x hx r' same => ?_⟩
  cases Option.mem_some.1 hx
  cases same
  refine ⟨.inr ?_, (leads1.trans (leads2.trans leads3)).widens.usable fresh.2⟩
  rw [all.held]
  exact mem_cons_self

end Materialize

end Full

namespace Fine
variable {S : Setting} {a : List Site} {value : LowerM (Option Operand)}
open Scene

theorem ofPlace {address : LowerM Operand} (e : Expr)
    (h : ∀ env P, Ready S env [] P →
      Draws S env P [] e.sites (fun o Q => ∀ x ∈ o, Q.Holds S x) value)
    (k : ∀ env P, Ready S env [] P →
      Draws S env P [] e.sites (fun x Q => Q.Holds S x) address) :
    Fine S e.sites (.ofPlace e value address) :=
  ⟨h, fun env P ready => jumpOn_draws e ready (h env P ready), k⟩

theorem ofValue (e : Expr) (h : ∀ env P, Ready S env [] P →
      Draws S env P [] e.sites (fun o Q => ∀ x ∈ o, Q.Holds S x) value) :
    Fine S e.sites (.ofValue e value) :=
  ofPlace e h fun env P ready => addressIn_draws e (h env P ready)

theorem ofAddress {address : LowerM Operand} (e : Expr)
    (h : ∀ env P, Ready S env [] P →
      Draws S env P [] e.sites (fun x Q => Q.Holds S x) address) :
    Fine S e.sites (.ofAddress e address) :=
  ofPlace e (fun env P ready => (h env P ready).last fun _ _ ready' _ _ holds =>
    some_draws (.value (loadValue_derives _ e.ty) ready' (holds_one holds))) h

theorem ofJump (e : Expr)
    (h : ∀ env P, Ready S env [] P → Draws S env P [] a (fun b Q => P.Forks b Q) jump) :
    Fine S a (.ofJump e jump) :=
  ⟨fun env P ready => materialize_draws (h env P ready), h, fun env P ready =>
    addressIn_draws e (materialize_draws (h env P ready))⟩

theorem call {f : FunctionId} {isVirtual : Bool} {arguments : List Plan}
    (known : .call (.call f isVirtual) ∈ S.sites) (args : AllFine S a arguments) (ty : TypeId)
    (env : Env) (P : Scene) (ready : Ready S env [] P) :
    Draws S env P [] (a ++ [.call (.call f isVirtual)]) (fun v Q => ∀ x ∈ v, Q.Holds S x)
      (call f none arguments isVirtual ty) := by
  have none : own S (.call f isVirtual) none = [] := by simp [own, CallSite.owed?]
  rw [← none]
  exact (call_draws known args ready rfl (by simp) ty).mono fun _ _ _ _ called => called.1

theorem ofUnary {ty : TypeId} {f : FunctionId} {operand : Expr} {p : Plan}
    (known : .call (.call f false) ∈ S.sites) (h : Fine S operand.sites p) :
    Fine S (Expr.unary ty f operand).sites (.ofUnary (.unary ty f operand) f p) := by
  have args : AllFine S operand.sites [p] := by simpa using AllFine.cons h .nil
  have value := Fine.call known args ty
  refine ⟨value, fun env P ready => .asked fun symbol _ => ?_, fun env P ready =>
    addressIn_draws _ (value env P ready)⟩
  split
  · refine ((h.jump env P ready).last fun b Q ready' _ _ forks => .pure ready' ?_).sites
      (.append_calls _ (by simp [Site.isCall]))
    refine ⟨forks.held, fun x hx => forks.carried x ?_, forks.taken.symm, fun truth known => ?_⟩
    · simp only [Branches.swap, mem_append] at hx ⊢
      exact hx.symm
    · simp only [Branches.swap, Option.map_eq_some_iff] at known
      obtain ⟨opposite, known, rfl⟩ := known
      have way := forks.known opposite known
      cases opposite <;> exact way
  · exact jumpOn_draws _ ready (value env P ready)

end Fine

theorem addressOfField_draws {S : Setting} {env : Env} {P : Scene} {a : List Site} {p : Plan}
    (h : Draws S env P [] a (fun o Q => ∀ x ∈ o, Q.Holds S x) p.value) (field : UInt32) :
    Draws S env P [] a (fun x Q => Q.Holds S x) (addressOfField p field) :=
  (requireValue_draws p.kind h).last fun x _ ready _ _ holds =>
    .value (fieldOf_derives p.ty field x) ready (holds_one holds)

section Plans
variable {S : Setting}
open Scene

mutual
theorem plan_fine : ∀ (e : Expr), e.sites ⊆ S.sites → Fine S e.sites (plan e)
  | .literal ty value, _ =>
    .ofValue _ fun _ _ ready => .asked fun _ _ => .pure ready fun x hx => by
      cases Option.mem_some.1 hx
      exact (Keeps.imm _).holds
  | .localVariable ty v, _ | .parameter ty v, _ =>
    .ofPlace _ (fun _ _ ready => .result (valueOfVariable_derives v) ready (by simp))
      fun _ _ ready => .value (.address v) ready (by simp)
  | .memberVariable ty operand field, known =>
    .ofAddress _ fun env P ready =>
      addressOfField_draws ((plan_fine operand known).value env P ready) field
  | .addressOf ty operand, known =>
    .ofValue _ fun env P ready => some_draws ((plan_fine operand known).address env P ready)
  | .dereference ty operand, known =>
    .ofAddress _ fun env P ready =>
      requireValue_draws _ ((plan_fine operand known).value env P ready)
  | .conversion ty f operand, known => by
    have args : AllFine S operand.sites [plan operand] := by
      simpa using AllFine.cons (plan_fine operand fun x hx => known (by simp [Expr.sites, hx])) .nil
    exact .ofValue _ (Fine.call (known (by simp [Expr.sites])) args ty)
  | .unary ty f operand, known =>
    .ofUnary (known (by simp [Expr.sites]))
      (plan_fine operand fun x hx => known (by simp [Expr.sites, hx]))
  | .binary ty f lhs rhs, known => by
    have args : AllFine S (lhs.sites ++ rhs.sites) [plan lhs, plan rhs] := by
      simpa using AllFine.cons (plan_fine lhs fun x hx => known (by simp [Expr.sites, hx]))
        (.cons (plan_fine rhs fun x hx => known (by simp [Expr.sites, hx])) .nil)
    exact .ofValue _ (Fine.call (known (by simp [Expr.sites])) args ty)
  | .call ty f arguments isVirtual, known =>
    .ofValue _ (Fine.call (known (by simp [Expr.sites]))
      (plans_fine arguments fun x hx => known (by simp [Expr.sites, hx])) ty)
  | .conjunction ty lhs rhs, known =>
    .ofJump _ fun env _ ready => connective_draws true rhs.isCall_of_sites ready
      ((plan_fine lhs fun x hx => known (by simp [Expr.sites, hx])).jump env)
      ((plan_fine rhs fun x hx => known (by simp [Expr.sites, hx])).jump env)
  | .disjunction ty lhs rhs, known =>
    .ofJump _ fun env _ ready => connective_draws false rhs.isCall_of_sites ready
      ((plan_fine lhs fun x hx => known (by simp [Expr.sites, hx])).jump env)
      ((plan_fine rhs fun x hx => known (by simp [Expr.sites, hx])).jump env)
  | .temporary ty v ctor arguments destroy, known =>
    .ofAddress _ fun _ _ ready => addressOfTemporary_draws (known (by simp [Expr.sites]))
      (plans_fine arguments fun x hx => known (by simp [Expr.sites, hx])) ready
theorem plans_fine : ∀ (es : List Expr), Expr.sitesOfAll es ⊆ S.sites →
    AllFine S (Expr.sitesOfAll es) (plans es)
  | [], _ => .nil
  | e :: es, known =>
    .cons (plan_fine e fun x hx => known (by simp [Expr.sitesOfAll, hx]))
      (plans_fine es fun x hx => known (by simp [Expr.sitesOfAll, hx]))
end

end Plans

section Values
variable {S : Setting} {env : Env} {P : Scene} {a : List Site}
open Scene

/-- The temporaries of a full expression are destroyed at its end; what it has built for others
stays alive. Registers in use before and behind it can still be read. -/
theorem withTemporaries_builds {m : LowerM α} {own : List Operand} (begins : Begins S env P)
    (h : ∀ Q, P.Leads S [] Q → Ready S env [] Q → Draws S env Q own a post m)
    (latest : ∀ v Q, post v Q → ∀ x ∈ own, ∃ var ctor, Q.Latest (.construction var ctor) x) :
    Arrives S P a (fun v R => R.live = own ++ P.live ∧ R.state.cleanups = P.state.cleanups ∧
        ∃ Q, Q.Leads S [] R ∧ post v Q ∧
          ∀ x ∈ S.alive P.state.cleanups, x ∈ S.alive Q.state.cleanups)
      (withTemporaries m env P.state) := by
  refine (openScope_arrives begins.sound).next fun _ O sound leads ⟨held, live, hc⟩ => ?_
  have ready := begins.opened sound leads.toLater live hc
  refine Arrives.last (h O leads ready) fun v Q sound' _ ⟨ready', ⟨added, hc', temp⟩, hv⟩ => ?_
  rw [hc] at hc'
  refine (closeScope_arrives sound' ready'.suits own hc' ready'.live
    (.inr ⟨temp, latest v Q hv⟩)).next
    fun _ R sound'' leads'' ⟨held'', live'', hc''⟩ => ?_
  refine .here sound'' ⟨by rw [live'', begins.level], hc'', Q, leads'', hv, fun x hx => ?_⟩
  rw [hc', S.alive_grow _ (by simp), S.alive_openScope]
  exact mem_append_right _ hx

theorem withTemporaries_arrives {m : LowerM α} (begins : Begins S env P)
    (h : ∀ Q, P.Leads S [] Q → Ready S env [] Q → Draws S env Q [] a post m) :
    Arrives S P a (fun v R => R.live = P.live ∧ R.state.cleanups = P.state.cleanups ∧
        ∃ Q, Q.Leads S [] R ∧ post v Q) (withTemporaries m env P.state) :=
  (withTemporaries_builds begins h fun _ _ _ _ hx => nomatch hx).mono
    fun _ _ _ _ ⟨live, hc, Q, leads, hv, _⟩ => ⟨live, hc, Q, leads, hv⟩

variable {e : Expr} (known : e.sites ⊆ S.sites) (begins : Begins S env P)
include known begins

theorem fullValue_arrives :
    Arrives S P e.sites (fun _ Q => P.Stands P.held P.live Q) (fullValue e env P.state) :=
  (withTemporaries_arrives begins fun Q _ ready => (plan_fine e known).value env Q ready).reset
    fun _ _ _ ⟨live, hc, _⟩ => ⟨rfl, live, hc⟩

theorem fullOperand_arrives :
    Arrives S P e.sites (fun x Q => (∃ held, P.Stands held P.live Q) ∧ Q.Holds S x)
      (fullOperand e env P.state) :=
  (withTemporaries_arrives begins fun Q _ ready =>
    requireValue_draws _ ((plan_fine e known).value env Q ready)).mono
    fun _ _ _ _ ⟨live, hc, _, leads, holds⟩ => ⟨⟨_, rfl, live, hc⟩, holds.mono leads⟩

theorem condition_arrives :
    Arrives S P e.sites (fun b Q => P.Stands P.held P.live Q ∧ P.Forks b Q)
      (condition e env P.state) :=
  fullJump_arrives begins fun Q ready => (plan_fine e known).jump env Q ready

end Values
end FlatCode.Marks
