import FlatCode.Proofs.Control.Flow

/-! Statements that only call and branch. The code of such a statement behaves as the statement
means, at whatever point of a function it was written. -/
namespace FlatCode
open Code Symbols Ast Lower
variable {s t : State} {e : Expr} {n : Nat} {env : Env}

def Setting.Simulates (w : Setting) (n : Nat) (code : LowerM Exits) (meaning : History → Outcome) :
    Prop :=
  ∀ ⦃env s⦄, env.symbols = w.symbols → s.cleanups.Clear → Ends (fun _ => True) (fun x t =>
    s.Quiet t ∧ (w.Holds t.draft → s.draft.endsInTerminator = false → ∀ m,
      w.Behind s.draft m → w.Behaves n env (w.outs x t.draft) m (meaning m.history)))
    (code env s)

theorem Lower.State.Quiet.clear (h : s.Quiet t) (clear : s.cleanups.Clear) : t.cleanups.Clear := by
  rw [h.cleanups]
  exact clear

section Jumps
variable {env : Env} {s : State} {m : Machine}

theorem Lower.settle_joined (x : Exits) :
    Ensures (fun x' t => s.Quiet t ∧ s.draft.Joined x.next t.draft ∧
      { x with next := [] } = x') (settle x env s) :=
  (resolveHere_joined x.next).seq fun _ _ ⟨quiet, joined⟩ => .ret ⟨quiet, joined, rfl⟩

theorem Lower.hereLabel_marked :
    Ensures (fun l t => s.Quiet t ∧ s.draft.Marked l t.draft)
      ((liftM Draft.hereLabel : LowerM Label) env s) :=
  edit_quiet ((Draft.hereLabel_marked s.draft).mono fun _ _ h => ⟨h.later, h⟩)

theorem Lower.resolveTo_set (pending : Pending) (l : Label) :
    Ensures (fun _ t => s.Quiet t ∧ s.draft.Set pending l t.draft)
      ((liftM (Draft.resolveTo pending l) : LowerM Unit) env s) :=
  edit_quiet ((Draft.resolveTo_set pending l s.draft).mono fun _ _ h => ⟨h.later, h⟩)

variable (w : Setting)

theorem Lower.jumpOver_taken :
    Ensures (fun past t => s.Quiet t ∧ (w.Holds t.draft →
      s.draft.endsInTerminator = false → ∀ m, w.Behind s.draft m → w.Taken past m))
      (jumpOver env s) := by
  refine .known (a := s.draft.endsInTerminator) (t := s) rfl ?_
  split
  · rename_i ends
    exact ⟨.refl s, fun _ goes => absurd ends (by simp [goes])⟩
  · refine (pendingJump_poised w).mono fun past t ⟨quiet, b, hb, poised⟩ => ⟨quiet, ?_⟩
    exact fun holds _ m hm => ⟨b, by simp [hb], poised holds m hm⟩

theorem Lower.jumpTo_next (l : Label) :
    Ensures (fun _ t => s.Quiet t ∧ (w.Holds t.draft → ∀ m, w.Behind s.draft m →
      w.code.instrs[m.place]? = some (.jump (some l)))) (jumpTo l env s) := by
  refine (emit_pushed _).mono fun _ t ⟨quiet, pushed⟩ => ⟨quiet, fun holds m hm => ?_⟩
  obtain ⟨_, found, target, rfl, ht⟩ := holds.pushed pushed
  rw [hm, found, ht l rfl]

theorem Lower.goBack_next (l : Label) :
    Ensures (fun _ t => s.Quiet t ∧ (w.Holds t.draft →
      s.draft.endsInTerminator = false → ∀ m, w.Behind s.draft m →
        w.code.instrs[m.place]? = some (.jump (some l)))) (goBack l env s) := by
  refine .known (a := s.draft.endsInTerminator) (t := s) rfl ?_
  split
  · rename_i ends
    exact ⟨.refl s, fun _ goes => absurd ends (by simp [goes])⟩
  · exact (jumpTo_next w l).mono fun _ t ⟨quiet, jump⟩ => ⟨quiet, fun holds _ => jump holds⟩

variable {w}

theorem Setting.step_jump {l : Label} {p : Nat}
    (h : w.code.instrs[m.place]? = some (.jump (some l)))
    (hl : w.code.labels[l.index]? = some ⟨p⟩) :
    w.step m = some (m.goto p) := by
  unfold Setting.step Function.step
  rw [h]
  simp [Function.follow, hl]

theorem Setting.Decides.forks {b : Branches}
    (takes : Takes w (e.holds w.symbols w.oracle) b s t)
    (holds : w.Holds t.draft) (hm : w.Behind s.draft m) :
    w.Behaves n env ⟨w.Taken b.onTrue, w.Taken b.onFalse, fun _ => False⟩ m
      (e.test w.symbols w.oracle m.history) := by
  obtain ⟨m', reaches, history, taken⟩ := takes holds m hm
  dsimp only [Expr.test]
  cases hv : (e.holds w.symbols w.oracle m.history).1 <;> rw [hv] at taken <;>
    exact ⟨m', reaches, history, taken⟩

theorem Setting.Taken.step {pending : Pending} {l : Label} {k : Nat} {d d' : Draft}
    (taken : w.Taken pending m) (set : d.Set pending l d') (holds : w.Holds d')
    (place : w.code.labels[l.index]? = some ⟨k⟩) : w.step m = some (m.goto k) := by
  obtain ⟨edge, hedge, poised⟩ := taken
  exact poised k (holds.leads (set.targets edge hedge) place)

theorem Setting.Decides.tests {b : Branches} {u : State}
    (takes : Takes w (e.holds w.symbols w.oracle) b s t)
    (joined : t.draft.Joined b.onTrue u.draft) (holds : w.Holds u.draft) (hm : w.Behind s.draft m) :
    w.Behaves n env ⟨fun m' => w.Behind u.draft m' ∧ u.draft.endsInTerminator = false,
      w.Taken b.onFalse, fun _ => False⟩ m (e.test w.symbols w.oracle m.history) := by
  refine (forks takes (holds.earlier joined.later) hm).onward (fun m' taken => ?_)
    (fun _ h => h) fun _ h => h
  obtain ⟨there, goes⟩ := (Comes.jumps taken).joined joined holds
  exact ⟨_, there, rfl, w.behind_moved _ _, goes⟩

end Jumps

namespace Setting.Simulates
variable {w : Setting} {n : Nat} {f : History → Outcome} {body : LowerM Exits}

theorem none : w.Simulates n (pure .none) fun h => (h, some .next) :=
  fun _ s _ _ => .ret ⟨.refl s, fun _ goes m hm => ⟨m, .refl m, rfl, .falls hm goes⟩⟩

theorem seq {first rest : LowerM Exits} {g : History → Outcome} (hf : w.Simulates n first f)
    (hg : w.Simulates n rest g) :
    w.Simulates n (do
      let before ← settle (← first)
      return before ++ (← rest)) fun h => (f h).andThen g := by
  intro env s henv clear
  refine (hf henv clear).seq fun x t ⟨quiet, behaves⟩ => ?_
  refine (settle_joined x).seq ?_
  rintro _ u ⟨quiet', joined, rfl⟩
  refine (hg henv (quiet'.clear (quiet.clear clear))).seq fun y v ⟨quiet'', behaves'⟩ => .ret ?_
  refine ⟨(quiet.trans quiet').trans quiet'', fun holds goes m hm => ?_⟩
  have holds' := holds.earlier quiet''.later
  refine (behaves (holds'.earlier quiet'.later) goes m hm).andThen (fun m' comes => ?_) ?_ ?_
  · obtain ⟨there, goes'⟩ := comes.joined joined holds'
    exact ((behaves' holds goes' _ (w.behind_moved _ _)).widen outs_right).after there
  · exact fun _ taken => taken.mono (List.subset_append_left _ _)
  · exact fun _ taken => taken.mono (List.subset_append_left _ _)

theorem compound {code : LowerM Exits} (h : w.Simulates n code f) :
    w.Simulates n (inCompound code) f := by
  intro env s henv clear
  let scope : ActiveScope := ⟨⟨s.compounds⟩, s.cleanups.depth⟩
  let inner : State := { s with compounds := s.compounds + 1, cleanups := s.cleanups.openScope }
  refine .look (Ends.known (t := inner) rfl ?_)
  refine .seq (P := fun x t => inner.Quiet t ∧ (w.Holds t.draft →
      inner.draft.endsInTerminator = false → ∀ m, w.Behind inner.draft m →
      w.Behaves n { env with scopes := env.scopes ++ [scope] } (w.outs x t.draft) m
        (f m.history)))
    (Ends.inside (h henv clear.openScope)) fun x t ⟨quiet, behaves⟩ => ?_
  have quiet' : s.inScope.Quiet t := ⟨quiet.later, quiet.cleanups⟩
  refine (closeScope_quiet quiet').seq fun _ u ⟨hu, hd⟩ => .ret ⟨hu, ?_⟩
  rw [hd]
  exact fun holds goes m hm => (behaves holds goes m hm).surroundings rfl rfl rfl

theorem commented (name : String) {code : LowerM Exits} (h : w.Simulates n code f) :
    w.Simulates n (do comment name; code) f := by
  intro env s henv clear
  refine .seq (P := fun _ t => s.Quiet t ∧ (w.Holds t.draft →
    s.draft.endsInTerminator = false → ∀ m, w.Behind s.draft m → ∃ m', w.Reaches m m' ∧
      m'.history = m.history ∧ w.Behind t.draft m' ∧ t.draft.endsInTerminator = false)) ?_ ?_
  · refine .ask ?_
    split
    · refine (emit_pushed _).mono fun _ t ⟨quiet, pushed⟩ => ⟨quiet, fun holds goes m hm => ?_⟩
      obtain ⟨_, found, rfl⟩ := holds.pushed pushed
      refine ⟨m.advance, .of_step (Function.step_idle (by rw [hm]; exact found) rfl), rfl, ?_, ?_⟩
      · change m.place + 1 = _
        rw [hm, pushed, Array.size_push, Nat.add_assoc]
      · rw [Draft.endsInTerminator_pushed pushed]
        exact goes
    · exact ⟨.refl s, fun _ goes m hm => ⟨m, .refl m, rfl, hm, goes⟩⟩
  · intro _ t ⟨quiet, passes⟩
    refine (h henv (quiet.clear clear)).mono fun x u ⟨quiet', behaves⟩ => ⟨quiet.trans quiet', ?_⟩
    intro holds goes m hm
    obtain ⟨m', reaches, history, behind, goes'⟩ := passes (holds.earlier quiet'.later) goes m hm
    rw [← history]
    exact (behaves holds goes' m' behind).after reaches

theorem expression (he : e.isCall w.symbols) :
    w.Simulates n (straight (discard (fullValue e)))
      fun h => (e.perform w.symbols h, some .next) := by
  intro env s henv clear
  refine .seq (P := fun _ t => w.Performed e s t)
    (Ends.discarded (fullValue_performed w he henv)) fun _ t done => ?_
  refine .ret ⟨done.quiet, fun holds _ m hm => ?_⟩
  obtain ⟨m', first, behind, history⟩ := done.performs holds m hm
  exact ⟨m', .of_step first, history, .falls behind done.goes⟩

theorem ifThen (he : e.isCondition w.symbols) {then_ : LowerM Exits} (h : w.Simulates n then_ f) :
    w.Simulates n (lowerIf e then_) fun h =>
      if (e.holds w.symbols w.oracle h).1 then f (e.holds w.symbols w.oracle h).2
      else ((e.holds w.symbols w.oracle h).2, some .next) := by
  intro env s henv clear
  refine (condition_decides he henv).seq fun b s1 ⟨q1, _, takes⟩ => ?_
  refine (resolveHere_joined b.onTrue).seq fun _ s2 ⟨q2, joined⟩ => ?_
  refine (h henv (q2.clear (q1.clear clear))).seq fun x s3 ⟨q3, behaves⟩ => .ret ?_
  refine ⟨(q1.trans q2).trans q3, fun holds goes m hm => ?_⟩
  have holds2 := holds.earlier q3.later
  dsimp only
  cases hv : (e.holds w.symbols w.oracle m.history).1 with
  | true =>
    obtain ⟨m', reaches, history, behind, goes'⟩ :=
      Decides.joins (x := true) takes joined holds2 hm hv
    rw [if_pos rfl, ← history]
    exact ((behaves holds goes' m' behind).widen outs_left).after reaches
  | false =>
    obtain ⟨m', reaches, history, taken⟩ := takes (holds2.earlier q2.later) m hm
    rw [hv] at taken
    exact ⟨m', reaches, history, .jumps (taken.mono (List.subset_append_right _ _))⟩

theorem ifThenElse (he : e.isCondition w.symbols) {then_ else_ : LowerM Exits}
    {g : History → Outcome} (hf : w.Simulates n then_ f) (hg : w.Simulates n else_ g) :
    w.Simulates n (lowerIfElse e then_ else_) fun h =>
      if (e.holds w.symbols w.oracle h).1 then f (e.holds w.symbols w.oracle h).2
      else g (e.holds w.symbols w.oracle h).2 := by
  intro env s henv clear
  refine (condition_decides he henv).seq fun b s1 ⟨q1, _, takes⟩ => ?_
  refine (resolveHere_joined b.onTrue).seq fun _ s2 ⟨q2, joined⟩ => ?_
  refine (hf henv (q2.clear (q1.clear clear))).seq fun left s3 ⟨q3, behaves⟩ => ?_
  refine (jumpOver_taken w).seq fun past s4 ⟨q4, jumps⟩ => ?_
  refine (resolveHere_joined b.onFalse).seq fun _ s5 ⟨q5, joined'⟩ => ?_
  have quiet := (((q1.trans q2).trans q3).trans q4).trans q5
  refine (hg henv (quiet.clear clear)).seq fun right s6 ⟨q6, behaves'⟩ => .ret ?_
  refine ⟨quiet.trans q6, fun holds goes m hm => ?_⟩
  have holds5 := holds.earlier q6.later
  have holds4 := holds5.earlier q5.later
  have holds3 := holds4.earlier q4.later
  have holds2 := holds3.earlier q3.later
  dsimp only
  cases hv : (e.holds w.symbols w.oracle m.history).1 with
  | true =>
    obtain ⟨m', reaches, history, behind, goes'⟩ :=
      Decides.joins (x := true) takes joined holds2 hm hv
    rw [if_pos rfl, ← history]
    have left_sub {a b c : Pending} : a ⊆ a ++ b ++ c :=
      List.subset_append_of_subset_left _ (List.subset_append_left _ _)
    refine ((behaves holds3 goes' m' behind).widen ⟨fun m'' comes => ?_, fun _ taken =>
      taken.mono left_sub, fun _ taken => taken.mono left_sub⟩).after reaches
    -- the end of the first part jumps over the second
    cases comes with
    | falls hm goes =>
      exact .jumps ((jumps holds4 goes m'' hm).mono fun _ h =>
        List.mem_append_left _ (List.mem_append_right _ h))
    | jumps taken => exact .jumps (taken.mono left_sub)
  | false =>
    obtain ⟨m', reaches, history, taken⟩ := takes (holds2.earlier q2.later) m hm
    rw [hv] at taken
    have comes : w.Comes s4.draft b.onFalse m' := .jumps taken
    obtain ⟨there, goes'⟩ := comes.joined joined' holds5
    rw [if_neg Bool.false_ne_true, ← history]
    exact ((behaves' holds goes' _ (w.behind_moved _ _)).widen outs_right).after
      (reaches.trans there)

theorem loopBody (h : w.Simulates n body f) : w.Simulates n (inLoop body) f := by
  intro env s henv clear
  refine .look (Ends.inside ?_)
  refine Ends.mono (h ?_ clear) fun x t ⟨quiet, behaves⟩ => ⟨quiet, fun holds goes m hm => ?_⟩
  · exact henv
  · exact (behaves holds goes m hm).surroundings rfl rfl rfl

theorem whileLoop (he : e.isCondition w.symbols) (hf : w.Simulates n body f) :
    w.Simulates n (lowerWhile e body)
      (Outcome.loop
        (fun h => (e.test w.symbols w.oracle h).andThen fun h => (f h).endRound) n) := by
  intro env s henv clear
  unfold lowerWhile
  refine hereLabel_marked.seq fun head s1 ⟨q1, marked⟩ => ?_
  refine (condition_decides he henv).seq fun b s2 ⟨q2, _, takes⟩ => ?_
  refine (resolveHere_joined b.onTrue).seq fun _ s3 ⟨q3, joined⟩ => ?_
  have quiet := (q1.trans q2).trans q3
  refine (hf.loopBody henv (quiet.clear clear)).seq fun x s4 ⟨q4, behaves⟩ => ?_
  refine (resolveTo_set (x.next ++ x.continues) head).seq fun _ s5 ⟨q5, set⟩ => ?_
  refine (goBack_next w head).seq fun _ s6 ⟨q6, jump⟩ => .ret ?_
  refine ⟨((quiet.trans q4).trans q5).trans q6, fun holds goes m hm => ?_⟩
  have holds5 := holds.earlier q6.later
  have holds4 := holds5.earlier q5.later
  have holds3 := holds4.earlier q4.later
  have holds1 := (holds3.earlier q3.later).earlier q2.later
  have start (m : Machine) (hm : w.Behind s1.draft m) : w.Behaves n env
      ⟨w.Comes s4.draft (x.next ++ x.continues), w.Taken (b.onFalse ++ x.breaks), fun _ => False⟩ m
      ((e.test w.symbols w.oracle m.history).andThen fun h => (f h).endRound) := by
    refine (Decides.tests takes joined holds3 hm).andThen (fun m' ⟨behind, goes⟩ => ?_)
      (fun _ taken => taken.mono (List.subset_append_left _ _)) fun _ h => h
    exact (behaves holds4 goes m' behind).endRound.widen
      ⟨fun _ h => h, fun _ taken => taken.mono (List.subset_append_right _ _), fun _ h => h⟩
  refine loop_marked marked holds1 start (fun k place m' comes => ?_)
    (fun m' taken => ⟨m', .refl m', rfl, .jumps taken⟩) hm
  -- every way to the end of a round is a jump to the head
  cases comes with
  | falls behind goes =>
    have behind' : w.Behind s5.draft m' := by rw [Behind, set.size]; exact behind
    rw [← set.later.endsInTerminator_eq set.size] at goes
    exact step_jump (jump holds goes m' behind') place
  | jumps taken => exact taken.step set holds5 place

theorem doWhile (he : e.isCondition w.symbols) (hf : w.Simulates n body f) :
    w.Simulates n (lowerDoWhile body e)
      (Outcome.loop (fun h => (f h).endRound.andThen (e.test w.symbols w.oracle)) n) := by
  intro env s henv clear
  refine hereLabel_marked.seq fun top s1 ⟨q1, marked⟩ => ?_
  refine (hf.loopBody henv (q1.clear clear)).seq fun x s2 ⟨q2, behaves⟩ => ?_
  refine (resolveHere_joined (x.next ++ x.continues)).seq fun _ s3 ⟨q3, joined⟩ => ?_
  refine (condition_decides he henv).seq fun b s4 ⟨q4, _, takes⟩ => ?_
  refine (resolveTo_set b.onTrue top).seq fun _ s5 ⟨q5, set⟩ => .ret ?_
  refine ⟨(((q1.trans q2).trans q3).trans q4).trans q5, fun holds goes m hm => ?_⟩
  have holds4 := holds.earlier q5.later
  have holds3 := holds4.earlier q4.later
  have holds2 := holds3.earlier q3.later
  have holds1 := holds2.earlier q2.later
  have start (m : Machine) (hm : w.Behind s1.draft m) : w.Behaves n env
      ⟨w.Taken b.onTrue, w.Taken (b.onFalse ++ x.breaks), fun _ => False⟩ m
      ((f m.history).endRound.andThen (e.test w.symbols w.oracle)) := by
    refine (behaves holds2 marked.goesOn m hm).endRound.andThen (fun m' comes => ?_)
      (fun _ taken => taken.mono (List.subset_append_right _ _)) fun _ h => h
    obtain ⟨there, -⟩ := comes.joined joined holds3
    refine Behaves.after there ((Decides.forks takes holds4 (w.behind_moved _ m')).widen
      ⟨fun _ h => h, fun _ taken => ?_, fun _ h => h⟩)
    exact taken.mono (List.subset_append_left _ _)
  exact loop_marked marked holds1 start (fun k place m' taken => taken.step set holds place)
    (fun m' taken => ⟨m', .refl m', rfl, .jumps taken⟩) hm

theorem loopCondition_tests (n : Nat) {e : Option Expr} (he : e.all (Expr.isCondition w.symbols))
    (henv : env.symbols = w.symbols) :
    Ensures (fun leave t => s.Quiet t ∧ (w.Holds t.draft →
      s.draft.endsInTerminator = false → ∀ m, w.Behind s.draft m →
        w.Behaves n env ⟨fun m' => w.Behind t.draft m' ∧ t.draft.endsInTerminator = false,
          w.Taken leave, fun _ => False⟩ m
          ((e.map (Expr.test w.symbols w.oracle)).getD (fun h => (h, some .next)) m.history)))
      (loopCondition e env s) := by
  cases e with
  | none => exact ⟨.refl s, fun _ goes m hm => ⟨m, .refl m, rfl, hm, goes⟩⟩
  | some e =>
    have he' : e.isCondition w.symbols := by simpa using he
    refine (condition_decides he' henv).seq fun b t ⟨quiet, _, takes⟩ => ?_
    refine (resolveHere_joined b.onTrue).seq fun _ u ⟨quiet', joined⟩ => .ret ?_
    exact ⟨quiet.trans quiet', fun holds _ m hm => Decides.tests takes joined holds hm⟩

theorem lowerIncrement_performs {increment : Option Expr}
    (hi : increment.all (Expr.isCall w.symbols)) (henv : env.symbols = w.symbols) :
    Ensures (fun _ t => s.Quiet t ∧ w.Runs s t fun m m' => w.Behind t.draft m' ∧
        m'.history = (increment.map (Expr.perform w.symbols)).getD id m.history)
      (lowerIncrement increment env s) := by
  cases increment with
  | none => exact ⟨.refl s, fun _ m hm => ⟨m, .refl m, hm, rfl⟩⟩
  | some e =>
    have he : e.isCall w.symbols := by simpa using hi
    refine (fullValue_performed w he henv).seq fun _ t done => .ret ⟨done.quiet, ?_⟩
    intro holds m hm
    obtain ⟨m', first, behind, history⟩ := done.performs holds m hm
    exact ⟨m', .of_step first, behind, history⟩

theorem forLoop {init : LowerM Exits} {e increment : Option Expr} {i : History → Outcome}
    (hi : w.Simulates n init i) (he : e.all (Expr.isCondition w.symbols))
    (hc : increment.all (Expr.isCall w.symbols)) (hf : w.Simulates n body f) :
    w.Simulates n (lowerFor init e increment body) fun h =>
      (i h).andThen (Outcome.loop (forRound w.symbols w.oracle e increment f) n) := by
  intro env s henv clear
  unfold lowerFor withTemporaries
  simp only [bind_assoc]
  refine .known (t := s.inScope) rfl ?_
  have clear0 : s.inScope.cleanups.Clear := clear.openScope
  refine (hi henv clear0).seq fun before s1 ⟨q1, begins⟩ => ?_
  refine (settle_joined before).seq ?_
  rintro _ s2 ⟨q2, settled, rfl⟩
  refine hereLabel_marked.seq fun head s3 ⟨q3, marked⟩ => ?_
  refine (loopCondition_tests n he henv).seq fun leave s4 ⟨q4, tests⟩ => ?_
  have quiet4 := ((q1.trans q2).trans q3).trans q4
  refine (hf.loopBody henv (quiet4.clear clear0)).seq fun x s5 ⟨q5, behaves⟩ => ?_
  refine (resolveHere_joined (x.next ++ x.continues)).seq fun _ s6 ⟨q6, joined⟩ => ?_
  refine (lowerIncrement_performs hc henv).seq fun _ s7 ⟨q7, increments⟩ => ?_
  refine (jumpTo_next w head).seq fun _ s8 ⟨q8, jump⟩ => ?_
  refine (resolveHere_joined (leave ++ x.breaks)).seq fun _ s9 ⟨q9, ended⟩ => ?_
  have quiet := ((((quiet4.trans q5).trans q6).trans q7).trans q8).trans q9
  refine (closeScope_quiet quiet).seq fun _ s10 ⟨hu, hd⟩ => .ret ⟨hu, ?_⟩
  rw [hd]
  intro holds goes m hm
  have holds8 := holds.earlier q9.later
  have holds7 := holds8.earlier q8.later
  have holds6 := holds7.earlier q7.later
  have holds5 := holds6.earlier q6.later
  have holds4 := holds5.earlier q5.later
  have holds3 := holds4.earlier q4.later
  have holds2 := holds3.earlier q3.later
  have start (m : Machine) (hm : w.Behind s3.draft m) : w.Behaves n env
      ⟨w.Behind s7.draft, w.Taken (leave ++ x.breaks), fun _ => False⟩ m
      (forRound w.symbols w.oracle e increment f m.history) := by
    refine (tests holds4 marked.goesOn m hm).andThen (fun m' ⟨behind, goes⟩ => ?_)
      (fun _ taken => taken.mono (List.subset_append_left _ _)) fun _ h => h
    refine (behaves holds5 goes m' behind).endRound.andThen (fun m'' comes => ?_)
      (fun _ taken => taken.mono (List.subset_append_right _ _)) fun _ h => h
    obtain ⟨there, -⟩ := comes.joined joined holds6
    obtain ⟨m3, reaches, behind', history⟩ := increments holds7 _ (w.behind_moved _ m'')
    exact ⟨m3, there.trans reaches, history, behind'⟩
  refine (begins (holds2.earlier q2.later) goes m hm).andThen (fun m' comes => ?_)
    (fun _ h => h) fun _ h => h
  obtain ⟨there, -⟩ := comes.joined settled holds2
  refine (loop_marked marked holds3 start (fun k place m'' behind =>
    step_jump (jump holds8 m'' behind) place) (fun m'' taken => ?_)
      (w.behind_moved _ m')).after there
  obtain ⟨onward, goes'⟩ := (Comes.jumps taken).joined ended holds
  exact ⟨_, onward, rfl, .falls (w.behind_moved _ _) goes'⟩

theorem leave_clear (clear : s.cleanups.Clear) (depth : Nat) :
    Ensures (fun _ t => s = t) (leaveTo depth env s) := by
  refine .look ?_
  rw [clear.pendingFrom]
  exact rfl

theorem jumpOut {depth? : Env → Option Nat} {missing : Error}
    {exits : Pending → Exits} {flow : Flow}
    (leaves : ∀ env d m jump, w.Taken jump m →
      w.Leaves env (w.outs (exits jump) d) m.history m flow) :
    w.Simulates n (Lower.jumpOut depth? missing exits) fun h => (h, some flow) := by
  intro env s _ clear
  refine .ask ?_
  cases depth? env with
  | none => trivial
  | some depth =>
    refine (leave_clear clear depth).seq ?_
    rintro _ _ rfl
    refine (pendingJump_poised w).seq fun jump t ⟨quiet, edge, hjump, poised⟩ => .ret ?_
    exact ⟨quiet, fun holds _ m hm => ⟨m, .refl m, leaves _ _ _ _
      ⟨edge, by simp [hjump], poised holds m hm⟩⟩⟩

theorem breaks : w.Simulates n lowerBreak fun h => (h, some .break_) :=
  jumpOut fun _ _ _ _ taken => ⟨rfl, taken⟩

theorem continues : w.Simulates n lowerContinue fun h => (h, some .continue_) :=
  jumpOut fun _ _ _ _ taken => ⟨rfl, taken⟩

theorem gotoTarget {find : CaseMap → Except Error CaseTarget} {q : CaseMap → Option CaseTarget}
    (hfind : ∀ cases target, find cases = .ok target → q cases = some target)
    {flow : Flow} (hflow : ∀ env out h m, m.history = h → w.JumpsTo env q m →
      w.Leaves env out h m flow) :
    w.Simulates n (straight (lowerGotoCase find)) fun h => (h, some flow) := by
  intro env s _ clear
  refine .seq (P := fun _ t => s.Quiet t ∧ (w.Holds t.draft → ∀ m, w.Behind s.draft m →
    w.JumpsTo env q m)) ?_ ?_
  · refine .ask ?_
    cases hs : env.switch with
    | none => trivial
    | some switch =>
      refine .query fun target found => (leave_clear clear _).seq ?_
      rintro _ _ rfl
      refine (jumpTo_next w target.label).mono fun _ t ⟨quiet, jump⟩ => ⟨quiet, ?_⟩
      exact fun holds m hm => ⟨switch, target, hs, hfind _ _ found, jump holds m hm⟩
  · intro _ t ⟨quiet, jumps⟩
    refine .ret ⟨quiet, fun holds _ m hm => ⟨m, .refl m, ?_⟩⟩
    exact hflow _ _ _ _ rfl (jumps holds m hm)

theorem gotoCase (v : Int64) :
    w.Simulates n (straight (lowerGotoCase fun cases => cases.get (.signed v))) fun h =>
      (h, some (.gotoCase (.signed v))) := by
  refine gotoTarget (q := fun cases => cases.find? (Literal.signed v).key)
    (fun cases target h => ?_) fun _ _ _ _ history jumps => ⟨history, ⟨v, rfl⟩, jumps⟩
  unfold CaseMap.get at h
  split at h
  · cases h
    assumption
  · cases h

theorem gotoDefault :
    w.Simulates n (straight (lowerGotoCase requireDefault)) fun h => (h, some .gotoDefault) := by
  refine gotoTarget (q := CaseMap.default) (fun cases target h => ?_)
    fun _ _ _ _ history jumps => ⟨history, jumps⟩
  unfold requireDefault at h
  split at h
  · cases h
    assumption
  · cases h

end Setting.Simulates

namespace Lower

theorem defaultReturn_silent : Ensures (fun _ t => s = t) (defaultReturn env s) := by
  refine .ask (Ends.ask ?_)
  split
  · exact rfl
  · refine .asked fun isVoid _ => ?_
    split
    · exact rfl
    · refine .asked fun ty _ => ?_
      cases Imm.zero? ty with
      | none => trivial
      | some zero => exact rfl

theorem emitTrace_called (w : Setting) (function : String) :
    Ensures (fun _ t => s.Quiet t ∧
      (s.draft.endsInTerminator = false → t.draft.endsInTerminator = false) ∧
      w.Runs s t fun m m' => w.Behind t.draft m' ∧
        m'.history = m.history ++ traceCall env.options function env.symbol.name)
      (emitTrace function env s) := by
  refine .ask ?_
  by_cases traced : env.options.traceCalls
  · rw [if_pos traced]
    refine .ask ((emit_pushed _).mono fun _ t ⟨quiet, pushed⟩ =>
      ⟨quiet, fun _ => Draft.endsInTerminator_pushed pushed, fun holds m hm => ?_⟩)
    obtain ⟨_, found, rfl⟩ := holds.pushed pushed
    refine ⟨w.code.call w.oracle m ⟨.direct function, [Imm.fn env.symbol.name]⟩ Option.none,
      .of_step ?_, ?_, ?_⟩
    · unfold Function.step
      rw [hm, found]
    · change m.place + 1 = _
      rw [hm, pushed, Array.size_push, Nat.add_assoc]
    · simp [Function.call, traceCall, traced]
  · rw [if_neg traced]
    exact ⟨.refl s, id, fun _ m hm => ⟨m, .refl m, hm, by simp [traceCall, traced]⟩⟩

def Returns (w : Setting) (env : Env) (s t : State) : Prop :=
  w.Runs s t fun m m' =>
    m'.history = m.history ++ traceCall env.options traceLeave env.symbol.name ∧ w.code.AtReturn m'

theorem emitReturn_returns (w : Setting) (value : Option Operand) :
    Ensures (fun _ t => s.Quiet t ∧ Returns w env s t) (emitReturn value env s) := by
  refine (emitTrace_called w traceLeave).seq fun _ t ⟨quiet, _, called⟩ => ?_
  refine (emit_pushed _).mono fun _ u ⟨quiet', pushed⟩ => ⟨quiet.trans quiet', fun holds m hm => ?_⟩
  obtain ⟨m', reaches, behind, history⟩ := called (holds.earlier quiet'.later) m hm
  obtain ⟨_, found, rfl⟩ := holds.pushed pushed
  exact ⟨m', reaches, history, value, by rw [behind]; exact found⟩

end Lower

theorem Setting.Simulates.returns {w : Setting} :
    w.Simulates n (straight (lowerReturn Option.none)) fun h => (h, some .return_) := by
  intro env s _ clear
  refine .seq (P := fun _ t => s.Quiet t ∧ Returns w env s t) ?_
    fun _ t ⟨quiet, returns⟩ => .ret ⟨quiet, fun holds _ m hm => returns holds m hm⟩
  refine defaultReturn_silent.seq ?_
  rintro value _ rfl
  refine (leave_clear clear 0).seq ?_
  rintro _ _ rfl
  exact emitReturn_returns w value

end FlatCode
