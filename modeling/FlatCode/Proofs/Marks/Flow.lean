import FlatCode.Proofs.Control.Switch
import FlatCode.Proofs.Marks.Stmt

/-! Statements with parts. Where a part ends, the jumps that leave it are given their targets or
handed on; each target promises what all of its jumps bring. -/
namespace FlatCode.Marks
open Code Symbols Ast Lower List

def WalksAll (S : Setting) (sites : List Site) (m : LowerM Exits) : Prop :=
  ∀ env P, Stage S env true P →
    Arrives S P sites (fun e Q => Past S env true P e Q ∧ e.next = []) (m env P.state)

section Lists
variable {S : Setting} {env : Env} {P Q : Scene} {inList : Bool} {a b : List Site}
  {m rest : LowerM Exits}
open Scene

theorem settle_arrives {e : Exits} (h : Past S env inList P e Q) (sound : Q.Sound S) :
    Arrives S Q [] (fun e' R => Past S env inList P e' R ∧ e'.next = [])
      (settle e env Q.state) := by
  have carried := h.next
  rw [← h.held] at carried
  refine (resolveHere_arrives sound carried).next fun _ R sound' leads stands => ?_
  rw [h.held] at stands
  have past := h.stands stands leads.toLater
  exact .here sound' ⟨⟨past.toRests, by simp, past.breaks, past.continues⟩, rfl⟩

theorem nil_walks : WalksAll S [] (pure .none) := fun _ P stage =>
  .here stage.sound ⟨.none ⟨stage.held, stage.level, .refl P⟩, rfl⟩

theorem cons_walks (h : Walks S a true m) (k : WalksAll S b rest) :
    WalksAll S (a ++ b) (do
      let first ← settle (← m)
      return first ++ (← rest)) := by
  intro env P stage
  refine (h env P stage).seq fun e Q sound leads past => ?_
  refine (settle_arrives past sound).next fun e' R sound' leads' ⟨past', settled⟩ => ?_
  have stage' := stage.rests sound' (leads.toLater.trans leads'.toLater) past'.toRests
  refine (k env R stage').last fun e'' T sound'' leads'' ⟨past'', settled'⟩ => ?_
  refine .here sound'' ⟨past'.trans stage past'' leads''.toLater (by simp [settled]), ?_⟩
  change e'.next ++ e''.next = []
  rw [settled, settled']
  rfl

end Lists

section Compound
variable {S : Setting} {env : Env} {P : Scene} {inList : Bool} {a : List Site}
  {m : LowerM Exits}
open Scene

theorem Stage.scoped (h : Stage S env inList P) (scopes : List ActiveScope) :
    Stage S { env with scopes := scopes } inList P :=
  ⟨⟨h.sound, ⟨h.suits.table, h.suits.caller, h.suits.result, h.suits.callerStatus,
    h.suits.region, h.suits.switch⟩, h.level, h.within⟩, h.held, h.scope, h.inside⟩

theorem closeStage_arrives {O Q : Scene} (stage : Stage S env true Q)
    (hc : O.state.cleanups = P.state.cleanups.openScope) (grows : O.Grows S true Q) :
    Arrives S Q [] (fun _ R => P.Stands [] (S.alive P.state.cleanups) R)
      (closeScope env Q.state) := by
  obtain ⟨added, hc', -⟩ := grows
  rw [hc] at hc'
  refine (closeScope_arrives stage.sound stage.suits [] hc' stage.level (.inl rfl)).mono
    fun _ R _ _ ⟨held, live, hc''⟩ => ⟨held.trans stage.held, live, hc''⟩

theorem compound_arrives (inList : Bool) (h : WalksAll S a m) (begins : Begins S env P)
    (idle : P.held = []) : Arrives S P a (Past S env inList P) (inCompound m env P.state) := by
  have w : S.Widens P.state { P.state with compounds := P.state.compounds + 1 } :=
    .of_same rfl rfl rfl rfl
  let P1 := P.widen { P.state with compounds := P.state.compounds + 1 }
  have sound1 : P1.Sound S := begins.sound.widen (begins.sound.toFirm.widen w rfl rfl
    (begins.sound.books.frame (later_widen w) ⟨rfl, rfl, rfl, rfl, rfl, rfl⟩)
    begins.sound.lived.owed) rfl rfl
  have opened : Arrives S P1 [] (fun _ Q => Q.held = P.held ∧ Q.live = P.live ∧
      Q.state.cleanups = P.state.cleanups.openScope) (openScope env P1.state) :=
    openScope_arrives sound1
  obtain ⟨O, hO, sound, leads, held, live, hc⟩ := opened
  have leads : P.Leads S [] O :=
    .trans (.of_notes (later_widen w) (fun _ hr => hr) rfl fun h => h) leads
  have stage1 := begins.stage sound leads.toLater (held.trans idle) live hc
  refine .look (Ends.seq (P := fun _ t => t = O.state) hO.symm ?_)
  rintro _ _ rfl
  have walked := h _ O
    (stage1.scoped (env.scopes ++ [⟨⟨P.state.compounds⟩, P.state.cleanups.depth⟩]))
  refine Arrives.after leads (Arrives.last (Ends.inside walked)
    fun e Q sound' leads' ⟨past, settled⟩ => ?_)
  have past : Past S env true O e Q := ⟨past.toRests, past.next, past.breaks, past.continues⟩
  have stage2 := stage1.rests sound' leads'.toLater past.toRests
  exact (closeStage_arrives stage2 hc past.grows).next fun _ R sound'' leads'' stands =>
    .here sound'' (past.closed settled hc leads''.toLater stands)

theorem compound_walks (h : WalksAll S a m) : Walks S a inList (inCompound m) :=
  fun _ _ stage => compound_arrives inList h stage.toBegins stage.held

end Compound

section Branches
variable {S : Setting} {env : Env} {P Q : Scene} {inList : Bool} {a b c : List Site} {e : Expr}
  {then_ else_ : LowerM Exits}
open Scene

theorem enter_arrives {k : Branches → LowerM β} {post : β → Scene → Prop}
    (known : e.sites ⊆ S.sites) (stage : Stage S env inList P)
    (h : ∀ c Q, Q.Sound S → P.Leads S e.sites Q → P.Stands [] P.live Q →
      (∀ x ∈ c.onFalse, Q.Carries x [] P.live) → Arrives S Q b post (k c env Q.state)) :
    Arrives S P (e.sites ++ b) post
      ((condition e >>= fun c => resolveHere c.onTrue >>= fun _ => k c) env P.state) := by
  refine (condition_arrives known stage.toBegins).seq fun c Q sound leads ⟨stands, forks⟩ => ?_
  rw [stage.held] at stands
  have carried := forks.carried
  rw [stage.held, forall_mem_append] at carried
  refine (resolveHere_arrives sound (by rw [stands.held]; exact carried.1)).next
    fun _ R sound' leads' stands' => ?_
  refine h c R sound' (by simpa using leads.trans leads') (stands.same stands') fun x hx => ?_
  rw [← stands.live]
  exact (carried.2 x hx).mono leads'.toLater

theorem if_walks (known : e.sites ⊆ S.sites) (h : Walks S b false then_) :
    Walks S (e.sites ++ b) inList (lowerIf e then_) := by
  intro env P stage
  refine enter_arrives known stage fun c Q sound leads stands carried => ?_
  have stage' := stage.single.stands sound leads.toLater stands
  refine (h env Q stage').last fun exits R sound' leads' past => ?_
  refine .here sound' (((past.append_next _ fun x hx => ?_).behind stands).mono)
  rw [past.live stage'.level, stands.live]
  exact (carried x hx).mono leads'.toLater

theorem jumpOver_arrives (h : P.Sound S) :
    Arrives S P [] (fun pending Q => P.Stands P.held P.live Q ∧ Q.mark.phase = .dead ∧
        ∀ x ∈ pending, Q.Carries x P.held P.live) (jumpOver env P.state) := by
  refine Arrives.ending ?_
  cases ends : P.state.draft.endsInTerminator with
  | true => exact .here h ⟨⟨rfl, rfl, rfl⟩, h.closed ends, by simp⟩
  | false =>
    exact (pendingJump_arrives h h.live).mono fun _ _ _ _ ⟨stands, dead, _, carried⟩ =>
      ⟨stands, dead, carried⟩

theorem ifElse_walks (known : e.sites ⊆ S.sites) (h : Walks S b false then_)
    (k : Walks S c false else_) :
    Walks S (e.sites ++ b ++ c) inList (lowerIfElse e then_ else_) := by
  intro env P stage
  rw [append_assoc]
  refine enter_arrives known stage fun c Q sound leads stands carried => ?_
  have stage0 := stage.single.stands sound leads.toLater stands
  refine (h env Q stage0).seq fun left Q1 sound1 leads1 past1 => ?_
  refine (jumpOver_arrives sound1).next fun pending Q2 sound2 leads2 ⟨stands2, _, carried2⟩ => ?_
  rw [past1.held] at stands2 carried2
  have live : Q2.live = P.live := by rw [stands2.live, past1.live stage0.level, stands.live]
  have back : ∀ x ∈ c.onFalse, Q2.Carries x Q2.held Q2.live := fun x hx => by
    rw [stands2.held, live]
    exact (carried x hx).mono (leads1.toLater.trans leads2.toLater)
  refine (resolveHere_arrives sound2 back).next fun _ Q3 sound3 leads3 stands3 => ?_
  have both := stands2.same stands3
  have past2 := past1.stands both (leads2.toLater.trans leads3.toLater)
  have past2 := past2.append_next pending fun x hx => by
    rw [both.live]
    exact (carried2 x hx).mono leads3.toLater
  have later3 := (leads1.toLater.trans leads2.toLater).trans leads3.toLater
  have stage3 := stage0.rests sound3 later3 past2.toRests
  refine (k env Q3 stage3).last fun right R sound4 leads4 past4 => ?_
  refine .here sound4 (((past2.trans stage0 past4 leads4.toLater
    fun x hx => ?_).behind stands).mono)
  rw [past4.live stage3.level]
  exact past2.next x hx

end Branches

section Loops
variable {S : Setting} {env : Env} {P Q R : Scene} {inList : Bool} {a b : List Site} {e : Expr}
  {body init : LowerM Exits}
open Scene

theorem aliveBelow_depth (S : Setting) (c : Cleanups) : S.aliveBelow c c.depth = S.alive c := by
  have none : c.pendingFrom c.depth = [] := by simp [Cleanups.pendingFrom]
  rw [S.alive_split c c.depth, none]
  simp

/-- Inside of the scopes there are, control may leave to where it is. -/
theorem Stage.inner (h : Stage S env inList P) {env' : Env} (suits : Suits S env' P)
    (within : ∀ depth ∈ env'.depths, depth ∈ env.depths ∨ depth = P.state.cleanups.depth) :
    Stage S env' false P :=
  ⟨⟨h.sound, suits, h.level, fun depth hd => (within depth hd).elim (h.within depth) Nat.le_of_eq⟩,
    h.held, h.scope, fun list => nomatch list⟩

theorem Stage.looped (h : Stage S env inList P) :
    Stage S { env with breakDepth := some P.state.cleanups.depth,
                       loopDepth := some P.state.cleanups.depth } false P :=
  h.inner { h.suits with } (by grind [Env.depths])

theorem inLoop_arrives (stage : Stage S env inList P) (h : Walks S a false body) :
    Arrives S P a (fun x Q => P.Rests S false Q ∧ Q.live = P.live ∧
        (∀ y ∈ x.next ++ x.continues, Q.Carries y [] P.live) ∧
        ∀ y ∈ x.breaks, Q.Carries y [] P.live) (inLoop body env P.state) := by
  refine .look (Ends.inside ?_)
  refine (h _ P stage.looped).mono fun x Q _ _ past => ?_
  have live := past.live stage.level
  have all : S.aliveBelow P.state.cleanups P.state.cleanups.depth = P.live := by
    rw [aliveBelow_depth, stage.level]
  refine ⟨past.toRests, live, fun y hy => ?_, fun y hy => ?_⟩
  · rcases mem_append.1 hy with hy | hy
    · rw [← live]
      exact past.next y hy
    · obtain ⟨depth, hd, carries⟩ := past.continues y hy
      cases hd
      rw [← all]
      exact carries
  · obtain ⟨depth, hd, carries⟩ := past.breaks y hy
    cases hd
    rw [← all]
    exact carries

theorem goBack_arrives (h : P.Sound S) {head : Label}
    (promised : P.Promises head ⟨.ordinary, P.held, P.live⟩) :
    Arrives S P [] (fun _ Q => P.Stands P.held P.live Q) (goBack head env P.state) := by
  refine Arrives.ending ?_
  cases P.state.draft.endsInTerminator with
  | true => exact .here h ⟨rfl, rfl, rfl⟩
  | false => exact jumpTo_arrives h promised h.live

theorem Scene.Rests.stands (h : P.Rests S inList Q) (stands : Q.Stands [] Q.live R) :
    P.Rests S inList R := by
  have k : Q.Rests S inList R := stands.rests h.level
  exact ⟨k.held, k.level, h.grows.trans k.grows⟩

theorem Scene.Rests.behind (h : Q.Rests S inList R) (stands : P.Stands [] P.live Q)
    (level : P.Level S) : P.Rests S inList R :=
  ⟨h.held, h.level, (stands.rests level).grows.trans h.grows⟩

theorem Past.ofNext (h : P.Rests S false Q) (level : P.Level S) {pending : Pending}
    (carried : ∀ x ∈ pending, Q.Carries x [] P.live) : Past S env inList P (.ofNext pending) Q := by
  refine Past.mono ⟨h, ?_, by simp [Exits.ofNext], by simp [Exits.ofNext]⟩
  rw [h.live level]
  exact carried

theorem while_walks (known : e.sites ⊆ S.sites) (h : Walks S b false body) :
    Walks S (e.sites ++ b) inList (lowerWhile e body) := by
  intro env P stage
  unfold lowerWhile
  refine (hereLabel_arrives stage.sound).next fun head P1 sound1 leads1 ⟨stands1, promised⟩ => ?_
  rw [stage.held] at stands1 promised
  have stage1 := stage.stands sound1 leads1.toLater stands1
  refine enter_arrives known stage1 fun c P2 sound2 leads2 stands2 carried => ?_
  rw [stands1.live] at stands2 carried
  have stands2 := stands1.trans stands2
  have stage2 := stage.stands sound2 (leads1.toLater.trans leads2.toLater) stands2
  refine (inLoop_arrives stage2 h).last fun exits P3 sound3 leads3 ⟨rests, live, again, leave⟩ => ?_
  rw [stands2.live] at live again leave
  have promised3 := promised.mono (leads2.toLater.trans leads3.toLater)
  refine (resolveTo_arrives sound3 again promised3).next fun _ P4 sound4 leads4 stands4 => ?_
  rw [rests.held] at stands4
  have promised4 : P4.Promises head ⟨.ordinary, P4.held, P4.live⟩ := by
    rw [stands4.held, stands4.live, live]
    exact promised3.mono leads4.toLater
  refine (goBack_arrives sound4 promised4).next fun _ P5 sound5 leads5 stands5 => ?_
  have done := (rests.stands (stands4.same stands5)).behind stands2 stage.level
  have later := leads4.toLater.trans leads5.toLater
  refine .here sound5 (.ofNext done stage.level fun x hx => ?_)
  rcases mem_append.1 hx with hx | hx
  · exact (carried x hx).mono (leads3.toLater.trans later)
  · exact (leave x hx).mono later

theorem doWhile_walks (known : e.sites ⊆ S.sites) (h : Walks S b false body) :
    Walks S (b ++ e.sites) inList (lowerDoWhile body e) := by
  intro env P stage
  refine (hereLabel_arrives stage.sound).next fun top P1 sound1 leads1 ⟨stands1, promised⟩ => ?_
  rw [stage.held] at stands1 promised
  have stage1 := stage.single.stands sound1 leads1.toLater stands1
  refine (inLoop_arrives stage1 h).seq fun exits P2 sound2 leads2 ⟨rests, live, again, leave⟩ => ?_
  rw [stands1.live] at live again leave
  refine (resolveHere_arrives sound2 (by rw [rests.held, live]; exact again)).next
    fun _ P3 sound3 leads3 stands3 => ?_
  rw [rests.held] at stands3
  have rests3 := rests.stands stands3
  have stage3 := stage1.rests sound3 (leads2.toLater.trans leads3.toLater) rests3
  refine (condition_arrives known stage3.toBegins).last
    fun c P4 sound4 leads4 ⟨stands4, forks⟩ => ?_
  rw [stands3.held] at stands4
  have carried := forks.carried
  rw [stands3.held, stands4.live, stands3.live, live, forall_mem_append] at carried
  have promised4 := promised.mono ((leads2.toLater.trans leads3.toLater).trans leads4.toLater)
  refine (resolveTo_arrives sound4 carried.1 promised4).next fun _ P5 sound5 leads5 stands5 => ?_
  have done := (rests3.stands (stands4.same stands5)).behind stands1 stage.level
  refine .here sound5 (.ofNext done stage.level fun x hx => ?_)
  rcases mem_append.1 hx with hx | hx
  · exact (carried.2 x hx).mono leads5.toLater
  · exact (leave x hx).mono ((leads3.toLater.trans leads4.toLater).trans leads5.toLater)

theorem loopCondition_arrives {e : Option Expr} (known : Expr.sitesOfOption e ⊆ S.sites)
    (stage : Stage S env inList P) :
    Arrives S P (Expr.sitesOfOption e) (fun leave Q => P.Stands [] P.live Q ∧
        ∀ x ∈ leave, Q.Carries x [] P.live) (loopCondition e env P.state) := by
  cases e with
  | none => exact .here stage.sound ⟨⟨stage.held, rfl, rfl⟩, by simp⟩
  | some e =>
    have entered : Arrives S P (e.sites ++ []) (fun leave Q => P.Stands [] P.live Q ∧
        ∀ x ∈ leave, Q.Carries x [] P.live) (loopCondition (some e) env P.state) :=
      enter_arrives known stage fun c Q sound _ stands carried => .here sound ⟨stands, carried⟩
    rwa [append_nil] at entered

theorem increment_arrives {e : Option Expr} (known : Expr.sitesOfOption e ⊆ S.sites)
    (stage : Stage S env inList P) :
    Arrives S P (Expr.sitesOfOption e) (fun _ Q => P.Stands [] P.live Q)
      (lowerIncrement e env P.state) := by
  rw [← stage.held]
  cases e with
  | none => exact .here stage.sound ⟨rfl, rfl, rfl⟩
  | some e =>
    exact (fullValue_arrives known stage.toBegins).last fun _ _ sound _ stands => .here sound stands

theorem for_walks {e increment : Option Expr} (known : Expr.sitesOfOption e ⊆ S.sites)
    (known' : Expr.sitesOfOption increment ⊆ S.sites) (hinit : Walks S a true init)
    (h : Walks S b false body) :
    Walks S (a ++ (Expr.sitesOfOption e ++ b ++ Expr.sitesOfOption increment)) inList
      (lowerFor init e increment body) := by
  intro env P stage
  unfold lowerFor withTemporaries
  simp only [bind_assoc]
  refine (openScope_arrives stage.sound).next fun _ O sound0 leads0 ⟨held0, live0, hc0⟩ => ?_
  have stage0 := stage.toBegins.stage sound0 leads0.toLater (held0.trans stage.held) live0 hc0
  refine (hinit env O stage0).seq fun before P1 sound1 leads1 past1 => ?_
  refine (settle_arrives past1 sound1).next fun before P2 sound2 leads2 ⟨past2, settled⟩ => ?_
  have stage2 := stage0.rests sound2 (leads1.toLater.trans leads2.toLater) past2.toRests
  refine (hereLabel_arrives sound2).next fun head P3 sound3 leads3 ⟨stands3, promised⟩ => ?_
  rw [stage2.held] at stands3 promised
  have stage3 := stage2.stands sound3 leads3.toLater stands3
  rw [append_assoc]
  refine (loopCondition_arrives known stage3).seq
    fun leave P4 sound4 leads4 ⟨stands4, carried⟩ => ?_
  rw [stands3.live] at stands4 carried
  have stands4 := stands3.trans stands4
  have later4 := leads3.toLater.trans leads4.toLater
  have stage4 := stage2.stands sound4 later4 stands4
  refine (inLoop_arrives stage4 h).seq fun exits P5 sound5 leads5 ⟨rests, live, again, out⟩ => ?_
  rw [stands4.live] at live again out
  refine (resolveHere_arrives sound5 (by rw [rests.held, live]; exact again)).next
    fun _ P6 sound6 leads6 stands6 => ?_
  rw [rests.held] at stands6
  have rests6 := (rests.stands stands6).behind stands4 stage2.level
  have later6 := (later4.trans leads5.toLater).trans leads6.toLater
  have stage6 := stage2.single.rests sound6 later6 rests6
  refine (increment_arrives known' stage6).last fun _ P7 sound7 leads7 stands7 => ?_
  have live7 : P7.live = P2.live := by rw [stands7.live, stands6.live, live]
  have later7 := later6.trans leads7.toLater
  have promised7 : P7.Promises head ⟨.ordinary, P7.held, P7.live⟩ := by
    rw [stands7.held, live7]
    exact promised.mono ((leads4.toLater.trans (leads5.toLater.trans leads6.toLater)).trans
      leads7.toLater)
  refine (jumpTo_arrives sound7 promised7 sound7.live).next fun _ P8 sound8 leads8 stands8 => ?_
  have stands8 := stands7.same stands8
  have ways : ∀ x ∈ leave ++ exits.breaks, P8.Carries x P8.held P8.live := fun x hx => by
    rw [stands8.held, stands8.live, stands6.live, live]
    have later := (leads6.toLater.trans leads7.toLater).trans leads8.toLater
    rcases mem_append.1 hx with hx | hx
    · exact (carried x hx).mono (leads5.toLater.trans later)
    · exact (out x hx).mono later
  refine (resolveHere_arrives sound8 ways).next fun _ P9 sound9 leads9 stands9 => ?_
  have rests9 := rests6.stands (stands8.same stands9)
  have later9 := (later7.trans leads8.toLater).trans leads9.toLater
  have grows : P2.Grows S true P9 := rests9.grows.mono
  have stage9 := stage2.rests sound9 later9 ⟨rests9.held, rests9.level, grows⟩
  exact (closeStage_arrives stage9 hc0 (past2.grows.trans grows)).next fun _ R sound leads stands =>
    .here sound (past2.closed settled hc0 (later9.trans leads.toLater) stands)

end Loops

section Guard
variable {S : Setting} {env : Env} {P : Scene} {inList : Bool} {a b : List Site}
  {body handler : LowerM Exits}
open Scene

theorem Stage.guarded (h : Stage S env inList P) {label : Label}
    (promised : P.Promises label ⟨.caught, [], P.live⟩) :
    Stage S { env with region := some ⟨label, P.state.cleanups.depth⟩ } false P := by
  refine h.inner { h.suits with region := fun region hr => ?_ } (by grind [Env.depths])
  cases hr
  rw [aliveBelow_depth, ← h.level]
  exact promised

theorem try_walks (h : Walks S a false body) (k : Walks S b false handler) :
    Walks S (a ++ .handler :: b) inList (lowerTry body handler) := by
  intro env P stage
  unfold lowerTry
  refine (newLabel_arrives stage.sound ⟨.caught, [], P.live⟩).next
    fun label P1 sound1 leads1 ⟨stands1, made⟩ => ?_
  rw [stage.held] at stands1
  have stage1 := stage.single.stands sound1 leads1.toLater stands1
  have promised : P1.Promises label ⟨.caught, [], P1.live⟩ :=
    .of_eq (by rw [stands1.live]; exact made)
  refine Arrives.seq (m := inRegion label body)
    (Ends.look (Ends.inside (h _ P1 (stage1.guarded promised))))
    fun left P2 sound2 leads2 past2 => ?_
  have past2 : Past S env false P1 left P2 :=
    ⟨past2.toRests, past2.next, past2.breaks, past2.continues⟩
  have live2 := past2.live stage1.level
  refine (jumpOver_arrives sound2).next fun pending P3 sound3 leads3 ⟨stands3, dead, carried⟩ => ?_
  rw [past2.held] at stands3 carried
  have promised3 : P3.Promises label ⟨.caught, [], P3.live⟩ := by
    rw [stands3.live, live2]
    exact promised.mono (leads2.toLater.trans leads3.toLater)
  refine (handler_arrives sound3 dead stands3.held promised3).seq
    fun _ P4 sound4 leads4 stands4 => ?_
  rw [stands3.live] at stands4
  have past4 := past2.stands (stands3.trans stands4) (leads3.toLater.trans leads4.toLater)
  have later4 := (leads2.toLater.trans leads3.toLater).trans leads4.toLater
  have stage4 := stage1.rests sound4 later4 past4.toRests
  refine (k env P4 stage4).last fun right P5 sound5 leads5 past5 => ?_
  have live5 : P5.live = P2.live := by rw [past5.live stage4.level, stands4.live]
  have both := past4.trans stage1 past5 leads5.toLater fun x hx => by
    rw [past5.live stage4.level]
    exact past4.next x hx
  refine .here sound5 (((both.append_next pending fun x hx => ?_).behind stands1).mono)
  rw [live5]
  exact (carried x hx).mono (leads4.toLater.trans leads5.toLater)

end Guard

section Switch
variable {S : Setting} {env : Env} {P : Scene} {inList : Bool} {a b : List Site} {e : Expr}
open Scene

theorem addClause_targets {m m' : CaseMap} {i : Nat} {l : Label} {c : Clause}
    (h : CaseMap.addClause i l c.kind m = .ok () m') {t : CaseTarget} (ht : t ∈ m'.targets) :
    t ∈ m.targets ∨ t.label = l := by
  obtain ⟨cases_eq, default_eq⟩ := CaseMap.addClause_entries h
  simp only [CaseMap.targets, mem_append, Option.mem_toList] at ht ⊢
  rcases ht with ht | ht
  · rw [cases_eq, mem_append] at ht
    rcases ht with ht | ht
    · exact .inl (.inl ht)
    · obtain ⟨_, -, rfl⟩ := mem_map.1 ht
      exact .inr rfl
  · rw [default_eq] at ht
    cases hd : m.default with
    | some d =>
      rw [hd] at ht
      exact .inl (.inr ht)
    | none =>
      rw [hd, Option.none_or] at ht
      split at ht
      · cases ht
        exact .inr rfl
      · cases ht

theorem buildFrom_arrives (q : Mark) : ∀ (clauses : List Clause) (m : CaseMap) (i : Nat)
    {P : Scene}, P.Sound S → (∀ t ∈ m.targets, P.Promises t.label q) →
    Arrives S P [] (fun found Q => P.Stands P.held P.live Q ∧
        (∀ t ∈ found.1.targets, Q.Promises t.label q) ∧
        found.2.length = clauses.length ∧ ∀ l ∈ found.2, Q.Promises l q)
      ((liftM (m.buildFrom i clauses) : LowerM (CaseMap × List Label)) env P.state)
  | [], m, _, P, h, known => ⟨P, rfl, h, .refl P, ⟨rfl, rfl, rfl⟩, known, rfl, by simp⟩
  | .mk kind body :: clauses, m, i, P, h, known => by
    unfold CaseMap.buildFrom
    rw [Lower.lift_bind]
    refine (newLabel_arrives h q).next fun l Q sound leads found => ?_
    obtain ⟨stands, made⟩ := found
    cases ha : CaseMap.addClause i l kind m with
    | error e m' => exact trivial
    | ok _ m' =>
      have known' : ∀ t ∈ m'.targets, Q.Promises t.label q := fun t ht => by
        rcases addClause_targets (c := .mk kind body) ha ht with old | new
        · exact (known t old).mono leads.toLater
        · rw [new]
          exact .of_eq made
      rw [Lower.lift_bind]
      refine (buildFrom_arrives q clauses m' (i + 1) sound known').next
        fun found R sound' leads' rest => ?_
      obtain ⟨stands', targets, same, labels⟩ := rest
      refine ⟨R, rfl, sound', .refl R, stands.same stands', targets, by simp [same],
        fun l' hl' => ?_⟩
      rcases mem_cons.1 hl' with rfl | hl'
      · exact (Promises.of_eq made).mono leads'.toLater
      · exact labels l' hl'

theorem switchOn_arrives (known : e.sites ⊆ S.sites) (stage : Stage S env inList P) :
    Arrives S P e.sites (fun found Q => Q.live = P.live ∧ Q.state.cleanups = P.state.cleanups ∧
        Q.Holds S found.1 ∧ Q.Promises found.2.2 ⟨.ordinary, [], P.live⟩)
      (switchOn e env P.state) := by
  refine (fullOperand_arrives known stage.toBegins).last
    fun x Q sound leads ⟨⟨_, stands⟩, holds⟩ => ?_
  refine Arrives.query fun ty _ => ?_
  refine (newLabel_arrives sound ⟨.ordinary, [], P.live⟩).next
    fun past R sound' leads' ⟨stands', made⟩ => ?_
  have both := stands.trans stands'
  exact .here sound' ⟨stands'.live.trans stands.live, both.cleanups, holds.mono leads', .of_eq made⟩

theorem chooseCase_ends (known : e.sites ⊆ S.sites) (stage : Stage S env inList P)
    {cases : CaseMap} (promised : ∀ t ∈ cases.targets, P.Promises t.label ⟨.ordinary, [], P.live⟩) :
    Ensures (fun past t => ∃ Q : Scene, Q.state = t ∧ Q.Sound S ∧
        P.Follows S e.sites Q ∧ P.Stands [] P.live Q ∧ Q.Promises past ⟨.ordinary, [], P.live⟩)
      (chooseCase e cases env P.state) := by
  refine .seq (switchOn_arrives known stage) ?_
  rintro ⟨x, ty, past⟩ _ ⟨Q, rfl, sound, leads, live, hc, holds, behind⟩
  have enough {l : Label} (hl : Q.Promises l ⟨.ordinary, [], P.live⟩) :
      Q.Promises l ⟨.ordinary, Q.held, Q.live⟩ := by
    obtain ⟨held, hq, sub⟩ := hl.get
    exact ⟨_, hq, .inr ⟨rfl, live, fun r hr => nomatch sub r hr⟩⟩
  have targets : ∀ t ∈ cases.targets, Q.Promises t.label ⟨.ordinary, [], P.live⟩ := fun t ht =>
    (promised t ht).mono leads.toLater
  let i : Instr := .switch x (cases.cases.map fun c => (c.value.toImm ty, c.label))
    ((cases.default.map CaseTarget.label).getD past)
  have chosen : (Q.push (Q.note .plain) i ⟨.dead, Q.held, Q.live⟩).Sound S := by
    refine sound.push_end rfl (holds_one holds) sound.live (.switch (.inl rfl)) (fun e l hl => ?_)
      fun l hl => ?_
    · cases e <;> cases hl
    · simp only [i, Instr.choices, map_map, mem_cons, mem_map] at hl
      rcases hl with rfl | ⟨t, ht, rfl⟩
      · cases hd : cases.default with
        | none => exact enough behind
        | some d => exact enough (targets d (by simp [CaseMap.targets, hd]))
      · exact enough (targets t (by simp [CaseMap.targets, ht]))
  have follows : P.Follows S e.sites (Q.push (Q.note .plain) i ⟨.dead, Q.held, Q.live⟩) := by
    simpa using leads.toFollows.trans (follows_push rfl rfl fun _ hr => hr)
  exact ⟨_, rfl, chosen.keep follows.held, follows.keep, ⟨stage.held, live, hc⟩,
    behind.mono (S := S) (later_push.trans later_keep)⟩

theorem Stage.switched (h : Stage S env inList P) {cases : CaseMap}
    (promised : ∀ t ∈ cases.targets, P.Promises t.label ⟨.ordinary, [], P.live⟩) :
    Stage S { env with breakDepth := some P.state.cleanups.depth,
                       switch := some ⟨cases, P.state.cleanups.depth⟩ } false P := by
  refine h.inner { h.suits with switch := fun active ha => ?_ } (by grind [Env.depths])
  cases ha
  rw [aliveBelow_depth, ← h.level]
  exact promised

def WalksClauses (S : Setting) (sites : List Site) (labels : List Label) (m : LowerM Exits) :
    Prop :=
  ∀ env P, Stage S env false P → (∀ l ∈ labels, P.Promises l ⟨.ordinary, [], P.live⟩) →
    Arrives S P sites (fun e Q => Past S env false P e Q) (m env P.state)

theorem no_clauses {labels : List Label} : WalksClauses S [] labels (pure .none) :=
  fun _ P stage _ => .here stage.sound (.none ⟨stage.held, stage.level, .refl P⟩)

theorem clause_walks {m rest : LowerM Exits} {label : Label} {labels : List Label}
    (h : Walks S a false m) (k : WalksClauses S b labels rest) :
    WalksClauses S (a ++ b) (label :: labels) (do
      Draft.place label
      let first ← m
      return first ++ (← rest)) := by
  intro env P stage promised
  refine (place_arrives stage.sound stage.held (promised label mem_cons_self)).next
    fun _ P1 sound1 leads1 ⟨stands1, _⟩ => ?_
  have stage1 := stage.stands sound1 leads1.toLater stands1
  refine (h env P1 stage1).seq fun first P2 sound2 leads2 past2 => ?_
  have stage2 := stage1.rests sound2 leads2.toLater past2.toRests
  have promised2 : ∀ l ∈ labels, P2.Promises l ⟨.ordinary, [], P2.live⟩ := fun l hl => by
    rw [past2.live stage1.level, stands1.live]
    exact (promised l (mem_cons_of_mem _ hl)).mono (leads1.toLater.trans leads2.toLater)
  refine (k env P2 stage2 promised2).last fun exits P3 sound3 leads3 past3 => ?_
  refine .here sound3 ((past2.trans stage1 past3 leads3.toLater fun x hx => ?_).behind stands1)
  rw [past3.live stage2.level]
  exact past2.next x hx

theorem switch_walks (known : e.sites ⊆ S.sites) (clauses : List Clause)
    {body : List Label → LowerM Exits}
    (h : ∀ labels, labels.length = clauses.length → WalksClauses S b labels (body labels)) :
    Walks S (e.sites ++ b) inList (lowerSwitch e clauses body) := by
  intro env P stage
  unfold lowerSwitch
  refine (buildFrom_arrives ⟨.ordinary, [], P.live⟩ clauses .empty 0 stage.sound
    (by simp [CaseMap.targets, CaseMap.empty])).next
    fun found P1 sound1 leads1 ⟨stands1, targets, same, labels⟩ => ?_
  rw [stage.held] at stands1
  have stage1 := stage.single.stands sound1 leads1.toLater stands1
  rw [← stands1.live] at targets
  refine Ends.seq (chooseCase_ends known stage1 targets) ?_
  rintro past _ ⟨P2, rfl, sound2, leads2, stands2, behind⟩
  have stage2 := stage1.stands sound2 leads2.toLater stands2
  have both := stands1.trans stands2
  have targets2 : ∀ t ∈ found.1.targets, P2.Promises t.label ⟨.ordinary, [], P2.live⟩ :=
      fun t ht => by
    rw [stands2.live]
    exact (targets t ht).mono leads2.toLater
  have labels2 : ∀ l ∈ found.2, P2.Promises l ⟨.ordinary, [], P2.live⟩ := fun l hl => by
    rw [stands2.live, stands1.live]
    exact (labels l hl).mono leads2.toLater
  refine (Arrives.since leads2 (?_ : Arrives S P2 b (fun e Q => Past S env inList P e Q ∧
    ¬ Q.state.draft.EndsInSwitch) _) fun _ _ closed => closed.2).mono
    fun _ _ _ _ closed => closed.1
  refine Arrives.last (m := inSwitch found.1 (body found.2))
    (Ends.look (Ends.inside (h found.2 same _ P2 (stage2.switched targets2) labels2)))
    fun exits P3 sound3 leads3 past3 => ?_
  have live3 := past3.live stage2.level
  have behind3 : P3.Promises past ⟨.ordinary, [], P3.live⟩ := by
    rw [live3, stands2.live]
    exact behind.mono leads3.toLater
  refine (place_arrives sound3 past3.held behind3).next ?_
  rintro _ P4 sound4 leads4 ⟨stands4, closed⟩
  have past4 := past3.stands stands4 leads4.toLater
  have past : Past S env false P2 ⟨exits.breaks, [], exits.continues⟩ P4 := by
    refine ⟨past4.toRests, fun x hx => ?_, by simp, past4.continues⟩
    obtain ⟨depth, hd, carries⟩ := past4.breaks x hx
    cases hd
    rw [past4.live stage2.level, stage2.level, ← aliveBelow_depth]
    exact carries
  rw [stands1.live] at stands2
  exact .here sound4 ⟨(past.behind (stands1.trans stands2)).mono, closed⟩

theorem get_targets (value : Literal) (m : CaseMap) (target : CaseTarget)
    (h : m.get value = .ok target) : target ∈ m.targets := by
  unfold CaseMap.get at h
  split at h
  · rename_i found
    cases h
    rw [CaseMap.find?_eq] at found
    exact mem_append_left _ (mem_of_find?_eq_some found)
  · cases h

theorem requireDefault_targets (m : CaseMap) (target : CaseTarget)
    (h : requireDefault m = .ok target) : target ∈ m.targets := by
  unfold requireDefault at h
  split at h
  · rename_i found
    cases h
    simp [CaseMap.targets, found]
  · cases h

end Switch

section Tree
variable {S : Setting}

theorem label_walks {a : List Site} {inList : Bool} {m : LowerM Exits} (label : String)
    (h : Walks S a inList m) : Walks S a inList (placeName label >>= fun _ => m) := by
  intro env P stage
  exact (placeName_arrives stage label).next fun _ Q sound leads stands =>
    (h env Q (stage.stands sound leads.toLater stands)).mono fun _ _ _ _ past => past.behind stands

theorem none_walks {inList : Bool} : Walks S [] inList (pure .none) := fun _ P stage =>
  .here stage.sound (.none ⟨stage.held, stage.level, .refl P⟩)

mutual
theorem lowerStmt_walks : ∀ (s : Stmt) (inList : Bool), s.sites ⊆ S.sites →
    (S.follows = true → s.isScoped inList) → Walks S s.sites inList (lowerStmt s)
  | .compound body, _, known, tidy =>
    (compound_walks (lowerStmts_walks body known tidy)).commented _
  | .expression e, _, known, _ => (expression_stays known).straight.commented _
  | .construction v ctor arguments, _, known, tidy =>
    (construction_stays known tidy).straight.commented _
  | .assignment target value, _, known, _ =>
    (assignment_stays (append_subset.1 known).1
      (append_subset.1 known).2).straight.commented _
  | .ifElse e then_ none, _, known, tidy => by
    have parts := append_subset.1 known
    exact (if_walks parts.1 (lowerStmt_walks then_ false parts.2 tidy)).commented _
  | .ifElse e then_ (some else_), _, known, tidy => by
    have parts := append_subset.1 known
    have parts' := append_subset.1 parts.1
    have both := imp_and.1 fun follows => Bool.and_eq_true_iff.1 (tidy follows)
    exact (ifElse_walks parts'.1
      (lowerStmt_walks then_ false parts'.2 both.1)
      (lowerStmt_walks else_ false parts.2 both.2)).commented _
  | .whileLoop e body, _, known, tidy => by
    have parts := append_subset.1 known
    exact (while_walks parts.1 (lowerStmt_walks body false parts.2 tidy)).commented _
  | .doWhile body e, _, known, tidy => by
    have parts := append_subset.1 known
    exact (doWhile_walks parts.2 (lowerStmt_walks body false parts.1 tidy)).commented _
  | .forLoop none e increment body, _, known, tidy => by
    have parts := append_subset.1 known
    have parts' := append_subset.1 parts.1
    exact (for_walks parts'.1 parts.2 none_walks
      (lowerStmt_walks body false parts'.2 tidy)).commented _
  | .forLoop (some init) e increment body, _, known, tidy => by
    have halves := append_subset.1 known
    have parts := append_subset.1 halves.2
    have parts' := append_subset.1 parts.1
    have both := imp_and.1 fun follows => Bool.and_eq_true_iff.1 (tidy follows)
    exact (for_walks parts'.1 parts.2
      (lowerStmt_walks init true halves.1 both.1)
      (lowerStmt_walks body false parts'.2 both.2)).commented _
  | .switch e clauses, _, known, tidy => by
    have parts := append_subset.1 known
    exact (switch_walks parts.1 clauses (lowerClauses_walks clauses parts.2 tidy)).commented _
  | .return_ none, _, known, _ => (return_stays (e := none) known).straight.commented _
  | .return_ (some e), _, known, _ => (return_stays (e := some e) known).straight.commented _
  | .break_, _, _, _ => break_walks.commented _
  | .continue_, _, _, _ => continue_walks.commented _
  | .labeled label statement, inList, known, tidy =>
    (label_walks label (lowerStmt_walks statement inList known tidy)).commented _
  | .goto label, _, _, tidy =>
    (goto_stays (by simpa [Stmt.isScoped] using tidy) label).straight.commented _
  | .gotoCase value, _, _, _ => (gotoCase_stays (get_targets value)).straight.commented _
  | .gotoDefault, _, _, _ => (gotoCase_stays requireDefault_targets).straight.commented _
  | .destruction object destructor, _, known, tidy =>
    (destruction_stays (by simpa [Stmt.isScoped] using tidy) known
      destructor).straight.commented _
  | .try_ body handler, _, known, tidy => by
    have parts := append_subset.1 known
    have both := imp_and.1 fun follows => Bool.and_eq_true_iff.1 (tidy follows)
    exact (try_walks (compound_walks (lowerStmts_walks body parts.1 both.1))
      (compound_walks (lowerStmts_walks handler (cons_subset.1 parts.2).2 both.2))).commented _
  | .throw_ e, _, known, _ => (throw_stays (append_subset.1 known).1).straight.commented _
  | .empty, _, _, _ => none_walks.commented _
theorem lowerStmts_walks : ∀ (body : List Stmt), Stmt.sitesOfAll body ⊆ S.sites →
    (S.follows = true → Stmt.allScoped body) → WalksAll S (Stmt.sitesOfAll body) (lowerStmts body)
  | [], _, _ => nil_walks
  | s :: rest, known, tidy => by
    have parts := append_subset.1 known
    have both := imp_and.1 fun follows => Bool.and_eq_true_iff.1 (tidy follows)
    exact cons_walks (lowerStmt_walks s true parts.1 both.1)
      (lowerStmts_walks rest parts.2 both.2)
theorem lowerClauses_walks : ∀ (clauses : List Clause), Clause.sitesOfAll clauses ⊆ S.sites →
    (S.follows = true → Clause.allScoped clauses) → ∀ labels, labels.length = clauses.length →
      WalksClauses S (Clause.sitesOfAll clauses) labels (lowerClauses clauses labels)
  | [], _, _, labels, _ => by
    rw [lowerClauses]
    · exact no_clauses
    · simp
  | .mk _ _ :: _, _, _, [], same => nomatch same
  | .mk kind body :: rest, known, tidy, label :: labels, same => by
    have parts := append_subset.1 known
    have both := imp_and.1 fun follows => Bool.and_eq_true_iff.1 (tidy follows)
    exact clause_walks (compound_walks (lowerStmts_walks body parts.1 both.1))
      (lowerClauses_walks rest parts.2 both.2 labels (Nat.succ.inj same))
end

end Tree
end FlatCode.Marks
