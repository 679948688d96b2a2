import FlatCode.Proofs.Marks.Expr

/-! Statements. Between statements no registers are in use, and what is alive is what is owed. A
jump that leaves a statement has destroyed what is owed inside of where it goes. -/
namespace FlatCode.Marks
open Code Symbols Ast Lower List

namespace Scene
variable (S : Setting)

def Grows (inList : Bool) (P Q : Scene) : Prop :=
  ∃ added, Q.state.cleanups = P.state.cleanups.grow added ∧
    (S.follows = true → inList = false → added = [])

structure Rests (inList : Bool) (P Q : Scene) : Prop where
  held : Q.held = []
  level : Q.Level S
  grows : P.Grows S inList Q

variable {S} {P Q R : Scene} {inList : Bool}

theorem Grows.refl (P : Scene) : P.Grows S inList P :=
  ⟨[], (Cleanups.grow_nil _).symm, fun _ _ => rfl⟩

theorem Grows.trans (h : P.Grows S inList Q) (k : Q.Grows S inList R) : P.Grows S inList R := by
  obtain ⟨added, hc, none⟩ := h
  obtain ⟨added', hc', none'⟩ := k
  refine ⟨added' ++ added, by rw [hc', hc, Cleanups.grow_grow], fun follows single => ?_⟩
  rw [none follows single, none' follows single]
  rfl

theorem Grows.mono (h : P.Grows S false Q) : P.Grows S inList Q := by
  obtain ⟨added, hc, none⟩ := h
  exact ⟨added, hc, fun follows _ => none follows rfl⟩

theorem Grows.depth (h : P.Grows S inList Q) :
    Q.state.cleanups.depth = P.state.cleanups.depth := by
  obtain ⟨added, hc, -⟩ := h
  rw [hc, Cleanups.depth_grow]

theorem Grows.alive (h : P.Grows S false Q) :
    S.alive Q.state.cleanups = S.alive P.state.cleanups := by
  obtain ⟨added, hc, none⟩ := h
  cases follows : S.follows with
  | false => rw [alive_of_loose follows, alive_of_loose follows]
  | true => rw [hc, none follows rfl, Cleanups.grow_nil]

theorem Rests.live (h : P.Rests S false Q) (level : P.Level S) : Q.live = P.live := by
  rw [h.level, h.grows.alive, level]

theorem Stands.rests (h : P.Stands [] P.live Q) (level : P.Level S) : P.Rests S inList Q := by
  refine ⟨h.held, ?_, [], h.cleanups.trans (Cleanups.grow_nil _).symm, fun _ _ => rfl⟩
  rw [Level, h.live, h.cleanups]
  exact level

end Scene

structure Stage (S : Setting) (env : Env) (inList : Bool) (P : Scene) : Prop extends
    Begins S env P where
  held : P.held = []
  scope : 0 < P.state.cleanups.depth
  inside : inList = true → ∀ depth ∈ env.depths, depth < P.state.cleanups.depth

structure Past (S : Setting) (env : Env) (inList : Bool) (P : Scene) (e : Exits) (Q : Scene) :
    Prop extends P.Rests S inList Q where
  next : ∀ x ∈ e.next, Q.Carries x [] Q.live
  breaks : ∀ x ∈ e.breaks, ∃ depth, env.breakDepth = some depth ∧
    Q.Carries x [] (S.aliveBelow P.state.cleanups depth)
  continues : ∀ x ∈ e.continues, ∃ depth, env.loopDepth = some depth ∧
    Q.Carries x [] (S.aliveBelow P.state.cleanups depth)

section Stages
variable {S : Setting} {env : Env} {P Q R : Scene} {inList : Bool} {e e' : Exits}
open Scene

theorem Stage.single (h : Stage S env inList P) : Stage S env false P :=
  { h with inside := fun list => nomatch list }

theorem Stage.below (h : Stage S env inList P) (grows : P.Grows S inList Q) :
    ∀ depth ∈ env.depths,
      S.aliveBelow Q.state.cleanups depth = S.aliveBelow P.state.cleanups depth := by
  obtain ⟨added, hc, none⟩ := grows
  intro depth hd
  cases follows : S.follows with
  | false => simp [Setting.aliveBelow, Setting.seen, follows]
  | true =>
    cases inList with
    | false => rw [hc, none follows rfl, Cleanups.grow_nil]
    | true => rw [hc, S.aliveBelow_grow _ (h.inside rfl depth hd)]

theorem Stage.rests (h : Stage S env inList P) (sound : Q.Sound S) (later : P.Later S Q)
    (rests : P.Rests S inList Q) : Stage S env inList Q := by
  refine ⟨⟨sound, h.suits.mono later (h.below rests.grows), rests.level, ?_⟩, rests.held, ?_, ?_⟩
  · rw [rests.grows.depth]
    exact h.within
  · rw [rests.grows.depth]
    exact h.scope
  · rw [rests.grows.depth]
    exact h.inside

theorem Stage.stands (h : Stage S env inList P) (sound : Q.Sound S) (later : P.Later S Q)
    (stands : P.Stands [] P.live Q) : Stage S env inList Q :=
  h.rests sound later (stands.rests h.level)

theorem breakDepth_mem {depth : Nat} (h : env.breakDepth = some depth) : depth ∈ env.depths := by
  simp [Env.depths, h]

theorem loopDepth_mem {depth : Nat} (h : env.loopDepth = some depth) : depth ∈ env.depths := by
  simp [Env.depths, h]

theorem Past.none (h : P.Rests S inList Q) : Past S env inList P .none Q :=
  ⟨h, by simp [Exits.none], by simp [Exits.none], by simp [Exits.none]⟩

theorem Past.mono (h : Past S env false P e Q) : Past S env inList P e Q :=
  { h with grows := h.grows.mono }

theorem Past.trans (stage : Stage S env inList P) (h : Past S env inList P e Q)
    (k : Past S env inList Q e' R) (later : Q.Later S R)
    (next : ∀ x ∈ e.next, Q.Carries x [] R.live) : Past S env inList P (e ++ e') R := by
  refine ⟨⟨k.held, k.level, h.grows.trans k.grows⟩, fun x hx => ?_, fun x hx => ?_, fun x hx => ?_⟩
  · rcases mem_append.1 hx with hx | hx
    · exact (next x hx).mono later
    · exact k.next x hx
  · rcases mem_append.1 hx with hx | hx
    · obtain ⟨depth, hd, carries⟩ := h.breaks x hx
      exact ⟨depth, hd, carries.mono later⟩
    · obtain ⟨depth, hd, carries⟩ := k.breaks x hx
      rw [stage.below h.grows depth (breakDepth_mem hd)] at carries
      exact ⟨depth, hd, carries⟩
  · rcases mem_append.1 hx with hx | hx
    · obtain ⟨depth, hd, carries⟩ := h.continues x hx
      exact ⟨depth, hd, carries.mono later⟩
    · obtain ⟨depth, hd, carries⟩ := k.continues x hx
      rw [stage.below h.grows depth (loopDepth_mem hd)] at carries
      exact ⟨depth, hd, carries⟩

theorem Begins.stage (h : Begins S env P) (sound : Q.Sound S) (later : P.Later S Q)
    (held : Q.held = []) (live : Q.live = P.live)
    (hc : Q.state.cleanups = P.state.cleanups.openScope) : Stage S env true Q := by
  have ready := h.opened sound later live hc
  exact ⟨ready.begins, held, ready.scope, fun _ => ready.inside⟩

theorem Past.closed {O : Scene} (h : Past S env true O e Q) (none : e.next = [])
    (hc : O.state.cleanups = P.state.cleanups.openScope) (later : Q.Later S R)
    (stands : P.Stands [] (S.alive P.state.cleanups) R) : Past S env inList P e R := by
  refine ⟨⟨stands.held, ?_, [], stands.cleanups.trans (Cleanups.grow_nil _).symm, fun _ _ => rfl⟩,
    by simp [none], fun x hx => ?_, fun x hx => ?_⟩
  · rw [Level, stands.live, stands.cleanups]
  · obtain ⟨depth, hd, carries⟩ := h.breaks x hx
    rw [hc, S.aliveBelow_openScope] at carries
    exact ⟨depth, hd, carries.mono later⟩
  · obtain ⟨depth, hd, carries⟩ := h.continues x hx
    rw [hc, S.aliveBelow_openScope] at carries
    exact ⟨depth, hd, carries.mono later⟩

theorem Past.stands (h : Past S env inList P e Q) (stands : Q.Stands [] Q.live R)
    (later : Q.Later S R) : Past S env inList P e R := by
  obtain ⟨added, hc, none⟩ := h.grows
  refine ⟨⟨stands.held, ?_, added, stands.cleanups.trans hc, none⟩, fun x hx => ?_, fun x hx => ?_,
    fun x hx => ?_⟩
  · rw [Level, stands.live, stands.cleanups]
    exact h.level
  · rw [stands.live]
    exact (h.next x hx).mono later
  · obtain ⟨depth, hd, carries⟩ := h.breaks x hx
    exact ⟨depth, hd, carries.mono later⟩
  · obtain ⟨depth, hd, carries⟩ := h.continues x hx
    exact ⟨depth, hd, carries.mono later⟩

theorem Past.append_next (h : Past S env inList P e Q) (pending : Pending)
    (carried : ∀ x ∈ pending, Q.Carries x [] Q.live) :
    Past S env inList P (e ++ .ofNext pending) Q := by
  refine ⟨h.toRests, fun x hx => ?_, fun x hx => h.breaks x ?_, fun x hx => h.continues x ?_⟩
  · rcases mem_append.1 hx with hx | hx
    · exact h.next x hx
    · exact carried x hx
  · exact (append_nil e.breaks) ▸ hx
  · exact (append_nil e.continues) ▸ hx

theorem Past.behind (h : Past S env inList Q e R) (stands : P.Stands [] P.live Q) :
    Past S env inList P e R := by
  obtain ⟨added, hc, none⟩ := h.grows
  rw [stands.cleanups] at hc
  have breaks := h.breaks
  have continues := h.continues
  rw [stands.cleanups] at breaks continues
  exact ⟨⟨h.held, h.level, added, hc, none⟩, h.next, breaks, continues⟩

end Stages

def Walks (S : Setting) (sites : List Site) (inList : Bool) (m : LowerM Exits) : Prop :=
  ∀ env P, Stage S env inList P →
    Arrives S P sites (fun e Q => Past S env inList P e Q) (m env P.state)

def Stays (S : Setting) (sites : List Site) (inList : Bool) (m : LowerM Unit) : Prop :=
  ∀ env P, Stage S env inList P → Arrives S P sites (fun _ Q => P.Rests S inList Q) (m env P.state)

section Simple
variable {S : Setting} {inList : Bool} {a b : List Site}
open Scene
variable {m : LowerM Unit} {e : Expr} {env : Env} {P : Scene}

theorem Stays.straight (h : Stays S a inList m) : Walks S a inList (straight m) :=
  fun env P stage => (h env P stage).last fun _ _ sound _ rests => .here sound (.none rests)

theorem Stays.of_stands
    (h : ∀ env P, Stage S env inList P →
      Arrives S P a (fun _ Q => P.Stands [] P.live Q) (m env P.state))
    : Stays S a inList m :=
  fun env P stage => (h env P stage).mono fun _ _ _ _ stands => stands.rests stage.level

theorem Stays.of_live
    (h : ∀ env P, Stage S env inList P → Arrives S P a (fun _ Q => Q.live = P.live ∧
      Q.state.cleanups = P.state.cleanups) (m env P.state))
    : Stays S a inList m :=
  .of_stands fun env P stage => (h env P stage).reset fun _ _ _ ⟨live, hc⟩ =>
    ⟨stage.held, live, hc⟩

theorem Walks.commented {m : LowerM Exits} (h : Walks S a inList m) (name : String) :
    Walks S a inList (comment name >>= fun _ => m) := by
  intro env P stage
  have commented : Arrives S P [] (fun _ Q => P.Stands [] P.live Q) (comment name env P.state) := by
    refine .ask ?_
    rw [← stage.held]
    split
    · exact emit_comment stage.sound name
    · exact Arrives.here stage.sound ⟨rfl, rfl, rfl⟩
  exact commented.next fun _ Q sound leads stands =>
    (h env Q (stage.stands sound leads.toLater stands)).mono fun _ _ _ _ past => past.behind stands

theorem expression_stays (known : e.sites ⊆ S.sites) :
    Stays S e.sites inList (discard (fullValue e)) :=
  .of_live fun _ _ stage => (fullValue_arrives known stage.toBegins).last
    fun _ _ sound _ stands => .here sound ⟨stands.live, stands.cleanups⟩

theorem assignment_stays {target value : Expr} (ht : target.sites ⊆ S.sites)
    (hv : value.sites ⊆ S.sites) :
    Stays S (target.sites ++ value.sites) inList (lowerAssignment target value) := by
  refine .of_live fun env P stage => ?_
  have assigns (Q : Scene) (_ : P.Leads S [] Q) (ready : Ready S env [] Q) :
      Draws S env Q [] (target.sites ++ value.sites) (fun _ _ => True) (do
        let address ← (plan target).address
        let value ← (plan value).operand
        storeValue address value target.ty) := by
    refine ((plan_fine target ht).address env Q ready).seq fun address R ready' _ _ holds => ?_
    refine (requireValue_draws _ ((plan_fine value hv).value env R ready')).last
      fun x T ready'' leads _ holds' => ?_
    exact (Draws.derived (storeValue_derives address x target.ty) ready''
      (holds_two (holds.mono leads) holds')).mono fun _ _ _ _ _ => trivial
  exact (withTemporaries_arrives stage.toBegins assigns).mono
    fun _ _ _ _ ⟨live, hc, _⟩ => ⟨live, hc⟩

theorem initializeAt_draws {v : VariableId} {ctor : FunctionId} {arguments : List Expr}
    (known : Expr.sitesOfAll arguments ++ [.call (.construction v ctor)] ⊆ S.sites) {l : Location}
    (hl : P.state.location? v = some l) (ready : Ready S env [] P) :
    Draws S env P (own S (.construction v ctor) (some (.reg l.slot)))
      (Expr.sitesOfAll arguments ++ [.call (.construction v ctor)])
      (fun _ Q => Awaits S (.construction v ctor) (some (.reg l.slot)) Q)
        (initializeAt l ctor arguments) := by
  have here : .call (.construction v ctor) ∈ S.sites := known (by simp)
  have called := construct_draws here
    (plans_fine arguments fun x hx => known (mem_append_left _ hx)) ready rfl rfl hl
  unfold initializeAt
  split
  · exact .fail
  · rename_i referent rest shape
    have none : own S (.construction v ctor) (some (.reg l.slot)) = [] := by
      simp [own, CallSite.owed?, not_isDestructible (ready.sound.books.planned hl) shape]
    have awaits (Q : Scene) : Awaits S (.construction v ctor) (some (.reg l.slot)) Q := by
      intro x hx
      rw [none] at hx
      cases hx
    rw [none]
    have referred : referent.sites ⊆ S.sites := fun x hx => known (by simp [Expr.sitesOfAll, hx])
    have done : Site.Done (Expr.sitesOfAll (referent :: rest) ++ [.call (.construction v ctor)])
        referent.sites := by
      rw [Expr.sitesOfAll, append_assoc]
      refine .append_calls _ fun site hs => ?_
      rcases mem_append.1 hs with hs | hs
      · exact Expr.isCall_of_sitesOfAll rest site hs
      · rw [mem_singleton.1 hs]
        rfl
    refine (((plan_fine referent referred).address env P ready).last
      fun x Q ready' leads _ holds => ?_).sites done
    have slot := ((ready.sound.books.slots v l hl).mono leads.toLater).holds
    exact (Draws.derived (.emit (.store l.slot x) rfl rfl) ready' (holds_two slot holds)).mono
      fun _ _ _ _ _ => awaits _
  · exact called

theorem construction_stays {v : VariableId} {ctor : FunctionId} {arguments : List Expr}
    (known : Expr.sitesOfAll arguments ++ [.call (.construction v ctor)] ⊆ S.sites)
    (listed : S.follows = true → inList = true) :
    Stays S (Expr.sitesOfAll arguments ++ [.call (.construction v ctor)]) inList
      (lowerConstruction v ctor arguments) := by
  intro env P stage
  have built : Arrives S P (Expr.sitesOfAll arguments ++ [.call (.construction v ctor)])
      (fun _ Q => Q.Level S ∧ ∃ added, Q.state.cleanups = P.state.cleanups.grow added)
      (lowerConstruction v ctor arguments env P.state) := by
    refine (allocate_arrives stage.sound stage.suits.table v .localVariable).next
      fun l Q sound leads found => ?_
    obtain ⟨stands, hl⟩ := found
    have begins := stage.toBegins.stands sound leads.toLater stands
    refine (withTemporaries_builds begins (fun Q' leads' ready => initializeAt_draws known
      (leads'.widens.houses.stays v l hl) ready) fun _ _ awaits x hx =>
        ⟨v, ctor, (awaits x hx).1⟩).last
      fun _ R sound' leads' found => ?_
    obtain ⟨live, hc, T, behind, awaits, owed⟩ := found
    have scope : 0 < R.state.cleanups.depth := by
      rw [hc, stands.cleanups]
      exact stage.scope
    refine (oweObject_arrives sound' stage.suits.table scope rfl
      (leads'.widens.houses.stays v l hl) (by rw [live, begins.level, hc])
      fun x hx => (awaits x hx).2.mono behind.toLater (hc ▸ owed)).mono fun _ T _ _ found => ?_
    obtain ⟨level, added, hc', _⟩ := found
    exact ⟨level, added, by rw [hc', hc, stands.cleanups]⟩
  refine built.reset fun _ Q _ found => ?_
  obtain ⟨level, added, hc⟩ := found
  refine ⟨stage.held, level, added, hc, fun follows single => ?_⟩
  rw [listed follows] at single
  cases single

theorem returned_draws (known : e.sites ⊆ S.sites) (ready : Ready S env [] P) :
    Draws S env P [] e.sites (fun v Q => ∀ x ∈ v, Q.Holds S x) (returned e) := by
  have value := (plan_fine e known).value env P ready
  refine .ask ?_
  split
  · rename_i slot hslot
    refine (requireValue_draws _ value).last fun x Q ready' leads _ holds => ?_
    have keeps := (ready'.suits.result slot hslot).holds
    exact .ask ((Draws.derived (storeValue_derives _ x _) ready' (holds_two keeps holds)).next
      fun _ R ready'' _ _ _ => .pure ready'' (by simp))
  · refine value.last fun x Q ready' leads _ holds => ?_
    refine .ask (.asked fun void _ => ?_)
    split
    · exact .pure ready' (by simp)
    · exact some_draws (requireValue_draws _ (.pure ready' holds))

theorem return_stays {e : Option Expr} (known : Expr.sitesOfOption e ⊆ S.sites) :
    Stays S (Expr.sitesOfOption e) inList (lowerReturn e) := by
  refine .of_live fun env P stage => ?_
  have leave {a : List Site} (v : Option Operand) (Q : Scene) (sound : Q.Sound S)
      (leads : P.Leads S a Q) (value : (∃ held, P.Stands held P.live Q) ∧ ∀ x ∈ v, Q.Holds S x) :
      Arrives S Q [] (fun _ R => R.live = P.live ∧ R.state.cleanups = P.state.cleanups)
        ((leaveTo 0 >>= fun _ => emitReturn v) env Q.state) := by
    obtain ⟨⟨_, stands⟩, holds⟩ := value
    have begins := stage.toBegins.stands sound leads.toLater stands
    refine (leaveTo_arrives sound begins.suits begins.level 0).next
      fun _ R sound' leads' stands' => ?_
    rw [S.aliveBelow_zero] at stands'
    have built : ∀ x ∈ P.live, R.Built S x := fun x hx =>
      (stage.sound.live x hx).mono (leads.toLater.trans leads'.toLater)
    refine (emitReturn_arrives sound' begins.suits.caller stands'.live
      (fun x hx => (holds x hx).mono leads') built).mono fun _ T _ _ ⟨stands'', _⟩ => ?_
    exact ⟨stands''.live, stands''.cleanups.trans (stands'.cleanups.trans stands.cleanups)⟩
  cases e with
  | none =>
    exact ((defaultReturn_arrives stage.sound).mono fun _ _ _ _ ⟨stands, keeps⟩ =>
      ⟨⟨_, stands⟩, fun x hx => (keeps x hx).holds⟩).last leave
  | some e =>
    exact ((withTemporaries_arrives stage.toBegins fun Q _ ready => returned_draws known ready).mono
      fun _ _ _ _ ⟨live, hc, _, leads, holds⟩ => ⟨⟨_, rfl, live, hc⟩, fun x hx =>
        (holds x hx).mono leads⟩).last leave

theorem leave_arrives (stage : Stage S env inList P) (depth : Nat) :
    Arrives S P [] (fun pending Q => P.Rests S inList Q ∧
        ∀ x ∈ pending, Q.Carries x [] (S.aliveBelow P.state.cleanups depth))
      ((leaveTo depth >>= fun _ => (Draft.pendingJump : LowerM Pending)) env P.state) := by
  refine (leaveTo_arrives stage.sound stage.suits stage.level depth).next
    fun _ Q sound leads stands => ?_
  rw [stage.held] at stands
  refine (pendingJump_arrives sound fun x hx => (stage.sound.live x hx).mono leads.toLater).mono
    fun pending R _ _ ⟨stands', _, _, carried⟩ => ?_
  rw [stands.held] at stands' carried
  rw [stands.live] at carried
  exact ⟨(stands.trans stands').rests stage.level, carried⟩

theorem jumpOut_walks {depth? : Env → Option Nat} {missing : Error} {exits : Pending → Exits}
    (h : ∀ env P Q pending depth, depth? env = some depth → P.Rests S inList Q →
      (∀ x ∈ pending, Q.Carries x [] (S.aliveBelow P.state.cleanups depth)) →
      Past S env inList P (exits pending) Q) :
    Walks S [] inList (jumpOut depth? missing exits) := by
  intro env P stage
  refine .ask ?_
  cases hd : depth? env with
  | none => exact trivial
  | some depth =>
    dsimp only
    rw [← bind_assoc]
    exact (leave_arrives stage depth).next fun pending Q sound _ ⟨rests, carried⟩ =>
      .here sound (h env P Q pending depth hd rests carried)

theorem break_walks : Walks S [] inList lowerBreak :=
  jumpOut_walks fun _ _ _ _ depth hd rests carried =>
    ⟨rests, by simp, fun x hx => ⟨depth, hd, carried x hx⟩, by simp⟩

theorem continue_walks : Walks S [] inList lowerContinue :=
  jumpOut_walks fun _ _ _ _ depth hd rests carried =>
    ⟨rests, by simp, by simp, fun x hx => ⟨depth, hd, carried x hx⟩⟩

theorem jumpTo_arrives (h : P.Sound S) {l : Label} {live : List Operand}
    (promised : P.Promises l ⟨.ordinary, P.held, P.live⟩) (built : ∀ x ∈ live, P.Built S x) :
    Arrives S P [] (fun _ Q => P.Stands P.held live Q) (jumpTo l env P.state) := by
  refine (emit_end (i := .jump (some l)) h rfl (fun o ho => nomatch ho) built (.jump (.inl rfl))
    (fun e l' hl => ?_) rfl).mono fun _ _ _ _ ⟨stands, _⟩ => stands
  cases e <;> cases hl
  exact promised

theorem gotoCase_stays {find : CaseMap → Except Error CaseTarget}
    (found : ∀ m target, find m = .ok target → target ∈ m.targets) :
    Stays S [] inList (lowerGotoCase find) := by
  refine .of_stands fun env P stage => ?_
  refine .ask ?_
  cases hs : env.switch with
  | none => exact trivial
  | some active =>
    refine Arrives.query fun target ht => ?_
    refine (leaveTo_arrives stage.sound stage.suits stage.level active.depth).next
      fun _ Q sound leads stands => ?_
    have promised : Q.Promises target.label ⟨.ordinary, Q.held, Q.live⟩ := by
      rw [stands.held, stage.held, stands.live]
      exact (stage.suits.switch active hs target (found _ _ ht)).mono leads.toLater
    refine (jumpTo_arrives sound promised fun x hx =>
      (stage.sound.live x hx).mono leads.toLater).mono fun _ R _ _ stands' => ?_
    rw [stands.held, stage.held] at stands'
    exact stands.trans stands'

theorem throw_stays (known : e.sites ⊆ S.sites) :
    Stays S (e.sites ++ [.throw_]) inList (lowerThrow e) := by
  refine .of_live fun env P stage => ?_
  refine (fullOperand_arrives known stage.toBegins).seq
    fun x Q sound leads ⟨⟨_, stands⟩, holds⟩ => ?_
  refine (Arrives.derived (exceptionCode_derives x) sound (holds_one holds)).next
    fun code R sound' leads' ⟨⟨_, stands'⟩, holds'⟩ => ?_
  have holds' := forall_mem_singleton.1 holds'
  refine (statusSlot_arrives sound').next fun slot T sound'' leads'' ⟨stands'', hs⟩ => ?_
  rw [stands.live] at stands'
  rw [stands'.live] at stands''
  have all := (stands.trans stands').trans stands''
  have begins := stage.toBegins.stands sound''
    ((leads.toLater.trans leads'.toLater).trans leads''.toLater) all
  refine (throw_arrives sound'' begins.suits hs begins.level (holds'.mono leads'')).mono
    fun _ U _ _ stands3 => ?_
  exact ⟨stands3.live.trans all.live, stands3.cleanups.trans all.cleanups⟩

end Simple

section Names
variable {S : Setting} {env : Env} {P : Scene} {inList : Bool}
open Scene

theorem mem_waiting {g : Gotos} {name : String} {b : PendingBranch} (h : b ∈ g.waiting name) :
    ∃ p ∈ g.pending, b ∈ p.2 := by
  unfold Gotos.waiting at h
  cases hl : g.pending.lookup name with
  | none => simp [hl] at h
  | some pending =>
    obtain ⟨before, behind, split, -⟩ := lookup_eq_some_iff.1 hl
    exact ⟨(name, pending), by simp [split], by simpa [hl] using h⟩

theorem setGotos_arrives (h : P.Sound S) {g : Gotos}
    (placed : S.follows = false → ∀ p ∈ g.placed, P.Promises p.2 ⟨.ordinary, [], []⟩)
    (waiting : ∀ p ∈ g.pending, ∀ b ∈ p.2, S.follows = false ∧ P.Carries b [] []) :
    Arrives S P [] (fun _ Q => P.Stands P.held P.live Q)
      ((modify fun s => { s with gotos := g } : LowerM Unit) env P.state) := by
  have w : S.Widens P.state { P.state with gotos := g } :=
    .of_same rfl rfl rfl rfl
  have books : (P.widen { P.state with gotos := g }).Books S :=
    h.books.mono (later_widen w) h.books.entry (fun i hi => .inl hi) (fun v l hl => .inl hl)
      (fun o ho => .inl ho) (fun pad hp => .inl hp) (fun loose p hp => .inr (placed loose p hp))
      fun p hp b hb => .inr (waiting p hp b hb)
  exact ⟨P.widen { P.state with gotos := g }, rfl,
    h.widen (h.toFirm.widen w rfl rfl books h.lived.owed) rfl rfl,
    .of_notes (later_widen w) (fun _ hr => hr) rfl fun h => h, rfl, rfl, rfl⟩

theorem jumpToName_arrives (h : P.Sound S) (loose : S.follows = false) (idle : P.held = [])
    (name : String) :
    Arrives S P [] (fun _ Q => P.Stands [] P.live Q) (jumpToName name env P.state) := by
  have live : P.live = [] := h.live_eq_nil loose
  refine .look ?_
  cases hl : P.state.gotos.placed.lookup name with
  | some l =>
    obtain ⟨before, behind, split, -⟩ := lookup_eq_some_iff.1 hl
    have promised := h.books.placed loose (name, l) (by simp [split])
    rw [← live, ← idle] at promised
    rw [← idle]
    exact jumpTo_arrives h promised h.live
  | none =>
    refine (pendingJump_arrives h h.live).next
      fun pending Q sound leads ⟨stands, _, _, carried⟩ => ?_
    rw [idle, live] at carried
    rw [idle] at stands
    have waiting : ∀ p ∈ P.state.gotos.pending, ∀ b ∈ p.2, Q.Carries b [] [] := fun p hp b hb =>
      (h.books.waiting p hp b hb).2.mono leads.toLater
    have placed : ∀ p ∈ P.state.gotos.placed, Q.Promises p.2 ⟨.ordinary, [], []⟩ := fun p hp =>
      (h.books.placed loose p hp).mono leads.toLater
    refine (setGotos_arrives (g := P.state.gotos.await name pending) sound (fun _ => placed)
      fun p hp b hb => ⟨loose, ?_⟩).mono fun _ T _ _ stands' => stands.same stands'
    rcases mem_append.1 hp with hp | hp
    · exact waiting p (mem_filter.1 hp).1 b hb
    · cases mem_singleton.1 hp
      rcases mem_append.1 hb with hb | hb
      · obtain ⟨p', hp', hb'⟩ := mem_waiting hb
        exact waiting p' hp' b hb'
      · exact carried b hb

theorem goto_stays (loose : S.follows = false) (label : String) :
    Stays S [] inList (lowerGoto label) := by
  refine .of_stands fun env P stage => ?_
  refine .ask (Arrives.query fun ids _ => .ask ?_)
  refine (leaveTo_arrives stage.sound stage.suits stage.level _).next
    fun _ Q sound leads stands => ?_
  rw [stage.held] at stands
  refine (jumpToName_arrives sound loose stands.held label).mono fun _ R sound' leads' stands' => ?_
  have all := stands.trans stands'
  exact ⟨all.held, by rw [all.live, sound.live_eq_nil loose, stage.sound.live_eq_nil loose],
    all.cleanups⟩

theorem placeName_arrives (stage : Stage S env inList P) (name : String) :
    Arrives S P [] (fun _ Q => P.Stands [] P.live Q) (placeName name env P.state) := by
  refine .look ?_
  split
  · exact trivial
  · refine (hereLabel_arrives stage.sound).next fun l Q sound leads ⟨stands, promised⟩ => ?_
    rw [stage.held] at stands promised
    have carried : ∀ b ∈ P.state.gotos.waiting name, Q.Carries b [] P.live := by
      intro b hb
      obtain ⟨p, hp, hb⟩ := mem_waiting hb
      obtain ⟨loose, carries⟩ := stage.sound.books.waiting p hp b hb
      rw [stage.sound.live_eq_nil loose]
      exact carries.mono leads.toLater
    refine (resolveTo_arrives sound carried promised).next fun _ R sound' leads' stands' => ?_
    have later := leads.toLater.trans leads'.toLater
    refine (setGotos_arrives sound' (fun loose p hp => ?_) fun p hp b hb => ?_).next
      fun _ T sound'' _ stands'' => ?_
    · rcases mem_cons.1 hp with rfl | hp
      · rw [← stage.sound.live_eq_nil loose]
        exact promised.mono leads'.toLater
      · exact (stage.sound.books.placed loose p hp).mono later
    · obtain ⟨loose, carries⟩ := stage.sound.books.waiting p (mem_filter.1 hp).1 b hb
      exact ⟨loose, carries.mono later⟩
    · exact .here sound'' ((stands.same stands').same stands'')

theorem destruction_stays (loose : S.follows = false) {object : Expr}
    (known : object.sites ⊆ S.sites) (destructor : FunctionId) :
    Stays S object.sites inList (lowerDestruction object destructor) := by
  refine .of_live fun env P stage => ?_
  have destroys (Q : Scene) (_ : P.Leads S [] Q) (ready : Ready S env [] Q) :
      Draws S env Q [] object.sites (fun _ _ => True) (do
        let address ← (plan object).address
        if ← emitDestructor ⟨address, destructor⟩ then testStatus 0) := by
    refine ((plan_fine object known).address env Q ready).last fun address R ready' _ _ holds => ?_
    have outlives : R.Outlives S [] [⟨address, destructor⟩] := .inl rfl
    refine .still ready' (Ends.seq (emitDestructor_arrives ready'.sound ready'.suits.table
      holds (fun follows => by simp [loose] at follows) (.inl ⟨loose, rfl⟩) outlives) ?_)
    rintro raises _ ⟨T, rfl, leads, stands, arrived⟩
    cases raises with
    | false => exact ⟨T, rfl, arrived, leads, ⟨_, stands⟩, trivial⟩
    | true =>
      obtain ⟨called, slot, hs⟩ := arrived
      refine Ends.mono (testStatus_arrives called (ready'.suits.frame leads.toLater stands.cleanups)
        hs fun x hx => ?_) ?_
      · rw [called.live_eq_nil loose] at hx
        cases hx
      · rintro _ _ ⟨U, rfl, sound, extends_, stands'⟩
        exact ⟨U, rfl, sound, leads.trans (extends_.leads_of_none rfl),
          ⟨_, stands.same stands'⟩, trivial⟩
  exact (withTemporaries_arrives stage.toBegins destroys).mono
    fun _ _ _ _ ⟨live, hc, _⟩ => ⟨live, hc⟩

end Names
end FlatCode.Marks
