import FlatCode.Proofs.Marks.Label

/-! Failures. Behind a call that can fail, its status is tested, and a landing pad is noted that
destroys what is alive; a throw goes to such a pad as well, and a handler starts by clearing the
status. Each of these is a block of code with marks of its own. -/
namespace FlatCode

namespace Draft
open Code Array

theorem modify_before_last {α : Type} (a : Array α) (x y : α) (f : α → α) :
    ((a.push x).push y).modify a.size f = (a.push (f x)).push y := by
  apply ext_getElem?
  intro k
  simp only [getElem?_modify, getElem?_push, size_push]
  by_cases last : k = a.size + 1
  · simp [last]
  · by_cases here : k = a.size
    · simp [here]
    · simp [last, here, Ne.symm here]

theorem resolveRequiredHere_branch (d : Draft) (c : Operand) (positive : Option Label) :
    resolveRequiredHere [⟨⟨d.body.size⟩, .negative⟩]
        { d with body := d.body.push (.branch c positive none) } =
      .ok ⟨d.labels⟩ { d with
        body := (d.body.push (.branch c positive (some ⟨d.labels⟩))).push (.label ⟨d.labels⟩)
        labels := d.labels + 1 } := by
  obtain ⟨l, last, -⟩ | ⟨-, made⟩ :=
    hereLabel_cases { d with body := d.body.push (.branch c positive none) }
  · simp at last
  · have waits : Open { d with
          labels := d.labels + 1
          body := (d.body.push (.branch c positive none)).push (.label ⟨d.labels⟩) }
        ⟨⟨d.body.size⟩, .negative⟩ := by
      have there : ((d.body.push (.branch c positive none)).push
        (.label ⟨d.labels⟩))[d.body.size]? =
          some (.branch c positive none) := by
        rw [getElem?_push, if_neg (by simp), getElem?_push_size]
      simp only [Open, there]
      rfl
    have set := patch_open waits ⟨d.labels⟩
    simp only [modify_before_last, Instr.setTarget] at set
    refine (bind_of_ok made).trans (bind_of_ok (a := ⟨⟩) ?_)
    exact bind_of_ok set

end Draft

def CaseMap.targets (m : CaseMap) : List CaseTarget := m.cases ++ m.default.toList

def Lower.Env.depths (env : Lower.Env) : List Nat :=
  env.region.toList.map Lower.Region.depth ++ env.switch.toList.map Lower.ActiveSwitch.depth ++
    env.breakDepth.toList ++ env.loopDepth.toList

namespace Marks
open Code Symbols Ast Lower
variable {slot : Register} {objects : List Operand} {loss : Option (List Operand)}

def withPad (env : Env) (destroyed : Nat) (s : State) : State :=
  { s with
    draft := { s.draft with labels := s.draft.labels + 1 }
    pads := s.pads.note ⟨s.draft.labels⟩ (env.region.map Region.handler)
      ((s.cleanups.pendingFrom env.regionDepth).drop destroyed) }

theorem notePad_eq (env : Env) (destroyed : Nat) (s : State) :
    notePad destroyed env s = .ok ⟨s.draft.labels⟩ (withPad env destroyed s) := by
  unfold withPad Env.regionDepth
  cases hr : env.region <;> (change EStateM.Result.ok _ _ = _; rw [hr])

theorem testStatus_eq (env : Env) (destroyed : Nat) {s : State} (hs : s.status = some slot) :
    testStatus destroyed env s = .ok ⟨⟩ { withPad env destroyed s with
      draft := { s.draft with
        registers := s.draft.registers.push .status
        body := ((s.draft.body.push (.load ⟨s.draft.registers.size⟩ slot)).push
          (.branch (.reg ⟨s.draft.registers.size⟩) (some ⟨s.draft.labels⟩)
            (some ⟨s.draft.labels + 1⟩))).push (.label ⟨s.draft.labels + 1⟩)
        labels := s.draft.labels + 2 } } := by
  obtain ⟨slot', status, made⟩ := withStatus_status s
  have same : withStatus s = s := by simp [withStatus, hs]
  rw [same] at made status
  obtain rfl : slot' = slot := by simpa [hs] using status.symm
  let loaded : State := { s with draft := { s.draft with
    registers := s.draft.registers.push .status
    body := s.draft.body.push (.load ⟨s.draft.registers.size⟩ slot') } }
  let tested : State := { withPad env destroyed loaded with
    draft := { (withPad env destroyed loaded).draft with
      body := loaded.draft.body.push
        (.branch (.reg ⟨s.draft.registers.size⟩) (some ⟨s.draft.labels⟩) none) } }
  have load : emit (.load ⟨s.draft.registers.size⟩ slot') env (withRegister s .status) =
      .ok ⟨⟩ loaded := rfl
  have branch : (liftM (Draft.emit (.branch (.reg ⟨s.draft.registers.size⟩)
      (some ⟨s.draft.labels⟩) none)) : LowerM InstrId) env (withPad env destroyed loaded) =
      .ok ⟨loaded.draft.body.size⟩ tested := rfl
  have set := Draft.resolveRequiredHere_branch (withPad env destroyed loaded).draft
    (.reg ⟨s.draft.registers.size⟩) (some ⟨s.draft.labels⟩)
  have register : (liftM (Draft.newRegister .status) : LowerM Register) env s =
      .ok ⟨s.draft.registers.size⟩ (withRegister s .status) := rfl
  unfold testStatus
  rw [run_bind (made env), run_bind register, run_bind load,
    run_bind (notePad_eq env destroyed loaded), run_bind branch, run_bind (run_edit set)]
  rfl

structure Suits (S : Setting) (env : Env) (P : Scene) : Prop where
  table : env.symbols = S.table
  caller : env.symbol.name = S.caller
  result : ∀ r, env.result = some r → P.Keeps S (.reg r)
  callerStatus : ∀ r, env.callerStatus = some r → P.Keeps S (.reg r)
  region : ∀ region, env.region = some region → P.Promises region.handler
    ⟨.caught, [], S.aliveBelow P.state.cleanups region.depth⟩
  switch : ∀ active, env.switch = some active → ∀ target ∈ active.cases.targets,
    P.Promises target.label ⟨.ordinary, [], S.aliveBelow P.state.cleanups active.depth⟩

namespace Suits
variable {S : Setting} {env : Env} {P Q : Scene}

theorem mono (h : Suits S env P) (later : P.Later S Q) (same : ∀ depth ∈ env.depths,
    S.aliveBelow Q.state.cleanups depth = S.aliveBelow P.state.cleanups depth) :
    Suits S env Q := by
  refine ⟨h.table, h.caller, fun r hr => (h.result r hr).mono later,
    fun r hr => (h.callerStatus r hr).mono later, fun region hr => ?_,
    fun active ha target ht => ?_⟩
  · rw [same region.depth (by simp [Env.depths, hr])]
    exact (h.region region hr).mono later
  · rw [same active.depth (by simp [Env.depths, ha])]
    exact (h.switch active ha target ht).mono later

theorem frame (h : Suits S env P) (later : P.Later S Q)
    (cleanups : Q.state.cleanups = P.state.cleanups) : Suits S env Q :=
  h.mono later fun _ _ => by rw [cleanups]

end Suits

namespace Setting
variable (S : Setting)

theorem alive_split (c : Cleanups) (depth : Nat) :
    S.alive c = S.seen ((c.pendingFrom depth).map Obligation.object) ++ S.aliveBelow c depth := by
  unfold alive aliveBelow
  rw [← S.seen_append, ← List.map_append, c.pendingFrom_append_pendingBelow]

@[simp] theorem aliveBelow_zero (c : Cleanups) : S.aliveBelow c 0 = [] := by
  simp [aliveBelow, Cleanups.pendingBelow, Cleanups.depth]

/-- What a landing pad expects that is noted when some of the objects inside of a depth have been
destroyed. -/
def unwound (c : Cleanups) (depth destroyed : Nat) : List Operand :=
  S.seen (((c.pendingFrom depth).drop destroyed).map Obligation.object) ++ S.aliveBelow c depth

@[simp] theorem unwound_zero (c : Cleanups) (depth : Nat) : S.unwound c depth 0 = S.alive c := by
  rw [unwound, List.drop_zero, ← alive_split]

theorem seen_drop (l : List α) (n : Nat) : S.seen (l.drop n) = (S.seen l).drop n := by
  unfold seen
  split <;> simp

theorem unwound_sublist (c : Cleanups) (depth destroyed : Nat) :
    (S.unwound c depth destroyed).Sublist (S.alive c) := by
  rw [S.alive_split c depth, unwound, List.map_drop, S.seen_drop]
  exact (List.drop_sublist _ _).append (.refl _)

variable {S}

/-- Of what is alive when some objects have been destroyed, a landing pad leaves nothing out. -/
theorem mem_unwound {c : Cleanups} (depth : Nat) {destroyed : Nat} {x : Operand}
    (h : x ∈ (S.alive c).drop destroyed) : x ∈ S.unwound c depth destroyed := by
  rw [S.alive_split c depth, List.drop_append] at h
  rw [unwound, List.map_drop, S.seen_drop]
  rcases List.mem_append.1 h with h | h
  · exact List.mem_append_left _ h
  · exact List.mem_append_right _ (List.mem_of_mem_drop h)

end Setting

namespace Scene
variable {S : Setting} {P Q : Scene} {env : Env} {destroyed : Nat}

def padMark (S : Setting) (env : Env) (destroyed : Nat) (s : State) : Mark :=
  ⟨.unwinding, [], S.unwound s.cleanups env.regionDepth destroyed⟩

def notePad (S : Setting) (env : Env) (destroyed : Nat) (P : Scene) : Scene :=
  (P.withLabel (padMark S env destroyed P.state)).widen (withPad env destroyed P.state)

theorem widens_pad (q : Mark) :
    S.Widens (P.withLabel q).state (withPad env destroyed P.state) :=
  .of_same rfl rfl rfl rfl

theorem later_notePad : P.Later S (P.notePad S env destroyed) :=
  later_withLabel.trans
    ⟨fun _ _ h => h, fun _ q h => ⟨q, h, q.le_refl⟩, widens_pad _⟩

theorem promise_notePad (h : P.Typed S) :
    (P.notePad S env destroyed).promise ⟨P.state.draft.labels⟩ =
      some (padMark S env destroyed P.state) := by
  have made := promise_new (P := P) (q := padMark S env destroyed P.state)
  rw [h.labels] at made
  exact made

theorem Firm.notePad (h : P.Firm S) (suits : Suits S env P) :
    (P.notePad S env destroyed).Firm S := by
  have later : P.Later S (P.notePad S env destroyed) := later_notePad
  let pad : LandingPad := ⟨P.state.pads.pads.size, ⟨P.state.draft.labels⟩,
    env.region.map Region.handler,
    (P.state.cleanups.pendingFrom env.regionDepth).drop destroyed⟩
  have owed : ∀ o ∈ pad.cleanups, (P.notePad S env destroyed).Owes S o := by
    intro o ho
    have here : o ∈ P.state.cleanups.pendingFrom 0 := by
      rw [← P.state.cleanups.pendingFrom_append_pendingBelow env.regionDepth]
      exact List.mem_append_left _ (List.mem_of_mem_drop ho)
    exact (h.books.owed o here).mono later
  have fits : (P.notePad S env destroyed).PadFits S pad := by
    refine ⟨owed, S.aliveBelow P.state.cleanups env.regionDepth,
      .of_eq (promise_notePad h.typed), ?_, ?_⟩
    · exact (h.lived.owed.sublist (S.unwound_sublist _ _ _)).mono later
    · unfold Env.regionDepth
      dsimp only [pad]
      cases hr : env.region with
      | none => simp
      | some region => exact (suits.region region hr).mono later
  refine h.withLabel.widen (widens_pad _) rfl rfl ?_ (h.lived.owed.mono later_withLabel)
  refine h.books.mono later h.books.entry (fun i hi => .inl hi) (fun v l hl => .inl hl)
    (fun o ho => .inl ho) (fun pad' hp => ?_) (fun _ p hp => .inl hp)
    (fun p hp b hb => .inl ⟨p, hp, hb⟩)
  rcases Array.mem_push.1 hp with hp | rfl
  · exact .inl hp
  · exact .inr fits

theorem Books.read_status (h : P.Books S) {held : List Register} {r : Register}
    (hr : ∃ slot, P.state.status = some slot ∧ Operand.reg r = .reg slot) :
    S.Reads P.state held r := by
  obtain ⟨slot, hs, same⟩ := hr
  cases same
  exact ⟨.inl (h.status hs).1, (h.status hs).2⟩

structure Called (S : Setting) (objects : List Operand) (loss : Option (List Operand))
    (P : Scene) : Prop extends P.Firm S where
  mark : P.mark = ⟨.called objects loss, P.held, P.live⟩
  built : ∀ x ∈ objects, P.Built S x
  raises : P.Raises P.state.pads.labels
  left : ∀ x ∈ P.mark.phase.left, ∃ j, P.notes.size = j + 1 ∧ P.LeavesOut S j x

theorem Sound.push_attempt (h : P.Sound S) {origin : Origin} {callee : Callee}
    {arguments : List Operand} (dest : Option Register) {live : List Operand}
    (calls : Calls S P.state origin callee arguments true)
    (reads : ∀ o ∈ callee.operands ++ arguments,
      (∃ slot, P.state.status = some slot ∧ o = .reg slot) ∨ P.Holds S o)
    (hdest : ∀ r, dest = some r → P.state.Usable r)
    (slot : ∀ r, origin.slot? = some r → P.FreeSlot r)
    (attempts : Attempts S P.state origin P.live objects loss live)
    (due : S.follows = true → ∀ o, origin = .destructor o → P.Due S o)
    (left : ∀ x ∈ (Phase.called objects loss).left, ∀ n,
      (P.push (P.note origin) (.call callee arguments dest) n).LeavesOut S P.notes.size x) :
    (P.push (P.note origin) (.call callee arguments dest)
      ⟨.called objects loss, dest.toList ++ P.held, live⟩).Called S objects loss := by
  have fits : Fits S P.state P.promise (P.note origin) (.call callee arguments dest)
      ⟨.called objects loss, dest.toList ++ P.held, live⟩ :=
    fits_inline (.attempt calls attempts) rfl
      (fun r hr => (reads _ hr).elim h.books.read_status Holds.read) hdest
      (fun r hr => mem_dest_append (i := .call callee arguments dest) hr)
  refine ⟨h.toFirm.push h.mark fits (fun r hr => held_dest (i := .call callee arguments dest)
    hdest hr) h.live (fun x hx => .inr (h.live x (attempts.mem hx))) slot
    (fun l _ hl => nomatch hl) due (fun _ hx => nomatch hx), rfl, fun x hx => ?_, ?_,
    fun x hx => ⟨_, Array.size_push .., left x hx _⟩⟩
  · exact ⟨P.note origin, mem_notes_push.2 (.inr rfl), attempts.objects_mem hx⟩
  · exact h.raises.push_none h.typed.size (by simp [Scene.note]) rfl

theorem Called.push_load (h : P.Called S objects loss) {code : Register}
    (hs : P.state.status = some slot) (usable : P.state.Usable code) :
    (P.push ⟨⟨.called objects loss, P.held, P.live⟩, .plain⟩ (.load code slot)
      ⟨.loaded code objects loss, code :: P.held, P.live⟩).Firm S := by
  have dest : ∀ r, (Instr.load code slot).dest? = some r → P.state.Usable r := by
    intro r hr
    cases hr
    exact usable
  have left := h.left
  rw [h.mark] at left
  exact h.toFirm.push (h.mark ▸ Mark.le_refl _) (fits_inline (.load hs) rfl
    (fun r hr => h.books.read_status ⟨slot, hs, List.mem_singleton.1 hr⟩) dest
    fun r hr => mem_dest_append (i := .load code slot) hr)
    (fun r hr => held_dest (i := .load code slot) dest hr) h.live
    (fun x hx => .inr (h.live x hx)) (fun r hr => nomatch hr) (fun l _ hl => nomatch hl) nofun left

/-- The status is tested, and control goes on behind the test if the call has not failed. -/
theorem Firm.push_test (h : P.Firm S) {found : List Operand} {code : Register} {pad next : Label}
    (mark : P.mark = ⟨.loaded code objects loss, P.held, P.live⟩) (held : code ∈ P.held)
    (hpad : P.promise pad = some ⟨.unwinding, [], found⟩) (finds : Finds P.live loss found)
    (hnext : P.promise next = some ⟨.ordinary, P.held, objects ++ P.live⟩)
    (fresh : ∀ k : Nat, P.state.draft.body[k]? ≠ some (.label next))
    (built : ∀ x ∈ objects, P.Built S x) :
    ((P.push ⟨⟨.loaded code objects loss, P.held, P.live⟩, .plain⟩
      (.branch (.reg code) (some pad) (some next)) ⟨.tested next, P.held, objects ++ P.live⟩).push
        ⟨⟨.tested next, P.held, objects ++ P.live⟩, .plain⟩ (.label next)
        ⟨.ordinary, P.held, objects ++ P.live⟩).Firm S := by
  have alive : ∀ x ∈ objects ++ P.live, P.Built S x := by
    intro x hx
    rcases List.mem_append.1 hx with hx | hx
    · exact built x hx
    · exact h.live x hx
  have test : Fits S P.state P.promise ⟨⟨.loaded code objects loss, P.held, P.live⟩, .plain⟩
      (.branch (.reg code) (some pad) (some next)) ⟨.tested next, P.held, objects ++ P.live⟩ := by
    refine fits_end .test rfl (fun r hr => ?_) (fun e l hl => ?_) fun l hl => nomatch hl
    · cases List.mem_singleton.1 hr
      exact ⟨.inr held, (h.held code held).1⟩
    · cases e with
      | positive =>
        cases hl
        exact ⟨_, hpad, ⟨rfl, finds⟩, fun r hr => nomatch hr⟩
      | negative =>
        cases hl
        exact ⟨_, hnext, ⟨rfl, rfl⟩, fun r hr => hr⟩
      | unconditional => cases hl
  have tested := h.push (mark ▸ Mark.le_refl _) test (fun r hr => .inl hr) h.live
    (fun x hx => .inr (alive x hx)) (fun r hr => nomatch hr) (fun l _ hl => nomatch hl) nofun
    (fun _ hx => nomatch hx)
  refine tested.push (Mark.le_refl _) (fits_label hnext .passed (.inr fun _ hr => hr))
    (fun r hr => .inl hr) tested.live (fun x hx => .inr (tested.live x hx))
    (fun r hr => nomatch hr) (fun l q hl _ _ k hk => ?_) nofun (fun _ hx => nomatch hx)
  cases hl
  change (P.state.draft.body.push _)[k]? = _ at hk
  rw [Array.getElem?_push] at hk
  split at hk
  · cases hk
  · exact fresh k hk

theorem Promises.get_idle {l : Label} {phase : Phase} {live : List Operand}
    (h : P.Promises l ⟨phase, [], live⟩) (awake : phase ≠ .dead) :
    P.promise l = some ⟨phase, [], live⟩ := by
  obtain ⟨⟨_, held, _⟩, hq, ⟨dead, -⟩ | ⟨rfl, rfl, sub⟩⟩ := h
  · exact absurd dead awake
  · obtain rfl : held = [] := List.eq_nil_iff_forall_not_mem.2 fun r hr => nomatch sub r hr
    exact hq

/-- A label is placed where control does not come from above. -/
theorem Firm.push_entry (h : P.Firm S) (dead : P.mark.phase = .dead) {origin : Origin} {l : Label}
    {phase : Phase} {live : List Operand} (hl : P.promise l = some ⟨phase, [], live⟩)
    (turn : Turn S P.state origin .dead P.live (.label l) phase live)
    (built : ∀ x ∈ live, P.Built S x) (slot : origin.slot? = none) :
    (P.push ⟨⟨.dead, [], P.live⟩, origin⟩ (.label l) ⟨phase, [], live⟩).Firm S := by
  refine h.push (.inl ⟨dead, .inl rfl⟩) (fits_label hl turn (.inl rfl)) (fun r hr => nomatch hr)
    h.live (fun x hx => .inr (built x hx)) (fun r hr => ?_) (fun l' q hl' hq ne => ?_)
    (fun _ o same => ?_) (fun _ hx => nomatch hx)
  · rw [slot] at hr
    cases hr
  · cases hl'
    cases hl.symm.trans hq
    exact absurd rfl ne
  · subst same
    cases turn

theorem Extends.keep {origin : Origin} (h : P.Extends S origin Q) :
    P.Extends S origin (Q.keep P.held Q.live) :=
  ⟨⟨h.notes, h.promises, h.widens⟩, fun _ hr => hr, h.calls, h.slots, h.switch⟩

end Scene

section Blocks
variable {S : Setting} {P : Scene} {env : Env} {destroyed : Nat}
open Scene

theorem testStatus_arrives (h : P.Called S objects loss) (suits : Suits S env P)
    (hs : P.state.status = some slot)
    (finds : Finds P.live loss (S.unwound P.state.cleanups env.regionDepth destroyed)) :
    Ensures (fun _ t => ∃ Q : Scene, Q.state = t ∧ Q.Sound S ∧
        P.Extends S .plain Q ∧ P.Stands P.held (objects ++ P.live) Q)
      (testStatus destroyed env P.state) := by
  let code : Register := ⟨P.state.draft.registers.size⟩
  let P1 := P.widen (withRegister P.state .status)
  let P2 := P1.push ⟨⟨.called objects loss, P.held, P.live⟩, .plain⟩ (.load code slot)
    ⟨.loaded code objects loss, code :: P.held, P.live⟩
  let P3 := P2.notePad S env destroyed
  let P4 := P3.withLabel ⟨.ordinary, code :: P.held, objects ++ P.live⟩
  let pad : Label := ⟨P.state.draft.labels⟩
  let next : Label := ⟨P.state.draft.labels + 1⟩
  let P5 := P4.push ⟨P4.mark, .plain⟩ (.branch (.reg code) (some pad) (some next))
    ⟨.tested next, code :: P.held, objects ++ P.live⟩
  let P6 := P5.push ⟨P5.mark, .plain⟩ (.label next)
    ⟨.ordinary, code :: P.held, objects ++ P.live⟩
  have h1 : P1.Called S objects loss := by
    refine ⟨firm_register h.toFirm .status, h.mark, h.built, h.raises.frame rfl rfl, fun x hx => ?_⟩
    obtain ⟨j, size, leaves⟩ := h.left x hx
    exact ⟨j, size, leaves.mono (later_widen (widens_register .status))⟩
  have h2 : P2.Firm S := h1.push_load hs ⟨by simp [P1, code, Scene.widen, withRegister],
    status_ne h.books⟩
  have later2 : P.Later S P2 := (later_widen (widens_register .status)).trans later_push
  have suits2 : Suits S env P2 := suits.frame later2 rfl
  have h3 : P3.Firm S := h2.notePad suits2
  have h4 : P4.Firm S := h3.withLabel
  have hpad : P4.promise pad = some (padMark S env destroyed P.state) :=
    promise_old (promise_notePad h2.typed)
  have hnext : P4.promise next = some ⟨.ordinary, code :: P.held, objects ++ P.live⟩ := by
    have made := promise_new (P := P3) (q := ⟨.ordinary, code :: P.held, objects ++ P.live⟩)
    rw [h3.typed.labels] at made
    exact made
  have fresh : ∀ k : Nat, P4.state.draft.body[k]? ≠ some (.label next) := by
    refine h3.typed.label_fresh ?_
    have size := h3.typed.labels
    exact Array.getElem?_eq_none (by rw [size]; exact Nat.le_refl _)
  have h6 : P6.Firm S := h4.push_test rfl List.mem_cons_self hpad finds hnext fresh
    fun x hx => (h.built x hx).mono (later2.trans (later_notePad.trans later_withLabel))
  have raises : P6.Raises P6.state.pads.labels := by
    have loaded : P2.Raises P.state.pads.labels :=
      (h.raises.frame (Q := P1) rfl rfl).push_none h1.typed.size
        (show Phase.called objects loss ≠ _ by simp) rfl
    have tested : P5.Raises (P.state.pads.labels ++ [pad]) :=
      (loaded.frame (Q := P4) rfl rfl).push h4.typed.size
        (show Phase.loaded code objects loss ≠ _ by simp)
    have passed : P6.Raises (P.state.pads.labels ++ [pad]) :=
      tested.push_none (by simp [P5, Scene.push, h4.typed.size])
        (show Phase.tested next ≠ _ by simp) rfl
    rw [← LandingPads.labels_note] at passed
    exact passed
  have sound : P6.Sound S := by
    refine ⟨h6, Mark.le_refl _, fun ends => ?_, raises⟩
    rw [Draft.endsInTerminator_pushed (d := P5.state.draft) (i := .label next) rfl] at ends
    cases ends
  have extends2 : P.Extends S .plain P2 :=
    (Extends.of_notes (later_widen (widens_register .status)) (fun _ hr => hr) rfl
      fun h => h).then_plain
      (extends_push_as .plain rfl (fun _ hr => List.mem_cons_of_mem _ hr) rfl)
  have extends4 : P2.Extends S .plain P4 :=
    .of_notes (later_notePad.trans later_withLabel) (fun _ hr => hr) rfl fun h => h
  have extends6 : P4.Extends S .plain P6 :=
    (extends_push_as .plain rfl (fun _ hr => hr) rfl).then_plain
      (extends_push_as .plain rfl (fun _ hr => hr) rfl)
  rw [testStatus_eq env destroyed hs]
  exact ⟨P6.keep P.held P6.live, rfl, sound.keep fun r hr => List.mem_cons_of_mem _ hr,
    ((extends2.then_plain extends4).then_plain extends6).keep, rfl, rfl, rfl⟩

theorem throw_arrives (h : P.Sound S) (suits : Suits S env P) (hs : P.state.status = some slot)
    (level : P.Level S) {code : Operand} (reads : P.Holds S code) :
    Arrives S P [.throw_] (fun _ Q => P.Stands P.held P.live Q)
      ((emit (.store slot code) >>= fun _ => notePad 0 >>= jumpTo) env P.state) := by
  let P1 := P.push (P.note .plain) (.store slot code) ⟨.thrown, P.held, P.live⟩
  let P2 := P1.notePad S env 0
  let pad : Label := ⟨P.state.draft.labels⟩
  let P3 := P2.push ⟨P2.mark, .throw_⟩ (.jump (some pad)) ⟨.dead, P.held, P.live⟩
  have h1 : P1.Firm S := by
    refine h.toFirm.push h.mark (fits_inline (.throw hs) rfl (fun r hr => ?_)
      (fun r hr => nomatch hr) fun _ hr => .inl hr)
      (fun r hr => .inl hr) h.live (fun x hx => .inr (h.live x hx)) (fun r hr => nomatch hr)
      (fun l _ hl => nomatch hl) nofun (fun _ hx => nomatch hx)
    rcases List.mem_cons.1 hr with same | hr
    · exact h.books.read_status ⟨slot, hs, same⟩
    · cases List.mem_singleton.1 hr
      exact reads.read
  have h2 : P2.Firm S := h1.notePad (suits.frame later_push rfl)
  have hpad : P2.promise pad = some ⟨.unwinding, [], P.live⟩ := by
    rw [show P.live = S.unwound P1.state.cleanups env.regionDepth 0 by
      rw [S.unwound_zero]; exact level]
    exact promise_notePad h1.typed
  have h3 : P3.Firm S := by
    refine h2.push (Mark.le_refl _) (fits_end (.raise (.inl rfl)) rfl (fun r hr => nomatch hr)
      (fun e l hl => ?_) fun l hl => nomatch hl) (fun r hr => .inl hr) h2.live
      (fun x hx => .inr (h2.live x hx)) (fun r hr => nomatch hr) (fun l _ hl => nomatch hl)
      nofun (fun _ hx => nomatch hx)
    cases e <;> cases hl
    exact ⟨_, hpad, ⟨rfl, rfl⟩, fun r hr => nomatch hr⟩
  have raises : P3.Raises P3.state.pads.labels := by
    have stored : P1.Raises P.state.pads.labels :=
      h.raises.push_none h.typed.size (by simp [Scene.note]) rfl
    have jumped : P3.Raises (P.state.pads.labels ++ [pad]) :=
      (stored.frame (Q := P2) rfl rfl).push h2.typed.size (show Phase.thrown ≠ _ by simp)
    rw [← LandingPads.labels_note] at jumped
    exact jumped
  have extends3 : P.Extends S .throw_ P3 :=
    ((extends_push_as .plain rfl (fun _ hr => hr) rfl).then_plain
      (.of_notes later_notePad (fun _ hr => hr) rfl fun h => h)).then_plain
      (extends_push_as .throw_ rfl (fun _ hr => hr) rfl)
  exact ⟨P3, rfl, ⟨h3, .inl ⟨rfl, .inr rfl⟩, fun _ => rfl, raises⟩, extends3.leads_of_none rfl,
    rfl, rfl, rfl⟩

theorem handler_arrives (h : P.Sound S) (dead : P.mark.phase = .dead) (idle : P.held = [])
    {handler : Label} (promised : P.Promises handler ⟨.caught, [], P.live⟩) :
    Arrives S P [.handler] (fun _ Q => P.Stands [] P.live Q)
      (enterHandler handler env P.state) := by
  let P1 := P.push ⟨⟨.dead, [], P.live⟩, .handler⟩ (.label handler) ⟨.caught, [], P.live⟩
  have h1 : P1.Firm S := h.toFirm.push_entry dead (promised.get_idle nofun) .handler h.live rfl
  obtain ⟨slot, hs, made⟩ := withStatus_status P1.state
  obtain ⟨body, -, -, cleanups, pads, -⟩ := withStatus_frame P1.state
  obtain ⟨h2, w⟩ := firm_status h1
  let P2 := P1.widen (withStatus P1.state)
  let P3 := P2.push ⟨P2.mark, .plain⟩ (.store slot noException) ⟨.ordinary, [], P.live⟩
  have h3 : P3.Firm S := by
    refine h2.push (Mark.le_refl _) (fits_inline (.clear hs) rfl (fun r hr => ?_)
      (fun r hr => nomatch hr) fun r hr => nomatch hr)
      (fun r hr => nomatch hr) h2.live (fun x hx => .inr (h2.live x hx)) (fun r hr => nomatch hr)
      (fun l _ hl => nomatch hl) nofun (fun _ hx => nomatch hx)
    rcases List.mem_cons.1 hr with same | hr
    · exact h2.books.read_status ⟨slot, hs, same⟩
    · cases List.mem_singleton.1 hr
  have raises : P3.Raises P3.state.pads.labels := by
    have placed : P1.Raises P.state.pads.labels := h.raises.push_none h.typed.size (by simp) rfl
    have cleared : P3.Raises P.state.pads.labels :=
      (placed.frame (Q := P2) rfl body).push_none h2.typed.size
        (show Phase.caught ≠ _ from nofun) rfl
    change P3.Raises (withStatus P1.state).pads.labels
    rw [pads]
    exact cleared
  have extends3 : P.Extends S .handler P3 :=
    ((extends_push_as .handler rfl (by simp [idle]) rfl).plain_then
      (.of_notes (later_widen w) (fun _ hr => hr) rfl (·.of_body body))).plain_then
      (extends_push_as .plain rfl (fun _ hr => hr) rfl)
  have placed : (liftM (Draft.place handler) : LowerM Unit) env P.state = .ok ⟨⟩ P1.state := rfl
  unfold enterHandler
  rw [run_bind placed, run_bind (made env)]
  refine ⟨P3, rfl, ⟨h3, Mark.le_refl _, fun ends => ?_, raises⟩, extends3.leads_of_none rfl, rfl,
    rfl, cleanups⟩
  rw [Draft.endsInTerminator_pushed (d := P2.state.draft) (i := .store slot noException) rfl]
    at ends
  cases ends

end Blocks
end Marks
end FlatCode
