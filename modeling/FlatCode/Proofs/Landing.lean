import FlatCode.Proofs.Balance.Unwind
import FlatCode.Proofs.Growth.Tree

/-! Landing pads on ways out of scopes. On a way out, a destructor that can raise is followed by
a test of the status, and the landing pad of the test has to take over exactly what is left: what
was destroyed, what the pad destroys and what is still owed where control goes on should be what
was owed before, each once. This holds as long as only objects inside the innermost `try` have
been destroyed, and fails from the first object outside of it on. -/
namespace FlatCode
open Code Symbols Ast List

namespace Cleanups

def pendingBelow (c : Cleanups) (depth : Nat) : List Obligation :=
  (c.scopes.drop (c.depth - depth)).flatten

theorem pendingFrom_append_pendingBelow (c : Cleanups) (depth : Nat) :
    c.pendingFrom depth ++ c.pendingBelow depth = c.pendingFrom 0 := by
  unfold pendingFrom pendingBelow
  rw [← flatten_append, take_append_drop, Nat.sub_zero, Cleanups.depth, take_length]

theorem pendingFrom_prefix (c : Cleanups) {outer inner : Nat} (h : outer ≤ inner) :
    c.pendingFrom inner <+: c.pendingFrom outer := by
  unfold pendingFrom
  have longer : c.depth - inner ≤ c.depth - outer := by omega
  have split : (c.scopes.take (c.depth - outer)).take (c.depth - inner) =
      c.scopes.take (c.depth - inner) := by
    rw [take_take, Nat.min_eq_left longer]
  refine ⟨((c.scopes.take (c.depth - outer)).drop (c.depth - inner)).flatten, ?_⟩
  rw [← split, ← flatten_append, take_append_drop]

end Cleanups

def Obligation.raises (o : Obligation) (symbols : SymbolTable) : Bool :=
  match symbols.functionSymbol o.destructor with
  | .ok destructor => destructor.canRaise
  | .error _ => false

/-- Along a way out, what has been destroyed at each test of the status. -/
def destroyedAtTests (symbols : SymbolTable) (destroyed : List Obligation) :
    List Obligation → List (List Obligation)
  | [] => []
  | o :: rest =>
    let destroyed' := destroyed ++ [o]
    if o.raises symbols then destroyed' :: destroyedAtTests symbols destroyed' rest
    else destroyedAtTests symbols destroyed' rest

theorem mem_destroyedAtTests {symbols : SymbolTable} {x : List Obligation} :
    ∀ {way destroyed : List Obligation}, x ∈ destroyedAtTests symbols destroyed way ↔
      ∃ j o, way[j]? = some o ∧ o.raises symbols ∧ x = destroyed ++ way.take (j + 1)
  | [], _ => by simp [destroyedAtTests]
  | o :: way, destroyed => by
    -- the first object is tested here, the others with one more object destroyed
    have rest : x ∈ destroyedAtTests symbols (destroyed ++ [o]) way ↔
        ∃ j o', (o :: way)[j + 1]? = some o' ∧ o'.raises symbols ∧
          x = destroyed ++ (o :: way).take (j + 2) := by
      rw [mem_destroyedAtTests]
      simp
    have here : (∃ j o', (o :: way)[j]? = some o' ∧ o'.raises symbols ∧
        x = destroyed ++ (o :: way).take (j + 1)) ↔
        (o.raises symbols ∧ x = destroyed ++ [o]) ∨ x ∈ destroyedAtTests symbols
          (destroyed ++ [o]) way := by
      rw [rest]
      constructor
      · rintro ⟨j, o', hj, hr, hx⟩
        cases j with
        | zero =>
          obtain rfl : o = o' := by simpa using hj
          exact .inl ⟨hr, by simpa using hx⟩
        | succ j => exact .inr ⟨j, o', hj, hr, hx⟩
      · rintro (⟨hr, hx⟩ | ⟨j, o', hj, hr, hx⟩)
        · exact ⟨0, o, rfl, hr, by simpa using hx⟩
        · exact ⟨j + 1, o', hj, hr, hx⟩
    rw [here, destroyedAtTests]
    by_cases hr : o.raises symbols <;> simp [hr]

theorem take_append_drop_perm_iff {inside outside : List α} {k : Nat}
    (hk : k ≤ (inside ++ outside).length) :
    ((inside ++ outside).take k ++ inside.drop k ++ outside).Perm (inside ++ outside) ↔
      k ≤ inside.length := by
  constructor
  · intro h
    have := h.length_eq
    simp only [length_append, length_take, length_drop] at this hk
    omega
  · intro h
    rw [take_append_of_le_length h, take_append_drop]

namespace Lower

def Env.regionDepth (env : Env) : Nat :=
  match env.region with
  | some region => region.depth
  | none => 0

structure ExitTest where
  /-- What was destroyed on the way, the last one by the destructor that is tested. -/
  destroyed : List Obligation
  pad : LandingPad

/-- The test stands in the code behind the call of the destructor, and its landing pad takes over
what the scopes inside the innermost `try` owe, without the objects destroyed. -/
structure ExitTest.Stands (x : ExitTest) (env : Env) (c : Cleanups) (d : Draft) : Prop where
  code : ∃ (o : Obligation) (destructor : FunctionSymbol) (status r : Register)
      (next : Option Label) (i : Nat), x.destroyed.getLast? = some o ∧
    env.symbols.functionSymbol o.destructor = .ok destructor ∧
    d.body[i]? = some (.call (.direct destructor.name) [o.object, status] none) ∧
    d.body[i + 1]? = some (.load r status) ∧
    d.body[i + 2]? = some (.branch r (some x.pad.label) next)
  handler : x.pad.handler = env.region.map Region.handler
  cleanups : x.pad.cleanups = (c.pendingFrom env.regionDepth).drop x.destroyed.length

/-- The way out from `s` to a depth, as it was written up to `t`: all tests on it stand in the
code, and their pads are the only ones noted. -/
def Departs (env : Env) (s t : State) (depth : Nat) : Prop :=
  ∃ tests : List ExitTest,
    tests.map ExitTest.destroyed =
      destroyedAtTests env.symbols [] (s.cleanups.pendingFrom depth) ∧
    t.pads.pads.toList = s.pads.pads.toList ++ tests.map ExitTest.pad ∧
    ∀ x ∈ tests, x.Stands env s.cleanups t.draft

/-- What was destroyed, what the pad destroys and what is owed at the handler is what was owed
before, each once. -/
def ExitTest.Conserves (x : ExitTest) (c : Cleanups) (region : Region) : Prop :=
  (x.destroyed ++ x.pad.cleanups ++ c.pendingBelow region.depth).Perm (c.pendingFrom 0)

theorem ExitTest.Stands.mono {x : ExitTest} {env : Env} {c : Cleanups} {d d' : Draft}
    (h : x.Stands env c d) (later : d.Later d') : x.Stands env c d' := by
  obtain ⟨o, destructor, status, r, next, i, hlast, hd, hcall, hload, hbranch⟩ := h.code
  obtain ⟨call, hcall', rfl⟩ := later.body _ _ hcall
  obtain ⟨load, hload', rfl⟩ := later.body _ _ hload
  obtain ⟨_, hbranch', positive, next', rfl, hp, -⟩ := later.body _ _ hbranch
  rw [hp _ rfl] at hbranch'
  exact ⟨⟨o, destructor, status, r, next', i, hlast, hd, hcall', hload', hbranch'⟩, h.handler,
    h.cleanups⟩

/-- The exact condition: nothing outside of the `try` has been destroyed. -/
theorem ExitTest.Stands.conserves_iff_within {x : ExitTest} {env : Env} {c : Cleanups} {d : Draft}
    {region : Region} (h : x.Stands env c d) (hr : env.region = some region)
    (hx : x.destroyed <+: c.pendingFrom 0) :
    x.Conserves c region ↔ x.destroyed.length ≤ (c.pendingFrom region.depth).length := by
  have hdepth : env.regionDepth = region.depth := by rw [Env.regionDepth, hr]
  have all := c.pendingFrom_append_pendingBelow region.depth
  have hlen := hx.length_le
  have htake := prefix_iff_eq_take.1 hx
  unfold Conserves
  rw [h.cleanups, hdepth]
  rw [← all] at hlen htake ⊢
  rw [← take_append_drop_perm_iff hlen, ← htake]

section Steps
variable {env : Env} {s : State}

theorem statusSlot_spec : Ensures (fun slot t => t.status = some slot ∧
    t.draft.body = s.draft.body ∧ t.pads = s.pads ∧ t.cleanups = s.cleanups ∧ s.Later t)
    (statusSlot env s) := by
  have later := statusSlot_straight.growing env s
  refine Ends.mono (Ends.and (Q := fun slot t => t.status = some slot ∧
    t.draft.body = s.draft.body ∧ t.pads = s.pads ∧ t.cleanups = s.cleanups) ?_ later)
    fun _ _ ⟨⟨h, body, pads, cleanups⟩, later⟩ => ⟨h, body, pads, cleanups, later⟩
  refine .look ?_
  cases hs : s.status with
  | some slot => exact ⟨hs, rfl, rfl, rfl⟩
  | none => exact ⟨rfl, rfl, rfl, rfl⟩

theorem notePad_spec (destroyed : Nat) : Ensures (fun l t =>
    t.draft.body = s.draft.body ∧ t.cleanups = s.cleanups ∧ s.Later t ∧
    ∃ pad : LandingPad, t.pads.pads = s.pads.pads.push pad ∧ pad.label = l ∧
      pad.handler = env.region.map Region.handler ∧
      pad.cleanups = (s.cleanups.pendingFrom env.regionDepth).drop destroyed)
    (notePad destroyed env s) := by
  have later := (notePad_traced destroyed).growing env s
  refine Ends.mono (Ends.and (Q := fun l t => t.draft.body = s.draft.body ∧
    t.cleanups = s.cleanups ∧ ∃ pad : LandingPad, t.pads.pads = s.pads.pads.push pad ∧
      pad.label = l ∧ pad.handler = env.region.map Region.handler ∧
      pad.cleanups = (s.cleanups.pendingFrom env.regionDepth).drop destroyed) ?_ later)
    fun _ _ ⟨⟨body, cleanups, pad⟩, later⟩ => ⟨body, cleanups, later, pad⟩
  refine ⟨rfl, rfl, _, rfl, rfl, rfl, ?_⟩
  unfold Env.regionDepth
  cases env.region <;> rfl

theorem testStatus_spec (destroyed : Nat) {slot : Register} (hs : s.status = some slot) :
    Ensures (fun _ t => t.cleanups = s.cleanups ∧
      ∃ (pad : LandingPad) (r : Register) (next : Option Label),
        t.pads.pads = s.pads.pads.push pad ∧ pad.handler = env.region.map Region.handler ∧
        pad.cleanups = (s.cleanups.pendingFrom env.regionDepth).drop destroyed ∧
        t.draft.body[s.draft.body.size]? = some (.load r slot) ∧
        t.draft.body[s.draft.body.size + 1]? = some (.branch r (some pad.label) next))
      (testStatus destroyed env s) := by
  refine statusSlot_spec.seq fun status s1 ⟨h1, body1, pads1, cleanups1, later1⟩ => ?_
  obtain rfl : status = slot := by simpa [h1] using later1.status slot hs
  refine .seq (P := fun _ t => t.draft.body = s1.draft.body ∧ t.pads = s1.pads ∧
    t.cleanups = s1.cleanups) ⟨rfl, rfl, rfl⟩ fun r s2 ⟨body2, pads2, cleanups2⟩ => ?_
  refine .seq (P := fun _ t => t.draft.body = s2.draft.body.push (.load r status) ∧
    t.pads = s2.pads ∧ t.cleanups = s2.cleanups) ⟨rfl, rfl, rfl⟩
    fun _ s3 ⟨body3, pads3, cleanups3⟩ => ?_
  refine (notePad_spec destroyed).seq fun l s4 ⟨body4, cleanups4, _, pad, noted, hl, hh, hc⟩ => ?_
  refine .seq (P := fun branch t => branch.index = s4.draft.body.size ∧
    t.draft.body = s4.draft.body.push (.branch r (some l) none) ∧ t.pads = s4.pads ∧
    t.cleanups = s4.cleanups) ⟨rfl, rfl, rfl, rfl⟩
    fun branch s5 ⟨hbranch, body5, pads5, cleanups5⟩ => ?_
  refine (edit_frame (Draft.resolveRequiredHere_traced _).adds).seq
    fun _ t ⟨later, frame⟩ => .ret ?_
  have load : s5.draft.body[s.draft.body.size]? = some (.load r status) := by
    rw [body5, body4, body3, body2, body1, Array.getElem?_push, if_neg (by simp),
      Array.getElem?_push, if_pos rfl]
  have test : s5.draft.body[s.draft.body.size + 1]? = some (.branch r (some l) none) := by
    rw [body5, body4, body3, body2, body1, Array.getElem?_push, if_pos (by simp)]
  obtain ⟨_, load', rfl⟩ := later.body _ _ load
  obtain ⟨_, test', positive, next, rfl, hp, -⟩ := later.body _ _ test
  rw [hp l rfl, ← hl] at test'
  have kept : s4.cleanups = s.cleanups := by rw [cleanups4, cleanups3, cleanups2, cleanups1]
  refine ⟨?_, pad, r, next, ?_, hh, ?_, load', test'⟩
  · rw [frame]
    exact cleanups5.trans kept
  · rw [frame]
    change s5.pads.pads = _
    rw [pads5, noted, pads3, pads2, pads1]
  · rw [hc, ← cleanups4, kept]

theorem emitDestructor_spec (o : Obligation) : Ensures (fun raises t =>
    raises = o.raises env.symbols ∧ t.cleanups = s.cleanups ∧ t.pads = s.pads ∧
    ∃ destructor, env.symbols.functionSymbol o.destructor = .ok destructor ∧
      (raises → ∃ status : Register, t.status = some status ∧
        t.draft.body = s.draft.body.push (.call (.direct destructor.name) [o.object, status] none)))
    (emitDestructor o env s) := by
  refine .asked fun destructor hd => ?_
  have hraises : o.raises env.symbols = destructor.canRaise := by simp [Obligation.raises, hd]
  split
  · rename_i hr
    refine statusSlot_spec.seq fun status t ⟨hstatus, body, pads, cleanups, _⟩ => ?_
    refine ⟨by rw [hraises, hr], cleanups, pads, destructor, hd, fun _ => ⟨status, hstatus, ?_⟩⟩
    change t.draft.body.push _ = _
    rw [body]
  · rename_i hr
    exact ⟨by rw [hraises]; simpa using hr, rfl, rfl, destructor, hd, fun h => by cases h⟩

theorem emitCleanups_tests : ∀ (way destroyed : List Obligation) {s : State},
    Ensures (fun _ t => t.cleanups = s.cleanups ∧ ∃ tests : List ExitTest,
        tests.map ExitTest.destroyed = destroyedAtTests env.symbols destroyed way ∧
        t.pads.pads.toList = s.pads.pads.toList ++ tests.map ExitTest.pad ∧
        ∀ x ∈ tests, x.Stands env s.cleanups t.draft)
      (emitCleanups destroyed.length way env s)
  | [], destroyed, s => .ret ⟨rfl, [], rfl, by simp, by simp⟩
  | o :: way, destroyed, s => by
    unfold emitCleanups
    refine (emitDestructor_spec o).seq fun raises t spec => ?_
    obtain ⟨hraises, cleanups, pads, destructor, hd, call⟩ := spec
    have rest {u : State} (hu : u.cleanups = s.cleanups) :=
      emitCleanups_tests way (destroyed ++ [o])
      (s := u)
    rw [length_append, length_singleton] at rest
    dsimp only
    cases hr : raises with
    | false =>
      rw [if_neg (by simp)]
      refine (rest cleanups).mono fun _ v done => ?_
      obtain ⟨hv, tests, hmap, hpads, stands⟩ := done
      refine ⟨hv.trans cleanups, tests, ?_, ?_, ?_⟩
      · rw [hmap, destroyedAtTests, ← hraises, hr]
        rfl
      · rw [hpads, pads]
      · rwa [cleanups] at stands
    | true =>
      rw [if_pos rfl]
      obtain ⟨status, hstatus, hbody⟩ := call hr
      refine (Ends.and (testStatus_spec _ hstatus) ((testStatus_traced _).growing env t)).seq
        fun _ u tested => ?_
      obtain ⟨⟨hu, pad, r, next, hpad, handler, hcleanups, load, test⟩, later⟩ := tested
      refine Ends.mono (Ends.and (rest (hu.trans cleanups))
        ((emitCleanups_traced way _).growing env u))
        fun _ v done => ?_
      obtain ⟨⟨hv, tests, hmap, hpads, stands⟩, later'⟩ := done
      refine ⟨(hv.trans hu).trans cleanups, ⟨destroyed ++ [o], pad⟩ :: tests, ?_, ?_, ?_⟩
      · rw [map_cons, hmap, destroyedAtTests, ← hraises, hr]
        rfl
      · rw [hpads, hpad, pads]
        simp
      · intro x hx
        rcases mem_cons.1 hx with rfl | hx
        · have here : ExitTest.Stands ⟨destroyed ++ [o], pad⟩ env s.cleanups u.draft := by
            refine ⟨⟨o, destructor, status, r, next, s.draft.body.size, by simp, hd, ?_, ?_, ?_⟩,
              handler, ?_⟩
            · have written : t.draft.body[s.draft.body.size]? =
                  some (.call (.direct destructor.name) [o.object, status] none) := by
                simp [hbody]
              obtain ⟨_, written', rfl⟩ := later.draft.body _ _ written
              exact written'
            · simpa [hbody] using load
            · simpa [hbody] using test
            · rw [hcleanups, cleanups]
              simp
          exact here.mono later'.draft
        · have := stands x hx
          rwa [hu, cleanups] at this

theorem leaveTo_departs (depth : Nat) :
    Ensures (fun _ t => Departs env s t depth) (leaveTo depth env s) :=
  Ends.look ((emitCleanups_tests _ []).mono fun _ _ ht => ht.2)

theorem Departs.then {depth : Nat} {t u : State} (h : Departs env s t depth)
    (later : t.draft.Later u.draft) (pads : u.pads = t.pads) : Departs env s u depth := by
  obtain ⟨tests, hmap, hpads, stands⟩ := h
  exact ⟨tests, hmap, by rw [pads, hpads], fun x hx => (stands x hx).mono later⟩

theorem Departs.after {depth : Nat} {t u : State} (pads : t.pads = s.pads)
    (cleanups : t.cleanups = s.cleanups) (h : Departs env t u depth) : Departs env s u depth := by
  obtain ⟨tests, hmap, hpads, stands⟩ := h
  refine ⟨tests, ?_, ?_, ?_⟩
  · rw [hmap, cleanups]
  · rw [hpads, pads]
  · rwa [← cleanups]

end Steps

inductive Exit where
  /-- The end of the innermost scope. -/
  | scopeEnd
  /-- The branches of a condition, sent through the destruction of what the scopes from a depth
  inwards owe. -/
  | edge (pending : Pending) (depth : Nat)
  | return_ (value : Option Operand)
  | break_
  | continue_
  | goto (label : String)
  /-- A jump to a case of the innermost switch, or to its default. -/
  | gotoCase (find : CaseMap → Except Error CaseTarget)

def Exit.write : Exit → LowerM Unit
  | .scopeEnd => closeScope
  | .edge pending depth => do
    let _ ← splice pending ((← get).cleanups.pendingFrom depth)
  | .return_ value => do
    leaveTo 0
    emitReturn value
  | .break_ => discard lowerBreak
  | .continue_ => discard lowerContinue
  | .goto label => lowerGoto label
  | .gotoCase find => lowerGotoCase find

def Exit.depth (env : Env) (s : State) : Exit → Option Nat
  | .scopeEnd => some (s.cleanups.depth - 1)
  | .edge _ depth => some depth
  | .return_ _ => some 0
  | .break_ => env.breakDepth
  | .continue_ => env.loopDepth
  | .goto label =>
    match env.labels.scopesOf label with
    | .ok ids => some (sharedDepth 0 env.scopes ids)
    | .error _ => none
  | .gotoCase _ => env.switch.map ActiveSwitch.depth

/-- A way out is not written where control can not come, or where no branch takes it. -/
def Exit.isTaken (s : State) : Exit → Bool
  | .scopeEnd => !s.draft.endsInTerminator
  | .edge pending _ => !pending.isEmpty
  | _ => true

theorem dropScope_frame {env : Env} {s : State} :
    Ensures (fun _ t => t.draft = s.draft ∧ t.pads = s.pads) (dropScope env s) := by
  refine .look (Ends.query fun _ _ => ?_)
  exact .put ⟨rfl, rfl⟩

theorem Departs.jump {m : Draft.Edit α} (h : Draft.Adds m) {env : Env} {s t : State} {depth : Nat}
    (ht : Departs env s t depth) :
    Ensures (fun _ u => Departs env s u depth) ((liftM m : LowerM α) env t) := by
  refine (edit_frame h).mono fun _ u ⟨later, frame⟩ => ht.then later ?_
  rw [frame]

theorem Exit.write_departs (x : Exit) (env : Env) (s : State) :
    Ensures (fun _ t => ∃ depth, x.depth env s = some depth ∧
      if x.isTaken s then Departs env s t depth else t.pads = s.pads) (x.write env s) := by
  cases x with
  | scopeEnd =>
    refine Ends.mono (Q := fun _ t => if isTaken s scopeEnd then
      Departs env s t (s.cleanups.depth - 1) else t.pads = s.pads) ?_ fun _ _ h => ⟨_, rfl, h⟩
    refine .look ?_
    dsimp only
    by_cases hdepth : s.cleanups.depth = 0
    · rw [if_pos hdepth]
      trivial
    · rw [if_neg hdepth]
      refine .known (a := s.draft.endsInTerminator) (t := s) rfl ?_
      cases hs : s.draft.endsInTerminator with
      | true =>
        simp only [isTaken, hs]
        exact dropScope_frame.mono fun _ u hu => hu.2
      | false =>
        simp only [isTaken, hs]
        refine (leaveTo_departs _).seq fun _ t ht => ?_
        exact dropScope_frame.mono fun _ u ⟨draft, pads⟩ =>
          ht.then (by rw [draft]; exact .refl _) pads
  | edge pending depth =>
    refine Ends.mono (Q := fun _ t => if isTaken s (edge pending depth) then
      Departs env s t depth else t.pads = s.pads) ?_ fun _ _ h => ⟨_, rfl, h⟩
    refine .look (Ends.seq (P := fun _ t => if isTaken s (edge pending depth) then
      Departs env s t depth else t.pads = s.pads) ?_ fun _ _ ht => ht)
    unfold splice
    cases pending with
    | nil => exact rfl
    | cons b pending =>
      refine .seq (P := fun _ t => t.pads = s.pads ∧ t.cleanups = s.cleanups)
        (Ends.seq (edit_frame (Draft.resolveHere_traced _).adds) fun _ t ⟨_, frame⟩ => ?_)
        fun _ t ⟨pads, cleanups⟩ => ?_
      · rw [frame]
        exact .ret ⟨rfl, rfl⟩
      · rw [← cleanups]
        refine .seq ((emitCleanups_tests _ []).mono fun _ u hu => hu.2) fun _ u hu => ?_
        exact (Departs.jump Draft.pendingJump_traced.adds hu).mono fun _ v hv =>
          hv.after pads cleanups
  | return_ value =>
    refine (leaveTo_departs 0).seq fun _ t ht => ?_
    refine (emitReturn_settled value env t).anyError.mono fun _ u hu => ⟨0, rfl, ?_⟩
    exact ht.then hu.later.draft hu.pads
  | break_ =>
    refine .discarded (Ends.ask ?_)
    cases hd : env.breakDepth with
    | none => trivial
    | some depth =>
      refine (leaveTo_departs depth).seq fun _ t ht => ?_
      exact (ht.jump Draft.pendingJump_traced.adds).seq fun _ u hu => .ret ⟨depth, hd, hu⟩
  | continue_ =>
    refine .discarded (Ends.ask ?_)
    cases hd : env.loopDepth with
    | none => trivial
    | some depth =>
      refine (leaveTo_departs depth).seq fun _ t ht => ?_
      exact (ht.jump Draft.pendingJump_traced.adds).seq fun _ u hu => .ret ⟨depth, hd, hu⟩
  | goto label =>
    refine .ask (Ends.query fun ids hids => ?_)
    refine .ask ((leaveTo_departs _).seq fun _ t ht => .look ?_)
    cases t.gotos.placed.lookup label with
    | some l =>
      exact (ht.jump (Draft.emit_adds _)).seq fun _ u hu => .ret ⟨_, by rw [depth, hids], hu⟩
    | none =>
      refine (ht.jump Draft.pendingJump_traced.adds).seq fun _ u hu => ?_
      exact .put ⟨_, by rw [depth, hids], hu.then (.refl _) rfl⟩
  | gotoCase find =>
    refine .ask ?_
    cases hs : env.switch with
    | none => trivial
    | some switch =>
      refine .query fun target _ => ?_
      refine (leaveTo_departs _).seq fun _ t ht => ?_
      refine (ht.jump (Draft.emit_adds _)).seq fun _ u hu => .ret ⟨switch.depth, ?_, hu⟩
      rw [depth, hs]
      rfl

/-- The tests on a way out, with what holds of each. A landing pad that goes on at the handler of
a `try` takes over exactly what is left if and only if no object outside of that `try` has been
destroyed yet. So all pads of a way out that stays inside the `try` do, such as those of a scope
end or of a branch of a condition. A way out that leaves the `try` has only such pads if and only
if no object that it destroys outside of the `try` has a destructor that can raise. -/
theorem Exit.conserves_iff (x : Exit) (env : Env) (s : State) :
    Ends (fun _ => True) (fun _ t => x.isTaken s → ∃ (depth : Nat) (tests : List ExitTest),
      x.depth env s = some depth ∧
      tests.map ExitTest.destroyed =
        destroyedAtTests env.symbols [] (s.cleanups.pendingFrom depth) ∧
      t.pads.pads.toList = s.pads.pads.toList ++ tests.map ExitTest.pad ∧
      (∀ y ∈ tests, y.Stands env s.cleanups t.draft) ∧
      ∀ region, env.region = some region →
        (∀ y ∈ tests, y.Conserves s.cleanups region ↔
          y.destroyed.length ≤ (s.cleanups.pendingFrom region.depth).length) ∧
        (region.depth ≤ depth → ∀ y ∈ tests, y.Conserves s.cleanups region) ∧
        ((∀ y ∈ tests, y.Conserves s.cleanups region) ↔
          ∀ o ∈ (s.cleanups.pendingFrom depth).drop (s.cleanups.pendingFrom region.depth).length,
            o.raises env.symbols = false)) (x.write env s) := by
  refine (x.write_departs env s).mono fun _ t ⟨depth, hdepth, departs⟩ taken => ?_
  rw [if_pos taken] at departs
  obtain ⟨tests, hmap, hpads, stands⟩ := departs
  refine ⟨depth, tests, hdepth, hmap, hpads, stands, fun region hr => ?_⟩
  have way : s.cleanups.pendingFrom depth <+: s.cleanups.pendingFrom 0 :=
    s.cleanups.pendingFrom_prefix (Nat.zero_le depth)
  -- each test stands behind a part of the way
  have part {y : ExitTest} (hy : y ∈ tests) : ∃ j o, (s.cleanups.pendingFrom depth)[j]? = some o ∧
      o.raises env.symbols ∧ y.destroyed = (s.cleanups.pendingFrom depth).take (j + 1) := by
    have hm : y.destroyed ∈ tests.map ExitTest.destroyed := mem_map.2 ⟨y, hy, rfl⟩
    rw [hmap] at hm
    simpa using mem_destroyedAtTests.1 hm
  have conserves {y : ExitTest} (hy : y ∈ tests) : y.Conserves s.cleanups region ↔
      y.destroyed.length ≤ (s.cleanups.pendingFrom region.depth).length := by
    obtain ⟨j, o, -, -, hd⟩ := part hy
    refine (stands y hy).conserves_iff_within hr ?_
    rw [hd]
    exact (List.take_prefix _ _).trans way
  refine ⟨fun y hy => conserves hy, fun hle y hy => ?_, fun all o ho => ?_, fun silent y hy => ?_⟩
  · obtain ⟨j, o, -, -, hd⟩ := part hy
    rw [conserves hy, hd]
    exact ((List.take_prefix _ _).trans (s.cleanups.pendingFrom_prefix hle)).length_le
  · obtain ⟨j, hj⟩ := mem_iff_getElem?.1 ho
    rw [getElem?_drop] at hj
    cases hraises : o.raises env.symbols with
    | false => rfl
    | true =>
      obtain ⟨y, hy, hd⟩ := mem_map.1 (hmap ▸ mem_destroyedAtTests.2 ⟨_, o, hj, hraises, rfl⟩)
      have short := (conserves hy).1 (all y hy)
      have long := (List.getElem?_eq_some_iff.1 hj).1
      rw [hd, nil_append, length_take] at short
      omega
  · obtain ⟨j, o, hj, hraises, hd⟩ := part hy
    rw [conserves hy, hd, length_take]
    apply Nat.le_of_not_lt
    intro hlt
    have outside : o ∈ (s.cleanups.pendingFrom depth).drop
        (s.cleanups.pendingFrom region.depth).length := by
      refine mem_iff_getElem?.2 ⟨j - (s.cleanups.pendingFrom region.depth).length, ?_⟩
      rw [getElem?_drop, ← hj]
      congr 1
      omega
    rw [silent o outside] at hraises
    cases hraises

end Lower
end FlatCode
