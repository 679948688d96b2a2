import FlatCode.Proofs.Marks.Raise
import FlatCode.Proofs.Visit.Order

/-! What a jump to a name destroys. Every open scope belongs to a compound or to a `for` loop around
the jump. A jump leaves the scopes that are not around the labeled statement. But it looks for the
innermost compound that is around both, so it also leaves the `for` loops inside of this compound
that are around both. -/
namespace FlatCode
open Code Symbols Ast

namespace Lower

/-- The scopes around a jump and around its target: both have `outer`, the last of which is a
compound, and the `for` loops `loops`; the jump is inside of `left`, and the target is not. -/
structure Forks (around target outer loops left : List Owner) : Prop where
  source : around = outer ++ loops ++ left
  shared : outer ++ loops <+: target
  compound : ∀ o ∈ outer.getLast?, ∃ id, o = .compound id
  loop : ∀ o ∈ loops, ∃ index, o = .loop index
  apart : ∀ o ∈ left, o ∉ target

section Depth

theorem mem_of_compound {around : List Owner} {id : ScopeId} (h : id ∈ compoundsOf around) :
    .compound id ∈ around := by
  obtain ⟨owner, mem, eq⟩ := List.mem_filterMap.1 h
  cases owner <;> cases eq
  exact mem

theorem sharedDepth_apart {depth k : Nat} {left right : List Owner}
    (apart : ∀ o ∈ left, o ∉ right) :
    sharedDepth depth (activesFrom k left) (compoundsOf right) = depth := by
  have mine := map_activesFrom k left
  cases ha : activesFrom k left with
  | nil => rfl
  | cons scope scopes =>
    cases hc : compoundsOf right with
    | nil => rfl
    | cons id ids =>
      rw [ha] at mine
      rw [sharedDepth, if_neg]
      rintro rfl
      exact apart _ (mem_of_compound (mine ▸ List.mem_cons_self))
        (mem_of_compound (hc ▸ List.mem_cons_self))

theorem sharedDepth_shared {left right : List Owner} (apart : ∀ o ∈ left, o ∉ right) :
    ∀ (shared : List Owner) (depth k : Nat), ∃ outer loops, shared = outer ++ loops ∧
      (∀ o ∈ outer.getLast?, ∃ id, o = .compound id) ∧ (∀ o ∈ loops, ∃ index, o = .loop index) ∧
      sharedDepth depth (activesFrom k (shared ++ left)) (compoundsOf (shared ++ right)) =
        if outer = [] then depth else k + outer.length
  | [], depth, k => ⟨[], [], rfl, by simp, by simp, sharedDepth_apart apart⟩
  | .compound id :: shared, depth, k => by
    obtain ⟨outer, loops, rfl, last, inner, ih⟩ := sharedDepth_shared apart shared (k + 1) (k + 1)
    refine ⟨.compound id :: outer, loops, rfl, ?_, inner, ?_⟩
    · cases outer with
      | nil => simp
      | cons => simpa using last
    · change sharedDepth depth (⟨id, k⟩ :: activesFrom (k + 1) (outer ++ loops ++ left))
        (id :: compoundsOf (outer ++ loops ++ right)) = _
      rw [sharedDepth, if_pos rfl, ih]
      cases outer with
      | nil => rfl
      | cons => simp; omega
  | .loop index :: shared, depth, k => by
    obtain ⟨outer, loops, rfl, last, inner, ih⟩ := sharedDepth_shared apart shared depth (k + 1)
    cases outer with
    | nil => exact ⟨[], .loop index :: loops, rfl, by simp, by simpa using inner, ih⟩
    | cons o outer =>
      refine ⟨.loop index :: o :: outer, loops, rfl, by simpa using last, inner, ih.trans ?_⟩
      simp
      omega

theorem Parts.forks {around target : List Owner} (parts : Parts around target) :
    ∃ outer loops left, Forks around target outer loops left ∧
      sharedDepth 0 (activeScopes around) (compoundsOf target) = outer.length := by
  obtain ⟨shared, left, right, rfl, rfl, apart⟩ := parts
  obtain ⟨outer, loops, rfl, last, inner, depth⟩ :=
    sharedDepth_shared (fun o ho mem => apart o ho (List.mem_append_right _ mem)) shared 0 0
  refine ⟨outer, loops, left, ⟨rfl, List.prefix_append _ _, last, inner, apart⟩, depth.trans ?_⟩
  cases outer <;> simp

end Depth

section Code

def Code.Instr.callee? : Instr → Option (Callee × Option Operand)
  | .call target arguments _ => some (target, arguments.head?)
  | _ => none

def callsIn (code : Array Instr) : List (Callee × Option Operand) :=
  code.toList.filterMap Code.Instr.callee?

theorem callsIn_append (code more : Array Instr) :
    callsIn (code ++ more) = callsIn code ++ callsIn more := by
  simp [callsIn]

def destructorCall (symbols : SymbolTable) (o : Obligation) :
    Except Error (Callee × Option Operand) := do
  let destructor ← symbols.functionSymbol o.destructor
  pure (.direct destructor.name, some o.object)

/-- From `s` to `t`, code has been added that calls the destructors of these objects, in this order,
and nothing else. -/
def Destroys (symbols : SymbolTable) (owed : List Obligation) (s t : State) : Prop :=
  ∃ code : Array Instr, t.draft.body = s.draft.body ++ code ∧
    owed.mapM (destructorCall symbols) = .ok (callsIn code)

variable {env : Env} {s : State}

theorem emitDestructor_destroys (o : Obligation) :
    Ensures (fun raises t => Destroys env.symbols [o] s t ∧
      (raises = true → ∃ slot, t.status = some slot)) (emitDestructor o env s) := by
  refine .asked fun symbol found => ?_
  have called {i : Instr} (hi : Code.Instr.callee? i = some (.direct symbol.name, some o.object)) :
      [o].mapM (destructorCall env.symbols) = .ok (callsIn #[i]) := by
    simp [destructorCall, found, callsIn, hi, bind, Except.bind, pure, Except.pure]
  split
  · refine statusSlot_spec.seq fun slot t ht => ?_
    obtain ⟨status, body, -⟩ := ht
    refine ⟨⟨#[.call (.direct symbol.name) [o.object, slot] none], ?_, called rfl⟩,
      fun _ => ⟨slot, status⟩⟩
    rw [body, Array.push_eq_append]
  · exact ⟨⟨#[.call (.direct symbol.name) [o.object] none], Array.push_eq_append, called rfl⟩,
      fun raises => by cases raises⟩

theorem testStatus_destroys (destroyed : Nat) {slot : Register} (hs : s.status = some slot) :
    Ensures (fun _ t => Destroys env.symbols [] s t) (testStatus destroyed env s) := by
  rw [Marks.testStatus_eq env destroyed hs]
  refine ⟨#[.load ⟨s.draft.registers.size⟩ slot, .branch (.reg ⟨s.draft.registers.size⟩)
    (some ⟨s.draft.labels⟩) (some ⟨s.draft.labels + 1⟩), .label ⟨s.draft.labels + 1⟩], ?_, rfl⟩
  apply Array.toList_inj.1
  simp

theorem Destroys.trans {symbols : SymbolTable} {owed more : List Obligation} {s t u : State}
    (h : Destroys symbols owed s t) (k : Destroys symbols more t u) :
    Destroys symbols (owed ++ more) s u := by
  obtain ⟨code, body, calls⟩ := h
  obtain ⟨code', body', calls'⟩ := k
  refine ⟨code ++ code', by rw [body', body, Array.append_assoc], ?_⟩
  rw [List.mapM_append, calls, calls', callsIn_append]
  rfl

theorem emitCleanups_destroys : ∀ (owed : List Obligation) (destroyed : Nat) (s : State),
    Ensures (fun _ t => Destroys env.symbols owed s t)
      (emitCleanups destroyed owed env s)
  | [], _, s => ⟨#[], by simp, rfl⟩
  | o :: owed, destroyed, s => by
    refine (emitDestructor_destroys o).seq fun raises t ht => ?_
    obtain ⟨called, slot⟩ := ht
    cases raises with
    | false =>
      exact (emitCleanups_destroys owed _ t).mono fun _ u hu => called.trans hu
    | true =>
      obtain ⟨slot, status⟩ := slot rfl
      refine (testStatus_destroys _ status).seq fun _ u hu => ?_
      exact (emitCleanups_destroys owed _ u).mono fun _ v hv => (called.trans hu).trans hv

theorem lowerGoto_destroys {label : String} {ids : List ScopeId}
    (found : env.labels.scopesOf label = .ok ids) :
    Ensures (fun _ t => ∃ u target, t.draft.body = u.draft.body.push (.jump target) ∧
      Destroys env.symbols (s.cleanups.pendingFrom (sharedDepth 0 env.scopes ids)) s u)
      (lowerGoto label env s) := by
  refine .ask (Ends.seq (P := fun ids' t => ids = ids' ∧ s = t) (Ends.answered ?_ ?_) ?_)
  · intro ids' found'
    rw [found] at found'
    cases found'
    exact ⟨rfl, rfl⟩
  · exact fun _ _ => trivial
  · rintro _ _ ⟨rfl, rfl⟩
    refine .ask (Ends.seq (Ends.look (emitCleanups_destroys _ 0 s)) fun _ u hu => .look ?_)
    cases u.gotos.placed.lookup label with
    | some l => exact ⟨u, some l, rfl, hu⟩
    | none => exact ⟨u, none, rfl, hu⟩

theorem lowerStmt_goto_destroys {label : String} {ids : List ScopeId}
    (found : env.labels.scopesOf label = .ok ids) :
    Ensures (fun _ t => ∃ u target, t.draft.body = u.draft.body.push (.jump target) ∧
      Destroys env.symbols (s.cleanups.pendingFrom (sharedDepth 0 env.scopes ids)) s u)
      (lowerStmt (.goto label) env s) := by
  refine .seq (P := fun _ t => t.cleanups = s.cleanups ∧ Destroys env.symbols [] s t) ?_ ?_
  · refine .ask ?_
    split
    · exact ⟨rfl, #[.comment _], Array.push_eq_append, rfl⟩
    · exact ⟨rfl, #[], by simp, rfl⟩
  · rintro _ t ⟨cleanups, commented⟩
    refine (lowerGoto_destroys found).seq fun _ v hv => .ret ?_
    obtain ⟨u, target, written, destroyed⟩ := hv
    rw [cleanups] at destroyed
    exact ⟨u, target, written, commented.trans destroyed⟩

end Code

end Lower

open Lower in
/-- In front of a jump to a name, the destructors are called of all objects that belong to a scope
which is not around the labeled statement, but also of those that belong to a `for` loop around both
inside of the innermost compound around both. -/
theorem lowerFunction_goto_destroys (symbols : SymbolTable) (options : Options) (f : Ast.Function) :
    Throughout symbols options f fun around stmt env s => ∀ label, stmt = .goto label →
      s.cleanups.depth = around.length ∧
      ∀ target inner, (target, .labeled label inner) ∈ spots f.body →
        ∃ outer loops left, Forks around target outer loops left ∧
          ∀ x t, lowerStmt stmt env s = .ok x t → ∃ u jump,
            t.draft.body = u.draft.body.push (.jump jump) ∧
            Destroys symbols (s.cleanups.pendingFrom outer.length) s u := by
  refine throughout fun symbol labels found spot mem env s visited label goto => ?_
  obtain ⟨p, stands, -⟩ := visited.standing
  refine ⟨stands.depth, fun target inner listed => ?_⟩
  obtain ⟨outer, loops, left, forks, depth⟩ :=
    Parts.forks ((scanned f.body).parts spot mem (target, _) listed)
  refine ⟨outer, loops, left, forks, fun x t run => ?_⟩
  have scopes : env.labels.scopesOf label = .ok (compoundsOf target) := by
    rw [visited.like.labels]
    exact scopesOf_labeled found listed
  rw [goto] at run
  obtain ⟨u, jump, written, destroyed⟩ := (lowerStmt_goto_destroys scopes).of_ok run
  rw [visited.scopes, depth, visited.like.symbols] at destroyed
  exact ⟨u, jump, written, destroyed⟩

end FlatCode
