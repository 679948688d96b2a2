import FlatCode.Proofs.Marks.Raise

/-! Ways out of scopes. Objects are destroyed in the order in which they are owed; where a scope
ends, what it owed is no longer alive. -/
namespace FlatCode
open List

namespace Cleanups

theorem pendingFrom_zero (c : Cleanups) : c.pendingFrom 0 = c.scopes.flatten := by
  simp [pendingFrom, depth]

theorem pendingFrom_grow (added : List Obligation) :
    ∀ {c : Cleanups}, 0 < c.depth → (c.grow added).pendingFrom 0 = added ++ c.pendingFrom 0
  | ⟨[]⟩, h => absurd h (Nat.lt_irrefl 0)
  | ⟨_ :: _⟩, _ => by simp [pendingFrom_zero, grow]

theorem pendingBelow_grow (added : List Obligation) {depth : Nat} :
    ∀ {c : Cleanups}, depth < c.depth → (c.grow added).pendingBelow depth = c.pendingBelow depth
  | ⟨[]⟩, h => absurd h (Nat.not_lt_zero _)
  | ⟨scope :: outer⟩, h => by
    have inner : outer.length + 1 - depth = (outer.length - depth) + 1 := by
      simp only [Cleanups.depth, length_cons] at h
      omega
    simp [pendingBelow, grow, Cleanups.depth, inner]

theorem pendingBelow_openScope (c : Cleanups) (depth : Nat) :
    c.openScope.pendingBelow depth = c.pendingBelow depth := by
  unfold pendingBelow openScope Cleanups.depth
  by_cases inner : depth ≤ c.scopes.length
  · have shift : c.scopes.length + 1 - depth = (c.scopes.length - depth) + 1 := by omega
    simp [shift]
  · have all : c.scopes.length + 1 - depth = 0 := by omega
    have all' : c.scopes.length - depth = 0 := by omega
    simp [all, all']

theorem pendingFrom_inner (c : Cleanups) (added : List Obligation) :
    (c.openScope.grow added).pendingFrom c.depth = added := by
  simp [pendingFrom, openScope, grow, depth]

end Cleanups

namespace Marks
open Code Symbols Ast Lower
variable {c : Cleanups} {x : Operand} {live : List Operand} {o : Obligation}

namespace Setting
variable (S : Setting)

@[simp] theorem alive_openScope (c : Cleanups) : S.alive c.openScope = S.alive c := by
  simp [alive, Cleanups.pendingFrom_zero, Cleanups.openScope]

theorem alive_grow (added : List Obligation) (h : 0 < c.depth) :
    S.alive (c.grow added) = S.seen (added.map Obligation.object) ++ S.alive c := by
  unfold alive
  rw [Cleanups.pendingFrom_grow added h, map_append, S.seen_append]

theorem aliveBelow_grow (added : List Obligation) {depth : Nat} (h : depth < c.depth) :
    S.aliveBelow (c.grow added) depth = S.aliveBelow c depth := by
  unfold aliveBelow
  rw [Cleanups.pendingBelow_grow added h]

@[simp] theorem aliveBelow_openScope (c : Cleanups) (depth : Nat) :
    S.aliveBelow c.openScope depth = S.aliveBelow c depth := by
  unfold aliveBelow
  rw [Cleanups.pendingBelow_openScope]

end Setting

namespace Scene
variable {S : Setting} {P Q : Scene}

theorem Built.follows (h : P.Built S x) : S.follows = true := by
  obtain ⟨note, -, hx⟩ := h
  cases follows : S.follows with
  | true => rfl
  | false =>
    cases ho : note.origin <;> simp [ho, Origin.objects, Setting.seen, follows] at hx

theorem Firm.live_eq_nil (h : P.Firm S) (loose : S.follows = false) : P.live = [] := by
  refine eq_nil_iff_forall_not_mem.2 fun x hx => ?_
  rw [(h.live x hx).follows] at loose
  cases loose

theorem Sound.keep_dead (h : P.Sound S) (dead : P.mark.phase = .dead)
    (built : ∀ x ∈ live, P.Built S x) : (P.keep P.held live).Sound S :=
  ⟨h.toFirm.keep (fun _ hr => hr) built, .inl ⟨dead, .inr rfl⟩, h.closed, h.raises.frame rfl rfl⟩

theorem leads_keep : P.Leads S [] (P.keep P.held live) :=
  .of_notes later_keep (fun _ hr => hr) rfl fun h => h

theorem Later.no_site (later : P.Later S Q) (same : Q.calls = P.calls) {k : Nat} {note : Note}
    (hk : Q.notes[k]? = some note) (new : P.notes.size ≤ k) : note.origin.site? = none := by
  have front : Q.notes.toList.take P.notes.size = P.notes.toList := by
    apply ext_getElem?
    intro j
    rw [getElem?_take]
    split
    · rename_i lt
      have old : P.notes[j]? = some P.notes[j] := Array.getElem?_eq_getElem lt
      rw [Array.getElem?_toList, Array.getElem?_toList, later.notes j _ old, old]
    · rw [Array.getElem?_toList, Array.getElem?_eq_none (by omega)]
  rw [Scene.calls, Scene.calls, ← take_append_drop P.notes.size Q.notes.toList,
    filterMap_append, front] at same
  refine filterMap_eq_nil_iff.1 (append_right_eq_self.1 same) note
    (mem_iff_getElem?.2 ⟨k - P.notes.size, ?_⟩)
  rw [getElem?_drop, Nat.add_sub_cancel' new, Array.getElem?_toList, hk]

theorem Leads.calls_eq (h : P.Leads S [] Q) : Q.calls = P.calls := by
  obtain ⟨made, hmade, done⟩ := h.calls
  rw [hmade, done.eq_nil, append_nil]

theorem EndsWith.mono {origin : Origin} (h : P.EndsWith origin live) (leads : P.Leads S [] Q) :
    Q.EndsWith origin live := by
  obtain ⟨j, note, hj, made, alive, last⟩ := h
  refine ⟨j, note, leads.notes j note hj, made, alive, fun i note' after hi => ?_⟩
  by_cases old : i < P.notes.size
  · have there : P.notes[i]? = some P.notes[i] := Array.getElem?_eq_getElem old
    cases (leads.notes i _ there).symm.trans hi
    exact last i _ after there
  · exact leads.toLater.no_site leads.calls_eq hi (by omega)

theorem EndsWith.mem {origin : Origin} (h : P.EndsWith origin live) :
    ∃ note ∈ P.notes, note.origin = origin ∧ note.mark.live = live := by
  obtain ⟨j, note, hj, made, alive, -⟩ := h
  exact ⟨note, Array.mem_of_getElem? hj, made, alive⟩

theorem endsWith_push {note : Note} {i : Instr} {n : Mark} :
    (P.push note i n).EndsWith note.origin note.mark.live := by
  refine ⟨P.notes.size, note, Array.getElem?_push_size, rfl, rfl, fun k note' after hk => ?_⟩
  obtain ⟨lt, -⟩ := Array.getElem?_eq_some_iff.1 hk
  change k < (P.notes.push note).size at lt
  rw [Array.size_push] at lt
  omega

theorem Latest.mono {site : CallSite} (h : P.Latest site x) (leads : P.Leads S [] Q) :
    Q.Latest site x := by
  obtain ⟨symbol, slot, live, ends⟩ := h
  exact ⟨symbol, slot, live, ends.mono leads⟩

/-- A temporary is destroyed behind the constructor of an object. -/
theorem Latest.leaves {v : VariableId} {ctor : FunctionId} (h : P.Latest (.construction v ctor) x)
    (temp : S.Temp P.state o.object) {i : Instr} {n : Mark} :
    (P.push (P.note (.destructor o)) i n).LeavesOut S P.notes.size x := by
  obtain ⟨symbol, slot, live, j, note, hj, made, -, last⟩ := h
  obtain ⟨lt, -⟩ := Array.getElem?_eq_some_iff.1 hj
  have later : P.Later S (P.push (P.note (.destructor o)) i n) := later_push
  refine ⟨j, note, P.note (.destructor o), v, ctor, symbol, slot, o, lt, later.notes j note hj,
    made, Array.getElem?_push_size, rfl, temp.widen later.widens, fun k note' after before hk => ?_⟩
  change (P.notes.push _)[k]? = some note' at hk
  rw [Array.getElem?_push, if_neg (Nat.ne_of_lt before)] at hk
  exact last k note' after hk

/-- Some objects outlive those that are destroyed here: these are temporaries, and the others are
objects of variables, just built, that no scope owes yet. -/
def Outlives (S : Setting) (P : Scene) (objects : List Operand) (owed : List Obligation) : Prop :=
  objects = [] ∨ (∀ o ∈ owed, S.Temp P.state o.object) ∧
    ∀ x ∈ objects, ∃ v ctor, P.Latest (.construction v ctor) x

theorem Outlives.mono {objects : List Operand} {owed owed' : List Obligation}
    (h : P.Outlives S objects owed) (leads : P.Leads S [] Q) (sub : ∀ o ∈ owed', o ∈ owed) :
    Q.Outlives S objects owed' := by
  refine h.imp_right fun ⟨temps, made⟩ => ⟨fun o ho => (temps o (sub o ho)).widen leads.widens,
    fun x hx => ?_⟩
  obtain ⟨v, ctor, latest⟩ := made x hx
  exact ⟨v, ctor, latest.mono leads⟩

def withCleanups (P : Scene) (c : Cleanups) : Scene := P.widen { P.state with cleanups := c }

theorem widens_cleanups (c : Cleanups) : S.Widens P.state { P.state with cleanups := c } :=
  .of_same rfl rfl rfl rfl

theorem leads_cleanups (c : Cleanups) : P.Leads S [] (P.withCleanups c) :=
  .of_notes (later_widen (widens_cleanups c)) (fun _ hr => hr) rfl fun h => h

theorem Sound.withCleanups (h : P.Sound S)
    (owed : ∀ o ∈ c.pendingFrom 0, o ∈ P.state.cleanups.pendingFrom 0 ∨ P.Owes S o)
    (built : P.Stacked S (S.alive c)) : (P.withCleanups c).Sound S := by
  have later : P.Later S (P.withCleanups c) := (leads_cleanups c).toLater
  refine h.widen (h.toFirm.widen (widens_cleanups c) rfl rfl ?_ built) rfl rfl
  exact h.books.mono later h.books.entry (fun i hi => .inl hi) (fun v l hl => .inl hl)
    (fun o ho => (owed o ho).imp_right (·.mono later)) (fun pad hp => .inl hp)
    (fun _ p hp => .inl hp) fun p hp b hb => .inl ⟨p, hp, hb⟩

end Scene

section Scopes
variable {S : Setting} {P : Scene} {env : Env}
open Scene

theorem openScope_arrives (h : P.Sound S) :
    Arrives S P [] (fun _ Q => Q.held = P.held ∧ Q.live = P.live ∧
      Q.state.cleanups = P.state.cleanups.openScope) (openScope env P.state) := by
  refine ⟨P.withCleanups P.state.cleanups.openScope, rfl, h.withCleanups (fun o ho => .inl ?_) ?_,
    leads_cleanups _, rfl, rfl, rfl⟩
  · simpa [Cleanups.pendingFrom_zero, Cleanups.openScope] using ho
  · exact h.lived.owed

theorem dropScope_arrives (h : P.Sound S) (c : Cleanups) (added : List Obligation)
    (hc : P.state.cleanups = c.openScope.grow added) :
    Arrives S P [] (fun _ Q => Q.held = P.held ∧ Q.live = P.live ∧ Q.state.cleanups = c)
      (dropScope env P.state) := by
  have pending : P.state.cleanups.pendingFrom 0 = added ++ c.pendingFrom 0 := by
    rw [hc, Cleanups.pendingFrom_grow added (by simp)]
    simp [Cleanups.pendingFrom_zero, Cleanups.openScope]
  have closed : P.state.cleanups.closeScope = .ok c := by
    rw [hc]
    rfl
  refine .look (Arrives.query fun c' hc' => ?_)
  cases closed.symm.trans hc'
  refine ⟨P.withCleanups c, rfl, h.withCleanups (fun o ho => .inl ?_) (h.lived.owed.sublist ?_),
    leads_cleanups _, rfl, rfl, rfl⟩
  · rw [pending]
    exact mem_append_right _ ho
  · unfold Setting.alive
    rw [pending, map_append, S.seen_append]
    exact sublist_append_right _ _

theorem owe_arrives (h : P.Sound S) (depth : 0 < P.state.cleanups.depth) (owes : P.Owes S o)
    (made : S.follows = true → P.BuiltOn S o.object (S.alive P.state.cleanups)) :
    Arrives S P [] (fun _ Q => Q.held = P.held ∧ Q.live = P.live ∧
      Q.state.cleanups = P.state.cleanups.grow [o]) (owe o env P.state) := by
  refine .look (Arrives.query fun c hc => ?_)
  cases (Cleanups.push_eq o depth).symm.trans hc
  refine ⟨P.withCleanups (P.state.cleanups.grow [o]), rfl, h.withCleanups (fun o' ho' => ?_) ?_,
    leads_cleanups _, rfl, rfl, rfl⟩
  · rw [Cleanups.pendingFrom_grow _ depth] at ho'
    rcases mem_append.1 ho' with ho' | ho'
    · rw [mem_singleton.1 ho']
      exact .inr owes
    · exact .inl ho'
  · rw [S.alive_grow _ depth]
    cases follows : S.follows with
    | true =>
      rw [Setting.seen_eq follows]
      exact ⟨made follows, h.lived.owed⟩
    | false => simpa [Setting.seen, follows] using h.lived.owed

end Scopes

section Destroy
variable {S : Setting} {P : Scene} {env : Env}
open Scene

/-- The object in front of the others is destroyed; behind `extra`, only if it is a temporary. -/
theorem Drops.seen {s : State} (extra : List Operand) {others rest : List Operand}
    (temp : extra = [] ∨ S.Temp s x) :
    Drops S s x (extra ++ S.seen (x :: others) ++ rest) (extra ++ S.seen others ++ rest) := by
  cases follows : S.follows with
  | false => exact .inl ⟨follows, by simp [Setting.seen, follows]⟩
  | true =>
    refine .inr ⟨extra, others ++ rest, ?_, ?_, temp⟩ <;> simp [Setting.seen, follows]

theorem alive_of_loose (loose : S.follows = false) (c : Cleanups) : S.alive c = [] := by
  simp [Setting.alive, Setting.seen, loose]

theorem owing_tail {owed : List Obligation} {rest : List Operand} {destroyed : Nat}
    (h : (S.alive c).drop destroyed = S.seen ((o :: owed).map Obligation.object) ++ rest) :
    (S.alive c).drop (destroyed + 1) = S.seen (owed.map Obligation.object) ++ rest := by
  rw [← drop_drop, h]
  cases follows : S.follows with
  | true => simp [Setting.seen, follows]
  | false =>
    have none : rest = [] := by simpa [Setting.alive, Setting.seen, follows] using h.symm
    simp [Setting.seen, follows, none]

theorem emitDestructor_arrives (h : P.Sound S) (table : env.symbols = S.table)
    (holds : P.Holds S o.object) (due : S.follows = true → P.Due S o)
    (drops : Drops S P.state o.object P.live live) {left : List Operand}
    (outlives : P.Outlives S left [o]) :
    Ensures (fun raises t => ∃ Q : Scene, Q.state = t ∧ P.Leads S [] Q ∧
        P.Stands P.held live Q ∧
        if raises then Q.Called S [] (some left) ∧ ∃ slot, Q.state.status = some slot
        else Q.Sound S)
      (emitDestructor o env P.state) := by
  refine .seq (P := fun symbol t => S.table.functionSymbol o.destructor = .ok symbol ∧
    t = P.state) (Ends.table (Ends.answered (fun _ hd => ⟨table ▸ hd, rfl⟩) fun _ _ => trivial)) ?_
  rintro symbol _ ⟨hsymbol, rfl⟩
  cases raises : symbol.canRaise with
  | false =>
    have calls : Calls S P.state (.destructor o) (.direct symbol.name) (o.object :: []) false := by
      rw [← raises]
      exact .destructor hsymbol (by simp [Reports, raises])
    have sound := h.push_call none calls (fun x hx => by simp_all [Callee.operands])
      (fun r hr => by cases hr) (fun r hr => by cases hr) drops
      (fun follows o' ho' => by cases ho'; exact due follows)
    exact ⟨P.push (P.note (.destructor o)) (.call (.direct symbol.name) [o.object] none)
      ⟨.ordinary, P.held, live⟩, rfl, leads_push rfl rfl rfl fun _ hr => hr,
      ⟨rfl, rfl, rfl⟩, sound⟩
  | true =>
    refine .seq (statusSlot_arrives h) ?_
    rintro slot _ ⟨Q, rfl, sound, leads, stands, hs⟩
    have calls : Calls S Q.state (.destructor o) (.direct symbol.name) (o.object :: [.reg slot])
        true := by
      rw [← raises]
      exact .destructor hsymbol (by simp [Reports, raises, hs])
    have attempts : Attempts S Q.state (.destructor o) Q.live [] (some left) live := by
      rw [stands.live]
      exact ⟨rfl, rfl, drops.widen leads.widens⟩
    have leaves : ∀ x ∈ left, ∀ (i : Instr) (n : Mark),
        (Q.push (Q.note (.destructor o)) i n).LeavesOut S Q.notes.size x := by
      intro x hx i n
      rcases outlives.mono leads fun _ ho => ho with rfl | ⟨temps, made⟩
      · cases hx
      · obtain ⟨v, ctor, latest⟩ := made x hx
        exact latest.leaves (temps o mem_cons_self)
    have called := sound.push_attempt none calls (fun x hx => ?_) (fun r hr => by cases hr)
      (fun r hr => by cases hr) attempts
      (fun follows o' ho' => by cases ho'; exact (due follows).mono leads.toLater)
      fun x hx => leaves x hx _
    · exact ⟨Q.push (Q.note (.destructor o))
        (.call (.direct symbol.name) [o.object, .reg slot] none)
        ⟨.called [] (some left), Q.held, live⟩, rfl,
        .trans leads (leads_push rfl rfl rfl fun _ hr => hr),
        ⟨stands.held, rfl, stands.cleanups⟩, called, slot, hs⟩
    · simp only [Callee.operands, nil_append, mem_cons, not_mem_nil, or_false] at hx
      rcases hx with rfl | rfl
      · exact .inr (holds.mono leads)
      · exact .inl ⟨slot, hs, rfl⟩

theorem emitCleanups_arrives (extra rest : List Operand) : ∀ (owed : List Obligation)
    (destroyed : Nat) {P : Scene}, P.Sound S → Suits S env P → (∀ o ∈ owed, P.Owes S o) →
    P.live = extra ++ S.seen (owed.map Obligation.object) ++ rest →
    (S.alive P.state.cleanups).drop destroyed = S.seen (owed.map Obligation.object) ++ rest →
    P.Outlives S extra owed →
    Arrives S P [] (fun _ Q => P.Stands P.held (extra ++ rest) Q)
      (emitCleanups destroyed owed env P.state)
  | [], _, P, h, _, _, live, _, _ =>
    ⟨P, rfl, h, .refl P, rfl, by simpa using live, rfl⟩
  | o :: owed, destroyed, P, h, suits, owes, live, owing, outlives => by
    have first := owes o mem_cons_self
    have drops : Drops S P.state o.object P.live
        (extra ++ S.seen (owed.map Obligation.object) ++ rest) := by
      rw [live, map_cons]
      exact .seen extra (outlives.imp_right fun all => all.1 o mem_cons_self)
    have behind : (S.alive P.state.cleanups).drop (destroyed + 1) =
        S.seen (owed.map Obligation.object) ++ rest := owing_tail owing
    have others {Q : Scene} (sound : Q.Sound S) (leads : P.Leads S [] Q)
        (stands : P.Stands P.held (extra ++ S.seen (owed.map Obligation.object) ++ rest) Q) :
        Arrives S P [] (fun _ R => P.Stands P.held (extra ++ rest) R)
          (emitCleanups (destroyed + 1) owed env Q.state) := by
      refine .after leads ((emitCleanups_arrives extra rest owed (destroyed + 1) sound
        (suits.frame leads.toLater stands.cleanups)
        (fun o' ho' => (owes o' (mem_cons_of_mem _ ho')).mono leads.toLater) stands.live
        (stands.cleanups ▸ behind)
        (outlives.mono leads fun _ => mem_cons_of_mem _)).mono fun _ R _ _ stands' => ?_)
      rw [stands.held] at stands'
      exact stands.trans stands'
    refine Ends.seq (emitDestructor_arrives h suits.table first.1.holds first.2 drops
      (outlives.mono (.refl P) (by simp))) ?_
    rintro raises _ ⟨Q, rfl, leads, stands, arrived⟩
    cases raises with
    | false => exact others arrived leads stands
    | true =>
      obtain ⟨called, slot, hs⟩ := arrived
      have finds : Finds Q.live (some extra)
          (S.unwound Q.state.cleanups env.regionDepth (destroyed + 1)) := by
        intro x hx
        rw [stands.live, append_assoc, ← behind] at hx
        rw [stands.cleanups]
        exact (mem_append.1 hx).imp_right (Setting.mem_unwound _)
      refine .seq (testStatus_arrives called (suits.frame leads.toLater stands.cleanups) hs
        finds) ?_
      rintro _ _ ⟨R, rfl, sound, extends_, stands'⟩
      exact others sound (.trans leads (extends_.leads_of_none rfl)) (stands.same stands')

theorem leaveTo_arrives (h : P.Sound S) (suits : Suits S env P) (level : P.Level S) (depth : Nat) :
    Arrives S P [] (fun _ Q => P.Stands P.held (S.aliveBelow P.state.cleanups depth) Q)
      (leaveTo depth env P.state) := by
  refine .look (emitCleanups_arrives []
    (S.aliveBelow P.state.cleanups depth) _ 0 h suits (fun o ho => h.books.owed o ?_) ?_
    (S.alive_split _ depth) (.inl rfl))
  · rw [← P.state.cleanups.pendingFrom_append_pendingBelow depth]
    exact mem_append_left _ ho
  · rw [level, S.alive_split _ depth, nil_append]

theorem closeScope_arrives (h : P.Sound S) (suits : Suits S env P) {added : List Obligation}
    (extra : List Operand) (hc : P.state.cleanups = c.openScope.grow added)
    (live : P.live = extra ++ S.alive P.state.cleanups) (outlives : P.Outlives S extra added) :
    Arrives S P [] (fun _ Q => Q.held = P.held ∧ Q.live = extra ++ S.alive c ∧
        Q.state.cleanups = c) (closeScope env P.state) := by
  have depth : P.state.cleanups.depth = c.depth + 1 := by simp [hc]
  have split : S.alive P.state.cleanups =
      S.seen (added.map Obligation.object) ++ S.alive c := by
    rw [hc, S.alive_grow _ (by simp), S.alive_openScope]
  refine .look ?_
  rw [if_neg (by omega)]
  refine Arrives.ending ?_
  cases ends : P.state.draft.endsInTerminator with
  | true =>
    have built : ∀ x ∈ extra ++ S.alive c, P.Built S x := by
      intro x hx
      refine h.live x ?_
      rw [live, split]
      rcases mem_append.1 hx with hx | hx
      · exact mem_append_left _ hx
      · exact mem_append_right _ (mem_append_right _ hx)
    exact Arrives.after leads_keep
      (dropScope_arrives (h.keep_dead (h.closed ends) built) c added hc)
  | false =>
    have pending : P.state.cleanups.pendingFrom (P.state.cleanups.depth - 1) = added := by
      rw [depth, Nat.add_sub_cancel, hc]
      exact c.pendingFrom_inner added
    have owes : ∀ o ∈ added, P.Owes S o := by
      intro o ho
      refine h.books.owed o ?_
      rw [hc, Cleanups.pendingFrom_grow _ (by simp)]
      exact mem_append_left _ ho
    have destroyed := emitCleanups_arrives extra (S.alive c) added 0 h suits owes
      (by rw [live, split, append_assoc]) split outlives
    rw [← pending] at destroyed
    refine Arrives.next (m := leaveTo (P.state.cleanups.depth - 1)) destroyed
      fun _ Q sound leads stands => ?_
    refine (dropScope_arrives sound c added (stands.cleanups.trans hc)).mono
      fun _ R _ _ dropped => ?_
    rw [stands.held, stands.live] at dropped
    exact dropped

end Destroy

section Return
variable {S : Setting} {P : Scene} {env : Env}
open Scene

theorem defaultReturn_ends (env : Env) (s : State) :
    Ensures (fun value t => t = s ∧ ∀ o ∈ value, ∃ constant, o = .imm constant)
      (defaultReturn env s) := by
  have none_ : ∀ o ∈ (none : Option Operand), ∃ constant, o = .imm constant :=
    fun o ho => nomatch ho
  refine .ask (Ends.ask ?_)
  split
  · exact .ret ⟨rfl, none_⟩
  · refine .query fun void _ => ?_
    split
    · exact .ret ⟨rfl, none_⟩
    · refine .query fun ty _ => ?_
      cases Imm.zero? ty with
      | some zero => exact .ret ⟨rfl, fun o ho => ⟨zero, by cases ho; rfl⟩⟩
      | none => exact trivial

theorem defaultReturn_arrives (h : P.Sound S) :
    Arrives S P [] (fun value Q => P.Stands P.held P.live Q ∧ ∀ o ∈ value, Q.Keeps S o)
      (defaultReturn env P.state) := by
  refine Ends.mono (defaultReturn_ends env P.state) ?_
  rintro value _ ⟨rfl, constant⟩
  refine ⟨P, rfl, h, .refl P, ⟨rfl, rfl, rfl⟩, fun o ho => ?_⟩
  obtain ⟨c, rfl⟩ := constant o ho
  exact .imm c

theorem emitTrace_arrives (h : P.Sound S) (caller : env.symbol.name = S.caller) {name : String}
    (known : name = traceEnter ∨ name = traceLeave) :
    Arrives S P [] (fun _ Q => P.Stands P.held P.live Q) (emitTrace name env P.state) := by
  refine .ask ?_
  split
  · refine .ask ?_
    have calls : Calls S P.state .trace (.direct name) [Imm.fn env.symbol.name] false := by
      rw [caller]
      exact .trace known
    exact ⟨_, rfl, h.push_call none calls (fun o ho => by
      simp only [Callee.operands, nil_append, mem_singleton] at ho
      rw [ho]
      exact (Keeps.imm _).holds) (fun r hr => nomatch hr) (fun r hr => nomatch hr) rfl nofun,
      leads_push rfl rfl rfl fun _ hr => hr, rfl, rfl, rfl⟩
  · exact Arrives.here h ⟨rfl, rfl, rfl⟩

theorem emitReturn_arrives (h : P.Sound S) (caller : env.symbol.name = S.caller)
    (none : P.live = []) {value : Option Operand} (holds : ∀ o ∈ value, P.Holds S o)
    (built : ∀ x ∈ live, P.Built S x) :
    Arrives S P [] (fun _ Q => P.Stands P.held live Q ∧ Q.mark.phase = .dead)
      (emitReturn value env P.state) := by
  refine (emitTrace_arrives h caller (.inr rfl)).next fun _ Q sound leads stands => ?_
  have turn : Turn S Q.state .plain .ordinary Q.live (.ret value) .dead live := by
    rw [stands.live, none]
    exact .ret (.inl rfl)
  refine (emit_end sound rfl (fun o ho => ?_) (fun x hx => (built x hx).mono leads.toLater) turn
    (fun e l hl => ?_) rfl).mono fun _ R _ _ ⟨stands', dead⟩ => ?_
  · exact (holds o (by simpa [Instr.operands] using ho)).mono leads
  · cases e <;> cases hl
  · rw [stands.held] at stands'
    exact ⟨stands.trans stands', dead⟩

end Return
end Marks
end FlatCode
