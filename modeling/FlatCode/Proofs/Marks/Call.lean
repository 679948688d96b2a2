import FlatCode.Proofs.Marks.Draw

/-! Calls. A call that does not fail builds the object it is made for and the one in its result
slot; the scope around it owes the latter at once, and the step that makes the call owes the
former. -/
namespace FlatCode.Marks
open Code Symbols Ast Lower List
variable {site : CallSite} {object : Option Operand} {symbol : FunctionSymbol}

structure Scene.Forks (P : Scene) (b : Branches) (Q : Scene) : Prop where
  held : Q.held = P.held
  carried : ∀ x ∈ b.onTrue ++ b.onFalse, Q.Carries x P.held Q.live
  taken : b.onTrue ≠ [] ∨ b.onFalse ≠ []
  /-- Where the truth is known, there is a way for it. -/
  known : ∀ truth, b.constant = some truth → (if truth then b.onTrue else b.onFalse) ≠ []

structure Fine (S : Setting) (sites : List Site) (p : Plan) : Prop where
  value : ∀ env P, Ready S env [] P →
    Draws S env P [] sites (fun o Q => ∀ x ∈ o, Q.Holds S x) p.value
  jump : ∀ env P, Ready S env [] P → Draws S env P [] sites (fun b Q => P.Forks b Q) p.jump
  address : ∀ env P, Ready S env [] P →
    Draws S env P [] sites (fun x Q => Q.Holds S x) p.address

inductive AllFine (S : Setting) : List Site → List Plan → Prop where
  | nil : AllFine S [] []
  | cons {a b : List Site} {p : Plan} {ps : List Plan} :
    Fine S a p → AllFine S b ps → AllFine S (a ++ b) (p :: ps)

section Arguments
variable {S : Setting} {env : Env} {P : Scene} {a : List Site}
open Scene

theorem requireValue_draws {m : LowerM (Option Operand)} (kind : String)
    (h : Draws S env P [] a (fun o Q => ∀ x ∈ o, Q.Holds S x) m) :
    Draws S env P [] a (fun x Q => Q.Holds S x) (requireValue kind m) := by
  refine h.last fun o Q ready _ _ holds => ?_
  cases o with
  | none => exact .fail
  | some x => exact .pure ready (holds x rfl)

theorem operands_draws {ps : List Plan} (h : AllFine S a ps) : ∀ {P : Scene}, Ready S env [] P →
    Draws S env P [] a (fun os Q => ∀ o ∈ os, Q.Holds S o) (ps.mapM Plan.operand) := by
  induction h with
  | nil => exact fun ready => .pure ready (by simp)
  | @cons a b p ps first _ ih =>
    intro P ready
    rw [mapM_cons]
    refine (requireValue_draws p.kind (first.value env P ready)).seq
      fun x Q ready' _ _ holds => ?_
    refine (ih ready').last fun os R ready'' leads _ all => .pure ready'' ?_
    exact forall_mem_cons.2 ⟨holds.mono leads, all⟩

theorem Scene.FreeSlot.mono {Q : Scene} {r : Register} (h : P.FreeSlot r) (leads : P.Leads S a Q) :
    Q.FreeSlot r := by
  obtain ⟨lt, apart, unused⟩ := h
  refine ⟨Nat.lt_of_lt_of_le lt leads.widens.registers, fun v l hl same => ?_, fun note hn hr => ?_⟩
  · rcases leads.widens.houses.added v l hl with old | ⟨new, -, -⟩
    · exact apart v l old same
    · rw [same] at new
      omega
  · rcases leads.slots note hn r hr with old | new
    · exact unused note old hr
    · omega

end Arguments

section Parts
variable {S : Setting} {env : Env} {P : Scene} (symbol : FunctionSymbol)
open Scene

theorem resultSlot_draws (ready : Ready S env [] P) :
    Draws S env P [] [] (fun slot Q => slot.isSome = symbol.returnsByHiddenSlot ∧
        ∀ r ∈ slot, P.Fresh Q r ∧ Q.Keeps S (.reg r) ∧ Q.FreeSlot r)
      (resultSlot symbol) := by
  unfold resultSlot
  split
  · rename_i hidden
    refine .asked fun ty _ => ?_
    have made : Draws S env P [] [] (fun r Q => P.Fresh Q r ∧ Q.Keeps S (.reg r) ∧ Q.FreeSlot r)
        (liftM (Draft.allocSlot ty none) : LowerM Register) :=
      .still ready ((allocSlot_arrives ready.sound ty none).mono
        fun _ _ _ _ ⟨stands, facts⟩ => ⟨⟨_, stands⟩, facts⟩)
    refine made.next fun r Q ready' _ _ facts => .pure ready' ⟨by simp [hidden], fun r' hr' => ?_⟩
    cases Option.mem_some.1 hr'
    exact facts
  · rename_i hidden
    exact .pure ready ⟨by simpa using hidden, by simp⟩

theorem statusArgument_draws (ready : Ready S env [] P) :
    Draws S env P [] [] (fun status Q => Reports Q.state symbol.canRaise status)
      (statusArgument symbol) := by
  unfold statusArgument
  split
  · rename_i raises
    have made : Draws S env P [] [] (fun slot Q => Q.state.status = some slot) statusSlot :=
      .still ready ((statusSlot_arrives ready.sound).mono
        fun _ _ _ _ ⟨stands, hs⟩ => ⟨⟨_, stands⟩, hs⟩)
    refine made.next fun slot Q ready' _ _ hs => .pure ready' ?_
    simp [Reports, raises, hs]
  · rename_i raises
    exact .pure ready (by simp [Reports, raises])

theorem callee_draws (ready : Ready S env [] P) (isVirtual : Bool)
    {object : Option (Operand × TypeId)} (holds : ∀ x ∈ object, P.Holds S x.1) :
    Draws S env P [] [] (fun target Q => (target = .direct symbol.name ∨
        (isVirtual ∧ ∃ r, target = .indirect r)) ∧ ∀ o ∈ target.operands, Q.Holds S o)
      (callee symbol isVirtual object) := by
  unfold callee
  split
  · rename_i hvirtual
    cases object with
    | none => exact .fail
    | some x =>
      refine (Draws.derived (dispatch_derives symbol x.1 x.2) ready (holds_one (holds x rfl))).next
        fun r Q ready' _ _ holds' => ?_
      exact .pure ready' ⟨.inr ⟨hvirtual, r, rfl⟩, holds'⟩
  · exact .pure ready ⟨.inl rfl, by simp [Callee.operands]⟩

theorem callDest_draws (ready : Ready S env [] P) (slot : Option Register) :
    Draws S env P [] [] (fun dest Q => ∀ r, dest = some r → Q.state.Usable r)
      (callDest symbol slot) := by
  unfold callDest resultRegister
  split
  · exact .pure ready (by simp)
  · refine .asked fun void _ => ?_
    split
    · exact .pure ready (by simp)
    · refine .asked fun ty _ => ?_
      split
      · exact .fail
      · have made : Draws S env P [] [] (fun r Q => P.Fresh Q r)
            (liftM (Draft.newRegister ty) : LowerM Register) :=
          .still ready ((newRegister_arrives ready.sound ty).mono
            fun _ _ _ _ ⟨stands, fresh⟩ => ⟨⟨_, stands⟩, fresh⟩)
        refine made.next fun r Q ready' _ _ fresh => .pure ready' fun r' hr' => ?_
        cases hr'
        exact fresh.2

end Parts

section Owe
variable {S : Setting} {env : Env} {P : Scene}
open Scene

theorem oweDestructor_arrives (h : P.Sound S) (table : env.symbols = S.table)
    (scope : 0 < P.state.cleanups.depth) {object : Operand} (keeps : P.Keeps S object)
    {ty : TypeId} (due : ∀ d, S.table.destructor? ty = some d → P.Due S ⟨object, d⟩)
    (made : S.follows = true → (S.table.destructor? ty).isSome →
      P.BuiltOn S object (S.alive P.state.cleanups)) (own : List Operand)
    (live : P.live = own ++ S.seen (if (S.table.destructor? ty).isSome then [object] else []) ++
      S.alive P.state.cleanups) :
    Arrives S P [] (fun _ Q => Q.held = P.held ∧ Q.live = own ++ S.alive Q.state.cleanups ∧
        ∃ added, Q.state.cleanups = P.state.cleanups.grow added ∧ ∀ o ∈ added, o.object = object ∧
          (S.table.destructor? ty).isSome)
      (oweDestructor object ty env P.state) := by
  refine Arrives.query fun destructor hd => ?_
  rw [table] at hd
  have known := SymbolTable.destructorOf_eq hd
  cases destructor with
  | none =>
    refine Arrives.here h ⟨rfl, ?_, [], (Cleanups.grow_nil _).symm, by simp⟩
    simpa [known] using live
  | some d =>
    have owes : P.Owes S ⟨object, d⟩ := ⟨keeps, fun _ => due d known⟩
    refine (owe_arrives h scope owes fun follows => made follows (by simp [known])).mono
      fun _ Q _ _ ⟨held, hlive, hc⟩ =>
      ⟨held, ?_, [⟨object, d⟩], hc, by simp [known]⟩
    rw [hlive, live, hc, S.alive_grow _ scope]
    simp [known]

def resultObjects (S : Setting) (symbol : FunctionSymbol) (slot : Option Register) : List Operand :=
  S.seen
    (if (S.table.destructor? symbol.returnType).isSome then slot.toList.map Operand.reg else [])

theorem mem_resultObjects {slot : Option Register} {x : Operand}
    (h : x ∈ resultObjects S symbol slot) :
    ∃ r, slot = some r ∧ x = .reg r := by
  have here := Setting.mem_of_seen h
  split at here
  · obtain ⟨r, hr, rfl⟩ := mem_map.1 here
    exact ⟨r, Option.mem_toList.1 hr, rfl⟩
  · cases here

theorem callResult_arrives (h : P.Sound S) (table : env.symbols = S.table)
    (scope : 0 < P.state.cleanups.depth) (symbol : FunctionSymbol) {slot dest : Option Register}
    (keeps : ∀ r ∈ slot, P.Keeps S (.reg r)) (temp : ∀ r ∈ slot, S.Temp P.state (.reg r))
    (due : ∀ r ∈ slot, ∀ d, S.table.destructor? symbol.returnType = some d → P.Due S ⟨.reg r, d⟩)
    (made : ∀ r ∈ slot, S.follows = true → (S.table.destructor? symbol.returnType).isSome →
      P.BuiltOn S (.reg r) (S.alive P.state.cleanups))
    (hdest : ∀ r, dest = some r → P.Holds S (.reg r)) {own : List Operand}
    (live : P.live = own ++ resultObjects S symbol slot ++ S.alive P.state.cleanups) :
    Arrives S P [] (fun v Q => Q.live = own ++ S.alive Q.state.cleanups ∧ P.Gains S Q ∧
        (∀ x ∈ v, Q.Holds S x) ∧ ∀ x ∈ S.alive Q.state.cleanups, x ∈ S.alive P.state.cleanups ∨
          x ∈ resultObjects S symbol slot)
      (callResult symbol slot dest env P.state) := by
  unfold resultObjects at live ⊢
  cases slot with
  | none =>
    refine Arrives.here h ⟨by simpa using live, .refl P, fun x hx => ?_, fun x hx => .inl hx⟩
    obtain ⟨r, hr, rfl⟩ := Option.map_eq_some_iff.1 hx
    exact hdest r hr
  | some r =>
    refine (oweDestructor_arrives h table scope (keeps r rfl) (due r rfl)
      (made r rfl) own live).next
      fun _ Q sound leads ⟨_, hlive, added, hc, objects⟩ => ?_
    refine Arrives.here sound ⟨hlive, ⟨added, hc, fun o ho => ?_⟩, fun x hx => ?_, fun x hx => ?_⟩
    · rw [(objects o ho).1]
      exact (temp r rfl).widen leads.widens
    · cases Option.mem_some.1 hx
      exact ((keeps r rfl).mono leads.toLater).holds
    · rw [hc, S.alive_grow _ scope] at hx
      refine (mem_append.1 hx).symm.imp_right fun hx => ?_
      unfold Setting.seen at hx ⊢
      split at hx
      · obtain ⟨o, ho, rfl⟩ := mem_map.1 hx
        rw [(objects o ho).1, if_pos ‹_›, if_pos (objects o ho).2]
        exact mem_singleton_self _
      · cases hx

def own (S : Setting) (site : CallSite) (object : Option Operand) : List Operand :=
  S.seen (if (site.owed? S.table).isSome then object.toList else [])

theorem eq_some_of_own {x : Operand} (h : x ∈ own S site object) : object = some x := by
  have here := Setting.mem_of_seen h
  split at here
  · exact Option.mem_toList.1 here
  · cases here

def Awaits (S : Setting) (site : CallSite) (object : Option Operand) (P : Scene) : Prop :=
  ∀ x ∈ own S site object, P.Latest site x ∧ P.BuiltOn S x (S.alive P.state.cleanups)

theorem Receives.of_own {s : State} {x : Operand} (h : Receives s site object)
    (hx : x ∈ own S site object) :
    ∃ v l, s.location? v = some l ∧ x = .reg l.slot := by
  have here := Setting.mem_of_seen hx
  split at here
  · rename_i owes
    obtain ⟨v, owed⟩ := Option.isSome_iff_exists.1 owes
    unfold Receives at h
    rw [(CallSite.built?_of_owed? owed).1] at h
    obtain ⟨l, hl, rfl⟩ := h
    exact ⟨v, l, hl, mem_singleton.1 here⟩
  · cases here

theorem objects_eq (site : CallSite) (symbol : FunctionSymbol) (slot : Option Register)
    (object : Option Operand) : (Origin.site site symbol slot object).objects S =
      own S site object ++ resultObjects S symbol slot :=
  S.seen_append _ _

/-- A call has been made and has not failed. -/
structure Made (S : Setting) (P : Scene) (origin : Origin) (dest : Option Register) (Q : Scene) :
    Prop where
  sound : Q.Sound S
  extends_ : P.Extends S origin Q
  ends : Q.EndsWith origin P.live
  stands : P.Stands (dest.toList ++ P.held) (origin.objects S ++ P.live) Q

theorem testCall_arrives (h : P.Sound S) (suits : Suits S env P) (level : P.Level S)
    {slot : Option Register} {target : Callee} {arguments : List Operand} {dest : Option Register}
    (calls : Calls S P.state (.site site symbol slot object) target arguments symbol.canRaise)
    (reads : ∀ o ∈ target.operands ++ arguments,
      (symbol.canRaise ∧ ∃ r, P.state.status = some r ∧ o = .reg r) ∨ P.Holds S o)
    (hdest : ∀ r, dest = some r → P.state.Usable r)
    (free : ∀ r, slot = some r → P.FreeSlot r) (status : symbol.canRaise → P.state.status.isSome) :
    Ensures (fun _ t => ∃ Q : Scene, Q.state = t ∧ Made S P (.site site symbol slot object) dest Q)
      (testCall symbol env { P.state with
        draft := { P.state.draft with
          body := P.state.draft.body.push (.call target arguments dest) } }) := by
  have kept : ∀ r ∈ P.held, r ∈ dest.toList ++ P.held := fun _ hr => mem_append_right _ hr
  unfold testCall
  cases raises : symbol.canRaise with
  | false =>
    rw [raises] at calls reads
    have sound := h.push_call dest calls (fun o ho =>
      by simpa using reads o ho) hdest free rfl nofun
    exact ⟨_, rfl, sound, extends_note kept rfl, endsWith_push, ⟨rfl, rfl, rfl⟩⟩
  | true =>
    rw [raises] at calls reads
    obtain ⟨r, hr⟩ := Option.isSome_iff_exists.1 (status raises)
    have called := h.push_attempt dest calls (fun o ho => by simpa using reads o ho) hdest free
      ⟨rfl, rfl, rfl⟩ nofun (fun _ hx => nomatch hx)
    refine Ends.mono (testStatus_arrives called (suits.frame later_push rfl) hr
      ((S.unwound_zero _ _).trans level.symm)) ?_
    rintro _ _ ⟨Q, rfl, sound, extends_, stands⟩
    have called' : P.Extends S (.site site symbol slot object)
        (P.push (P.note (.site site symbol slot object)) (.call target arguments dest)
          ⟨.called ((Origin.site site symbol slot object).objects S) none, dest.toList ++ P.held,
            P.live⟩) := extends_note kept rfl
    exact ⟨Q, rfl, sound, called'.plain_then extends_,
      endsWith_push.mono (extends_.leads_of_none rfl), ⟨stands.held, stands.live, stands.cleanups⟩⟩

end Owe

section CallFunction
variable {S : Setting} {env : Env} {P : Scene} {a : List Site}
open Scene

theorem receiver_holds {arguments : List Plan} {operands : List Operand}
    (hobject : ∀ o ∈ object, P.Holds S o) (holds : ∀ o ∈ operands, P.Holds S o) :
    ∀ x ∈ receiver symbol object arguments operands, P.Holds S x.1 := by
  intro x hx
  unfold receiver at hx
  split at hx
  · obtain ⟨_, -, rfl⟩ := Option.map_eq_some_iff.1 hx
    exact hobject _ rfl
  · cases Option.mem_some.1 hx
    exact holds _ mem_cons_self
  · cases hx

theorem Reports.mem {s : State} {status : List Operand} {o : Operand}
    (h : Reports s symbol.canRaise status) (ho : o ∈ status) :
    symbol.canRaise ∧ ∃ r, s.status = some r ∧ o = .reg r := by
  unfold Reports at h
  split at h
  · obtain ⟨r, hr, rfl⟩ := h
    exact ⟨‹_›, r, hr, mem_singleton.1 ho⟩
  · rw [h] at ho
    cases ho

theorem Reports.isSome {s : State} {status : List Operand} (h : Reports s symbol.canRaise status)
    (raises : symbol.canRaise) : s.status.isSome := by
  rw [raises] at h
  obtain ⟨r, hr, -⟩ := h
  rw [hr]
  rfl

/-- From the first scene on, all that a call needs has been made ready. -/
structure Prepared (S : Setting) (env : Env) (P : Scene) (a : List Site) (site : CallSite)
    (symbol : FunctionSymbol) (object : Option Operand) (slot : Option Register) (target : Callee)
    (arguments : List Operand) (dest : Option Register) (Q : Scene) : Prop where
  leads : P.Leads S a Q
  ready : Ready S env [] Q
  gains : P.Gains S Q
  new : ∀ r, slot = some r → P.state.draft.registers.size ≤ r.index
  keeps : ∀ r, slot = some r → Q.Keeps S (.reg r)
  free : ∀ r, slot = some r → Q.FreeSlot r
  calls : Calls S Q.state (.site site symbol slot object) target arguments symbol.canRaise
  reads : ∀ o ∈ target.operands ++ arguments,
    (symbol.canRaise ∧ ∃ r, Q.state.status = some r ∧ o = .reg r) ∨ Q.Holds S o
  usable : ∀ r, dest = some r → Q.state.Usable r
  status : symbol.canRaise → Q.state.status.isSome

theorem callFunction_prepared {plans : List Plan} (known : .call site ∈ S.sites)
    (hsymbol : S.table.functionSymbol site.function = .ok symbol)
    (operator : symbol.operator = none) (args : AllFine S a plans) (ready : Ready S env [] P)
    (receives : Receives P.state site object) (keeps : ∀ o ∈ object, P.Keeps S o)
    {post : Option Operand → State → Prop}
    (next : ∀ slot target arguments dest Q,
      Prepared S env P a site symbol object slot target arguments dest Q →
      Ensures post ((do
        emit (.call target arguments dest)
        testCall symbol
        callResult symbol slot dest : LowerM (Option Operand)) env Q.state)) :
    Ensures post (callFunction symbol object plans site.isVirtual env P.state) := by
  unfold callFunction
  refine Ends.seq (resultSlot_draws symbol ready) ?_
  rintro slot _ ⟨P1, rfl, _, leads1, ready1, gains1, hidden, hslot⟩
  refine .seq (operands_draws args ready1) ?_
  rintro operands _ ⟨P2, rfl, _, leads2, ready2, gains2, holds⟩
  refine .seq (statusArgument_draws symbol ready2) ?_
  rintro status _ ⟨P3, rfl, _, leads3, ready3, gains3, reports⟩
  have leads : P.Leads S a P3 := by simpa using (leads1.trans leads2).trans leads3
  refine .seq (callee_draws symbol ready3 site.isVirtual (receiver_holds
    (fun o ho => ((keeps o ho).mono leads.toLater).holds)
    fun o ho => (holds o ho).mono leads3)) ?_
  rintro target _ ⟨P4, rfl, _, leads4, ready4, gains4, htarget, holdsTarget⟩
  refine .seq (callDest_draws symbol ready4 slot) ?_
  rintro dest _ ⟨P5, rfl, _, leads5, ready5, gains5, hdest⟩
  have behind : P3.Leads S [] P5 := leads4.trans leads5
  have since : P1.Leads S a P5 := by simpa using (leads2.trans leads3).trans behind
  have leads : P.Leads S a P5 := leads1.trans since
  have gains : P.Gains S P5 :=
    (((gains1.trans gains2 leads2.toLater).trans gains3 leads3.toLater).trans gains4
      leads4.toLater).trans gains5 leads5.toLater
  have reports := reports.widen behind.widens
  have keepsSlot : ∀ r, slot = some r → P5.Keeps S (.reg r) := fun r hr =>
    ((hslot r hr).2.1).mono since.toLater
  refine next slot target _ dest P5 ⟨leads, ready5, gains, fun r hr => (hslot r hr).1.1, keepsSlot,
    fun r hr => ((hslot r hr).2.2).mono since, .site known hsymbol operator hidden
      (receives.widen leads.widens) htarget reports, fun o ho => ?_, hdest, reports.isSome⟩
  simp only [mem_append, mem_map, Option.mem_toList] at ho
  rcases ho with ho | ((⟨r, hr, rfl⟩ | ho) | ho) | ho
  · exact .inr ((holdsTarget o ho).mono leads5)
  · exact .inr (keepsSlot r hr).holds
  · exact .inr ((keeps o ho).mono leads.toLater).holds
  · exact .inr ((holds o ho).mono (leads3.trans behind))
  · exact .inl (reports.mem ho)

namespace Made
variable {Q : Scene} {slot dest : Option Register}

theorem holds_dest {origin : Origin} (h : Made S P origin dest Q)
    (usable : ∀ r, dest = some r → P.state.Usable r) :
    ∀ r, dest = some r → Q.Holds S (.reg r) := by
  intro r hr r' same
  cases same
  refine ⟨.inr ?_, Nat.lt_of_lt_of_le (usable r hr).1 h.extends_.widens.registers,
    h.extends_.widens.spares (usable r hr).1 (usable r hr).2⟩
  rw [h.stands.held, hr]
  exact mem_cons_self

/-- The result slot belongs to no variable. -/
theorem apart (h : Made S P (.site site symbol slot object) dest Q)
    (receives : Receives Q.state site object) {x y : Operand} (hx : x ∈ own S site object)
    (hy : y ∈ resultObjects S symbol slot) : y ≠ x := by
  obtain ⟨note, hn, origin, -⟩ := h.ends.mem
  obtain ⟨v, l, hl, rfl⟩ := receives.of_own hx
  obtain ⟨r, hr, rfl⟩ := mem_resultObjects hy
  have apart := (h.sound.lived.apart note hn r (by rw [origin]; exact hr)).2 v l hl
  simpa using apart.symm

theorem result_arrives (h : Made S P (.site site symbol slot object) dest Q)
    (ready : Ready S env [] P) (keeps : ∀ r, slot = some r → P.Keeps S (.reg r))
    (free : ∀ r, slot = some r → P.FreeSlot r) (usable : ∀ r, dest = some r → P.state.Usable r)
    (receives : Receives Q.state site object) :
    Arrives S Q [] (fun v R => Ready S env (own S site object) R ∧ Q.Gains S R ∧
        (∀ x ∈ v, R.Holds S x) ∧ Awaits S site object R)
      (callResult symbol slot dest env Q.state) := by
  obtain ⟨note, hn, origin, alive⟩ := h.ends.mem
  rw [ready.live, nil_append, ← h.stands.cleanups] at alive
  have objects : note.origin.objects S = own S site object ++ resultObjects S symbol slot := by
    rw [origin, objects_eq]
  have live : Q.live = own S site object ++ resultObjects S symbol slot ++
      S.alive Q.state.cleanups := by
    rw [h.stands.live, h.stands.cleanups, objects_eq, ready.live, nil_append]
  have temp : ∀ r ∈ slot, S.Temp Q.state (.reg r) := fun r hr =>
    Setting.Temp.widen ⟨r, rfl, .inr ⟨(free r hr).1, (free r hr).2.1⟩⟩ h.extends_.widens
  have due : ∀ r ∈ slot, ∀ d, S.table.destructor? symbol.returnType = some d →
      Q.Due S ⟨.reg r, d⟩ := by
    rintro r rfl d hd
    exact .inr ⟨note, hn, site, symbol, r, object, origin, rfl, hd⟩
  have scope : 0 < Q.state.cleanups.depth := by
    rw [h.stands.cleanups]
    exact ready.scope
  have made : ∀ r ∈ slot, S.follows = true → (S.table.destructor? symbol.returnType).isSome →
      Q.BuiltOn S (.reg r) (S.alive Q.state.cleanups) := by
    rintro r rfl follows owed
    refine ⟨note, hn, ?_, fun y hy => .inl (alive ▸ hy)⟩
    rw [objects, resultObjects, Setting.seen_eq follows, if_pos owed]
    exact mem_append_right _ (mem_singleton_self _)
  refine Ends.mono (callResult_arrives h.sound ready.suits.table scope symbol
    (fun r hr => (keeps r hr).mono h.extends_.toLater) temp due made (h.holds_dest usable) live) ?_
  rintro v _ ⟨R, rfl, sound, leads, hlive, gains, hv, owed⟩
  have grown : P.Gains S R := (Gains.of_eq h.stands.cleanups).trans gains leads.toLater
  refine ⟨R, rfl, sound, leads,
    ready.later sound (h.extends_.toLater.trans leads.toLater) grown hlive, gains, hv,
    fun x hx => ⟨?_, note, leads.toLater.mem_notes hn, ?_, fun y hy => ?_⟩⟩
  · have ends := h.ends
    rw [eq_some_of_own hx] at ends
    exact ⟨symbol, slot, _, ends.mono leads⟩
  · rw [objects]
    exact mem_append_left _ hx
  · refine (owed y hy).imp (fun hy => alive ▸ hy) fun hy => ⟨?_, h.apart receives hx hy⟩
    rw [objects]
    exact mem_append_right _ hy

end Made

theorem callFunction_draws {plans : List Plan} (known : .call site ∈ S.sites)
    (hsymbol : S.table.functionSymbol site.function = .ok symbol)
    (operator : symbol.operator = none) (args : AllFine S a plans) (ready : Ready S env [] P)
    (receives : Receives P.state site object) (keeps : ∀ o ∈ object, P.Keeps S o) :
    Draws S env P (own S site object) (a ++ [.call site])
      (fun v Q => (∀ x ∈ v, Q.Holds S x) ∧ Awaits S site object Q)
      (callFunction symbol object plans site.isVirtual) := by
  refine callFunction_prepared known hsymbol operator args ready receives keeps
    fun slot target arguments dest Q h => .known rfl ?_
  refine .seq (testCall_arrives h.ready.sound h.ready.suits h.ready.live h.calls h.reads h.usable
    h.free h.status) ?_
  rintro _ _ ⟨R, rfl, made⟩
  have called : P.Leads S (a ++ [.call site]) R := made.extends_.leads h.leads h.new
  have gains : P.Gains S R := h.gains.trans (.of_eq made.stands.cleanups) made.extends_.toLater
  refine Ends.mono (made.result_arrives h.ready h.keeps h.free h.usable
    (receives.widen called.widens)) ?_
  rintro v _ ⟨U, rfl, sound, leads, ready', gained, facts⟩
  exact ⟨U, rfl, sound, by simpa using called.trans leads, ready', gains.trans gained leads.toLater,
    facts⟩

end CallFunction

section Call
variable {S : Setting} {env : Env} {P : Scene} {a : List Site} {object : Option Operand}
  {arguments : List Plan}
open Scene
variable {v : VariableId} {l : Location}

theorem operatorOperands_draws (args : AllFine S a arguments) (ready : Ready S env [] P)
    (keeps : ∀ o ∈ object, P.Keeps S o) (op : Operator) :
    Draws S env P [] a (fun os Q => ∀ o ∈ os, Q.Holds S o)
      (operatorOperands op object arguments) := by
  unfold operatorOperands
  split
  · cases args with
    | cons first rest =>
      refine (first.address env P ready).seq fun x Q ready' _ _ holds => ?_
      refine (operands_draws rest ready').last fun os R ready'' leads _ all => .pure ready'' ?_
      exact forall_mem_cons.2 ⟨holds.mono leads, all⟩
  · refine (operands_draws args ready).last fun os Q ready' leads _ all => .pure ready' ?_
    intro o ho
    rcases mem_append.1 ho with ho | ho
    · exact ((keeps o (by simpa using ho)).mono leads.toLater).holds
    · exact all o ho

theorem applyOperator_draws (args : AllFine S a arguments) (ready : Ready S env [] P)
    (keeps : ∀ o ∈ object, P.Keeps S o) (op : Operator) (resultTy : TypeId) :
    Draws S env P [] a (fun v Q => ∀ x ∈ v, Q.Holds S x)
      (applyOperator op object arguments resultTy) := by
  unfold applyOperator
  dsimp only
  split
  · exact .fail
  · refine (operatorOperands_draws args ready keeps op).last fun os Q ready' _ _ holds => ?_
    exact .asked fun plain _ => .asked fun kind _ =>
      .result (emitOperator_derives _ _ _ _ _) ready' holds

/-- A constructor that is expanded in place builds nothing that has to be destroyed. -/
theorem own_of_operator (known : .call site ∈ S.sites)
    (hsymbol : S.table.functionSymbol site.function = .ok symbol) {op : Operator}
    (operator : symbol.operator = some op) : own S site object = [] := by
  unfold own Setting.seen
  split
  · rename_i follows
    have called := S.called follows site known
    simp only [CallSite.isCalled, hsymbol, operator, Option.isNone_some, Bool.or_false,
      Option.isNone_iff_eq_none] at called
    simp [called]
  · rfl

theorem call_draws (known : .call site ∈ S.sites) (args : AllFine S a arguments)
    (ready : Ready S env [] P) (receives : Receives P.state site object)
    (keeps : ∀ o ∈ object, P.Keeps S o) (resultTy : TypeId) :
    Draws S env P (own S site object) (a ++ [.call site])
      (fun v Q => (∀ x ∈ v, Q.Holds S x) ∧ Awaits S site object Q)
      (call site.function object arguments site.isVirtual resultTy) := by
  refine .asked fun symbol hsymbol => ?_
  rw [ready.suits.table] at hsymbol
  cases operator : symbol.operator with
  | none => exact callFunction_draws known hsymbol operator args ready receives keeps
  | some op =>
    have none : own S site object = [] := own_of_operator known hsymbol operator
    rw [none]
    have applied := (applyOperator_draws args ready keeps op resultTy).sites
      (.append_calls (b := [.call site]) _ (by simp [Site.isCall]))
    exact applied.mono fun _ _ _ _ holds => ⟨holds, fun x hx => by rw [none] at hx; cases hx⟩

theorem construct_draws (known : .call site ∈ S.sites) (args : AllFine S a arguments)
    (ready : Ready S env [] P) (built : site.built? = some v) (direct : site.isVirtual = false)
    (hl : P.state.location? v = some l) :
    Draws S env P (own S site (some (.reg l.slot))) (a ++ [.call site])
      (fun _ Q => Awaits S site (some (.reg l.slot)) Q)
      (construct l.slot site.function arguments) := by
  have keeps : ∀ o ∈ some (Operand.reg l.slot), P.Keeps S o := fun o ho => by
    cases Option.mem_some.1 ho
    exact ready.sound.books.slots v l hl
  have receives : Receives P.state site (some (.reg l.slot)) := by
    unfold Receives
    rw [built]
    exact ⟨l, hl, rfl⟩
  refine .asked fun symbol _ => ?_
  have called := call_draws known args ready receives keeps symbol.returnType
  rw [direct] at called
  exact called.last fun _ _ ready' _ _ made => .pure ready' made.2

theorem isDestructible_eq {table : SymbolTable} (h : table.Plans v l) :
    table.isDestructible v = (table.destructor? l.ty).isSome := by
  obtain ⟨role, symbol, planned, ty⟩ := h
  have hv := (Storage.plan_iff.1 planned).1
  unfold SymbolTable.variableSymbol at hv
  unfold SymbolTable.isDestructible
  split at hv
  · cases hv
    simp [*]
  · cases hv

theorem not_isDestructible {table : SymbolTable} (h : table.Plans v l)
    (reference : l.shape = .reference) : table.isDestructible v = false := by
  rw [isDestructible_eq h]
  obtain ⟨role, symbol, planned, ty⟩ := h
  obtain ⟨-, ⟨kind, hk, shape⟩, -⟩ := Storage.plan_iff.1 planned
  rw [ty] at hk
  rw [reference] at shape
  unfold SymbolTable.typeKind at hk
  unfold SymbolTable.destructor?
  split at hk
  · rename_i found
    cases hk
    rw [found]
    cases kind with
    | classType info => cases role <;> cases shape
    | _ => rfl
  · cases hk

theorem Scene.Books.planned (h : P.Books S) (hl : P.state.location? v = some l) :
    S.table.Plans v l := by
  rcases h.housed.added v l hl with none | ⟨-, -, planned⟩
  · cases none
  · exact planned

/-- The object that a call has built in the slot of a variable is owed from now on. -/
theorem oweObject_arrives (h : P.Sound S) (table : env.symbols = S.table)
    (scope : 0 < P.state.cleanups.depth)
    (owed : site.owed? S.table = if S.table.isDestructible v then some v else none)
    (hl : P.state.location? v = some l)
    (live : P.live = own S site (some (.reg l.slot)) ++ S.alive P.state.cleanups)
    (made : ∀ x ∈ own S site (some (.reg l.slot)), P.BuiltOn S x (S.alive P.state.cleanups)) :
    Arrives S P [] (fun _ Q => Q.live = S.alive Q.state.cleanups ∧
        ∃ added, Q.state.cleanups = P.state.cleanups.grow added ∧
          ∀ o ∈ added, o.object = .reg l.slot ∧ S.table.isDestructible v)
      (oweDestructor l.slot l.ty env P.state) := by
  rw [isDestructible_eq (h.books.planned hl)] at owed ⊢
  have owed : (site.owed? S.table).isSome = (S.table.destructor? l.ty).isSome := by
    rw [owed]
    split <;> simp [*]
  refine (oweDestructor_arrives h table scope (h.books.slots v l hl)
    (fun d hd => .inl ⟨v, l, hl, rfl, hd⟩) (fun follows owes => made _ ?_) [] ?_).mono
    fun _ _ _ _ found => found.2
  · rw [own, Setting.seen_eq follows, owed, owes]
    exact mem_singleton_self _
  · rw [live, own, owed]
    cases S.table.destructor? l.ty <;> simp

theorem allocate_draws (ready : Ready S env [] P) (v : VariableId) (role : Role) :
    Draws S env P [] [] (fun l Q => Q.state.location? v = some l) (allocate v role) :=
  .still ready ((allocate_arrives ready.sound ready.suits.table v role).mono
    fun _ _ _ _ ⟨stands, hl⟩ => ⟨⟨_, stands⟩, hl⟩)

theorem addressOfTemporary_draws {ctor : FunctionId} {destroy : Bool}
    (known : .call (.temporary v ctor destroy) ∈ S.sites) (args : AllFine S a arguments)
    (ready : Ready S env [] P) :
    Draws S env P [] (a ++ [.call (.temporary v ctor destroy)]) (fun x Q => Q.Holds S x)
      (addressOfTemporary v ctor arguments destroy) := by
  refine (allocate_draws ready v .localVariable).next fun l Q ready' _ _ hl => ?_
  refine (construct_draws known args ready' rfl rfl hl).last fun _ R ready'' leads _ awaits => ?_
  have hl' := leads.widens.houses.stays v l hl
  have keeps := ready''.sound.books.slots v l hl'
  cases destroy with
  | false =>
    have none : own S (.temporary v ctor false) (some (.reg l.slot)) = [] := by
      simp [own, CallSite.owed?]
    rw [none] at ready''
    exact .pure ready'' keeps.holds
  | true =>
    refine Arrives.next (oweObject_arrives ready''.sound ready''.suits.table ready''.scope
      rfl hl' ready''.live fun x hx => (awaits x hx).2)
      fun _ T sound leads' found => ?_
    obtain ⟨hlive, added, hc, objects⟩ := found
    have gains : R.Gains S T := by
      refine ⟨added, hc, fun o ho => ?_⟩
      rw [(objects o ho).1]
      exact ⟨l.slot, rfl, .inl ⟨v, ctor, l, known, (objects o ho).2,
        leads'.widens.houses.stays v l hl', rfl⟩⟩
    exact ⟨T, rfl, sound, .refl T, ready''.later sound leads'.toLater gains hlive, gains,
      (keeps.mono leads'.toLater).holds⟩

end Call
end FlatCode.Marks
