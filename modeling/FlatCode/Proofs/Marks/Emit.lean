import FlatCode.Proofs.Marks.Step

/-! Writing code. Each step that writes one instruction, makes a register, a slot or a label, or
sets targets, leads from a sound scene to a sound one. -/
namespace FlatCode.Marks
open Code Symbols Ast Lower List
variable {live : List Operand}

section Objects
variable {S : Setting} {s : State} {origin : Origin} {live live' : List Operand} {x : Operand}

theorem Drops.mem {y : Operand} (h : Drops S s y live live') (hx : x ∈ live') : x ∈ live := by
  rcases h with ⟨-, rfl⟩ | ⟨later, earlier, rfl, rfl, -⟩
  · exact hx
  · rcases mem_append.1 hx with hx | hx
    · exact mem_append_left _ hx
    · exact mem_append_right _ (mem_cons_of_mem _ hx)

theorem Completes.mem (h : Completes S s origin live live') (hx : x ∈ live') :
    x ∈ origin.objects S ∨ x ∈ live := by
  cases origin with
  | destructor o => exact .inr (Drops.mem h hx)
  | _ =>
    rw [show live' = _ from h] at hx
    exact mem_append.1 hx

theorem Attempts.mem {objects : List Operand} {loss : Option (List Operand)}
    (h : Attempts S s origin live objects loss live') (hx : x ∈ live') : x ∈ live := by
  cases origin with
  | destructor o => exact Drops.mem h.2.2 hx
  | _ => exact h.2.2 ▸ hx

theorem Attempts.objects_mem {objects : List Operand} {loss : Option (List Operand)}
    (h : Attempts S s origin live objects loss live') (hx : x ∈ objects) :
    x ∈ origin.objects S := by
  cases origin with
  | destructor o =>
    rw [h.1] at hx
    cases hx
  | _ => exact h.1 ▸ hx

end Objects

theorem Entry.status_mem {code : List Instr} {status : Option Register}
    (h : Entry code status) {slot : Register} (hs : status = some slot) :
    ∃ ty name, .alloc slot ty name ∈ code := by
  induction h with
  | nil => cases hs
  | slot _ ih =>
    obtain ⟨ty, name, mem⟩ := ih hs
    exact ⟨ty, name, mem_append_left _ mem⟩
  | @status _ slot' ty name _ _ =>
    cases hs
    exact ⟨ty, name, by simp⟩

namespace Scene
variable {S : Setting} {P Q : Scene} {origin : Origin} {i : Instr} {n q : Mark}

section Push

variable {r : Register}

theorem Sound.push (h : P.Sound S) (fits : Fits S P.state P.promise (P.note origin) i n)
    (held : ∀ r ∈ n.held, r ∈ P.held ∨ P.state.Usable r)
    (after : ∀ x ∈ n.live, x ∈ origin.objects S ∨ P.Built S x)
    (slot : ∀ r, origin.slot? = some r → P.FreeSlot r)
    (tail : ∀ l q, i = .label l → P.promise l = some q → q.held ≠ [] →
      ∀ k : Nat, P.state.draft.body[k]? ≠ some (.label l))
    (phase : n.phase = .dead ∨
      n.phase = .ordinary ∧ i.isTerminator = false ∧ i.isComment = false)
    (due : S.follows = true → ∀ o, origin = .destructor o → P.Due S o) :
    (P.push (P.note origin) i n).Sound S := by
  refine ⟨h.toFirm.push h.mark fits held h.live after slot tail due (fun _ hx => nomatch hx), ?_,
    fun ends => ?_, ?_⟩
  · rcases phase with dead | ⟨ordinary, -⟩
    · exact .inl ⟨dead, .inr rfl⟩
    · exact .inr ⟨ordinary, rfl, fun _ hr => hr⟩
  · rcases phase with dead | ⟨-, goes, counts⟩
    · exact dead
    · rw [Draft.endsInTerminator_pushed (d := P.state.draft) (i := i) rfl] at ends
      simp [goes, counts] at ends
  · exact h.raises.push_none h.typed.size (by simp [Scene.note]) rfl

section Fits
variable {note : Note}
  (turn : Turn S P.state note.origin note.mark.phase note.mark.live i n.phase n.live)
include turn

theorem fits_inline (inline : i.inline)
    (reads : ∀ r, .reg r ∈ i.operands → S.Reads P.state note.mark.held r)
    (dest : ∀ r, i.dest? = some r → P.state.Usable r)
    (held : ∀ r ∈ n.held, r ∈ note.mark.held ∨ i.dest? = some r) :
    Fits S P.state P.promise note i n := by
  refine ⟨fun r hr => (reads r hr).1, fun r hr => ?_, fun _ _ => held, turn,
    fun e l hl => ?_, fun l hl => ?_, fun l hl => ?_, fun r hr => (dest r hr).2⟩
  · rcases hr with hr | hr
    · exact (reads r hr).2
    · exact (dest r hr).1
  · cases i <;> first | cases inline; done | (cases e <;> cases hl)
  · cases i <;> first | cases inline; done | cases hl
  · subst hl
    cases inline

theorem fits_end (closing : i.goesOn = false)
    (reads : ∀ r, .reg r ∈ i.operands → S.Reads P.state note.mark.held r)
    (edge : ∀ e l, i.target? e = some (some l) →
      ∃ q, P.promise l = some q ∧ note.mark.Crosses e q)
    (choice : ∀ l ∈ i.choices, ∃ q, P.promise l = some q ∧ note.mark.Crosses .unconditional q) :
    Fits S P.state P.promise note i n := by
  have writes : i.dest? = none := by cases i <;> first | cases closing; done | rfl
  refine ⟨fun r hr => (reads r hr).1, fun r hr => ?_, fun _ on => ?_, turn, edge, choice,
    fun l hl => ?_, fun r hr => ?_⟩
  · rcases hr with hr | hr
    · exact (reads r hr).2
    · simp [writes] at hr
  · simp [closing] at on
  · subst hl
    cases closing
  · simp [writes] at hr

end Fits

theorem fits_label {note : Note} {l : Label} (hn : P.promise l = some n)
    (turn : Turn S P.state note.origin note.mark.phase note.mark.live (.label l) n.phase n.live)
    (known : note.mark.phase = .dead ∨ ∀ r ∈ n.held, r ∈ note.mark.held) :
    Fits S P.state P.promise note (.label l) n := by
  refine ⟨fun r hr => (nomatch hr), fun r hr => ?_, fun awake _ r hr => ?_, turn,
    fun e l' hl => ?_, fun l' hl => (nomatch hl), fun l' hl => ?_, fun r hr => (nomatch hr)⟩
  · rcases hr with hr | hr <;> cases hr
  · exact .inl (known.resolve_left awake r hr)
  · cases e <;> cases hl
  · cases hl
    exact ⟨n, hn, rfl, rfl, known, fun _ hr => hr⟩

theorem Holds.read (h : P.Holds S (.reg r)) : S.Reads P.state P.held r :=
  ⟨(h r rfl).1, (h r rfl).2.1⟩

theorem mem_dest_append {held : List Register} (hr : r ∈ i.dest?.toList ++ held) :
    r ∈ held ∨ i.dest? = some r := by
  rcases mem_append.1 hr with hr | hr
  · exact .inr (by simpa using hr)
  · exact .inl hr

theorem held_dest (dest : ∀ r, i.dest? = some r → P.state.Usable r)
    (hr : r ∈ i.dest?.toList ++ P.held) : r ∈ P.held ∨ P.state.Usable r := by
  rcases mem_append.1 hr with hr | hr
  · exact .inr (dest r (by simpa using hr))
  · exact .inl hr

theorem Sound.push_straight (h : P.Sound S) (straight : i.isStraight)
    (reads : ∀ o ∈ i.operands, P.Holds S o)
    (dest : ∀ r, i.dest? = some r → P.state.Usable r) :
    (P.push (P.note .plain) i ⟨.ordinary, i.dest?.toList ++ P.held, P.live⟩).Sound S := by
  have spares : ∀ r, i.address? = some (.reg r) → P.state.status ≠ some r := fun r hr =>
    (reads _ (Instr.address?_mem hr) r rfl).2.2
  refine h.push (fits_inline (.straight straight spares) ?_ (fun r hr => (reads _ hr).read)
    dest (fun r hr => mem_dest_append hr))
    (fun r hr => held_dest dest hr) (fun x hx => .inr (h.live x hx)) (fun r hr => nomatch hr)
    (fun l _ hl => ?_) (.inr ⟨rfl, ?_⟩) nofun
  · cases i <;> first | cases straight; done | rfl
  · subst hl
    cases straight
  · cases i <;> first | cases straight; done | exact ⟨rfl, rfl⟩

theorem Sound.push_call (h : P.Sound S) {callee : Callee} {arguments : List Operand}
    (dest : Option Register) (calls : Calls S P.state origin callee arguments false)
    (reads : ∀ o ∈ callee.operands ++ arguments, P.Holds S o)
    (hdest : ∀ r, dest = some r → P.state.Usable r)
    (slot : ∀ r, origin.slot? = some r → P.FreeSlot r)
    (completes : Completes S P.state origin P.live live)
    (due : S.follows = true → ∀ o, origin = .destructor o → P.Due S o) :
    (P.push (P.note origin) (.call callee arguments dest)
      ⟨.ordinary, dest.toList ++ P.held, live⟩).Sound S := by
  have spares : ∀ r, .reg r ∈ arguments → P.state.status ≠ some r := fun r hr =>
    (reads _ (mem_append_right _ hr) r rfl).2.2
  exact h.push (fits_inline (.call calls spares completes) rfl (fun r hr => (reads _ hr).read)
    hdest (fun r hr => mem_dest_append (i := .call callee arguments dest) hr))
    (fun r hr => held_dest (i := .call callee arguments dest) hdest hr)
    (fun x hx => (completes.mem hx).imp_right (h.live x)) slot (fun l _ hl => nomatch hl)
    (.inr ⟨rfl, rfl, rfl⟩) due

/-- The instruction that control does not run past. What is alive behind it does not matter. -/
theorem Sound.push_end (h : P.Sound S) (closing : i.goesOn = false)
    (reads : ∀ o ∈ i.operands, P.Holds S o) (built : ∀ x ∈ live, P.Built S x)
    (turn : Turn S P.state .plain .ordinary P.live i .dead live)
    (edge : ∀ e l, i.target? e = some (some l) → P.Promises l ⟨.ordinary, P.held, P.live⟩)
    (choice : ∀ l ∈ i.choices, P.Promises l ⟨.ordinary, P.held, P.live⟩) :
    (P.push (P.note .plain) i ⟨.dead, P.held, live⟩).Sound S := by
  have crosses {l : Label} (e : Edge) (hl : P.Promises l ⟨.ordinary, P.held, P.live⟩) :
      ∃ q, P.promise l = some q ∧ Mark.Crosses ⟨.ordinary, P.held, P.live⟩ e q := by
    obtain ⟨q, hq, dead | ⟨phase, live, held⟩⟩ := hl
    · cases dead.1
    · exact ⟨q, hq, ⟨phase.symm, live.symm⟩, held⟩
  refine h.push (fits_end turn closing (fun r hr => (reads _ hr).read)
    (fun e l hl => crosses e (edge e l hl)) fun l hl => crosses _ (choice l hl))
    (fun _ hr => .inl hr) (fun x hx => .inr (built x hx)) (fun r hr => nomatch hr)
    (fun l _ hl => ?_) (.inl rfl) nofun
  subst hl
  cases closing

theorem Sound.push_branch (h : P.Sound S) {condition : Operand} (reads : P.Holds S condition) :
    (P.push (P.note .plain) (.branch condition none none)
      ⟨.ordinary, P.held, P.live⟩).Sound S := by
  refine h.push (fits_end .branch rfl (fun r hr => ?_) (fun e l hl => ?_) fun l hl => nomatch hl)
    (fun _ hr => .inl hr) (fun x hx => .inr (h.live x hx)) (fun r hr => nomatch hr)
    (fun l _ hl => nomatch hl) (.inr ⟨rfl, rfl, rfl⟩) nofun
  · cases mem_singleton.1 hr
    exact reads.read
  · cases e <;> cases hl

theorem Sound.push_label (h : P.Sound S) {l : Label}
    (hq : P.promise l = some ⟨.ordinary, P.held, P.live⟩)
    (tail : P.held ≠ [] → ∀ k : Nat, P.state.draft.body[k]? ≠ some (.label l)) :
    (P.push (P.note .plain) (.label l) ⟨.ordinary, P.held, P.live⟩).Sound S := by
  refine h.push (fits_label hq .label (.inr fun _ hr => hr))
    (fun _ hr => .inl hr) (fun x hx => .inr (h.live x hx)) (fun r hr => nomatch hr)
    (fun l' q hl hq' ne => ?_) (.inr ⟨rfl, rfl, rfl⟩) nofun
  cases hl
  cases hq.symm.trans hq'
  exact tail ne

theorem Sound.push_comment (h : P.Sound S) (text : String) :
    (P.push ⟨⟨P.mark.phase, P.held, P.live⟩, .plain⟩ (.comment text)
      ⟨P.mark.phase, P.held, P.live⟩).Sound S := by
  have le : P.mark.le ⟨P.mark.phase, P.held, P.live⟩ := by
    rcases h.mark with ⟨dead, -⟩ | ⟨-, live, held⟩
    · exact .inl ⟨dead, .inl dead⟩
    · exact .inr ⟨rfl, live, held⟩
  have turn : Turn S P.state .plain P.mark.phase P.live (.comment text) P.mark.phase P.live := by
    rcases h.mark with ⟨dead, -⟩ | ⟨ordinary, -⟩
    · rw [dead]
      exact .idle (.inl rfl)
    · rw [ordinary]
      exact .comment
  refine ⟨h.toFirm.push le (fits_inline turn rfl (fun r hr => nomatch hr) (fun r hr => nomatch hr)
    fun _ hr => .inl hr)
    (fun _ hr => .inl hr) h.live (fun x hx => .inr (h.live x hx)) (fun r hr => nomatch hr)
    (fun l _ hl => nomatch hl) nofun (fun x hx => ?_), ?_, fun ends => ?_, ?_⟩
  · rcases h.mark with ⟨dead, -⟩ | ⟨ordinary, -⟩
    · rw [dead] at hx
      cases hx
    · rw [ordinary] at hx
      cases hx
  · rcases h.mark with dead | ⟨ordinary, -⟩
    · exact .inl dead
    · exact .inr ⟨ordinary, rfl, fun _ hr => hr⟩
  · rw [Draft.endsInTerminator_pushed (d := P.state.draft) (i := .comment text) rfl] at ends
    exact h.closed ends
  · refine h.raises.push_none h.typed.size ?_ (by cases P.mark.phase <;> rfl)
    rcases h.mark with ⟨dead, -⟩ | ⟨ordinary, -⟩ <;> simp [*]

end Push

section Widen

theorem Sound.widen (h : P.Sound S) {t : State} (firm : (P.widen t).Firm S)
    (body : t.draft.body = P.state.draft.body) (pads : t.pads = P.state.pads) :
    (P.widen t).Sound S := by
  refine ⟨firm, h.mark, fun ends => h.closed ?_, ?_⟩
  · change t.draft.endsInTerminator = true at ends
    unfold Draft.endsInTerminator at ends ⊢
    rwa [body] at ends
  · change (P.widen t).Raises t.pads.labels
    rw [pads]
    exact h.raises.frame rfl body

theorem Books.status (h : P.Books S) {slot : Register} (hs : P.state.status = some slot) :
    S.Given P.state slot ∧ slot.index < P.state.draft.registers.size := by
  obtain ⟨ty, name, mem⟩ := h.entry.status_mem hs
  have mem := Array.mem_def.2 mem
  exact ⟨.inr ⟨ty, name, mem⟩, h.allocs _ mem slot rfl⟩

end Widen
def Fresh (P Q : Scene) (r : Register) : Prop :=
  P.state.draft.registers.size ≤ r.index ∧ r.index < Q.state.draft.registers.size ∧
    Q.state.status ≠ some r

structure Stands (P : Scene) (held : List Register) (live : List Operand) (Q : Scene) : Prop where
  held : Q.held = held
  live : Q.live = live
  cleanups : Q.state.cleanups = P.state.cleanups

end Scene

section Room
variable {S : Setting} {P : Scene} {env : Env}
open Scene

def withRegister (s : State) (ty : Ty) : State :=
  { s with draft := { s.draft with registers := s.draft.registers.push ty } }

theorem widens_register (ty : Ty) : S.Widens P.state (withRegister P.state ty) :=
  ⟨.of_storage rfl ⟨#[ty], Array.push_eq_append⟩, fun _ hi => hi, fun _ hs => hs,
    fun _ hs => .inl hs⟩

theorem firm_register (h : P.Firm S) (ty : Ty) : (P.widen (withRegister P.state ty)).Firm S :=
  h.widen (widens_register ty) rfl rfl
    (h.books.frame (later_widen (widens_register ty)) ⟨rfl, rfl, rfl, rfl, rfl, rfl⟩) h.lived.owed

theorem status_ne (h : P.Books S) : P.state.status ≠ some ⟨P.state.draft.registers.size⟩ :=
  fun hs => Nat.lt_irrefl _ (h.status hs).2

theorem newRegister_arrives (h : P.Sound S) (ty : Ty) :
    Arrives S P [] (fun r Q => P.Stands P.held P.live Q ∧ P.Fresh Q r)
      ((liftM (Draft.newRegister ty) : LowerM Register) env P.state) :=
  ⟨P.widen (withRegister P.state ty), rfl, h.widen (firm_register h.toFirm ty) rfl rfl,
    .of_notes (later_widen (widens_register ty)) (fun _ hr => hr) rfl fun h => h, ⟨rfl, rfl, rfl⟩,
    Nat.le_refl _, by simp [Scene.widen, withRegister], status_ne h.books⟩

def withSlot (s : State) (ty : Ty) (name : Option String) (storage : Storage) : State :=
  { s with
    draft := { s.draft with
      registers := s.draft.registers.push (.ptr ty)
      entry := s.draft.entry.push (.alloc ⟨s.draft.registers.size⟩ ty name) }
    storage := storage }

theorem withSlot_arrives (h : P.Sound S) (ty : Ty) (name : Option String) (storage : Storage)
    (houses : P.state.Houses S.table (withSlot P.state ty name storage))
    (only : ∀ v l, (withSlot P.state ty name storage).location? v = some l →
      P.state.location? v = some l ∨ l.slot = ⟨P.state.draft.registers.size⟩) :
    (P.widen (withSlot P.state ty name storage)).Sound S ∧
      P.Leads S [] (P.widen (withSlot P.state ty name storage)) ∧
      P.Fresh (P.widen (withSlot P.state ty name storage)) ⟨P.state.draft.registers.size⟩ ∧
      (P.widen (withSlot P.state ty name storage)).Keeps S
        (.reg ⟨P.state.draft.registers.size⟩) := by
  have spared := status_ne h.books
  have bound : P.state.draft.registers.size <
      (withSlot P.state ty name storage).draft.registers.size := by simp [withSlot]
  have w : S.Widens P.state (withSlot P.state ty name storage) :=
    ⟨houses, fun _ hi => Array.mem_push.2 (.inl hi), fun _ hs => hs, fun _ hs => .inl hs⟩
  have keeps : (P.widen (withSlot P.state ty name storage)).Keeps S
      (.reg ⟨P.state.draft.registers.size⟩) := by
    intro r hr
    cases hr
    exact ⟨.inr ⟨ty, name, Array.mem_push.2 (.inr rfl)⟩, bound, spared⟩
  have entry : Entry (withSlot P.state ty name storage).draft.entry.toList P.state.status := by
    simp only [withSlot, Array.toList_push]
    exact .slot h.books.entry
  have books : (P.widen (withSlot P.state ty name storage)).Books S := by
    refine h.books.mono (later_widen w) entry (fun i hi => ?_) (fun v l hl => ?_)
      (fun _ ho => .inl ho) (fun _ hp => .inl hp) (fun _ _ hp => .inl hp)
      (fun p hp _ hb => .inl ⟨p, hp, hb⟩)
    · rcases Array.mem_push.1 hi with hi | rfl
      · exact .inl hi
      · refine .inr fun r hr => ?_
        cases hr
        exact bound
    · refine (only v l hl).imp_right fun slot => ?_
      rw [slot]
      exact keeps
  exact ⟨h.widen (h.toFirm.widen w rfl rfl books h.lived.owed) rfl rfl,
    .of_notes (later_widen w) (fun _ hr => hr) rfl fun h => h,
    ⟨Nat.le_refl _, bound, spared⟩, keeps⟩

theorem allocSlot_arrives (h : P.Sound S) (ty : Ty) (name : Option String) :
    Arrives S P [] (fun r Q => P.Stands P.held P.live Q ∧ P.Fresh Q r ∧ Q.Keeps S (.reg r) ∧
        Q.FreeSlot r)
      ((liftM (Draft.allocSlot ty name) : LowerM Register) env P.state) := by
  obtain ⟨sound, leads, fresh, keeps⟩ := withSlot_arrives h ty name P.state.storage
    (.of_storage rfl ⟨#[.ptr ty], Array.push_eq_append⟩) fun v l hl => .inl hl
  refine ⟨_, rfl, sound, leads, ⟨rfl, rfl, rfl⟩, fresh, keeps, fresh.2.1, fun v l hl same => ?_,
    fun note hn hr => Nat.lt_irrefl _ (h.lived.apart note hn _ hr).1⟩
  have below := (h.books.slots v l hl _ rfl).2.1
  rw [same] at below
  exact Nat.lt_irrefl _ below

def withStatus (s : State) : State :=
  match s.status with
  | some _ => s
  | none =>
    { s with
      draft := { s.draft with
        registers := s.draft.registers.push (.ptr .status)
        entry := (s.draft.entry.push
          (.alloc ⟨s.draft.registers.size⟩ .status (some "exception_status"))).push
          (.store (.reg ⟨s.draft.registers.size⟩) noException) }
      status := some ⟨s.draft.registers.size⟩ }

theorem withStatus_status (s : State) : ∃ slot, (withStatus s).status = some slot ∧
    ∀ env, statusSlot env s = .ok slot (withStatus s) := by
  cases hs : s.status with
  | some slot =>
    refine ⟨slot, by simp [withStatus, hs], fun env => ?_⟩
    change (match s.status with | some slot => _ | none => _ : LowerM Register) env s = _
    simp only [hs, withStatus]
    rfl
  | none =>
    refine ⟨⟨s.draft.registers.size⟩, by simp [withStatus, hs], fun env => ?_⟩
    change (match s.status with | some slot => _ | none => _ : LowerM Register) env s = _
    simp only [hs, withStatus]
    rfl

theorem withStatus_frame (s : State) : (withStatus s).draft.body = s.draft.body ∧
    (withStatus s).draft.labels = s.draft.labels ∧ (withStatus s).storage = s.storage ∧
    (withStatus s).cleanups = s.cleanups ∧ (withStatus s).pads = s.pads ∧
    (withStatus s).gotos = s.gotos := by
  unfold withStatus
  split <;> exact ⟨rfl, rfl, rfl, rfl, rfl, rfl⟩

theorem firm_status (h : P.Firm S) : (P.widen (withStatus P.state)).Firm S ∧
    S.Widens P.state (withStatus P.state) := by
  cases hs : P.state.status with
  | some slot =>
    have same : withStatus P.state = P.state := by simp [withStatus, hs]
    rw [same]
    exact ⟨h, .refl _⟩
  | none =>
    obtain ⟨body, labels, storage, cleanups, pads, gotos⟩ := withStatus_frame P.state
    have status : (withStatus P.state).status = some ⟨P.state.draft.registers.size⟩ := by
      simp [withStatus, hs]
    have types : (withStatus P.state).draft.registers =
        P.state.draft.registers ++ #[.ptr .status] := by
      simp [withStatus, hs]
    have registers : (withStatus P.state).draft.registers.size =
        P.state.draft.registers.size + 1 := by
      simp [types]
    have made : (withStatus P.state).draft.entry = (P.state.draft.entry.push
        (.alloc ⟨P.state.draft.registers.size⟩ .status (some "exception_status"))).push
        (.store (.reg ⟨P.state.draft.registers.size⟩) noException) := by
      simp [withStatus, hs]
    have w : S.Widens P.state (withStatus P.state) := by
      refine ⟨.of_storage storage ⟨_, types⟩, fun _ hi => ?_, fun _ hs' => ?_, fun _ ht => ?_⟩
      · rw [made]
        exact Array.mem_push.2 (.inl (Array.mem_push.2 (.inl hi)))
      · rw [hs] at hs'
        cases hs'
      · rw [status] at ht
        cases ht
        exact .inr (Nat.le_refl _)
    have entry : Entry (withStatus P.state).draft.entry.toList (withStatus P.state).status := by
      have before := h.books.entry
      rw [hs] at before
      rw [made, status]
      simp only [Array.toList_push, append_assoc]
      exact .status before
    refine ⟨h.widen w body labels (h.books.mono (later_widen w) entry (fun i hi => ?_)
      (fun v l hl => .inl ?_) (fun _ ho => .inl (cleanups ▸ ho)) (fun _ hp => .inl (pads ▸ hp))
      (fun _ _ hp => .inl (gotos ▸ hp)) fun p hp _ hb => .inl ⟨p, gotos ▸ hp, hb⟩)
      (cleanups ▸ h.lived.owed), w⟩
    · change i ∈ (withStatus P.state).draft.entry at hi
      rw [made] at hi
      rcases Array.mem_push.1 hi with hi | rfl
      · rcases Array.mem_push.1 hi with hi | rfl
        · exact .inl hi
        · refine .inr fun r hr => ?_
          cases hr
          change P.state.draft.registers.size < (withStatus P.state).draft.registers.size
          omega
      · exact .inr fun r hr => nomatch hr
    · change (withStatus P.state).location? v = some l at hl
      unfold State.location? at hl ⊢
      rwa [storage] at hl

theorem statusSlot_arrives (h : P.Sound S) :
    Arrives S P [] (fun slot Q => P.Stands P.held P.live Q ∧ Q.state.status = some slot)
      (statusSlot env P.state) := by
  obtain ⟨slot, status, made⟩ := withStatus_status P.state
  obtain ⟨body, -, -, cleanups, pads, -⟩ := withStatus_frame P.state
  obtain ⟨firm, w⟩ := firm_status h.toFirm
  rw [made env]
  exact ⟨P.widen (withStatus P.state), rfl, h.widen firm body pads,
    .of_notes (later_widen w) (fun _ hr => hr) rfl (·.of_body body), ⟨rfl, rfl, cleanups⟩, status⟩

theorem allocate_arrives (h : P.Sound S) (table : env.symbols = S.table) (v : VariableId)
    (role : Role) :
    Arrives S P [] (fun l Q => P.Stands P.held P.live Q ∧ Q.state.location? v = some l)
      (allocate v role env P.state) := by
  have cases := allocate_allocates v role env P.state
  generalize allocate v role env P.state = r at cases
  cases cases with
  | known hv => exact ⟨P, rfl, h, .refl P, ⟨rfl, rfl, rfl⟩, hv⟩
  | refused => trivial
  | @made symbol l new planned ty slot name =>
    let storage : Storage := { (P.state.storage.uniqueName symbol.name).2 with
      locations := (v, l) :: P.state.storage.locations }
    have houses : P.state.Houses S.table (withSlot P.state l.slotType (some l.name) storage) :=
      .of_new new rfl (table ▸ ⟨role, symbol, planned, ty⟩) (slot ▸ rfl) rfl
    have here : (withSlot P.state l.slotType (some l.name) storage).location? v = some l :=
      lookup_cons_self
    obtain ⟨sound, leads, -, -⟩ := withSlot_arrives h l.slotType (some l.name) storage houses
      fun v' l' hl' => by
        by_cases same : v' = v
        · subst same
          cases here.symm.trans hl'
          exact .inr slot
        · refine .inl ?_
          unfold State.location? at hl' ⊢
          simp only [withSlot, storage, lookup_cons, beq_eq_false_iff_ne.2 same] at hl'
          exact hl'
    refine ⟨_, ?_, sound, leads, ⟨rfl, rfl, rfl⟩, here⟩
    simp only [Scene.widen, withSlot, Location.alloc, slot, storage]

end Room

section Emit
variable {S : Setting} {P : Scene} {env : Env} {i : Instr}
open Scene

theorem emit_straight (h : P.Sound S) (straight : i.isStraight)
    (reads : ∀ o ∈ i.operands, P.Holds S o)
    (dest : ∀ r, i.dest? = some r → P.state.Usable r) :
    Arrives S P [] (fun _ Q => P.Stands (i.dest?.toList ++ P.held) P.live Q)
      (emit i env P.state) :=
  ⟨_, rfl, h.push_straight straight reads dest,
    leads_push rfl rfl (by cases i <;> first | rfl | cases straight)
      fun _ hr => mem_append_right _ hr, rfl, rfl, rfl⟩

theorem emit_comment (h : P.Sound S) (text : String) :
    Arrives S P [] (fun _ Q => P.Stands P.held P.live Q) (emit (.comment text) env P.state) :=
  ⟨_, rfl, h.push_comment text, leads_push rfl rfl rfl fun _ hr => hr, rfl, rfl, rfl⟩

theorem emit_end (h : P.Sound S) (closing : i.goesOn = false)
    (reads : ∀ o ∈ i.operands, P.Holds S o) (built : ∀ x ∈ live, P.Built S x)
    (turn : Turn S P.state .plain .ordinary P.live i .dead live)
    (edge : ∀ e l, i.target? e = some (some l) → P.Promises l ⟨.ordinary, P.held, P.live⟩)
    (single : i.choices = []) :
    Arrives S P [] (fun _ Q => P.Stands P.held live Q ∧ Q.mark.phase = .dead)
      (emit i env P.state) :=
  ⟨_, rfl, h.push_end closing reads built turn edge (by simp [single]),
    leads_push rfl rfl single fun _ hr => hr, ⟨rfl, rfl, rfl⟩, rfl⟩

theorem carries_push (h : P.Typed S) (e : Edge) {n : Mark} :
    (P.push (P.note .plain) i n).Carries ⟨⟨P.state.draft.body.size⟩, e⟩ P.held P.live := by
  refine ⟨P.note .plain, ?_, rfl, rfl, fun _ hr => hr⟩
  change (P.notes.push (P.note .plain))[P.state.draft.body.size]? = _
  rw [← h.size]
  simp

theorem emit_branch (h : P.Sound S) {condition : Operand} (reads : P.Holds S condition) :
    Arrives S P [] (fun id Q => P.Stands P.held P.live Q ∧ ∀ e, Q.Carries ⟨id, e⟩ P.held P.live)
      ((liftM (Draft.emit (.branch condition none none)) : LowerM InstrId) env P.state) :=
  ⟨_, rfl, h.push_branch reads, leads_push rfl rfl rfl fun _ hr => hr, ⟨rfl, rfl, rfl⟩,
    fun e => carries_push h.typed e⟩

theorem pendingJump_arrives (h : P.Sound S) (built : ∀ x ∈ live, P.Built S x) :
    Arrives S P [] (fun pending Q => P.Stands P.held live Q ∧ Q.mark.phase = .dead ∧
        pending ≠ [] ∧ ∀ b ∈ pending, Q.Carries b P.held P.live)
      ((liftM Draft.pendingJump : LowerM Pending) env P.state) := by
  refine ⟨_, rfl, h.push_end (i := .jump none) rfl (fun o ho => nomatch ho) built (.jump (.inl rfl))
    (fun e l hl => ?_) (fun l hl => nomatch hl), leads_push rfl rfl rfl fun _ hr => hr,
    ⟨rfl, rfl, rfl⟩, rfl, by simp, fun b hb => ?_⟩
  · cases e <;> cases hl
  · rw [mem_singleton.1 hb]
    exact carries_push h.typed _

end Emit
end FlatCode.Marks
