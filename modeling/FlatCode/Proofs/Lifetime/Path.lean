import FlatCode.Proofs.Lifetime.Event
import FlatCode.Proofs.Raising

/-! Lives of objects along the paths through a function. What happens to objects on a path can be
read off the calls that control runs past: constructors and functions that return an object in a
slot build, destructors destroy. A call that can fail builds where the test of its status is left
by the way for success. -/
namespace FlatCode
open Code Symbols Ast Lower Marks List
variable {k j : Nat} {origin : Origin} {live : List Object}

namespace Marks.Origin

def builds (table : SymbolTable) : Origin → List Object
  | .site here symbol slot object =>
    (if (here.owed? table).isSome then object.toList.map (⟨·, here.isLocal⟩) else []) ++
      if (table.destructor? symbol.returnType).isSome then
        slot.toList.map fun r => ⟨.reg r, false⟩
      else []
  | .plain | .trace | .destructor _ | .throw_ | .handler => []

def events (table : SymbolTable) : Origin → List Event
  | .destructor o => [.destroyed o.object]
  | origin => (origin.builds table).reverse.map .built

def mayFail : Origin → Bool
  | .site _ symbol _ _ => symbol.canRaise
  | .plain | .trace | .destructor _ | .throw_ | .handler => false

def isCall : Origin → Bool
  | .site _ _ _ _ | .trace | .destructor _ => true
  | .plain | .throw_ | .handler => false

end Marks.Origin

namespace Code.Function
variable (c : Code.Function) (S : Marks.Setting) (s : State) (origins : List Origin)

/-- What happens to objects when control leaves the instruction at a place. The test of a status
stands two places behind its call. -/
def eventsAt (table : SymbolTable) (k : Nat) : Way → List Event
  | .on => match origins[k]? with
    | some origin => if origin.mayFail then [] else origin.events table
    | none => []
  | .edge .negative => match k with
    | j + 2 => match origins[j]? with
      | some origin => if origin.mayFail then origin.events table else []
      | none => []
    | 0 | 1 => []
  | .edge .positive | .edge .unconditional | .choice _ => []

def eventsOn (table : SymbolTable) (path : List (Nat × Way)) : List Event :=
  path.flatMap fun step => eventsAt origins table step.1 step.2

/-- Each instruction has an origin, which says what a call is made for. -/
structure Explained : Prop where
  each : origins.length = c.instrs.size
  /-- A call of the tree is made at one place at most. -/
  shown : Site.Done S.sites (origins.filterMap Origin.site?)
  calls : ∀ (k : Nat) callee arguments dest, c.instrs[k]? = some (.call callee arguments dest) →
    ∃ origin raises, origins[k]? = some origin ∧ Calls S s origin callee arguments raises
  only : ∀ (k : Nat) (origin : Origin), origins[k]? = some origin → origin.isCall →
    ∃ callee arguments dest, c.instrs[k]? = some (.call callee arguments dest)
  tests : ∀ (k : Nat) (origin : Origin), origins[k]? = some origin → origin.mayFail →
    ∃ slot pad, c.TestsAt slot k pad
  /-- A destructor is the one of the variable or the result that it is called for. -/
  due : ∀ o, .destructor o ∈ origins →
    (∃ v l symbol, s.location? v = some l ∧ S.table.variableSymbol v = .ok symbol ∧
      o.object = .reg l.slot ∧ S.table.destructor? symbol.ty = some o.destructor) ∨
    ∃ site symbol r object, .site site symbol (some r) object ∈ origins ∧ o.object = .reg r ∧
      S.table.destructor? symbol.returnType = some o.destructor

variable {origins}

theorem eventsAt_on (table : SymbolTable) (h : origins[k]? = some origin) :
    eventsAt origins table k .on = if origin.mayFail then [] else origin.events table := by
  simp only [eventsAt, h]

theorem eventsAt_test (table : SymbolTable) (h : origins[k]? = some origin) :
    eventsAt origins table (k + 2) (.edge .negative) =
      if origin.mayFail then origin.events table else [] := by
  simp only [eventsAt, h]

end Code.Function

namespace Event

theorem Run.built {objects : List Object} (distinct : Distinct (objects ++ live)) :
    Run live (objects.reverse.map .built) (objects ++ live) := by
  induction objects with
  | nil => exact .nil live
  | cons o objects ih =>
    unfold Distinct at distinct
    rw [cons_append, map_cons, nodup_cons] at distinct
    rw [reverse_cons, map_append]
    refine (ih distinct.2).append (.cons (.built fun o' ho' same => distinct.1 ?_) (.nil _))
    rw [← same]
    exact mem_map_of_mem ho'

end Event

theorem place_of_nodup {l : List α} {f : α → Option β} (h : (l.filterMap f).Nodup)
    {a b : α} {v : β} (hj : l[j]? = some a) (hk : l[k]? = some b) (ha : f a = some v)
    (hb : f b = some v) : j = k := by
  obtain ⟨ltj, rfl⟩ := List.getElem?_eq_some_iff.1 hj
  obtain ⟨ltk, rfl⟩ := List.getElem?_eq_some_iff.1 hk
  have apart := pairwise_iff_getElem.1 (pairwise_filterMap.1 h)
  rcases Nat.lt_trichotomy j k with lt | same | lt
  · exact absurd rfl (apart j k ltj ltk lt v ha v hb)
  · exact same
  · exact absurd rfl (apart k j ltk ltj lt v hb v ha)

namespace Marks
open Scene
variable {x : Operand} {callee : Callee} {arguments objects : List Operand} {raises : Bool}
  {loss : Option (List Operand)}

section Objects
variable {S : Setting} {s : State}

theorem Origin.builds_slots (follows : S.follows = true) (origin : Origin) :
    (origin.builds S.table).map Object.slot = origin.objects S := by
  cases origin with
  | site here symbol slot object =>
    simp only [builds, objects, CallSite.objects, Setting.seen_eq follows, map_append]
    congr 1
    · split <;> simp [Function.comp_def]
    · split <;> simp [Function.comp_def]
  | _ => rfl

theorem Origin.events_eq_nil (table : SymbolTable) (h : origin.isCall = false) :
    origin.events table = [] := by
  cases origin <;> first | rfl | cases h

def Setting.Local (S : Setting) (s : State) (x : Operand) : Prop :=
  ∃ v ctor l, .call (.construction v ctor) ∈ S.sites ∧ S.table.isDestructible v ∧
    s.location? v = some l ∧ x = .reg l.slot

theorem Houses.variable_unique (housed : State.empty.Houses S.table s) {v v' : VariableId}
    {l l' : Location} (hl : s.location? v = some l) (hl' : s.location? v' = some l')
    (same : l.slot = l'.slot) : v = v' :=
  housed.apart v v' l l' rfl rfl hl hl' same

theorem Setting.Local.not_temp (once : (S.sites.filterMap (Site.owed? S.table)).Nodup)
    (housed : State.empty.Houses S.table s) (h : S.Local s x) : ¬ S.Temp s x := by
  obtain ⟨v, ctor, l, site, destructible, hl, rfl⟩ := h
  rintro ⟨r, same, ⟨v', ctor', l', site', destructible', hl', rfl⟩ | ⟨-, apart⟩⟩
  · have slots : l.slot = l'.slot := by simpa using same
    obtain rfl := Houses.variable_unique housed hl hl' slots
    obtain ⟨j, hj⟩ := mem_iff_getElem?.1 site
    obtain ⟨k, hk⟩ := mem_iff_getElem?.1 site'
    have here := place_of_nodup once (v := v) hj hk
      (by simp [Site.owed?, CallSite.owed?, destructible])
      (by simp [Site.owed?, CallSite.owed?, destructible])
    rw [here, hk] at hj
    cases hj
  · exact apart v l hl (by simpa using same)

end Objects

section Turn
variable {S : Setting} {s : State} {origin : Origin} {phase phase' : Phase}
  {live live' : List Operand} {i : Instr}

theorem Calls.isCall_origin (h : Calls S s origin callee arguments raises) : origin.isCall := by
  cases h <;> rfl

theorem Calls.raises_of_mayFail (h : Calls S s origin callee arguments raises)
    (may : origin.mayFail) : raises = true := by
  cases h with
  | site => exact may
  | _ => cases may

theorem Calls.exists_destructor (h : Calls S s origin callee arguments raises)
    (fails : raises = true)
    (sure : origin.mayFail = false) : ∃ o, origin = .destructor o := by
  cases h with
  | trace => cases fails
  | site => cases sure.symm.trans fails
  | @destructor o => exact ⟨o, rfl⟩

theorem Turn.of_call (h : Turn S s origin phase live i phase' live') (call : origin.isCall) :
    ∃ callee arguments dest raises, i = .call callee arguments dest ∧
      Calls S s origin callee arguments raises ∧
      (phase = .ordinary ∧ raises = false ∧ Completes S s origin live live' ∨
        phase = .ordinary ∧ raises = true ∧
          (∃ objects loss, phase' = .called objects loss ∧
            Attempts S s origin live objects loss live') ∨
        phase = .unwinding ∧ Completes S s origin live live') := by
  cases h with
  | call calls _ completes => exact ⟨_, _, _, _, rfl, calls, .inl ⟨rfl, rfl, completes⟩⟩
  | attempt calls attempts =>
    exact ⟨_, _, _, _, rfl, calls, .inr (.inl ⟨rfl, rfl, _, _, rfl, attempts⟩)⟩
  | unwindCall calls completes => exact ⟨_, _, _, _, rfl, calls, .inr (.inr ⟨rfl, completes⟩)⟩
  | _ => cases call

theorem Turn.calls {dest : Option Register}
    (h : Turn S s origin phase live (.call callee arguments dest) phase' live') :
    ∃ raises, Calls S s origin callee arguments raises := by
  cases h with
  | straight straight _ | unwindStraight straight _ => cases straight
  | call calls | attempt calls | unwindCall calls => exact ⟨_, calls⟩

theorem Turn.live_eq (h : Turn S s origin phase live i phase' live') (other : origin.isCall = false)
    (awake : phase ≠ .dead) (on : i.goesOn) : live' = live := by
  cases h with
  | straight | comment | label | passed | load | throw | clear | unwindStraight => rfl
  | idle | entered | handler => exact absurd rfl awake
  | branch | jump | switch | ret | raise | test | unwindJump | unwindRet => cases on
  | call calls | attempt calls | unwindCall calls =>
    rw [calls.isCall_origin] at other
    cases other

theorem Turn.label_origin {l : Label} (h : Turn S s origin phase live (.label l) phase' live') :
    origin.isCall = false := by
  cases h <;> rfl

theorem Turn.of_ret {value : Option Operand}
    (h : Turn S s origin phase live (.ret value) phase' live') : live = [] := by
  cases h with
  | straight straight _ | unwindStraight straight _ => cases straight
  | ret | unwindRet => rfl

end Turn

section Lives
variable {S : Setting} {env : Env} {B Q : Scene} {codes : List (List Instr)} {code : Code.Function}
  {note : Note} {events : List Event}

/-- What a step does to objects: nothing, or it builds or destroys some, or a failure leaves some
out. -/
inductive Scene.Does (S : Setting) (P : Scene) (k : Nat) (slots : List Operand) :
    Way → List Event → List Operand → Prop where
  | still {way : Way} : Does S P k slots way [] slots
  | built {way : Way} {j : Nat} {note : Note} : P.notes[j]? = some note → note.mark.live = slots →
    Does S P k slots way ((note.origin.builds S.table).reverse.map .built)
      (note.origin.objects S ++ slots)
  | destroyed {way : Way} {x : Operand} {slots' : List Operand} : Drops S P.state x slots slots' →
    Does S P k slots way [.destroyed x] slots'
  | left {note : Note} {value : Register} {objects left slots' : List Operand} :
    P.notes[k]? = some note → note.mark.phase = .loaded value objects (some left) →
    (∀ x ∈ slots, x ∈ left ∨ x ∈ slots') → Does S P k slots (.edge .positive) [] slots'

structure Scene.Alive (S : Setting) (P : Scene) (events : List Event) (slots : List Operand)
    (live : List Object) : Prop where
  run : Event.Run [] events live
  slots : live.map Object.slot = slots
  own : ∀ o ∈ live, o.isLocal → S.Local P.state o.slot

theorem Attempts.of_mayFail (may : origin.mayFail) {live live' : List Operand} {s : State}
    (h : Attempts S s origin live objects loss live') :
    objects = origin.objects S ∧ loss = none ∧ live' = live := by
  cases origin with
  | site => exact h
  | _ => cases may

def Scene.origins (P : Scene) : List Origin := P.notes.toList.map Note.origin

theorem Scene.origins_at {P : Scene} (hn : P.notes[k]? = some note) :
    P.origins[k]? = some note.origin := by
  simp [Scene.origins, hn]

open Code.Function (eventsAt eventsOn)

def Scene.allOrigins (P : Scene) : List Origin :=
  List.replicate P.state.draft.entry.size .plain ++ P.origins

theorem Scene.allOrigins_slot {P : Scene} (lt : k < P.state.draft.entry.size) :
    P.allOrigins[k]? = some .plain := by
  rw [allOrigins, getElem?_append_left (by simpa using lt), getElem?_replicate,
    if_pos lt]

theorem Scene.allOrigins_body (P : Scene) (k : Nat) :
    P.allOrigins[P.state.draft.entry.size + k]? = P.origins[k]? := by
  rw [allOrigins, getElem?_append_right (by simp), length_replicate,
    Nat.add_sub_cancel_left]

theorem Scene.eventsAt_body (P : Scene) (table : SymbolTable) (k : Nat) (way : Way) :
    eventsAt P.allOrigins table (P.state.draft.entry.size + k) way =
      eventsAt P.origins table k way := by
  cases way with
  | on => simp only [eventsAt, allOrigins_body]
  | choice l => rfl
  | edge e =>
    match e, k with
    | .positive, _ | .unconditional, _ => rfl
    | .negative, k + 2 =>
      change eventsAt P.allOrigins table (P.state.draft.entry.size + k + 2) (.edge .negative) = _
      simp only [eventsAt, allOrigins_body]
    | .negative, 0 | .negative, 1 =>
      simp only [eventsAt]
      split
      · rw [allOrigins_slot (by omega)]
        rfl
      · rfl
      · rfl

theorem Scene.eventsOn_slots (P : Scene) (table : SymbolTable) {n : Nat}
    (le : n ≤ P.state.draft.entry.size) : eventsOn P.allOrigins table (straight n) = [] := by
  refine flatMap_eq_nil_iff.2 fun step hs => ?_
  obtain ⟨k, hk, rfl⟩ := mem_map.1 hs
  rw [Code.Function.eventsAt_on table (allOrigins_slot (by have := mem_range.1 hk; omega))]
  rfl

namespace Marked
variable (h : Marked S env B Q codes code)
include h

theorem no_site (hn : Q.notes[k]? = some note) (phase : note.mark.phase = .unwinding) :
    note.origin.site? = none := by
  have behind : B.notes.size ≤ k := by
    refine Nat.le_of_not_lt fun lt => ?_
    have old : B.notes[k]? = some B.notes[k] := Array.getElem?_eq_getElem lt
    cases (h.writes.notes k _ old).symm.trans hn
    exact h.body.raises.calm _ (Array.getElem_mem lt) phase
  obtain ⟨made, hmade, done⟩ := h.writes.calls
  rw [done.eq_nil, append_nil] at hmade
  exact h.writes.toLater.no_site hmade hn behind

theorem site_at (hn : Q.notes[k]? = some note) {site : CallSite} {symbol : FunctionSymbol}
    {slot : Option Register} {object : Option Operand}
    (origin : note.origin = .site site symbol slot object) :
    .call site ∈ S.sites ∧ Receives Q.state site object ∧ note.mark.phase = .ordinary := by
  obtain ⟨i, -, fits⟩ := h.firm.typed.fits_at hn
  have turn := fits.turn
  rw [origin] at turn
  obtain ⟨callee, arguments, dest, raises, -, calls, how⟩ := turn.of_call rfl
  cases calls with
  | site known _ _ _ receives =>
    refine ⟨known, receives, ?_⟩
    rcases how with ⟨phase, -⟩ | ⟨phase, -⟩ | ⟨phase, -⟩
    · exact phase
    · exact phase
    · have none := h.no_site hn phase
      rw [origin] at none
      cases none

theorem object_cases (hn : Q.notes[k]? = some note) (hx : x ∈ note.origin.objects S) :
    (∃ v l site, note.origin.site? = some (.call site) ∧ site.owed? S.table = some v ∧
      Q.state.location? v = some l ∧ x = .reg l.slot) ∨
    ∃ r, note.origin.slot? = some r ∧ x = .reg r := by
  generalize origin : note.origin = o at hx
  cases o with
  | site site symbol slot object =>
    obtain ⟨-, receives, -⟩ := h.site_at hn origin
    rcases mem_append.1 (Setting.mem_of_seen hx) with hx | hx
    · split at hx
      · rename_i owes
        obtain ⟨v, owed⟩ := Option.isSome_iff_exists.1 owes
        unfold Receives at receives
        rw [(CallSite.built?_of_owed? owed).1] at receives
        obtain ⟨l, hl, rfl⟩ := receives
        exact .inl ⟨v, l, site, rfl, owed, hl, mem_singleton.1 hx⟩
      · cases hx
    · split at hx
      · obtain ⟨r, hr, rfl⟩ := mem_map.1 hx
        exact .inr ⟨r, Option.mem_toList.1 hr, rfl⟩
      · cases hx
  | _ => cases hx

theorem built_once (once : (S.sites.filterMap (Site.owed? S.table)).Nodup) {note' : Note}
    (hj : Q.notes[j]? = some note) (hk : Q.notes[k]? = some note') (hx : x ∈ note.origin.objects S)
    (hx' : x ∈ note'.origin.objects S) : j = k := by
  have lived := h.firm.lived
  rcases h.object_cases hj hx with ⟨v, l, site, shows, owed, hl, rfl⟩ | ⟨r, slot, rfl⟩
  · rcases h.object_cases hk hx' with ⟨v', l', site', shows', owed', hl', same⟩ | ⟨r, slot, same⟩
    · have slots : l.slot = l'.slot := by simpa using same
      obtain rfl := Houses.variable_unique h.firm.books.housed hl hl' slots
      have made := once.sublist (h.calls.some.filterMap (Site.owed? S.table))
      rw [Scene.calls, filterMap_filterMap] at made
      exact place_of_nodup made (v := v) (by simpa using hj) (by simpa using hk)
        (by simp [shows, Site.owed?, owed]) (by simp [shows', Site.owed?, owed'])
    · exact absurd (by simpa using same)
        ((lived.apart note' (Array.mem_of_getElem? hk) r slot).2 v l hl)
  · rcases h.object_cases hk hx' with ⟨v', l', site', shows', owed', hl', same⟩ | ⟨r', slot', same⟩
    · exact absurd (by simpa using same.symm)
        ((lived.apart note (Array.mem_of_getElem? hj) r slot).2 v' l' hl')
    · cases same
      exact lived.once j k note note' r hj hk slot slot'

theorem builds_fresh (once : (S.sites.filterMap (Site.owed? S.table)).Nodup)
    (hn : Q.notes[k]? = some note) (hx : x ∈ note.origin.objects S) :
    x ∉ note.mark.live := by
  intro alive
  obtain ⟨j, note', lt, hj, hx'⟩ := h.firm.lived.built k note hn x alive
  have := h.built_once once hj hn hx' hx
  omega

theorem builds_distinct (hn : Q.notes[k]? = some note) : (note.origin.objects S).Nodup := by
  generalize origin : note.origin = o
  cases o with
  | site site symbol slot object =>
    obtain ⟨-, receives, -⟩ := h.site_at hn origin
    have all : (object.toList ++ slot.toList.map Operand.reg).Nodup := by
      cases object with
      | none => cases slot <;> simp
      | some x =>
        cases slot with
        | none => simp
        | some r =>
          unfold Receives at receives
          split at receives
          · obtain ⟨l, hl, same⟩ := receives
            cases same
            have apart := (h.firm.lived.apart note (Array.mem_of_getElem? hn) r
              (by rw [origin]; rfl)).2 _ l hl
            simpa using apart
          · cases receives
    refine all.sublist ?_
    change List.Sublist (S.seen (site.objects S.table symbol slot object)) _
    unfold Setting.seen CallSite.objects
    split
    · refine List.Sublist.append ?_ ?_
      · split
        · exact .refl _
        · exact nil_sublist _
      · split
        · exact .refl _
        · exact nil_sublist _
    · exact nil_sublist _
  | _ => exact nodup_nil

theorem builds (follows : S.follows = true) (once : (S.sites.filterMap (Site.owed? S.table)).Nodup)
    (hn : Q.notes[k]? = some note) (alive : Q.Alive S events note.mark.live live) :
    Q.Alive S (events ++ (note.origin.builds S.table).reverse.map .built)
      (note.origin.objects S ++ note.mark.live) (note.origin.builds S.table ++ live) := by
  have slots := note.origin.builds_slots follows
  refine ⟨alive.run.append (.built ?_), ?_, fun o ho own => ?_⟩
  · unfold Event.Distinct
    rw [map_append, slots, alive.slots, nodup_append]
    have distinct := alive.run.distinct Event.distinct_nil
    unfold Event.Distinct at distinct
    rw [alive.slots] at distinct
    refine ⟨h.builds_distinct hn, distinct, fun x hx y hy => ?_⟩
    rintro rfl
    exact h.builds_fresh once hn hx hy
  · rw [map_append, slots, alive.slots]
  · rcases mem_append.1 ho with ho | ho
    · generalize origin : note.origin = made at ho
      cases made with
      | site site symbol slot object =>
        obtain ⟨known, receives, -⟩ := h.site_at hn origin
        rcases mem_append.1 ho with ho | ho
        · split at ho
          · rename_i owes
            obtain ⟨v, owed⟩ := Option.isSome_iff_exists.1 owes
            obtain ⟨built, destructible⟩ := CallSite.built?_of_owed? owed
            unfold Receives at receives
            rw [built] at receives
            obtain ⟨l, hl, rfl⟩ := receives
            obtain ⟨x, hx, rfl⟩ := mem_map.1 ho
            cases mem_singleton.1 hx
            cases site with
            | construction v' ctor =>
              cases built
              exact ⟨v, ctor, l, known, destructible, hl, rfl⟩
            | call | temporary => cases own
          · cases ho
        · split at ho
          · obtain ⟨r, -, rfl⟩ := mem_map.1 ho
            cases own
          · cases ho
      | _ => cases ho
    · exact alive.own o ho own

theorem destroys (follows : S.follows = true)
    (once : (S.sites.filterMap (Site.owed? S.table)).Nodup) {slots slots' : List Operand}
    (drops : Drops S Q.state x slots slots') (alive : Q.Alive S events slots live) :
    ∃ live', Q.Alive S (events ++ [.destroyed x]) slots' live' := by
  obtain ⟨loose, -⟩ | ⟨later, earlier, rfl, rfl, how⟩ := drops
  · rw [follows] at loose
    cases loose
  obtain ⟨run, slots, own⟩ := alive
  have distinct := run.distinct Event.distinct_nil
  obtain ⟨above, rest, rfl, rfl, hrest⟩ := map_eq_append_iff.1 slots
  obtain ⟨o, below, rfl, rfl, rfl⟩ := map_eq_cons_iff.1 hrest
  unfold Event.Distinct at distinct
  rw [map_append, map_cons, nodup_append] at distinct
  refine ⟨above ++ below, run.append (.cons (.destroyed (fun o' ho' => ?_) fun local_ o' ho' => ?_)
    (.nil _)), map_append, fun o' ho' => own o' ?_⟩
  · exact distinct.2.2 _ (mem_map_of_mem ho') _ mem_cons_self
  · rcases how with none | temp
    · rw [map_eq_nil_iff.1 none] at ho'
      cases ho'
    · exact absurd temp ((own o (by simp) local_).not_temp once h.firm.books.housed)
  · rcases mem_append.1 ho' with ho' | ho'
    · exact mem_append_left _ ho'
    · exact mem_append_right _ (mem_cons_of_mem _ ho')

theorem destructor_calm (follows : S.follows = true) (calm : S.table.destructorsCalm)
    (hn : Q.notes[k]? = some note) (calls : Calls S Q.state note.origin callee arguments raises)
    (fails : raises = true) :
    note.origin.mayFail := by
  have due := h.firm.lived.due follows note (Array.mem_of_getElem? hn)
  generalize note.origin = origin at calls due
  cases calls with
  | trace => cases fails
  | site => exact fails
  | destructor symbol =>
    rw [(due _ rfl).calm calm symbol] at fails
    cases fails

theorem tested (hn : Q.notes[k]? = some note) {value : Register}
    (phase : note.mark.phase = .loaded value objects loss) :
    ∃ (j : Nat) (call : Note) (callee : Callee) (arguments : List Operand), k = j + 2 ∧
      Q.notes[j]? = some call ∧ Calls S Q.state call.origin callee arguments true ∧
      Attempts S Q.state call.origin call.mark.live objects loss note.mark.live := by
  have typed := h.firm.typed
  obtain ⟨j, load, note1, rfl, -, hn1, turn1⟩ := typed.before hn (by simp [phase])
  rw [phase] at turn1
  obtain ⟨-, -, called, -⟩ := turn1.to_loaded
  rw [called] at turn1
  obtain ⟨-, -, -, -, -, live1⟩ := turn1.of_called
  obtain ⟨j, i, note0, rfl, hi, hn0, turn0⟩ := typed.before hn1 (by simp [called])
  rw [called] at turn0
  obtain ⟨callee, arguments, _, -, calls, attempts⟩ := turn0.to_called
  exact ⟨j, note0, callee, arguments, rfl, hn0, calls, live1 ▸ attempts⟩

theorem called_behind {call : Note} (hn : Q.notes[j]? = some call) (may : call.origin.mayFail) :
    ∃ callee arguments dest objects loss,
      Q.state.draft.body[j]? = some (.call callee arguments dest) ∧
      Calls S Q.state call.origin callee arguments true ∧
      (Q.markAt (j + 1)).phase = .called objects loss := by
  obtain ⟨i, hi, fits⟩ := h.firm.typed.fits_at hn
  have isCall : call.origin.isCall := by
    generalize call.origin = origin at may
    cases origin <;> first | rfl | cases may
  obtain ⟨callee, arguments, dest, _, rfl, calls, how⟩ := fits.turn.of_call isCall
  obtain rfl := calls.raises_of_mayFail may
  obtain ⟨-, calm, -⟩ | ⟨-, -, objects, loss, phase, -⟩ | ⟨phase, -⟩ := how
  · cases calm
  · exact ⟨callee, arguments, dest, objects, loss, hi, calls, phase⟩
  · have none := h.no_site hn phase
    generalize call.origin = origin at may none
    cases origin <;> first | cases none; done | cases may

theorem tested_behind {call : Note} (hn : Q.notes[j]? = some call) (may : call.origin.mayFail) :
    ∃ note value objects loss,
      Q.notes[j + 2]? = some note ∧ note.mark.phase = .loaded value objects loss := by
  obtain ⟨_, _, _, objects, loss, -, -, phase⟩ := h.called_behind hn may
  obtain ⟨load, note1, -, -, mark1, fits1⟩ := h.awake (k := j + 1) (by rw [phase]; simp)
  have turn1 := fits1.turn
  rw [← mark1, phase] at turn1
  obtain ⟨slot, value, -, -, loaded, -⟩ := turn1.of_called
  obtain ⟨-, note2, -, hn2, mark2, -⟩ := h.awake (k := j + 2) (by rw [loaded]; simp)
  exact ⟨note2, value, objects, loss, hn2, mark2 ▸ loaded⟩

theorem call_does {i : Instr} (hn : Q.notes[k]? = some note)
    (fits : Fits S Q.state Q.promise note i (Q.markAt (k + 1))) (call : note.origin.isCall) :
    Q.Does S k note.mark.live .on (eventsAt Q.origins S.table k .on) (Q.markAt (k + 1)).live := by
  obtain ⟨_, _, _, raises, -, calls, how⟩ := fits.turn.of_call call
  have site := h.no_site hn
  have built : Q.Does S k note.mark.live .on _ _ := .built hn rfl
  rw [Code.Function.eventsAt_on S.table (origins_at hn)]
  generalize note.origin = origin at calls how site built
  -- a call of the tree that can fail builds at the test of its status
  have completed (sure : origin.mayFail = false)
      (completes : Completes S Q.state origin note.mark.live (Q.markAt (k + 1)).live) :
      Q.Does S k note.mark.live .on (if origin.mayFail then [] else origin.events S.table)
        (Q.markAt (k + 1)).live := by
    rw [if_neg (by simp [sure])]
    cases calls with
    | trace | site =>
      rw [show (Q.markAt (k + 1)).live = _ from completes]
      exact built
    | destructor => exact .destroyed completes
  obtain ⟨-, quiet, completes⟩ | ⟨-, fails, objects, loss, -, attempts⟩ | ⟨phase, completes⟩ := how
  · refine completed ?_ completes
    cases may : origin.mayFail with
    | false => rfl
    | true => rw [calls.raises_of_mayFail may] at quiet; cases quiet
  · cases may : origin.mayFail with
    | true =>
      rw [if_pos rfl, (attempts.of_mayFail may).2.2]
      exact .still
    | false =>
      obtain ⟨o, rfl⟩ := calls.exists_destructor fails may
      exact .destroyed attempts.2.2
  · refine completed ?_ completes
    cases origin with
    | site => cases site phase
    | _ => rfl

theorem events_edge (hn : Q.notes[k]? = some note) (e : Edge)
    (other : ∀ value objects loss, note.mark.phase ≠ .loaded value objects loss) :
    eventsAt Q.origins S.table k (.edge e) = [] := by
  match k, e with
  | _, .positive | _, .unconditional | 0, .negative | 1, .negative => rfl
  | k + 2, .negative =>
    obtain ⟨lt, -⟩ := Array.getElem?_eq_some_iff.1 hn
    have hj : Q.notes[k]? = some Q.notes[k] := Array.getElem?_eq_getElem (by omega)
    rw [Code.Function.eventsAt_test S.table (origins_at hj)]
    refine if_neg fun may => ?_
    obtain ⟨note', value, objects, loss, hn', phase⟩ := h.tested_behind hj may
    cases hn.symm.trans hn'
    exact other value objects loss phase

theorem edge_does (hn : Q.notes[k]? = some note) {e : Edge} {q : Mark}
    (crosses : note.mark.Crosses e q) :
    Q.Does S k note.mark.live (.edge e) (eventsAt Q.origins S.table k (.edge e)) q.live := by
  have crosses := crosses.1
  by_cases loaded : ∃ value objects loss, note.mark.phase = .loaded value objects loss
  · obtain ⟨value, objects, loss, phase⟩ := loaded
    obtain ⟨j, call, _, _, rfl, hj, calls, attempts⟩ := h.tested hn phase
    rw [phase] at crosses
    cases e with
    | positive =>
      cases loss with
      | none =>
        rw [show q.live = _ from crosses.2]
        exact .still
      | some left => exact .left hn phase crosses.2
    | negative =>
      rw [show q.live = _ from crosses.2, Code.Function.eventsAt_test S.table (origins_at hj)]
      cases may : call.origin.mayFail with
      | true =>
        obtain ⟨rfl, rfl, same⟩ := attempts.of_mayFail may
        have built : Q.Does S (j + 2) note.mark.live (.edge .negative) _ _ := .built hj same.symm
        rw [if_pos rfl]
        generalize call.origin = origin at may built
        cases origin <;> first | exact built | cases may
      | false =>
        obtain ⟨o, destroys⟩ := calls.exists_destructor rfl may
        rw [destroys] at attempts
        rw [attempts.1, if_neg (by simp)]
        exact .still
    | unconditional => cases crosses
  · have other : ∀ value objects loss, note.mark.phase ≠ .loaded value objects loss := by
      simpa using loaded
    rw [crosses.live_eq other, h.events_edge hn e other]
    exact .still

theorem goes_does {k' : Nat} {m m' : Mark} {i : Instr} {way : Way}
    (goes : Q.Goes S k m i way k' m') :
    Q.Does S k m.live way (eventsAt Q.origins S.table k way) m'.live := by
  cases goes with
  | @on _ note _ hn awake on fits =>
    cases call : note.origin.isCall with
    | true => exact h.call_does hn fits call
    | false =>
      rw [Code.Function.eventsAt_on S.table (origins_at hn), Origin.events_eq_nil S.table call,
        ite_self, fits.turn.live_eq call awake on]
      exact .still
  | behind hl hq _ _ same _ =>
    obtain ⟨note, hn, -, fits⟩ := h.firm.typed.note hl
    rw [Code.Function.eventsAt_on S.table (origins_at hn),
      Origin.events_eq_nil S.table fits.turn.label_origin, ite_self, same]
    exact .still
  | edge _ hn _ _ _ _ crosses => exact h.edge_does hn crosses
  | @choice _ _ note l q _ hn _ chosen _ _ crosses =>
    have crosses := crosses.1
    have other : ∀ value objects loss, note.mark.phase ≠ .loaded value objects loss := by
      intro _ _ _ loaded
      rw [loaded] at crosses
      cases crosses
    rw [crosses.live_eq other]
    exact .still

theorem does_alive (follows : S.follows = true) (calm : S.table.destructorsCalm)
    (once : (S.sites.filterMap (Site.owed? S.table)).Nodup) {way : Way} {added : List Event}
    {slots slots' : List Operand} (does : Q.Does S k slots way added slots')
    (alive : Q.Alive S events slots live) : ∃ live', Q.Alive S (events ++ added) slots' live' := by
  cases does with
  | still => exact ⟨live, by rwa [append_nil]⟩
  | built hn same =>
    subst same
    exact ⟨_, h.builds follows once hn alive⟩
  | destroyed drops => exact h.destroys follows once drops alive
  | left hn phase _ =>
    -- only the destructor of a temporary leaves an object out
    obtain ⟨j, call, _, _, rfl, hj, calls, attempts⟩ := h.tested hn phase
    cases (attempts.of_mayFail (h.destructor_calm follows calm hj calls rfl)).2.1

theorem walk_alive (follows : S.follows = true) (calm : S.table.destructorsCalm)
    (once : (S.sites.filterMap (Site.owed? S.table)).Nodup) {path : List (Nat × Way)} {m : Mark}
    (walk : Q.Walk S path k m) :
    ∃ live, Q.Alive S (eventsOn Q.origins S.table path) m.live live := by
  induction walk with
  | start =>
    refine ⟨[], .nil [], ?_, fun o ho => nomatch ho⟩
    rcases h.firm.typed.start with dead | ⟨-, live, -⟩
    · cases dead.1
    · exact live
  | step _ goes ih =>
    obtain ⟨live, alive⟩ := ih
    rw [eventsOn, flatMap_append, flatMap_singleton]
    exact h.does_alive follows calm once (h.goes_does goes) alive

theorem path_run (follows : S.follows = true) (calm : S.table.destructorsCalm)
    (once : (S.sites.filterMap (Site.owed? S.table)).Nodup) {path : List (Nat × Way)}
    (run : code.Path path k) :
    ∃ live, Event.Run [] (eventsOn Q.allOrigins S.table path) live ∧
      ∀ value, code.instrs[k]? = some (.ret value) → live = [] := by
  rcases h.walk run with ⟨lt, rfl⟩ | ⟨rest, k, m, rfl, rfl, walk⟩
  · rw [eventsOn_slots Q S.table (Nat.le_of_lt lt)]
    exact ⟨[], .nil [], fun _ _ => rfl⟩
  · obtain ⟨live, alive⟩ := h.walk_alive follows calm once walk
    refine ⟨live, ?_, fun value hi => ?_⟩
    · rw [eventsOn, flatMap_append, ← eventsOn, eventsOn_slots Q S.table (Nat.le_refl _),
        nil_append, shifted, flatMap_map]
      simp only [eventsAt_body]
      exact alive.run
    · rw [h.instr] at hi
      obtain ⟨note, hn, mark, fits⟩ := h.firm.typed.note hi
      have slots := alive.slots
      rw [(walk.at h.firm.typed).mark hi (by simp), mark, fits.turn.of_ret] at slots
      exact map_eq_nil_iff.1 slots

theorem explained (follows : S.follows = true) : code.Explained S Q.state Q.allOrigins := by
  have typed := h.firm.typed
  -- what is more than a slot belongs to an instruction behind the slots
  have noted {k : Nat} {origin : Origin} (hk : Q.allOrigins[k]? = some origin)
      (other : origin ≠ .plain) : ∃ j note, k = Q.state.draft.entry.size + j ∧
        Q.notes[j]? = some note ∧ note.origin = origin := by
    by_cases slot : k < Q.state.draft.entry.size
    · rw [allOrigins_slot slot] at hk
      exact absurd (Option.some.inj hk).symm other
    · obtain ⟨j, rfl⟩ := Nat.exists_eq_add_of_le (Nat.le_of_not_lt slot)
      rw [allOrigins_body, origins, getElem?_map] at hk
      obtain ⟨note, hn, same⟩ := Option.map_eq_some_iff.1 hk
      exact ⟨j, note, rfl, by simpa using hn, same⟩
  refine ⟨?_, ?_, fun k callee arguments dest hi => ?_, fun k origin hk call => ?_,
    fun k origin hk may => ?_, fun o ho => ?_⟩
  · simp [allOrigins, origins, h.finished.instrs, typed.size]
  · rw [allOrigins, filterMap_append, origins, filterMap_map,
      filterMap_replicate_of_none rfl]
    exact h.calls
  · obtain ⟨j, rfl⟩ := Nat.exists_eq_add_of_le (h.behind_slots hi rfl)
    rw [h.instr] at hi
    obtain ⟨note, hn, -, fits⟩ := typed.note hi
    obtain ⟨raises, calls⟩ := fits.turn.calls
    exact ⟨note.origin, raises, by rw [allOrigins_body, origins_at hn], calls⟩
  · obtain ⟨j, note, rfl, hn, rfl⟩ := noted hk (by rintro rfl; cases call)
    obtain ⟨i, hi, fits⟩ := h.firm.typed.fits_at hn
    obtain ⟨callee, arguments, dest, _, rfl, -⟩ := fits.turn.of_call call
    exact ⟨callee, arguments, dest, by rw [h.instr, hi]⟩
  · obtain ⟨j, note, rfl, hn, rfl⟩ := noted hk (by rintro rfl; cases may)
    obtain ⟨_, _, _, objects, _, hi, calls, phase⟩ := h.called_behind hn may
    obtain ⟨slot, pad, -, -, tests⟩ := h.tests hi phase calls
    exact ⟨slot, pad, tests⟩
  · obtain ⟨k, hk⟩ := mem_iff_getElem?.1 ho
    obtain ⟨j, note, -, hn, origin⟩ := noted hk nofun
    rcases h.firm.lived.due follows note (Array.mem_of_getElem? hn) o origin with
      ⟨v, l, hl, object, type⟩ | ⟨note', hn', site, symbol, r, object, origin', slot, type⟩
    · obtain ⟨_, symbol, planned, ty⟩ := h.firm.books.planned hl
      exact .inl ⟨v, l, symbol, hl, (Storage.plan_iff.1 planned).1, object, ty ▸ type⟩
    · refine .inr ⟨site, symbol, r, object, ?_, slot, type⟩
      rw [← origin']
      exact mem_append_right _ (mem_map_of_mem (Array.mem_toList_iff.2 hn'))

end Marked
end Lives
end Marks

section Function
variable {symbols : SymbolTable} {options : Options} {f : Ast.Function} {code : Code.Function}

/-- On every path through the code, construction and destruction take turns in every slot; local
objects are destroyed in the reverse order of their construction, and where the function returns,
every object has been destroyed. -/
def Code.Function.DestroysFor (code : Code.Function) (symbols : SymbolTable) (f : Ast.Function) :
    Prop :=
  ∃ (S : Marks.Setting) (s : State) (origins : List Origin),
    S.table = symbols ∧ S.sites = f.sites ∧ code.Explained S s origins ∧
    ∀ path k, code.Path path k →
      Event.Alternate (Code.Function.eventsOn origins symbols path) ∧
      Event.Reverse (Code.Function.eventsOn origins symbols path) ∧
      ∀ value, code.instrs[k]? = some (.ret value) →
        Event.Complete (Code.Function.eventsOn origins symbols path)

/-- A function whose objects live by scopes alone destroys each of them once, in order. -/
theorem lowerFunction_destroys (h : lowerFunction symbols options f = .ok code)
    (tidy : f.Tidy symbols) : code.DestroysFor symbols f := by
  obtain ⟨_, incoming, B, Q, codes, -, -, marked⟩ :=
    lowerFunction_marked h true fun _ => tidy.toScoped
  refine ⟨_, Q.state, Q.allOrigins, rfl, rfl, marked.explained rfl, fun path k run => ?_⟩
  obtain ⟨live, lives, returned⟩ := marked.path_run rfl tidy.calm tidy.once run
  refine ⟨lives.alternate, lives.reverse, fun value hi => ?_⟩
  rw [returned value hi] at lives
  exact lives.complete

theorem guardedLoop_tidy : guardedLoop.Tidy guardSymbols := by
  refine ⟨⟨rfl, fun site known => ?_, by decide⟩, rfl⟩
  have all : guardedLoop.sites.all (Site.isCalled guardSymbols) := by decide
  exact all_eq_true.1 all _ known

theorem guardedLoop_destroys : ∃ code, lowerFunction guardSymbols .default guardedLoop = .ok code ∧
    code.DestroysFor guardSymbols guardedLoop := by
  obtain ⟨code, lowered⟩ := guardedLoop_lowers
  exact ⟨code, lowered, lowerFunction_destroys lowered guardedLoop_tidy⟩

end Function
end FlatCode
