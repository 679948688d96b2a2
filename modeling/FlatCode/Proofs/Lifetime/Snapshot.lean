import FlatCode.Proofs.Lifetime.Path

/-! What landing pads destroy. An object that has been built and not yet destroyed is destroyed by
the landing pad of any failure, or is owed outside of the region of that pad. There is one
exception: while the temporaries are destroyed that the constructor of a variable has used, no scope
owes the object of this variable yet, and the landing pads of their destructors leave it out. -/
namespace FlatCode
open Code Symbols Ast Lower Marks
variable {s : State} {x : Operand} {k : Nat} {way : Way}

namespace Event

/-- What was built last in the slot has not been destroyed since. -/
def Stands (es : List Event) (slot : Operand) : Prop :=
  (es.filterMap (turn slot)).getLast? = some true

variable {es : List Event} {x : Operand}

theorem Stands.of_destroyed {y : Operand} (h : Stands (es ++ [.destroyed y]) x) :
    x ≠ y ∧ Stands es x := by
  unfold Stands at h ⊢
  by_cases same : y = x
  · simp [turn, same] at h
  · exact ⟨Ne.symm same, by simpa [turn, same] using h⟩

theorem Stands.of_built {objects : List Object}
    (h : Stands (es ++ objects.reverse.map .built) x) :
    x ∈ objects.map Object.slot ∨ Stands es x := by
  by_cases built : x ∈ objects.map Object.slot
  · exact .inl built
  · have others : (objects.reverse.map Event.built).filterMap (turn x) = [] := by
      refine List.filterMap_eq_nil_iff.2 fun e he => ?_
      obtain ⟨o, ho, rfl⟩ := List.mem_map.1 he
      refine if_neg ?_
      rintro rfl
      exact built (List.mem_map_of_mem (List.mem_reverse.1 ho))
    unfold Stands at h ⊢
    rw [List.filterMap_append, others, List.append_nil] at h
    exact .inr h

end Event

/-- The landing pad takes care of the object: it destroys it, or the object is one of those outside
of the region of the pad, which no landing pad of this region destroys. -/
def LandingPad.Covers (pads : List LandingPad) (pad : LandingPad) (x : Operand) : Prop :=
  x ∈ pad.cleanups.map Obligation.object ∨
    pad.handler.isSome ∧ ∀ other ∈ pads, other.handler = pad.handler →
      x ∉ other.cleanups.map Obligation.object

namespace Code.Function

/-- The test at `k` is that of the destructor of a temporary, and the last call of the tree in front
of this destructor has built the object of a variable. -/
def Forgets (S : Marks.Setting) (s : State) (origins : List Origin) (k : Nat) (x : Operand) :
    Prop :=
  ∃ (j c : Nat) (v : VariableId) (ctor : FunctionId) (symbol : FunctionSymbol)
    (slot : Option Register) (o : Obligation), j < c ∧ k = c + 2 ∧
    origins[j]? = some (.site (.construction v ctor) symbol slot (some x)) ∧
    origins[c]? = some (.destructor o) ∧ S.Temp s o.object ∧
    ∀ (i : Nat) (origin : Origin), j < i → i < c → origins[i]? = some origin →
      origin.site? = none

/-- On the path, a failure has left the object out, and it has not been built again since. -/
def Loses (S : Marks.Setting) (s : State) (origins : List Origin) (path : List (Nat × Way))
    (x : Operand) : Prop :=
  ∃ before k after, path = before ++ (k, .edge .positive) :: after ∧
    Forgets S s origins k x ∧
    ∀ o, .built o ∈ eventsOn origins S.table after → o.slot ≠ x

theorem Loses.step {S : Marks.Setting} {origins : List Origin} {path : List (Nat × Way)}
    (h : Loses S s origins path x)
    (kept : ∀ o, .built o ∈ eventsAt origins S.table k way → o.slot ≠ x) :
    Loses S s origins (path ++ [(k, way)]) x := by
  obtain ⟨before, k', after, rfl, leaves, since⟩ := h
  refine ⟨before, k', after ++ [(k, way)], by simp, leaves, fun o ho => ?_⟩
  rw [eventsOn, List.flatMap_append, List.flatMap_singleton] at ho
  rcases List.mem_append.1 ho with ho | ho
  · exact since o ho
  · exact kept o ho

end Code.Function

namespace Marks
open Scene
open Code.Function (eventsAt eventsOn Forgets Loses)

section Cover
variable {S : Setting} {env : Env} {B Q : Scene} {codes : List (List Instr)} {code : Code.Function}
  {path : List (Nat × Way)} {live : List Operand} {note : Note} {i : Instr} {q : Mark}

/-- What stands after a path is alive, unless a failure has left it out. -/
def Scene.Covers (S : Setting) (P : Scene) (path : List (Nat × Way)) (live : List Operand) : Prop :=
  ∀ x, Event.Stands (eventsOn P.origins S.table path) x →
    x ∈ live ∨ Loses S P.state P.origins path x

theorem Scene.eventsOn_step (P : Scene) (table : SymbolTable) (path : List (Nat × Way)) (k : Nat)
    (way : Way) : eventsOn P.origins table (path ++ [(k, way)]) =
      eventsOn P.origins table path ++ eventsAt P.origins table k way := by
  rw [eventsOn, List.flatMap_append, List.flatMap_singleton]
  rfl

theorem Scene.Covers.still {live' : List Operand} (h : Q.Covers S path live)
    (quiet : eventsAt Q.origins S.table k way = [])
    (kept : ∀ x ∈ live, x ∈ live' ∨ Forgets S Q.state Q.origins k x ∧ way = .edge .positive) :
    Q.Covers S (path ++ [(k, way)]) live' := by
  intro x stands
  rw [eventsOn_step, quiet, List.append_nil] at stands
  rcases h x stands with alive | lost
  · rcases kept x alive with alive | ⟨leaves, rfl⟩
    · exact .inl alive
    · exact .inr ⟨path, k, [], rfl, leaves, fun o ho => nomatch ho⟩
  · exact .inr (lost.step fun o ho => by rw [quiet] at ho; cases ho)

theorem Scene.Covers.built (h : Q.Covers S path live) (follows : S.follows = true) {origin : Origin}
    (events : eventsAt Q.origins S.table k way = (origin.builds S.table).reverse.map .built) :
    Q.Covers S (path ++ [(k, way)]) (origin.objects S ++ live) := by
  intro x stands
  rw [eventsOn_step, events] at stands
  by_cases new : x ∈ (origin.builds S.table).map Object.slot
  · rw [origin.builds_slots follows] at new
    exact .inl (List.mem_append_left _ new)
  · rcases h x (stands.of_built.resolve_left new) with alive | lost
    · exact .inl (List.mem_append_right _ alive)
    · refine .inr (lost.step fun o ho => ?_)
      rw [events] at ho
      obtain ⟨o', ho', same⟩ := List.mem_map.1 ho
      cases same
      rintro rfl
      exact new (List.mem_map_of_mem (List.mem_reverse.1 ho'))

theorem Scene.Covers.destroyed {live' : List Operand} (h : Q.Covers S path live) {y : Operand}
    (events : eventsAt Q.origins S.table k way = [.destroyed y]) (drops : Drops S s y live live') :
    Q.Covers S (path ++ [(k, way)]) live' := by
  intro x stands
  rw [eventsOn_step, events] at stands
  obtain ⟨other, stands⟩ := stands.of_destroyed
  rcases h x stands with alive | lost
  · left
    rcases drops with ⟨-, rfl⟩ | ⟨later, earlier, rfl, rfl, -⟩
    · exact alive
    · simpa [other] using alive
  · exact .inr (lost.step fun o ho => by rw [events] at ho; simp at ho)

theorem Scene.LeavesOut.forgets {c : Nat} (h : Q.LeavesOut S c x) :
    Forgets S Q.state Q.origins (c + 2) x := by
  obtain ⟨j, note, call, v, ctor, symbol, slot, o, lt, hj, made, hc, destroys, temp, between⟩ := h
  refine ⟨j, c, v, ctor, symbol, slot, o, lt, rfl, ?_, ?_, temp, fun i origin after before hi => ?_⟩
  · rw [origins_at hj, made]
  · rw [origins_at hc, destroys]
  · rw [origins, List.getElem?_map] at hi
    obtain ⟨note', hn, rfl⟩ := Option.map_eq_some_iff.1 hi
    exact between i note' after before (by simpa using hn)

theorem Scene.forgets_body {P : Scene} (h : Forgets S P.state P.origins k x) :
    Forgets S P.state P.allOrigins (P.state.draft.entry.size + k) x := by
  obtain ⟨j, c, v, ctor, symbol, slot, o, lt, rfl, hj, hc, temp, between⟩ := h
  refine ⟨P.state.draft.entry.size + j, P.state.draft.entry.size + c, v, ctor, symbol, slot, o,
    by omega, by omega, by rw [allOrigins_body, hj], by rw [allOrigins_body, hc], temp,
    fun i origin after before hi => ?_⟩
  obtain ⟨i, rfl⟩ := Nat.exists_eq_add_of_le
    (Nat.le_of_lt (Nat.lt_of_le_of_lt (Nat.le_add_right _ j) after))
  rw [allOrigins_body] at hi
  exact between i origin (by omega) (by omega) hi

theorem Scene.eventsOn_body (P : Scene) (table : SymbolTable) (path : List (Nat × Way)) :
    eventsOn P.allOrigins table (shifted P.state.draft.entry.size path) =
      eventsOn P.origins table path := by
  rw [eventsOn, shifted, List.flatMap_map]
  simp only [eventsAt_body]
  rfl

theorem Scene.loses_body {P : Scene} (h : Loses S P.state P.origins path x)
    (front : List (Nat × Way)) :
    Loses S P.state P.allOrigins (front ++ shifted P.state.draft.entry.size path) x := by
  obtain ⟨before, k, after, rfl, forgets, since⟩ := h
  refine ⟨front ++ shifted P.state.draft.entry.size before, P.state.draft.entry.size + k,
    shifted P.state.draft.entry.size after, by simp [shifted], forgets_body forgets, fun o ho => ?_⟩
  rw [eventsOn_body] at ho
  exact since o ho

namespace Marked
variable (h : Marked S env B Q codes code)
include h

theorem forgets (hn : Q.notes[k]? = some note) {value : Register} {objects left : List Operand}
    (phase : note.mark.phase = .loaded value objects (some left)) (hx : x ∈ left) :
    Forgets S Q.state Q.origins k x := by
  obtain ⟨j, load, before, rfl, -, hj, turn⟩ := h.firm.typed.before hn (by simp [phase])
  rw [phase] at turn
  obtain ⟨-, -, called, -⟩ := turn.to_loaded
  obtain ⟨c, rfl, leaves⟩ := h.firm.lived.left j before hj x (by rw [called]; exact hx)
  exact leaves.forgets

theorem does_covers (follows : S.follows = true) {added : List Event} {live' : List Operand}
    (does : Q.Does S k live way added live') (events : eventsAt Q.origins S.table k way = added)
    (covers : Q.Covers S path live) : Q.Covers S (path ++ [(k, way)]) live' := by
  cases does with
  | still => exact covers.still events fun x hx => .inl hx
  | built _ _ => exact covers.built follows events
  | destroyed drops => exact covers.destroyed events drops
  | left hn phase finds =>
    refine covers.still events fun x hx => ?_
    rcases finds x hx with lost | found
    · exact .inr ⟨h.forgets hn phase lost, rfl⟩
    · exact .inl found

theorem walk_covers (follows : S.follows = true) {m : Mark} (walk : Q.Walk S path k m) :
    Q.Covers S path m.live := by
  induction walk with
  | start => exact fun x stands => nomatch stands
  | step _ goes ih => exact h.does_covers follows (h.goes_does goes) rfl ih

theorem stacked_nodup (once : (S.sites.filterMap (Site.owed? S.table)).Nodup) {l : List Operand}
    (stacked : Q.Stacked S l) : l.Nodup := by
  induction l with
  | nil => exact .nil
  | cons x others ih =>
    obtain ⟨⟨note, hn, hx, below⟩, rest⟩ := stacked
    refine List.nodup_cons.2 ⟨fun again => ?_, ih rest⟩
    obtain ⟨k, hk⟩ := Array.mem_iff_getElem?.1 hn
    rcases below x again with alive | ⟨-, other⟩
    · exact h.builds_fresh once hk hx alive
    · exact other rfl

theorem pad_promise (follows : S.follows = true)
    (once : (S.sites.filterMap (Site.owed? S.table)).Nodup) {pad : LandingPad}
    (hp : pad ∈ B.state.pads.pads.toList) : ∃ q below, Q.promise pad.label = some q ∧
      q.live = pad.cleanups.map Obligation.object ++ below ∧ q.live.Nodup ∧
      match pad.handler with
      | some handler => ∃ q', Q.promise handler = some q' ∧ q'.live = below
      | none => below = [] := by
  have fits := (h.body.books.pads pad (Array.mem_toList_iff.1 hp)).mono h.writes.toLater
  obtain ⟨below, ⟨q, hq, dead | ⟨-, live, -⟩⟩, stacked, handler⟩ := fits.promised
  · cases dead.1
  have distinct := h.stacked_nodup once stacked
  rw [Setting.seen_eq follows] at live distinct
  refine ⟨q, below, hq, live.symm, live ▸ distinct, ?_⟩
  cases hh : pad.handler with
  | none =>
    rw [hh] at handler
    exact handler
  | some l =>
    rw [hh] at handler
    obtain ⟨q', hq', dead | ⟨-, live', -⟩⟩ := handler
    · cases dead.1
    · exact ⟨q', hq', live'.symm⟩

theorem pad_covers (follows : S.follows = true)
    (once : (S.sites.filterMap (Site.owed? S.table)).Nodup) {pad : LandingPad}
    (hp : pad ∈ B.state.pads.pads.toList) (hq : Q.promise pad.label = some q) (hx : x ∈ q.live) :
    pad.Covers B.state.pads.pads.toList x := by
  obtain ⟨q', below, hq', live, -, handler⟩ := h.pad_promise follows once hp
  cases hq.symm.trans hq'
  rw [live] at hx
  refine (List.mem_append.1 hx).imp_right fun outside => ?_
  cases hh : pad.handler with
  | none =>
    rw [hh] at handler
    rw [show below = [] from handler] at outside
    cases outside
  | some l =>
    rw [hh] at handler
    obtain ⟨caught, hl, rfl⟩ := handler
    refine ⟨rfl, fun other ho same inside => ?_⟩
    obtain ⟨q', below, -, live', distinct, handler'⟩ := h.pad_promise follows once ho
    rw [same] at handler'
    obtain ⟨caught', hl', rfl⟩ := handler'
    cases hl.symm.trans hl'
    rw [live'] at distinct
    exact (List.nodup_append.1 distinct).2.2 x inside x outside rfl

/-- What is alive where a failure is noticed is found by its landing pad, or left out. -/
theorem found (hn : Q.notes[k]? = some note) (hi : Q.state.draft.body[k]? = some i) {l : Label}
    (goes : note.mark.phase.pad? i = some l) (hq : Q.promise l = some q) (hx : x ∈ note.mark.live) :
    x ∈ q.live ∨ Forgets S Q.state Q.origins k x := by
  obtain ⟨note', hn', -, fits⟩ := h.firm.typed.note hi
  cases hn.symm.trans hn'
  rcases Phase.pad?_cases goes with ⟨value, objects, loss, _, _, phase, rfl⟩ | ⟨phase, rfl⟩
  · obtain ⟨q', hq', crosses, -⟩ := fits.edge .positive l rfl
    cases hq.symm.trans hq'
    rw [phase] at crosses
    cases loss with
    | none => exact .inl (crosses.2 ▸ hx)
    | some left => exact (crosses.2 x hx).symm.imp_right fun lost => h.forgets hn phase lost
  · obtain ⟨q', hq', crosses, -⟩ := fits.edge .unconditional l rfl
    cases hq.symm.trans hq'
    rw [phase] at crosses
    exact .inl (crosses.2 ▸ hx)

/-- What stands where a failure is noticed is taken care of by its landing pad, and nothing stands
where the function returns, but for what has been left out. -/
theorem unwinds (follows : S.follows = true) (once : (S.sites.filterMap (Site.owed? S.table)).Nodup)
    (run : code.Path path k) (stands : Event.Stands (eventsOn Q.allOrigins S.table path) x) :
    (∀ pad ∈ B.state.pads.pads.toList, code.GoesTo k pad.label →
      pad.Covers B.state.pads.pads.toList x ∨ Forgets S Q.state Q.allOrigins k x ∨
        Loses S Q.state Q.allOrigins path x) ∧
    ∀ value, code.instrs[k]? = some (.ret value) → Loses S Q.state Q.allOrigins path x := by
  rcases h.walk run with ⟨lt, rfl⟩ | ⟨rest, k, m, rfl, rfl, walk⟩
  · rw [eventsOn_slots Q S.table (Nat.le_of_lt lt)] at stands
    cases stands
  rw [eventsOn, List.flatMap_append, ← eventsOn, ← eventsOn,
    eventsOn_slots Q S.table (Nat.le_refl _),
    List.nil_append, eventsOn_body] at stands
  have alive := (h.walk_covers follows walk x stands).imp_right fun lost =>
    loses_body lost (straight Q.state.draft.entry.size)
  have here := walk.at h.firm.typed
  refine ⟨fun pad hp goes => ?_, fun value hi => ?_⟩
  · obtain ⟨j, note, i, same, hn, hi, goes⟩ := h.goes_pad hp goes
    obtain rfl : k = j := by omega
    rcases alive with alive | lost
    · obtain ⟨q, below, hq, -⟩ := h.pad_promise follows once hp
      have other : ∀ l, i ≠ .label l := by
        rintro l rfl
        rcases Phase.pad?_cases goes with ⟨_, _, _, _, _, -, same⟩ | ⟨-, same⟩ <;> cases same
      rw [here.mark hi other, markAt_note hn] at alive
      exact (h.found hn hi goes hq alive).imp (h.pad_covers follows once hp hq) fun forgets =>
        .inl (forgets_body forgets)
    · exact .inr (.inr lost)
  · rw [h.instr] at hi
    obtain ⟨note, hn, mark, fits⟩ := h.firm.typed.note hi
    rw [here.mark hi (by simp), mark, fits.turn.of_ret] at alive
    exact alive.resolve_left (by simp)

end Marked
end Cover
end Marks

section Function
variable {symbols : SymbolTable} {options : Options} {f : Ast.Function} {code : Code.Function}
open Code.Function (eventsOn Forgets Loses)

/-- An object that has been built on a path and not been destroyed is taken care of by the landing
pad of every failure that is noticed there; where the function returns, no such object is left. The
exceptions are objects of variables: those that are left out because the destructor fails of a
temporary that their constructor has used. -/
def Code.Function.UnwindsFor (code : Code.Function) (symbols : SymbolTable) (f : Ast.Function) :
    Prop :=
  ∃ (S : Marks.Setting) (env : Env) (s : State) (entry body : List Instr)
    (own origins : List Origin) (pads : List LandingPad) (codes : List (List Instr)),
    S.table = symbols ∧ S.sites = f.sites ∧
    code.Raising S env s entry body own pads codes ∧ code.Explained S s origins ∧
    ∀ path k x, code.Path path k → Event.Stands (eventsOn origins symbols path) x →
      (∀ pad ∈ pads, code.GoesTo k pad.label →
        pad.Covers pads x ∨ Forgets S s origins k x ∨ Loses S s origins path x) ∧
      ∀ value, code.instrs[k]? = some (.ret value) → Loses S s origins path x

/-- Landing pads take care of the objects of a function whose objects are owed by scopes alone. -/
theorem lowerFunction_unwinds (h : lowerFunction symbols options f = .ok code)
    (inScopes : f.Scoped symbols) : code.UnwindsFor symbols f := by
  obtain ⟨_, incoming, B, Q, codes, -, -, marked⟩ :=
    lowerFunction_marked h true fun _ => inScopes
  exact ⟨_, _, Q.state, _, _, _, Q.allOrigins, B.state.pads.pads.toList, codes, rfl, rfl,
    marked.raising, marked.explained rfl, fun path k x run stands =>
      marked.unwinds rfl inScopes.once run stands⟩

def keySymbols : SymbolTable where
  types := #[.void, .classType ⟨"Guard", none, [], false, some ⟨0⟩⟩,
    .classType ⟨"Key", none, [], false, some ⟨2⟩⟩]
  functions := #[.plain "~Guard" ⟨0⟩, .plain "Guard" ⟨0⟩,
    ⟨"~Key", ⟨0⟩, true, false, none, none, none⟩, .plain "Key" ⟨0⟩, .plain "main" ⟨0⟩]
  vars := #[⟨"guard", ⟨1⟩⟩, ⟨"key", ⟨2⟩⟩]

/-- `main() { Guard guard(Key()); }`. -/
def guardFromKey : Ast.Function where
  function := ⟨4⟩
  parameters := []
  locals := [⟨0⟩, ⟨1⟩]
  body := [.construction ⟨0⟩ ⟨1⟩ [.temporary ⟨2⟩ ⟨1⟩ ⟨3⟩ [] true]]
  returnsByHiddenSlot := false
  canRaise := false

theorem guardFromKey_scoped : guardFromKey.Scoped keySymbols := by
  refine ⟨rfl, fun site known => ?_, by decide⟩
  have all : guardFromKey.sites.all (Site.isCalled keySymbols) := by decide
  exact List.all_eq_true.1 all _ known

-- The landing pad of `~Key` returns at once, though the guard has been built.
example : (lowerFunction keySymbols .default guardFromKey).toOption.map
    (fun code => code.instrs.toList.drop 12) = some [.label ⟨0⟩, .ret none] := by
  decide +kernel

theorem guardFromKey_unwinds : ∃ code, lowerFunction keySymbols .default guardFromKey = .ok code ∧
    guardFromKey.Scoped keySymbols ∧ code.UnwindsFor keySymbols guardFromKey := by
  obtain ⟨code, lowered⟩ :=
    exists_ok_of_isSome (x := lowerFunction keySymbols .default guardFromKey) (by decide +kernel)
  exact ⟨code, lowered, guardFromKey_scoped, lowerFunction_unwinds lowered guardFromKey_scoped⟩

end Function
end FlatCode
