import FlatCode.Code.Instr

/-! Lives of objects. What happens to objects is a list of events; objects live as they should if
construction and destruction take turns in every slot, and local objects are destroyed in the
reverse order of their construction. -/
namespace FlatCode
open Code List

structure Object where
  /-- The address of the object. -/
  slot : Operand
  /-- Built by a statement, not by an expression. -/
  isLocal : Bool
  deriving DecidableEq

inductive Event where
  | built (object : Object)
  | destroyed (slot : Operand)
  deriving DecidableEq

namespace Event

def turn (slot : Operand) : Event → Option Bool
  | .built o => if o.slot = slot then some true else none
  | .destroyed slot' => if slot' = slot then some false else none

def takeTurns (next : Bool) : List Bool → Bool
  | [] => true
  | build :: rest => build = next && takeTurns (!next) rest

/-- In each slot construction and destruction take turns, construction first. -/
def Alternate (es : List Event) : Prop :=
  ∀ slot, takeTurns true (es.filterMap (turn slot))

def Complete (es : List Event) : Prop :=
  ∀ slot, (es.filterMap (turn slot)).getLast? ≠ some true

/-- Of two local objects, the one that was built while the other was alive is destroyed before
the other is. -/
def Reverse (es : List Event) : Prop :=
  ∀ (before between after rest : List Event) (x y : Object), x.isLocal → y.isLocal →
    es = before ++ .built x :: between ++ .built y :: after ++ .destroyed x.slot :: rest →
    .destroyed x.slot ∉ between → .destroyed x.slot ∉ after → .destroyed y.slot ∈ after

/-- What an event does to the objects that are alive, the latest first. An object is built where
none is alive, and only what is alive is destroyed, local objects only when all later ones are. -/
inductive Changes : Event → List Object → List Object → Prop where
  | built {o : Object} {live : List Object} (free : ∀ o' ∈ live, o'.slot ≠ o.slot) :
    Changes (.built o) live (o :: live)
  | destroyed {o : Object} {later earlier : List Object} (first : ∀ o' ∈ later, o'.slot ≠ o.slot)
      (latest : o.isLocal → ∀ o' ∈ later, o'.isLocal = false) :
    Changes (.destroyed o.slot) (later ++ o :: earlier) (later ++ earlier)

inductive Run : List Object → List Event → List Object → Prop where
  | nil (live : List Object) : Run live [] live
  | cons {e : Event} {es : List Event} {live live' live'' : List Object} :
    e.Changes live live' → Run live' es live'' → Run live (e :: es) live''

namespace Run
variable {live live' live'' : List Object} {es es' : List Event} {slot : Operand}

theorem append (h : Run live es live') (k : Run live' es' live'') :
    Run live (es ++ es') live'' := by
  induction h with
  | nil _ => exact k
  | cons change _ ih => exact .cons change (ih k)

theorem of_append (h : Run live (es ++ es') live'') :
    ∃ live', Run live es live' ∧ Run live' es' live'' := by
  induction es generalizing live with
  | nil => exact ⟨live, .nil live, h⟩
  | cons e es ih =>
    cases h with
    | cons change rest =>
      obtain ⟨mid, first, second⟩ := ih rest
      exact ⟨mid, .cons change first, second⟩

end Run

section Slots
variable {live live' : List Object} {es : List Event} {e : Event} {slot : Operand}

def occupied (slot : Operand) (live : List Object) : Bool := live.any fun o => o.slot = slot

theorem occupied_append (slot : Operand) (a b : List Object) :
    occupied slot (a ++ b) = (occupied slot a || occupied slot b) :=
  any_append

theorem occupied_eq_false {live : List Object} (h : ∀ o ∈ live, o.slot ≠ slot) :
    occupied slot live = false :=
  any_eq_false.2 fun o ho => by simpa using h o ho

def Distinct (live : List Object) : Prop := (live.map Object.slot).Nodup

/-- An event on a slot finds it as it should be, and leaves it the other way; other events leave
the slot alone. -/
theorem Changes.occupied (h : e.Changes live live') (distinct : Distinct live) (slot : Operand) :
    Distinct live' ∧ match e.turn slot with
      | some build => Event.occupied slot live = (!build) ∧ Event.occupied slot live' = build
      | none => Event.occupied slot live' = Event.occupied slot live := by
  cases h with
  | @built o live free =>
    refine ⟨nodup_cons.2 ⟨?_, distinct⟩, ?_⟩
    · intro hm
      obtain ⟨o', ho', same⟩ := mem_map.1 hm
      exact free o' ho' same
    · by_cases hs : o.slot = slot
      · simp only [turn, hs, if_true]
        exact ⟨occupied_eq_false fun o' ho' => hs ▸ free o' ho', by simp [Event.occupied, hs]⟩
      · simp [turn, hs, Event.occupied]
  | @destroyed o later earlier first latest =>
    have parts := distinct
    unfold Distinct at parts
    rw [map_append, map_cons, nodup_append] at parts
    obtain ⟨front, back, apart⟩ := parts
    obtain ⟨fresh, back⟩ := nodup_cons.1 back
    refine ⟨?_, ?_⟩
    · unfold Distinct
      rw [map_append, nodup_append]
      exact ⟨front, back, fun a ha b hb => apart a ha b (mem_cons_of_mem _ hb)⟩
    · by_cases hs : o.slot = slot
      · subst hs
        have inFront : Event.occupied o.slot later = false := occupied_eq_false first
        have behind : Event.occupied o.slot earlier = false :=
          occupied_eq_false fun o' ho' same => fresh (same ▸ mem_map_of_mem ho')
        rw [occupied_append, occupied_append, inFront, behind]
        simp [turn, Event.occupied]
      · rw [occupied_append, occupied_append]
        simp [turn, hs, Event.occupied]

theorem Run.turns (h : Run live es live') (distinct : Distinct live) (slot : Operand) :
    takeTurns (!occupied slot live) (es.filterMap (turn slot)) ∧
      (occupied slot live' = ((es.filterMap (turn slot)).getLast?.getD (occupied slot live))) := by
  induction h with
  | nil live => exact ⟨rfl, rfl⟩
  | @cons e es live live' live'' change rest ih =>
    obtain ⟨distinct', effect⟩ := change.occupied distinct slot
    obtain ⟨turns, last⟩ := ih distinct'
    cases ht : e.turn slot with
    | none =>
      rw [ht] at effect
      rw [filterMap_cons_none ht, ← effect]
      exact ⟨turns, last⟩
    | some build =>
      rw [ht] at effect
      obtain ⟨found, left⟩ := effect
      rw [filterMap_cons_some ht, found]
      rw [left] at turns last
      refine ⟨by simpa [takeTurns] using turns, ?_⟩
      rw [last]
      cases hl : es.filterMap (turn slot) with
      | nil => rfl
      | cons b bs => simp [getLast?_cons]

theorem Run.distinct (h : Run live es live') (distinct : Distinct live) : Distinct live' := by
  induction h with
  | nil _ => exact distinct
  | @cons e _ _ _ _ change _ ih => exact ih (change.occupied distinct (.imm .null)).1

end Slots

section Order
variable {live live' : List Object} {es : List Event} {e : Event}

/-- Objects that are not destroyed stay alive, in the order in which they were built. -/
theorem Changes.stays (h : e.Changes live live') {objects : List Object}
    (sub : objects.Sublist live)
    (kept : ∀ o ∈ objects, e ≠ .destroyed o.slot) : objects.Sublist live' := by
  cases h with
  | built _ => exact sub.cons _
  | @destroyed o later earlier _ _ =>
    obtain ⟨front, back, rfl, hfront, hback⟩ := sublist_append_iff.1 sub
    rcases sublist_cons_iff.1 hback with hback | ⟨rest, rfl, -⟩
    · exact hfront.append hback
    · exact absurd rfl (kept o (by simp))

theorem Run.stays (h : Run live es live') {objects : List Object} (sub : objects.Sublist live)
    (kept : ∀ o ∈ objects, .destroyed o.slot ∉ es) : objects.Sublist live' := by
  induction h with
  | nil _ => exact sub
  | @cons e es _ _ _ change _ ih =>
    refine ih (change.stays sub fun o ho same => ?_) fun o ho there => ?_
    · exact kept o ho (same ▸ mem_cons_self)
    · exact kept o ho (mem_cons_of_mem _ there)

/-- A local object is destroyed when no local object that was built later is alive. -/
theorem Changes.latest {x y : Object} (h : Changes (Event.destroyed x.slot) live live')
    (distinct : Distinct live) (sub : [y, x].Sublist live) (hx : x.isLocal) :
    y.isLocal = false := by
  generalize hs : Event.destroyed x.slot = e at h
  cases h with
  | built _ => cases hs
  | @destroyed o later earlier first latest =>
    have slots : o.slot = x.slot := by simpa using hs.symm
    obtain ⟨front, back, split, hfront, hback⟩ := sublist_append_iff.1 sub
    -- `x` is the object destroyed, so what is above it is among the later ones
    have below : ∀ o' ∈ earlier, o'.slot ≠ x.slot := by
      have parts := distinct
      unfold Distinct at parts
      rw [map_append, map_cons, nodup_append] at parts
      intro o' ho' same
      refine (nodup_cons.1 parts.2.1).1 ?_
      rw [slots, ← same]
      exact mem_map_of_mem ho'
    have above : x ∉ later := fun hm => first x hm slots.symm
    match front, split with
    | [], split =>
      rw [nil_append] at split
      subst split
      rcases sublist_cons_iff.1 hback with hback | ⟨rest, hrest, hback⟩
      · exact absurd rfl (below x (hback.subset (by simp)))
      · rw [List.cons.injEq] at hrest
        exact absurd rfl (below x (hback.subset (hrest.2 ▸ by simp)))
    | [z], split =>
      rw [singleton_append, List.cons.injEq] at split
      have same : o = x := by
        rcases sublist_cons_iff.1 hback with hback | ⟨rest, hrest, -⟩
        · exact absurd rfl (below x (hback.subset (split.2 ▸ by simp)))
        · rw [← split.2, List.cons.injEq] at hrest
          exact hrest.1.symm
      subst same
      exact latest hx y (hfront.subset (split.1 ▸ by simp))
    | z :: z' :: more, split =>
      simp only [cons_append, List.cons.injEq] at split
      exact absurd (hfront.subset (split.2.1 ▸ by simp)) above

end Order

section Run
variable {es : List Event} {live : List Object}

theorem distinct_nil : Distinct [] := nodup_nil

theorem Run.alternate (h : Run [] es live) : Alternate es :=
  fun slot => (h.turns distinct_nil slot).1

theorem Run.complete (h : Run [] es []) : Complete es := by
  intro slot last
  have left := (h.turns distinct_nil slot).2
  rw [last] at left
  cases left

theorem Run.reverse (h : Run [] es live) : Reverse es := by
  intro before between after rest x y hx hy hes notBetween notAfter
  refine Decidable.byContradiction fun undestroyed => ?_
  rw [hes] at h
  obtain ⟨live3, h, h3⟩ := h.of_append
  obtain ⟨live2, h, h2⟩ := h.of_append
  obtain ⟨live1, h0, h1⟩ := h.of_append
  cases h1 with | cons built h1
  cases built with | built _
  cases h2 with | cons built h2
  cases built with | built _
  cases h3 with | cons destroys _
  have distinct : Distinct live3 := by
    have whole := (h0.append (.cons (.built ‹_›) h1)).append (.cons (.built ‹_›) h2)
    exact whole.distinct distinct_nil
  have there : [x].Sublist live2 := by
    refine h1.stays (singleton_sublist.2 mem_cons_self) ?_
    simpa using notBetween
  have order : [y, x].Sublist live3 :=
    h2.stays (there.cons_cons y) (by simpa using ⟨undestroyed, notAfter⟩)
  exact absurd hy (by simp [destroys.latest distinct order hx])

end Run

end Event
end FlatCode
