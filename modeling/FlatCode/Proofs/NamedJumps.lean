import Mathlib.Data.List.Induction
import FlatCode.Proofs.Growth.Basic

/-! Names may be placed and jumped to in any order, with other code written in between. Each jump
to a name ends up at the label of that name, and a jump that never does is found at the end. What
carries this is that the jumps noted for a name are exactly those of its jumps without a target. -/
namespace FlatCode
open Code Lower List
variable {d : Draft} {g : Gotos} {name : String} {k : Nat} {i : Instr} {l : Label}

namespace Draft

def extend (d more : Draft) : Draft :=
  ⟨d.registers ++ more.registers, d.entry ++ more.entry, d.body ++ more.body,
    d.labels + more.labels⟩

def jumpAt (k : Nat) : PendingBranch := ⟨⟨k⟩, .unconditional⟩

structure Free (d : Draft) (pending : Pending) : Prop where
  nodup : pending.Nodup
  stands : ∀ b ∈ pending, ∃ k, b = jumpAt k ∧ d.body[k]? = some (.jump none)

theorem Free.mono {d' : Draft} {pending : Pending} (h : d.Free pending)
    (kept : ∀ k, d.body[k]? = some (.jump none) → jumpAt k ∈ pending →
      d'.body[k]? = some (.jump none)) : d'.Free pending := by
  refine ⟨h.nodup, fun b hb => ?_⟩
  obtain ⟨k, rfl, hk⟩ := h.stands b hb
  exact ⟨k, rfl, kept k hk hb⟩

theorem Free.at {pending : Pending} (h : d.Free pending) (hk : jumpAt k ∈ pending) :
    d.body[k]? = some (.jump none) := by
  obtain ⟨j, hj, at_⟩ := h.stands _ hk
  cases hj
  exact at_

/-- Pointing jumps without a target at a label never fails, and changes only them. -/
theorem forM_patch_free (l : Label) : ∀ (pending : Pending) (d : Draft), d.Free pending →
    ∃ d', pending.forM (patch l) d = .ok ⟨⟩ d' ∧ d'.body.size = d.body.size ∧
      ∀ k, d'.body[k]? = if jumpAt k ∈ pending then some (.jump (some l)) else d.body[k]?
  | [], d, _ => ⟨d, rfl, rfl, by simp⟩
  | b :: pending, d, h => by
    obtain ⟨fresh, nodup⟩ := nodup_cons.1 h.nodup
    obtain ⟨j, rfl, hj⟩ := h.stands b mem_cons_self
    have opens : d.Open (jumpAt j) := by simp [Open, jumpAt, hj, Instr.target?]
    let d1 : Draft := { d with body := d.body.modify j (Instr.setTarget l .unconditional) }
    have body1 : ∀ k, d1.body[k]? = if j = k then some (.jump (some l)) else d.body[k]? := by
      intro k
      rw [Array.getElem?_modify]
      split
      · subst k
        simp [hj, Instr.setTarget]
      · rfl
    have rest : d.Free pending := ⟨nodup, fun b hb => h.stands b (mem_cons_of_mem _ hb)⟩
    have rest1 : d1.Free pending := rest.mono fun k hk hmem => by
      have apart : j ≠ k := by
        rintro rfl
        exact fresh hmem
      rw [body1, if_neg apart, hk]
    obtain ⟨d', run, size, body⟩ := forM_patch_free l pending d1 rest1
    refine ⟨d', ?_, by simpa [d1] using size, fun k => ?_⟩
    · change (patch l (jumpAt j) >>= fun _ => pending.forM (patch l)) d = _
      exact (bind_of_ok (patch_open opens l)).trans run
    · rw [body, body1]
      have same : jumpAt k = jumpAt j ↔ j = k := by simp [jumpAt, eq_comm]
      grind

end Draft

open Draft (jumpAt)

namespace Gotos

theorem lookup_filter_ne (pending : List (String × Pending)) (name other : String) :
    (pending.filter fun p => p.1 ≠ name).lookup other =
      if other = name then none else pending.lookup other := by
  induction pending with
  | nil => simp
  | cons p rest ih =>
    by_cases hp : p.1 = name
    · rw [filter_cons_of_neg (by simp [hp]), ih, lookup_cons]
      grind
    · rw [filter_cons_of_pos (by simp [hp]), lookup_cons, lookup_cons, ih]
      grind

theorem waiting_place (g : Gotos) (name other : String) (l : Label) :
    (g.place name l).waiting other = if other = name then [] else g.waiting other := by
  simp only [waiting, place, withoutPending, lookup_filter_ne]
  split <;> rfl

theorem waiting_await (g : Gotos) (name other : String) (jump : Pending) :
    (g.await name jump).waiting other =
      if other = name then g.waiting name ++ jump else g.waiting other := by
  simp only [waiting, await, withoutPending, lookup_append, lookup_filter_ne, lookup_cons]
  by_cases h : other = name
  · simp [h]
  · have : (other == name) = false := by simpa using h
    simp [h, this]

inductive Move where
  | place (name : String)
  | jump (name : String)
  | append (more : Draft)

abbrev Session := State

namespace Session
variable {env : Env} {s : Session} {other : String}

/-- Makes a call. One that fails leaves behind the state in which it stopped. -/
def take (env : Env) (s : Session) : Move → Session
  | .place name => stateOf (placeName name env s)
  | .jump name => stateOf (jumpToName name env s)
  | .append more => { s with draft := s.draft.extend more }

def run (env : Env) (s : Session) (moves : List Move) : Session := moves.foldl (take env) s

def of (env : Env) (s : State) (moves : List Move) : Session :=
  run env { s with gotos := .empty } moves

def label? (s : Session) (name : String) : Option Label := s.gotos.placed.lookup name

structure Sound (s : Session) : Prop where
  free : ∀ name, s.draft.Free (s.gotos.waiting name)
  apart : ∀ name other, name ≠ other → ∀ b ∈ s.gotos.waiting name, b ∉ s.gotos.waiting other

theorem place_again (h : s.label? name = some l) :
    placeName name env s = .error (.duplicateLabel name) s := by
  rw [placeName, get_bind, show s.gotos.placed.lookup name = some l from h]
  rfl

/-- A name is placed at the end of the code, and exactly the jumps noted for it are pointed
there. -/
structure Places (s : Session) (name : String) (l : Label) (d : Draft) : Prop where
  here : d.body.back? = some (.label l)
  size : s.draft.body.size ≤ d.body.size ∧ d.body.size ≤ s.draft.body.size + 1
  body : ∀ k i, s.draft.body[k]? = some i → d.body[k]? =
    some (if jumpAt k ∈ s.gotos.waiting name then .jump (some l) else i)

theorem place_new (env : Env) (sound : s.Sound) (h : s.label? name = none) :
    ∃ l d, s.Places name l d ∧
    placeName name env s = .ok l { s with draft := d, gotos := s.gotos.place name l } := by
  obtain ⟨l, d1, here, back, size, kept⟩ : ∃ l d1, Draft.hereLabel s.draft = .ok l d1 ∧
      d1.body.back? = some (.label l) ∧
      (s.draft.body.size ≤ d1.body.size ∧ d1.body.size ≤ s.draft.body.size + 1) ∧
      ∀ k i, s.draft.body[k]? = some i → d1.body[k]? = some i := by
    obtain ⟨l, back, here⟩ | ⟨-, here⟩ := Draft.hereLabel_cases s.draft
    · exact ⟨l, _, here, back, by omega, fun _ _ h => h⟩
    · refine ⟨_, _, here, by simp, by simp, fun k i hi => ?_⟩
      obtain ⟨hlt, -⟩ := Array.getElem?_eq_some_iff.1 hi
      rw [Array.getElem?_push_lt hlt, ← hi, Array.getElem?_eq_getElem hlt]
  have free1 : d1.Free (s.gotos.waiting name) := (sound.free name).mono fun k hk _ => kept k _ hk
  obtain ⟨d, patched, size', body⟩ := Draft.forM_patch_free l _ d1 free1
  have resolved : Draft.resolveTo (s.gotos.waiting name) l d1 = .ok ⟨⟩ d := by
    unfold Draft.resolveTo Draft.backpatch
    by_cases empty : s.gotos.waiting name = []
    · rw [empty] at patched ⊢
      exact patched
    · simpa [empty] using patched
  refine ⟨l, d, ⟨?_, by omega, fun k i hi => ?_⟩, ?_⟩
  · rw [Array.back?_eq_getElem?] at back ⊢
    rw [size', body, if_neg, back]
    intro hmem
    rw [free1.at hmem] at back
    cases back
  · rw [body]
    split
    · rfl
    · exact kept k i hi
  · rw [placeName, get_bind, show s.gotos.placed.lookup name = none from h, if_neg (by simp),
      run_bind (run_edit here), run_bind (run_edit resolved)]
    rfl

inductive Step (s : Session) : Move → Session → Prop where
  | again {name : String} {l : Label} : s.label? name = some l → Step s (.place name) s
  | place {name : String} {l : Label} {d : Draft} : s.label? name = none → s.Places name l d →
    Step s (.place name) { s with draft := d, gotos := s.gotos.place name l }
  | jump {name : String} {l : Label} : s.label? name = some l → Step s (.jump name)
    { s with draft := { s.draft with body := s.draft.body.push (.jump (some l)) } }
  | wait {name : String} : s.label? name = none → Step s (.jump name)
    { s with draft := { s.draft with body := s.draft.body.push (.jump none) },
             gotos := s.gotos.await name [jumpAt s.draft.body.size] }
  | append (more : Draft) : Step s (.append more) { s with draft := s.draft.extend more }

theorem take_step (env : Env) (sound : s.Sound) (m : Move) : s.Step m (s.take env m) := by
  cases m with
  | place name =>
    cases h : s.label? name with
    | some l =>
      rw [take, place_again h]
      exact .again h
    | none =>
      obtain ⟨l, d, places, run⟩ := place_new env sound h
      rw [take, run]
      exact .place h places
  | jump name =>
    rw [take, jumpToName, get_bind]
    cases h : s.gotos.placed.lookup name with
    | some l => exact .jump h
    | none => exact .wait h
  | append more => exact .append more

namespace Step
variable {t : Session} {m : Move}

/-- What stands at a place stays there, but for the jumps noted for a name that is placed. -/
theorem keeps (step : s.Step m t) (hi : s.draft.body[k]? = some i)
    (unnoted : ∀ name, m = .place name → jumpAt k ∉ s.gotos.waiting name) :
    t.draft.body[k]? = some i := by
  cases step with
  | again => exact hi
  | place _ places => rw [places.body k i hi, if_neg (unnoted _ rfl)]
  | jump | wait | append => simp only [Draft.extend]; grind

theorem label? (step : s.Step m t) (h : s.label? name = some l) : t.label? name = some l := by
  cases step <;> simp only [Session.label?, place_placed, await_placed, lookup_cons] at * <;> grind

theorem sound (step : s.Step m t) (sound : s.Sound) : t.Sound := by
  have frees : (∀ name, m ≠ .place name) → ∀ name, t.draft.Free (s.gotos.waiting name) :=
    fun other name => (sound.free name).mono fun k hk _ =>
      step.keeps hk fun n h => absurd h (other n)
  cases step with
  | again => exact sound
  | place _ places =>
    refine ⟨fun other => ?_, fun n n' hne b => ?_⟩
    · rw [waiting_place]
      split
      · exact ⟨.nil, by simp⟩
      · refine (sound.free other).mono fun k hk hmem => ?_
        rw [places.body k _ hk, if_neg (sound.apart _ _ ‹_› _ hmem)]
    · simp only [waiting_place]
      have := sound.apart n n' hne b
      grind
  | jump | append => exact ⟨frees nofun, sound.apart⟩
  | @wait name =>
    have fresh : ∀ other, jumpAt s.draft.body.size ∉ s.gotos.waiting other := by
      intro other hmem
      have := (sound.free other).at hmem
      simp at this
    refine ⟨fun other => ?_, fun n n' hne b => ?_⟩
    · rw [waiting_await]
      split
      · refine ⟨(sound.free name).nodup.append (by simp) (by simpa using fresh name),
          fun b hb => ?_⟩
        rcases mem_append.1 hb with hb | hb
        · exact (frees nofun name).stands b hb
        · exact ⟨_, mem_singleton.1 hb, by simp⟩
      · exact frees nofun other
    · simp only [waiting_await]
      have := sound.apart n n' hne b
      grind

end Step

/-- What each step keeps is kept by all calls. -/
theorem run_keeps {P : Session → Prop}
    (keeps : ∀ s t m, s.Sound → s.Step m t → P s → P t) (moves : List Move) (sound : s.Sound)
    (h : P s) : (run env s moves).Sound ∧ P (run env s moves) := by
  induction moves generalizing s with
  | nil => exact ⟨sound, h⟩
  | cons m moves ih =>
    have step := take_step env sound m
    exact ih (step.sound sound) (keeps _ _ m sound step h)

theorem of_sound (env : Env) (s : State) (moves : List Move) : (of env s moves).Sound := by
  have start : Sound { s with gotos := .empty } :=
    ⟨fun _ => ⟨.nil, by simp [empty, waiting]⟩, by simp [empty, waiting]⟩
  exact (run_keeps (P := fun _ => True) (fun _ _ _ _ _ h => h) moves start trivial).1

theorem of_cons (env : Env) (s : State) (earlier later : List Move) (m : Move) :
    of env s (earlier ++ m :: later) = run env ((of env s earlier).take env m) later := by
  simp [of, run]

/-- The jump at a place goes to a name: it has the label of the name, or is noted for it. -/
def Aims (s : Session) (name : String) (k : Nat) : Prop :=
  s.draft.body[k]? = some (.jump (s.label? name)) ∧
    (s.label? name = none → jumpAt k ∈ s.gotos.waiting name)

theorem Step.aims_new {t : Session} (step : s.Step (.jump name) t) :
    t.Aims name s.draft.body.size := by
  cases step with
  | jump h | wait h =>
    unfold Session.label? at h
    simp [Aims, Session.label?, h, waiting_await]

theorem Step.aims {t : Session} {m : Move} (sound : s.Sound) (step : s.Step m t)
    (aims : s.Aims name k) : t.Aims name k := by
  have kept := fun unnoted => step.keeps aims.1 unnoted
  obtain ⟨target, noted⟩ := aims
  cases step with
  | again => exact ⟨target, noted⟩
  | @place other l d h places =>
    by_cases same : name = other
    · subst same
      refine ⟨?_, by simp [Session.label?]⟩
      rw [places.body k _ target, if_pos (noted h)]
      simp [Session.label?]
    · have known : ((other, l) :: s.gotos.placed).lookup name = s.label? name := by
        simp only [Session.label?, lookup_cons]
        grind
      -- A jump noted for the other name has no target, so this one is not among them.
      have unnoted : jumpAt k ∉ s.gotos.waiting other := by
        intro hmem
        rw [(sound.free other).at hmem] at target
        have free : s.label? name = none := by simpa using target.symm
        exact sound.apart _ _ same _ (noted free) hmem
      rw [Aims, Session.label?, place_placed, known, waiting_place, if_neg same]
      exact ⟨kept fun n eq => by cases eq; exact unnoted, noted⟩
  | jump => exact ⟨kept nofun, noted⟩
  | append => exact ⟨kept nofun, noted⟩
  | @wait other =>
    refine ⟨kept nofun, fun free => ?_⟩
    have := noted free
    rw [waiting_await]
    grind

def Marks (s : Session) (name : String) (l : Label) (k : Nat) : Prop :=
  s.label? name = some l ∧ s.draft.body[k]? = some (.label l)

theorem Step.marks {t : Session} {m : Move} (sound : s.Sound) (step : s.Step m t)
    (marks : s.Marks name l k) : t.Marks name l k := by
  refine ⟨step.label? marks.1, step.keeps marks.2 fun other _ hmem => ?_⟩
  have := (sound.free other).at hmem
  simp [marks.2] at this

/-- The names with a label are those that were placed, and those with jumps noted for them were
jumped to and never placed. -/
theorem names_of (env : Env) (start : State) (moves : List Move) (name : String) :
    ((of env start moves).label? name ≠ none ↔ .place name ∈ moves) ∧
      (name ∈ (of env start moves).gotos.pending.map Prod.fst ↔
        .jump name ∈ moves ∧ .place name ∉ moves) := by
  induction moves using List.reverseRecOn generalizing name with
  | nil => simp [of, run, empty, label?]
  | append_singleton moves m ih =>
    have step := take_step env (of_sound env start moves) m
    rw [of_cons, run, foldl_nil]
    generalize (of env start moves).take env m = t at step
    have known := fun other => (ih other).1
    specialize ih name
    cases step <;>
      simp only [label?, place, await, withoutPending, lookup_cons, map_append, map_cons,
        map_nil, mem_append, mem_singleton, mem_map, mem_filter] at * <;>
      grind

/-- After any calls, in any order: each jump to a name has the label of that name, once the name
is placed; the label stands where the name was placed first, which never fails; a name placed
before is refused and nothing changes; and the end is refused exactly if some name was jumped to
and never placed. -/
theorem named_jumps_meet_labels (env : Env) (start : State) (moves : List Move) :
    (∀ earlier name later, moves = earlier ++ .jump name :: later →
      (of env start moves).draft.body[(of env start earlier).draft.body.size]? =
        some (.jump ((of env start moves).label? name))) ∧
    (∀ earlier name later, moves = earlier ++ .place name :: later → .place name ∉ earlier →
      ∃ l s, placeName name env (of env start earlier) = .ok l s ∧
        (of env start moves).label? name = some l ∧
        ∃ k, k + 1 = s.draft.body.size ∧ (of env start earlier).draft.body.size ≤ k + 1 ∧
          k ≤ (of env start earlier).draft.body.size ∧ (of env start moves).draft.body[k]? =
            some (.label l)) ∧
    (∀ earlier name later, moves = earlier ++ .place name :: later → .place name ∈ earlier →
      placeName name env (of env start earlier) =
        .error (.duplicateLabel name) (of env start earlier)) ∧
    ((∀ name, .jump name ∈ moves → .place name ∈ moves) ∧
      (of env start moves).gotos.finish = .ok ⟨⟩ ∨
      ∃ name, .jump name ∈ moves ∧ .place name ∉ moves ∧
        (of env start moves).gotos.finish = .error (.unknownLabel name)) := by
  refine ⟨?_, ?_, ?_, ?_⟩
  · rintro earlier name later rfl
    have sound := of_sound env start earlier
    have step := take_step env sound (.jump name)
    rw [of_cons]
    exact (run_keeps (fun _ _ _ sound step => step.aims sound) later (step.sound sound)
      step.aims_new).2.1
  · rintro earlier name later rfl new
    have sound := of_sound env start earlier
    have unknown : (of env start earlier).label? name = none := by
      simpa using mt (names_of env start earlier name).1.1 new
    obtain ⟨l, d', places, placed⟩ := place_new env sound unknown
    have here := Array.back?_eq_getElem? ▸ places.here
    obtain ⟨hpos, -⟩ := Array.getElem?_eq_some_iff.1 here
    have size := places.size
    have marks : ((of env start earlier).take env (.place name)).Marks name l
        (d'.body.size - 1) := by
      rw [take, placed]
      exact ⟨by simp [label?, stateOf, place], here⟩
    rw [of_cons]
    obtain ⟨known, stands⟩ := (run_keeps (fun _ _ _ sound step => step.marks sound) later
      ((take_step env sound _).sound sound) marks).2
    exact ⟨l, _, placed, known, d'.body.size - 1, Nat.sub_add_cancel (by omega), by omega, by omega,
      stands⟩
  · rintro earlier name later rfl old
    obtain ⟨l, hl⟩ := Option.ne_none_iff_exists'.1 ((names_of env start earlier name).1.2 old)
    exact place_again hl
  · have noted := fun name => (names_of env start moves name).2
    unfold finish
    cases hp : (of env start moves).gotos.pending with
    | nil =>
      refine .inl ⟨fun name jumped => ?_, rfl⟩
      by_contra unplaced
      simpa [hp] using (noted name).2 ⟨jumped, unplaced⟩
    | cons p rest =>
      obtain ⟨jumped, unplaced⟩ := (noted p.1).1 (by simp [hp])
      exact .inr ⟨p.1, jumped, unplaced, rfl⟩

end Session
end Gotos
end FlatCode
