import Mathlib.Data.List.Count
import Mathlib.Data.List.Nodup
import FlatCode.Proofs.Control.Switch

/-! How the map of a switch is made. Cases and defaults are entered one after another, and each
is refused if its mark has been entered before. So the map can be made exactly if no mark comes
twice, the first mark that does is the one reported, and a map that has been made lists the
cases as the source does. -/
namespace FlatCode
open Ast List

/-- The failure at a mark that comes twice: the key of a case, or nothing for a default. -/
def Error.repeated : Option String → Error
  | some key => .duplicateCaseKey key
  | none => .duplicateDefault

namespace CaseMap

inductive Entry where
  | case (target : CaseTarget)
  | default (target : CaseTarget)

def Entry.mark : Entry → Option String
  | case target => some target.value.key
  | default _ => none

def Entry.case? : Entry → Option CaseTarget
  | case target => some target
  | default _ => none

def enter : Entry → Edit Unit
  | .case target => insert target
  | .default target => setDefault target

/-- The map with one entry more, whether or not its mark is new. -/
def add (m : CaseMap) : Entry → CaseMap
  | .case target => m.append target
  | .default target => { m with default := some target }

def marks (m : CaseMap) : List (Option String) :=
  m.cases.map (fun c => some c.value.key) ++ m.default.toList.map fun _ => none

section Enter
variable (m : CaseMap)

theorem mem_marks_add (e : Entry) (mark : Option String) :
    mark ∈ (m.add e).marks ↔ mark ∈ m.marks ∨ mark = e.mark := by
  cases e with
  | case target =>
    simp only [marks, add, append, Entry.mark, map_append, mem_append, map_cons,
      map_nil, mem_singleton, or_right_comm]
  | default target =>
    cases h : m.default <;> simp [marks, add, Entry.mark, h]

theorem find?_eq_none_iff (key : String) : m.find? key = none ↔ some key ∉ m.marks := by
  rw [find?_eq, find?_eq_none]
  simp [marks]

/-- An entry is refused exactly if its mark is there, and it is the one reported. -/
theorem enter_eq (e : Entry) :
    enter e m = if e.mark ∈ m.marks then .error (.repeated e.mark) m else .ok () (m.add e) := by
  cases e with
  | case target =>
    rw [enter, insert_eq, Entry.mark]
    cases h : m.find? target.value.key with
    | none => rw [if_neg ((find?_eq_none_iff m _).1 h)]; rfl
    | some c =>
      have seen : some target.value.key ∈ m.marks := by
        apply Decidable.byContradiction
        intro fresh
        rw [(find?_eq_none_iff m _).2 fresh] at h
        cases h
      rw [if_pos seen]
      rfl
  | default target =>
    rw [enter, setDefault, Entry.mark]
    cases h : m.default with
    | none => simp [marks, h, add]
    | some t => simp [marks, h, Error.repeated]

end Enter

section Run

def RefusedAt (m : CaseMap) (es : List Entry) (error : Error) : Prop :=
  ∃ before e after, es = before ++ e :: after ∧ (before.map Entry.mark).Nodup ∧
    (∀ x ∈ before, x.mark ∉ m.marks) ∧ (e.mark ∈ m.marks ∨ e.mark ∈ before.map Entry.mark) ∧
      error = .repeated e.mark

theorem forM_enter : ∀ (es : List Entry) (m : CaseMap),
    Ends (m.RefusedAt es) (fun _ m' => (es.map Entry.mark).Nodup ∧ (∀ x ∈ es, x.mark ∉ m.marks) ∧
      m' = es.foldl add m) (es.forM enter m)
  | [], m => ⟨nodup_nil, by simp, rfl⟩
  | e :: es, m => by
    have entered := enter_eq m e
    by_cases seen : e.mark ∈ m.marks
    · rw [if_pos seen] at entered
      have run : (e :: es).forM enter m = .error (.repeated e.mark) m := bind_of_error entered
      rw [run]
      exact ⟨[], e, es, rfl, nodup_nil, by simp, .inl seen, rfl⟩
    rw [if_neg seen] at entered
    have run : (e :: es).forM enter m = es.forM enter (m.add e) := bind_of_ok entered
    rw [run]
    -- what is new behind this entry is new in front of it, and not this entry once more
    have before_add : ∀ x : Entry, x.mark ∉ (m.add e).marks →
        x.mark ∉ m.marks ∧ x.mark ≠ e.mark := by
      intro x fresh
      rw [mem_marks_add] at fresh
      exact not_or.1 fresh
    have rest := forM_enter es (m.add e)
    cases h : es.forM enter (m.add e) with
    | ok _ m' =>
      rw [h] at rest
      obtain ⟨nodup, fresh, rfl⟩ := rest
      refine ⟨nodup_cons.2 ⟨fun again => ?_, nodup⟩, fun x hx => ?_, rfl⟩
      · obtain ⟨x, hx, same⟩ := mem_map.1 again
        exact (before_add x (fresh x hx)).2 same
      · rcases mem_cons.1 hx with rfl | hx
        · exact seen
        · exact (before_add x (fresh x hx)).1
    | error error m' =>
      rw [h] at rest
      obtain ⟨before, x, after, rfl, nodup, fresh, again, rfl⟩ := rest
      refine ⟨e :: before, x, after, rfl, nodup_cons.2 ⟨fun twice => ?_, nodup⟩,
        fun y hy => ?_, ?_, rfl⟩
      · obtain ⟨y, hy, same⟩ := mem_map.1 twice
        exact (before_add y (fresh y hy)).2 same
      · rcases mem_cons.1 hy with rfl | hy
        · exact seen
        · exact (before_add y (fresh y hy)).1
      · rw [mem_marks_add, or_assoc] at again
        rwa [map_cons, mem_cons]

end Run

section Clauses

def spelled (clauses : List Clause) : List (Option String) :=
  clauses.flatMap fun c => if c.isDefault then [none] else c.values.map fun v => some v.key

def Distinct (clauses : List Clause) : Prop :=
  ((clauses.flatMap Clause.values).map Literal.key).Nodup ∧ clauses.countP Clause.isDefault ≤ 1

theorem count_spelled_none (clauses : List Clause) :
    (spelled clauses).count none = clauses.countP Clause.isDefault := by
  induction clauses with
  | nil => rfl
  | cons c clauses ih =>
    rw [spelled] at ih ⊢
    rw [flatMap_cons, count_append, ih, countP_cons]
    by_cases hc : c.isDefault
    · simp [hc, Nat.add_comm]
    · simp [hc, count_eq_zero]

theorem count_spelled_some (key : String) (clauses : List Clause) :
    (spelled clauses).count (some key) =
      ((clauses.flatMap Clause.values).map Literal.key).count key := by
  induction clauses with
  | nil => rfl
  | cons c clauses ih =>
    rw [spelled] at ih ⊢
    rw [flatMap_cons, count_append, ih, flatMap_cons, map_append,
      count_append]
    congr 1
    by_cases hc : c.isDefault
    · have none_here : c.values = [] := by
        unfold Clause.isDefault at hc
        unfold Clause.values
        rw [of_decide_eq_true hc]
      simp [hc, none_here]
    · rw [if_neg hc, ← count_map_of_injective (c.values.map Literal.key) some
        (fun _ _ => Option.some.inj), map_map]
      rfl

theorem nodup_spelled (clauses : List Clause) : (spelled clauses).Nodup ↔ Distinct clauses := by
  rw [Distinct, nodup_iff_count_le_one, nodup_iff_count_le_one]
  constructor
  · intro once
    constructor
    · intro key
      rw [← count_spelled_some]
      exact once (some key)
    · rw [← count_spelled_none]
      exact once none
  · rintro ⟨keys, default⟩ (_ | key)
    · rwa [count_spelled_none]
    · rw [count_spelled_some]
      exact keys key

def clauseEntries (l : Label) (i : Nat) (c : Clause) : List Entry :=
  match c.kind with
  | .case values => values.map fun value => .case ⟨l, i, value⟩
  | .default => [.default ⟨l, i, .null⟩]

def sourceEntries : Nat → Nat → List Clause → List Entry
  | _, _, [] => []
  | first, i, c :: clauses =>
    clauseEntries ⟨first⟩ i c ++ sourceEntries (first + 1) (i + 1) clauses

theorem sourceEntries_marks : ∀ (first i : Nat) (clauses : List Clause),
    (sourceEntries first i clauses).map Entry.mark = spelled clauses
  | _, _, [] => rfl
  | first, i, .mk kind body :: clauses => by
    rw [sourceEntries, map_append, sourceEntries_marks, spelled, spelled, flatMap_cons]
    congr 1
    cases kind with
    | case values => simp [clauseEntries, Clause.kind, Clause.isDefault, Clause.values, Entry.mark]
    | default => simp [clauseEntries, Clause.kind, Clause.isDefault, Entry.mark]

theorem addClause_eq (i : Nat) (l : Label) (c : Clause) :
    addClause i l c.kind = (clauseEntries l i c).forM enter := by
  unfold addClause clauseEntries
  cases c.kind with
  | case values => simp [forM_eq_forM, enter]
  | default => simp [forM_eq_forM, enter]

theorem buildFrom_cons (m : CaseMap) (i : Nat) (c : Clause) (clauses : List Clause) (d : Draft) :
    m.buildFrom i (c :: clauses) d =
      match addClause i ⟨d.labels⟩ c.kind m with
      | .error e _ => .error e { d with labels := d.labels + 1 }
      | .ok _ m1 =>
        match m1.buildFrom (i + 1) clauses { d with labels := d.labels + 1 } with
        | .ok (m2, labels) d' => .ok (m2, ⟨d.labels⟩ :: labels) d'
        | .error e d' => .error e d' := by
  obtain ⟨kind, body⟩ := c
  have labeled : Draft.newLabel d = .ok ⟨d.labels⟩ { d with labels := d.labels + 1 } := rfl
  rw [buildFrom, bind_of_ok labeled]
  dsimp only [Clause.kind]
  cases addClause i ⟨d.labels⟩ kind m with
  | error e m1 => rfl
  | ok _ m1 =>
    dsimp only
    cases rest : m1.buildFrom (i + 1) clauses { d with labels := d.labels + 1 } with
    | ok found d' => exact bind_of_ok rest
    | error e d' => exact bind_of_error rest

/-- Making a map is entering what the clauses enter. Of the draft, only the count of labels
changes. -/
theorem buildFrom_run : ∀ (clauses : List Clause) (m : CaseMap) (i : Nat) (d : Draft),
    match (sourceEntries d.labels i clauses).forM enter m with
    | .ok _ m' => m.buildFrom i clauses d =
        .ok (m', (List.range' d.labels clauses.length).map Label.mk)
          { d with labels := d.labels + clauses.length }
    | .error e _ => ∃ n ≤ clauses.length,
        m.buildFrom i clauses d = .error e { d with labels := d.labels + n }
  | [], _, _, _ => rfl
  | c :: clauses, m, i, d => by
    rw [sourceEntries, forM_eq_forM, forM_append, ← forM_eq_forM, ← addClause_eq, buildFrom_cons]
    cases added : addClause i ⟨d.labels⟩ c.kind m with
    | error e m1 =>
      rw [bind_of_error added]
      exact ⟨1, by simp, rfl⟩
    | ok _ m1 =>
      have rest := buildFrom_run clauses m1 (i + 1) { d with labels := d.labels + 1 }
      rw [bind_of_ok added]
      dsimp only at rest ⊢
      cases h : (sourceEntries (d.labels + 1) (i + 1) clauses).forM enter m1 with
      | ok _ m2 =>
        rw [h] at rest
        dsimp only at rest ⊢
        rw [rest, length_cons, range'_succ, Nat.add_assoc, Nat.add_comm 1]
        rfl
      | error e m2 =>
        rw [h] at rest
        obtain ⟨n, bound, run⟩ := rest
        refine ⟨n + 1, by simpa using bound, ?_⟩
        rw [run, Nat.add_assoc, Nat.add_comm 1]

end Clauses

section Later

/-- The map behind a call, also one that is refused. -/
def call (m : CaseMap) (e : Entry) : CaseMap := stateOf (enter e m)

/-- Of some calls, those with a mark that is new when they come. -/
def accepted (seen : List (Option String)) : List Entry → List Entry
  | [] => []
  | e :: es => if e.mark ∈ seen then accepted seen es else e :: accepted (e.mark :: seen) es

theorem accepted_congr {seen seen' : List (Option String)} (same : ∀ x, x ∈ seen ↔ x ∈ seen')
    (es : List Entry) : accepted seen es = accepted seen' es := by
  induction es generalizing seen seen' with
  | nil => rfl
  | cons e es ih =>
    have push : ∀ x, x ∈ e.mark :: seen ↔ x ∈ e.mark :: seen' := by
      intro x
      rw [mem_cons, mem_cons, same]
    simp only [accepted, same, ih same, ih push]

theorem accepted_eq_nil {seen : List (Option String)} : ∀ {es : List Entry},
    (∀ e ∈ es, e.mark ∈ seen) → accepted seen es = []
  | [], _ => rfl
  | e :: es, old => by
    rw [accepted, if_pos (old e mem_cons_self)]
    exact accepted_eq_nil fun x hx => old x (mem_cons_of_mem _ hx)

/-- Calls add what they bring first, in their order, and nothing else. -/
theorem foldl_call (es : List Entry) (m : CaseMap) :
    es.foldl call m = (accepted m.marks es).foldl add m := by
  induction es generalizing m with
  | nil => rfl
  | cons e es ih =>
    rw [foldl_cons, call, enter_eq, accepted]
    by_cases seen : e.mark ∈ m.marks
    · rw [if_pos seen, if_pos seen]
      exact ih m
    · rw [if_neg seen, if_neg seen, foldl_cons]
      rw [stateOf, ih, accepted_congr]
      intro x
      rw [mem_marks_add, mem_cons, or_comm]

theorem foldl_add_cases (es : List Entry) (m : CaseMap) :
    (es.foldl add m).cases = m.cases ++ es.filterMap Entry.case? := by
  induction es generalizing m with
  | nil => simp
  | cons e es ih =>
    rw [foldl_cons, ih]
    cases e with
    | case target => simp [add, append, Entry.case?]
    | default target => simp [add, Entry.case?, filterMap_cons]

end Later

structure Built (clauses : List Clause) (d : Draft) (m : CaseMap) (labels : List Label)
    (d' : Draft) : Prop where
  /-- A label has been made for each clause, and nothing else. -/
  draft : d' = { d with labels := d.labels + clauses.length }
  fresh : labels = (List.range' d.labels clauses.length).map Label.mk
  cases : m.cases = entries 0 clauses labels
  get : ∀ v c, m.get v = .ok c ↔ c ∈ m.cases ∧ c.value.key = v.key
  unique : ∀ c ∈ m.cases, ∀ c' ∈ m.cases, c.value.key = c'.value.key → c = c'
  missing : ∀ v e, m.get v = .error e ↔
    e = .unknownCaseKey v.key ∧ ∀ c ∈ m.cases, c.value.key ≠ v.key
  default : m.default = (clauses.findIdx? Clause.isDefault).map fun i => ⟨⟨d.labels + i⟩, i, .null⟩
  /-- Later calls fail exactly at a mark that is there. Those that do leave no trace, and the
  others add their cases at the end. -/
  later : ∀ calls : List Entry,
    (∀ e error m', enter e (calls.foldl call m) = .error error m' ↔
      e.mark ∈ (calls.foldl call m).marks ∧ error = .repeated e.mark ∧ m' = calls.foldl call m) ∧
    (calls.foldl call m).cases = m.cases ++ (accepted m.marks calls).filterMap Entry.case? ∧
    ((∀ e ∈ calls, e.mark ∈ m.marks) → calls.foldl call m = m)

section Answers
variable {m : CaseMap}

theorem enter_eq_error (m : CaseMap) (e : Entry) (error : Error) (m' : CaseMap) :
    enter e m = .error error m' ↔ e.mark ∈ m.marks ∧ error = .repeated e.mark ∧ m' = m := by
  rw [enter_eq]
  split <;> simp_all [eq_comm]

theorem eq_of_key (nodup : (m.cases.map fun c => c.value.key).Nodup) :
    ∀ c ∈ m.cases, ∀ c' ∈ m.cases, c.value.key = c'.value.key → c = c' :=
  inj_on_of_nodup_map nodup

theorem get_eq_ok (nodup : (m.cases.map fun c => c.value.key).Nodup) (v : Literal)
    (c : CaseTarget) : m.get v = .ok c ↔ c ∈ m.cases ∧ c.value.key = v.key := by
  rw [get, find?_eq]
  cases h : m.cases.find? fun c => c.value.key = v.key with
  | none =>
    rw [find?_eq_none] at h
    simp only [reduceCtorEq, false_iff]
    rintro ⟨mem, key⟩
    exact h c mem (decide_eq_true key)
  | some c1 =>
    have mem1 := mem_of_find?_eq_some h
    have key1 : c1.value.key = v.key := by simpa using find?_some h
    constructor
    · intro same
      cases same
      exact ⟨mem1, key1⟩
    · rintro ⟨mem, key⟩
      rw [eq_of_key nodup c mem c1 mem1 (key.trans key1.symm)]

theorem get_eq_error (m : CaseMap) (v : Literal) (e : Error) : m.get v = .error e ↔
    e = .unknownCaseKey v.key ∧ ∀ c ∈ m.cases, c.value.key ≠ v.key := by
  rw [get, find?_eq]
  cases h : m.cases.find? fun c => c.value.key = v.key with
  | none =>
    rw [find?_eq_none] at h
    simp_all [eq_comm]
  | some c =>
    simp only [reduceCtorEq, false_iff]
    rintro ⟨-, other⟩
    exact other c (mem_of_find?_eq_some h) (by simpa using find?_some h)

end Answers

theorem entries_values : ∀ (i : Nat) (clauses : List Clause) (labels : List Label),
    labels.length = clauses.length →
      (entries i clauses labels).map CaseTarget.value = clauses.flatMap Clause.values
  | _, [], _, _ => by simp [entries]
  | _, _ :: _, [], h => by simp at h
  | i, c :: clauses, l :: labels, h => by
    rw [entries, map_append, entries_values (i + 1) clauses labels (by simpa using h),
      map_map, flatMap_cons]
    congr 1
    exact map_id _

theorem distinct_of_build {clauses : List Clause} {d d' : Draft} {m : CaseMap} {labels : List Label}
    (run : build clauses d = .ok (m, labels) d') : Distinct clauses := by
  have ran := buildFrom_run clauses empty 0 d
  have entered := forM_enter (sourceEntries d.labels 0 clauses) empty
  cases h : (sourceEntries d.labels 0 clauses).forM enter empty with
  | ok _ m =>
    rw [h] at entered
    rw [← nodup_spelled, ← sourceEntries_marks d.labels 0 clauses]
    exact entered.1
  | error e m =>
    rw [h] at ran
    obtain ⟨n, -, failed⟩ := ran
    cases run.symm.trans failed

theorem build_built {clauses : List Clause} {d d' : Draft} {m : CaseMap} {labels : List Label}
    (run : build clauses d = .ok (m, labels) d')
    (labels_eq : labels = (List.range' d.labels clauses.length).map Label.mk)
    (draft_eq : d' = { d with labels := d.labels + clauses.length }) :
    Built clauses d m labels d' := by
  obtain ⟨-, length_eq, cases_eq, default_eq⟩ := (buildFrom_entries clauses empty 0 d).of_ok run
  dsimp only at length_eq cases_eq default_eq
  have listed : m.cases = entries 0 clauses labels := cases_eq
  have nodup : (m.cases.map fun c => c.value.key).Nodup := by
    have keys : m.cases.map (fun c => c.value.key) =
        (m.cases.map CaseTarget.value).map Literal.key := by
      rw [map_map]
      rfl
    rw [keys, listed, entries_values 0 clauses labels length_eq]
    exact (distinct_of_build run).1
  refine ⟨draft_eq, labels_eq, listed, get_eq_ok nodup, eq_of_key nodup, get_eq_error m, ?_, ?_⟩
  · rw [default_eq, defaultEntry_eq 0 clauses labels length_eq, labels_eq]
    cases h : clauses.findIdx? Clause.isDefault with
    | none => rfl
    | some i =>
      have bound : i < clauses.length := (findIdx?_eq_some_iff_getElem.1 h).1
      simp [empty, bound]
  · intro calls
    refine ⟨enter_eq_error _, ?_, fun old => ?_⟩
    · rw [foldl_call, foldl_add_cases]
    · rw [foldl_call, accepted_eq_nil old]
      rfl

/-- The map of a switch can be made exactly if its clauses are distinct. Else the first key or
default is reported that has come before, and no code has been written. -/
theorem build_tells_apart (clauses : List Clause) (d : Draft) :
    ((∃ m labels d', build clauses d = .ok (m, labels) d') ↔ Distinct clauses) ∧
    (∀ m labels d', build clauses d = .ok (m, labels) d' → Built clauses d m labels d') ∧
    (∀ e d', build clauses d = .error e d' →
      (∃ n ≤ clauses.length, d' = { d with labels := d.labels + n }) ∧
      ∃ before mark after, spelled clauses = before ++ mark :: after ∧ before.Nodup ∧
        mark ∈ before ∧ e = .repeated mark) := by
  have run := buildFrom_run clauses empty 0 d
  have entered := forM_enter (sourceEntries d.labels 0 clauses) empty
  have marks_eq := sourceEntries_marks d.labels 0 clauses
  cases h : (sourceEntries d.labels 0 clauses).forM enter empty with
  | ok _ m =>
    rw [h] at run
    dsimp only at run
    change build clauses d = _ at run
    refine ⟨⟨fun _ => distinct_of_build run, fun _ => ⟨m, _, _, run⟩⟩, fun m' labels d' ok => ?_,
      fun e d' error => ?_⟩
    · have parts := run.symm.trans ok
      cases parts
      exact build_built ok rfl rfl
    · rw [run] at error
      cases error
  | error e m =>
    rw [h] at run entered
    obtain ⟨n, bound, run⟩ := run
    change build clauses d = _ at run
    obtain ⟨before, x, after, eq, nodup, -, again, rfl⟩ := entered
    have again : x.mark ∈ before.map Entry.mark := again.resolve_left (by simp [marks, empty])
    have spelled_eq : spelled clauses =
        before.map Entry.mark ++ x.mark :: after.map Entry.mark := by
      rw [← marks_eq, eq, map_append, map_cons]
    refine ⟨⟨?_, fun distinct => ?_⟩, fun m' labels d' ok => ?_, fun e d' error => ?_⟩
    · rintro ⟨_, _, _, ok⟩
      exact distinct_of_build ok
    · rw [← nodup_spelled, spelled_eq, nodup_append] at distinct
      exact absurd rfl (distinct.2.2 x.mark again x.mark mem_cons_self)
    · rw [run] at ok
      cases ok
    · rw [run] at error
      cases error
      exact ⟨⟨n, bound, rfl⟩, _, _, _, spelled_eq, nodup, again, rfl⟩

end CaseMap
end FlatCode
