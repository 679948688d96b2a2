import FlatCode.Proofs.Incoming
import FlatCode.Proofs.Layout
import FlatCode.Proofs.Remarks.Function

/-! Tracing adds calls and nothing else. A function that traces is the function that does not, with
a call behind the stores of its parameters, and a call in front of each return. Control makes the
first call once before it comes to a statement, and one of the others right before it returns. -/
namespace FlatCode
open Code Symbols Ast List
variable {i j : Instr} {k : Nat}

def Code.CallsAt (code : Array Instr) (name : String) (k : Nat) : Prop :=
  ∃ arguments dest, code[k]? = some (.call (.direct name) arguments dest)

namespace Code.Instr

theorem Match.eq {x : Extra} (h : i.Match x Eq j) : i = j := by
  have target {t t' : Option Label} (h : Option.Rel Eq t t') : t = t' := by
    cases h with
    | none => rfl
    | some h => rw [h]
  cases h with
  | branch c positive negative => rw [target positive, target negative]
  | jump t => rw [target t]
  | @switch _ cases cases' _ _ choices default =>
    have same : cases = cases' := by
      refine forall₂_eq_eq_eq ▸ choices.imp fun c c' h => ?_
      exact Prod.ext h.1 h.2
    rw [same, default]
  | _ => rfl

theorem not_trace_of_straight (h : i.isStraight) : i.isTrace = false := by
  cases i <;> first | rfl | cases h

theorem Match.not_trace {R : Label → Label → Prop} (h : i.Match .traces R j) :
    i.isTrace = false := by
  cases h with
  | straight h => exact not_trace_of_straight h
  | call apart _ _ => exact apart rfl
  | _ => rfl

theorem isTrace_iff : i.isTrace = true ↔
    ∃ name arguments dest, i = .call (.direct name) arguments dest ∧
      (name = traceEnter ∨ name = traceLeave) := by
  constructor
  · intro h
    cases i with
    | call callee arguments dest =>
      cases callee with
      | direct name =>
        exact ⟨name, arguments, dest, rfl, by simpa [isTrace, Callee.isTrace] using h⟩
      | indirect r => cases h
    | _ => cases h
  · rintro ⟨name, arguments, dest, rfl, h⟩
    simpa [isTrace, Callee.isTrace] using h

theorem isTrace_trace {name : String} (h : name = traceEnter ∨ name = traceLeave)
    (caller : String) : (trace name caller).isTrace = true :=
  isTrace_iff.2 ⟨name, _, _, rfl, h⟩

end Code.Instr

namespace Weave
variable {R : Label → Label → Prop} {S : List (InstrId × InstrId)} {a b : Array Instr}

theorem erased (h : Weave .traces Eq S a b) :
    a.toList.filter (fun i => !i.isTrace) = b.toList := by
  induction h with
  | empty => rfl
  | both _ same ih =>
    rw [Array.toList_push, Array.toList_push, filter_append, ih, same.eq.symm]
    simp [same.not_trace]
  | label _ tied ih =>
    rw [Array.toList_push, Array.toList_push, filter_append, ih, tied]
    rfl
  | remark comments | again comments => cases comments
  | comment _ _ text ih =>
    rw [Array.toList_push, Array.toList_push, filter_append, ih]
    rfl
  | entered _ _ _ _ caller ih =>
    rw [Array.toList_push, filter_append, ih]
    simp [Instr.isTrace_trace (.inl rfl)]
  | returned _ _ caller value ih =>
    rw [Array.toList_push, Array.toList_push, Array.toList_push, filter_append,
      filter_append, ih]
    simp [Instr.isTrace_trace (.inr rfl), show (Instr.ret value).isTrace = false from rfl]

theorem at_push (h : (a.push i)[k]? = some j) : a[k]? = some j ∨ k = a.size ∧ i = j := by
  rw [Array.getElem?_push] at h
  split at h
  · exact .inr ⟨‹_›, Option.some.inj h⟩
  · exact .inl h

theorem push_at (h : a[k]? = some j) (i : Instr) : (a.push i)[k]? = some j := by
  rw [Array.getElem?_push, if_neg (Nat.ne_of_lt (Array.getElem?_eq_some_iff.1 h).1), h]

end Weave

inductive Told (code : Array Instr) (k : Nat) : Instr → Prop
  | plain {i : Instr} (quiet : i.isTrace = false) (stays : ∀ value, i ≠ .ret value) : Told code k i
  /-- The function is entered, and up to here control has run straight on. -/
  | enter (caller : String) (straight : ∀ j < k, ∃ i, code[j]? = some i ∧ i.isStraight) :
    Told code k (.trace traceEnter caller)
  /-- The function is left, as the next instruction does. -/
  | leave (caller : String) {value : Option Operand} (next : code[k + 1]? = some (.ret value)) :
    Told code k (.trace traceLeave caller)
  | ret (value : Option Operand) {q : Nat} {caller : String} (place : k = q + 1)
    (before : code[q]? = some (.trace traceLeave caller)) : Told code k (.ret value)

namespace Told
variable {R : Label → Label → Prop} {S : List (InstrId × InstrId)} {a b : Array Instr} {k : Nat}
  {i : Instr}

theorem of_straight (h : i.isStraight) : Told a k i := by
  refine .plain (Instr.not_trace_of_straight h) fun value => ?_
  rintro rfl
  cases h

theorem push (h : Told a k i) (j : Instr) : Told (a.push j) k i := by
  cases h with
  | plain quiet stays => exact .plain quiet stays
  | enter caller straight =>
    refine .enter caller fun k' lt => ?_
    obtain ⟨i, hi, h⟩ := straight k' lt
    exact ⟨i, Weave.push_at hi j, h⟩
  | leave caller next => exact .leave caller (Weave.push_at next j)
  | ret value place before => exact .ret value place (Weave.push_at before j)

theorem behind {entry : Array Instr} (h : Told a k i) (flat : ∀ i ∈ entry, i.isStraight) :
    Told (entry ++ a) (entry.size + k) i := by
  have there {k : Nat} {i : Instr} (hi : a[k]? = some i) :
      (entry ++ a)[entry.size + k]? = some i := by
    rw [Array.getElem?_append_right (by omega), Nat.add_sub_cancel_left, hi]
  cases h with
  | plain quiet stays => exact .plain quiet stays
  | enter caller straight =>
    refine .enter caller fun j lt => ?_
    by_cases inside : j < entry.size
    · refine ⟨entry[j], ?_, flat _ (Array.getElem_mem inside)⟩
      rw [Array.getElem?_append_left inside, Array.getElem?_eq_getElem inside]
    · obtain ⟨j, rfl⟩ := Nat.exists_eq_add_of_le (Nat.le_of_not_lt inside)
      obtain ⟨i, hi, h⟩ := straight j (by omega)
      exact ⟨i, there hi, h⟩
  | leave caller next => exact .leave caller (there next)
  | ret value place before =>
    subst place
    exact .ret value rfl (there before)

end Told

namespace Weave
variable {R : Label → Label → Prop} {S : List (InstrId × InstrId)} {a b : Array Instr}

theorem told (h : Weave .traces R S a b) (hk : a[k]? = some i) : Told a k i := by
  induction h with
  | empty => simp at hk
  | both _ same ih =>
    rcases at_push hk with there | ⟨-, rfl⟩
    · exact (ih there).push _
    · refine .plain same.not_trace fun value => ?_
      rintro rfl
      cases same with
      | straight h => cases h
      | ret comments => cases comments
  | label _ _ ih | comment _ _ _ ih =>
    rcases at_push hk with there | ⟨-, rfl⟩
    · exact (ih there).push _
    · exact .plain rfl nofun
  | remark comments | again comments => cases comments
  | @entered _ a _ _ _ flat _ caller ih =>
    rcases at_push hk with there | ⟨rfl, rfl⟩
    · exact (ih there).push _
    · refine .enter caller fun j lt => ⟨a[j], ?_, flat _ (Array.getElem_mem lt)⟩
      exact push_at (Array.getElem?_eq_getElem lt) _
  | @returned _ a _ _ _ caller value ih =>
    have call : ((a.push (.trace traceLeave caller)).push (.ret value))[a.size]? =
        some (.trace traceLeave caller) := push_at Array.getElem?_push_size _
    have ret : ((a.push (.trace traceLeave caller)).push (.ret value))[a.size + 1]? =
        some (.ret value) := by
      rw [show a.size + 1 = (a.push (.trace traceLeave caller)).size from (Array.size_push _).symm]
      exact Array.getElem?_push_size
    rcases at_push hk with there | ⟨rfl, rfl⟩
    · rcases at_push there with there | ⟨rfl, rfl⟩
      · exact ((ih there).push _).push _
      · exact .leave caller ret
    · exact .ret value (Array.size_push _) call

theorem told_behind (h : Weave .traces R S a b) {entry : Array Instr}
    (flat : ∀ i ∈ entry, i.isStraight) (hk : (entry ++ a)[k]? = some i) :
    Told (entry ++ a) k i := by
  by_cases inside : k < entry.size
  · rw [Array.getElem?_append_left inside] at hk
    exact .of_straight (flat i (Array.mem_of_getElem? hk))
  · obtain ⟨k, rfl⟩ := Nat.exists_eq_add_of_le (Nat.le_of_not_lt inside)
    rw [Array.getElem?_append_right (by omega), Nat.add_sub_cancel_left] at hk
    exact (h.told hk).behind flat

end Weave

theorem Code.Instr.trace_ne (caller caller' : String) :
    trace traceEnter caller ≠ trace traceLeave caller' := by
  simp [trace, traceEnter, traceLeave]

def Code.Instr.Passes (i : Instr) : Prop := i.choices = [] ∧ ∀ e, i.target? e = none

namespace Code.Instr.Passes

theorem straight (h : i.isStraight) : i.Passes := by
  cases i with
  | branch | jump | switch => cases h
  | _ => exact ⟨rfl, fun e => by cases e <;> rfl⟩

theorem call (callee : Callee) (arguments : List Operand) (dest : Option Register) :
    (Instr.call callee arguments dest).Passes :=
  ⟨rfl, fun e => by cases e <;> rfl⟩

theorem ret (value : Option Operand) : (Instr.ret value).Passes :=
  ⟨rfl, fun e => by cases e <;> rfl⟩

theorem next {c : Code.Function} {j : Nat} {way : Way} (h : i.Passes) (hi : c.instrs[k]? = some i)
    (moves : c.Moves k way j) : i.goesOn ∧ j = k + 1 := by
  cases way with
  | on =>
    obtain ⟨i', hi', on, rfl⟩ := moves
    rw [hi, Option.some.injEq] at hi'
    subst hi'
    exact ⟨on, rfl⟩
  | edge e =>
    obtain ⟨i', l, hi', target, -⟩ := moves
    rw [hi, Option.some.injEq] at hi'
    subst hi'
    rw [h.2 e] at target
    cases target
  | choice l =>
    obtain ⟨i', hi', chosen, -⟩ := moves
    rw [hi, Option.some.injEq] at hi'
    subst hi'
    rw [h.1] at chosen
    cases chosen

end Code.Instr.Passes

structure Code.Function.Tells (c : Code.Function) (p : Nat) : Prop where
  told : ∀ (k : Nat) (i : Instr), c.instrs[k]? = some i → Told c.instrs k i
  enters : ∃ caller, c.instrs[p]? = some (.trace traceEnter caller)
  labels : ∀ (l : Label) (j : Nat), c.labels[l.index]? = some ⟨j⟩ → c.instrs[j]? = some (.label l)

namespace Code.Function.Tells
variable {c : Code.Function} {p k j : Nat} {way : Way} {path : List (Nat × Way)} {caller : String}

theorem straight_of_enter (h : c.Tells p) (there : c.instrs[k]? = some (.trace traceEnter caller))
    (lt : j < k) :
    ∃ i, c.instrs[j]? = some i ∧ i.isStraight := by
  have told := h.told k _ there
  generalize hi : Instr.trace traceEnter caller = i at told
  cases told with
  | plain quiet _ =>
    rw [← hi, Instr.isTrace_trace (.inl rfl)] at quiet
    cases quiet
  | enter _ straight => exact straight j lt
  | leave => exact absurd hi (Instr.trace_ne _ _)
  | ret => cases hi

theorem enter_unique (h : c.Tells p) (there : c.instrs[k]? = some (.trace traceEnter caller)) :
    k = p := by
  obtain ⟨caller', here⟩ := h.enters
  have apart {j k : Nat} {caller caller' : String}
      (hj : c.instrs[j]? = some (.trace traceEnter caller))
      (hk : c.instrs[k]? = some (.trace traceEnter caller')) : ¬ j < k := by
    intro lt
    obtain ⟨i, hi, straight⟩ := h.straight_of_enter hk lt
    rw [hj, Option.some.injEq] at hi
    subst hi
    cases straight
  have := apart there here
  have := apart here there
  omega

theorem not_trace_before (h : c.Tells p) (lt : j < p) (hi : c.instrs[j]? = some i) :
    i.isTrace = false := by
  obtain ⟨caller, here⟩ := h.enters
  obtain ⟨i', hi', straight⟩ := h.straight_of_enter here lt
  rw [hi, Option.some.injEq] at hi'
  subst hi'
  exact Instr.not_trace_of_straight straight

theorem opening (h : c.Tells p) (le : k ≤ p) :
    ∃ i, c.instrs[k]? = some i ∧ i.Passes ∧ ∀ l, i ≠ .label l := by
  obtain ⟨caller, here⟩ := h.enters
  rcases Nat.lt_or_eq_of_le le with lt | rfl
  · obtain ⟨i, hi, straight⟩ := h.straight_of_enter here lt
    exact ⟨i, hi, .straight straight, Instr.not_label_of_straight straight⟩
  · exact ⟨_, here, .call _ _ _, nofun⟩

theorem moves_cases (h : c.Tells p) (moves : c.Moves k way j) :
    way = .on ∧ j = k + 1 ∨ ∃ l, c.instrs[j]? = some (.label l) := by
  cases way with
  | on =>
    obtain ⟨_, _, _, rfl⟩ := moves
    exact .inl ⟨rfl, rfl⟩
  | edge e =>
    obtain ⟨_, l, _, _, place⟩ := moves
    exact .inr ⟨l, h.labels l j place⟩
  | choice l =>
    obtain ⟨_, _, _, place⟩ := moves
    exact .inr ⟨l, h.labels l j place⟩

theorem moves_up (h : c.Tells p) (lt : p < k) (moves : c.Moves k way j) : p < j := by
  rcases h.moves_cases moves with ⟨-, rfl⟩ | ⟨l, place⟩
  · omega
  · by_contra le
    obtain ⟨i, hi, -, other⟩ := h.opening (Nat.le_of_not_lt le)
    rw [place, Option.some.injEq] at hi
    exact other l hi.symm

/-- A path runs through the first instructions one by one, and does not come back to them. -/
theorem path_cases (h : c.Tells p) (run : c.Path path k) :
    k ≤ p ∧ path.map Prod.fst = List.range k ∨
      p < k ∧ ∃ middle, path.map Prod.fst = List.range p ++ p :: middle ∧ ∀ j ∈ middle, p < j := by
  induction run with
  | entry => exact .inl ⟨Nat.zero_le _, rfl⟩
  | @step path k j way _ moves ih =>
    rw [map_append, map_singleton]
    rcases ih with ⟨le, steps⟩ | ⟨lt, middle, steps, up⟩
    · obtain ⟨i, hi, passes, -⟩ := h.opening le
      obtain ⟨-, rfl⟩ := passes.next hi moves
      rcases Nat.lt_or_eq_of_le le with lt | rfl
      · exact .inl ⟨lt, by rw [steps, range_succ]⟩
      · exact .inr ⟨Nat.lt_succ_self _, [], by rw [steps], by simp⟩
    · refine .inr ⟨h.moves_up lt moves, middle ++ [k], by rw [steps]; simp, fun j hj => ?_⟩
      rcases mem_append.1 hj with hj | hj
      · exact up j hj
      · rw [mem_singleton.1 hj]
        exact lt

theorem return_of_leave (h : c.Tells p) (there : c.instrs[k]? = some (.trace traceLeave caller)) :
    ∃ value, c.instrs[k + 1]? = some (.ret value) := by
  have told := h.told k _ there
  generalize hi : Instr.trace traceLeave caller = i at told
  cases told with
  | plain quiet _ =>
    rw [← hi, Instr.isTrace_trace (.inr rfl)] at quiet
    cases quiet
  | enter => exact absurd hi.symm (Instr.trace_ne _ _)
  | leave _ next => exact ⟨_, next⟩
  | ret => cases hi

theorem leave_of_return (h : c.Tells p) {value : Option Operand}
    (there : c.instrs[k]? = some (.ret value)) :
    ∃ q caller, k = q + 1 ∧ c.instrs[q]? = some (.trace traceLeave caller) := by
  have told := h.told k _ there
  generalize hi : Instr.ret value = i at told
  cases told with
  | plain _ stays => exact absurd hi.symm (stays value)
  | enter => cases hi
  | leave => cases hi
  | ret _ place before => exact ⟨_, _, place, before⟩

/-- Behind the call that tells that the function is left, a path can only return. -/
theorem path_leaves (h : c.Tells p) (run : c.Path path k) {step : Nat × Way} (on : step ∈ path)
    (there : c.instrs[step.1]? = some (.trace traceLeave caller)) :
    ∃ value, c.instrs[k]? = some (.ret value) := by
  induction run with
  | entry => cases on
  | @step path k j way _ moves ih =>
    rcases mem_append.1 on with before | last
    · obtain ⟨value, ret⟩ := ih before
      exact absurd ((Instr.Passes.ret value).next ret moves).1 Bool.false_ne_true
    · rw [mem_singleton.1 last] at there
      obtain ⟨value, ret⟩ := h.return_of_leave there
      obtain ⟨-, rfl⟩ := (Instr.Passes.call _ _ _).next there moves
      exact ⟨value, ret⟩

theorem path_returns (h : c.Tells p) (run : c.Path path k) {value : Option Operand}
    (there : c.instrs[k]? = some (.ret value)) :
    ∃ middle q, path.map Prod.fst = List.range p ++ p :: middle ++ [q] ∧ k = q + 1 ∧
      CallsAt c.instrs traceLeave q ∧
      ∀ j ∈ List.range p ++ middle, ∀ i, c.instrs[j]? = some i → i.isTrace = false := by
  obtain ⟨q, caller, rfl, leave⟩ := h.leave_of_return there
  cases run with
  | @step path k' _ way run moves =>
    obtain rfl : k' = q := by
      rcases h.moves_cases moves with ⟨-, same⟩ | ⟨l, place⟩
      · omega
      · rw [there] at place
        cases place
    have behind : p < k' := by
      rcases Nat.lt_trichotomy k' p with lt | rfl | lt
      · have quiet := h.not_trace_before lt leave
        cases quiet
      · obtain ⟨caller', enter⟩ := h.enters
        rw [leave, Option.some.injEq] at enter
        exact absurd enter.symm (Instr.trace_ne _ _)
      · exact lt
    rcases h.path_cases run with ⟨le, -⟩ | ⟨-, middle, steps, up⟩
    · omega
    · refine ⟨middle, k', by rw [map_append, steps]; rfl, rfl, ⟨_, _, leave⟩, fun j hj i hi => ?_⟩
      rcases mem_append.1 hj with first | later
      · exact h.not_trace_before (mem_range.1 first) hi
      · cases trace : i.isTrace with
        | false => rfl
        | true =>
          have told := h.told j i hi
          cases told with
          | plain quiet _ => exact trace.symm.trans quiet
          | enter caller' =>
            have := h.enter_unique hi
            have := up j later
            omega
          | ret => exact trace.symm
          | leave caller' =>
            have visited : j ∈ path.map Prod.fst := by simp [steps, later]
            obtain ⟨step, hstep, rfl⟩ := mem_map.1 visited
            obtain ⟨value', ret⟩ := h.path_leaves run hstep hi
            rw [leave] at ret
            cases ret

end Code.Function.Tells

section Opening
open Lower
variable {f : Ast.Function} {env : Env} {s : State}

theorem Lower.lowerRest_later (f : Ast.Function) (incoming : Incoming) :
    Ensures (fun found t => found.1 = incoming ∧
        State.Later { s with pads := .empty } t)
      (lowerRest f incoming env s) := by
  refine .seq (Ends.inside (lowerBody_later f.body)) fun pads t later => ?_
  refine .look (Ends.query fun _ _ => ?_)
  exact .ret ⟨rfl, later⟩

def Code.Instr.Keeps (r : Register) (i : Instr) : Prop := ∃ slot : Register, i = .store slot r

theorem Lower.State.Stores.keeps {vs : List VariableId} {rs : List Register} {code : List Instr}
    (h : s.Stores vs rs code) : List.Forall₂ Instr.Keeps rs code := by
  induction h with
  | nil => exact .nil
  | cons _ _ ih => exact .cons ⟨_, rfl⟩ ih

theorem Lower.State.Stores.passes {vs : List VariableId} {rs : List Register} {code : List Instr}
    (h : s.Stores vs rs code) : ∀ i ∈ code, i.Passes := by
  induction h with
  | nil => simp
  | cons _ _ ih => exact forall_mem_cons.2 ⟨.straight rfl, ih⟩

theorem Draft.Later.starts {d d' : Draft} (later : d.Later d')
    (passes : ∀ i ∈ d.body.toList, i.Passes) : d.body.toList <+: d'.body.toList := by
  refine prefix_iff_getElem?.2 fun k lt => ?_
  have there : d.body[k]? = some d.body.toList[k] := by
    rw [← Array.getElem?_toList, getElem?_eq_getElem lt]
  rw [Array.getElem?_toList]
  refine later.keeps there fun e => ?_
  rw [(passes _ (getElem_mem lt)).2]
  nofun

theorem Lower.lowerFront_opens (f : Ast.Function) (asked : env.options.traceCalls = true) :
    Ensures (fun found t => ∃ (stores rest : List Instr) (caller : String),
        t.draft.body.toList = stores ++ .trace traceEnter caller :: rest ∧
        found.1.parameters.length = f.parameters.length ∧
        List.Forall₂ Instr.Keeps found.1.parameters stores)
      (lowerFront f env .empty) := by
  refine (receive_taken f).seq fun incoming u taken => ?_
  obtain ⟨stores, body, kept⟩ := taken.stores
  refine .seq (P := fun _ w => w = { u with
    draft.body := u.draft.body.push (.trace traceEnter env.symbol.name) }) ?_ ?_
  · rw [emitTrace_asked asked]
    exact rfl
  rintro _ _ rfl
  refine (lowerRest_later f incoming).mono fun found t ⟨same, later⟩ => ?_
  have start : (u.draft.body.push (.trace traceEnter env.symbol.name)).toList =
      stores ++ [.trace traceEnter env.symbol.name] := by
    rw [Array.toList_push, body, Array.toList_append]
    rfl
  obtain ⟨rest, written⟩ := later.draft.starts fun i hi => by
    rw [start] at hi
    rcases mem_append.1 hi with hi | hi
    · exact kept.passes i hi
    · rw [mem_singleton.1 hi]
      exact .call _ _ _
  refine ⟨stores, rest, env.symbol.name, ?_, ?_, ?_⟩
  · rw [← written, start, append_assoc]
    rfl
  · rw [same, kept.length_eq.1]
  · rw [same]
    exact kept.keeps

end Opening

namespace Draft.Tied
variable {T : Ties} {d d' : Draft}

theorem labels_eq (h : d.Tied T d') (traces : T.extra = .traces) : d.labels = d'.labels := by
  rw [← h.labels, h.counted traces, length_map, length_range]

theorem label_eq (h : d.Tied T d') (traces : T.extra = .traces) {l l' : Label}
    (hl : T.Joins l l') : l = l' := by
  unfold Ties.Joins at hl
  have made := (List.getElem?_eq_some_iff.1 hl).1
  rw [h.counted traces, List.length_map, List.length_range] at made
  rw [h.counted traces, List.getElem?_map, List.getElem?_range made] at hl
  exact Option.some.inj hl

end Draft.Tied

theorem Draft.Finished.labelled {d : Draft} {c : Code.Function} (h : d.Finished c)
    (accounts : d.Accounts [] []) (count : c.labels.length = d.labels) {l : Label} {j : Nat}
    (place : c.labels[l.index]? = some ⟨j⟩) : c.instrs[j]? = some (.label l) := by
  have made : l.index < d.labels := count ▸ (List.getElem?_eq_some_iff.1 place).1
  obtain ⟨k, hk⟩ := accounts.exists_place made
  rw [h.labels k _ hk] at place
  cases place
  rw [h.instrs, Array.getElem?_append_right (by omega), Nat.add_sub_cancel_left]
  exact hk

theorem Symbols.SymbolTable.mem_functions {symbols : SymbolTable} {f : FunctionId}
    {symbol : FunctionSymbol} (h : symbols.functionSymbol f = .ok symbol) :
    symbol ∈ symbols.functions := by
  unfold functionSymbol at h
  split at h
  · cases h
    exact Array.mem_of_getElem? ‹_›
  · cases h

section Comparison

/-- The first function is the second one with calls that trace, the first of them at `p`. -/
structure Code.Function.Traces (c plain : Code.Function) (parameters p : Nat) : Prop where
  name : c.name = plain.name
  registers : c.registers = plain.registers
  arguments : c.arguments = plain.arguments
  landingPads : c.landingPads = plain.landingPads
  labels : c.labels.length = plain.labels.length
  erased : c.instrs.toList.filter (fun i => !i.isTrace) = plain.instrs.toList
  enters : CallsAt c.instrs traceEnter p
  /-- In front of the first call stand slots, and the stores of the parameters. -/
  opening : ∃ slots stores rest front registers back, c.instrs.toList = slots ++ (stores ++ rest) ∧
    p = slots.length + stores.length ∧ (∃ status, Marks.Entry slots status) ∧
    c.arguments = front ++ registers ++ back ∧ registers.length = parameters ∧
    List.Forall₂ Instr.Keeps registers stores
  returns : ∀ (k : Nat) value, c.instrs[k]? = some (.ret value) →
    ∃ q, k = q + 1 ∧ CallsAt c.instrs traceLeave q
  /-- A path that returns runs to the first call, and makes no other call that traces but the one
  right in front of the return. -/
  paths : ∀ path k value, c.Path path k → c.instrs[k]? = some (.ret value) →
    ∃ middle q, path.map Prod.fst = List.range p ++ p :: middle ++ [q] ∧ k = q + 1 ∧
      CallsAt c.instrs traceLeave q ∧
      ∀ j ∈ List.range p ++ middle, ∀ i, c.instrs[j]? = some i → i.isTrace = false

namespace Lower

theorem lowerAll_traces (f : Ast.Function) {env env' : Env}
    (around : env.Tied ⟨.traces, [], []⟩ env') (breaks : env.breakDepth = none)
    (loops : env.loopDepth = none) (entry : ∀ c s, lowerAll f env .empty = .ok c s →
      Marks.Entry s.draft.entry.toList s.status) :
    (∃ e s t, lowerAll f env .empty = .error e s ∧ lowerAll f env' .empty = .error e t) ∨
    ∃ c c' s t, lowerAll f env .empty = .ok c s ∧ lowerAll f env' .empty = .ok c' t ∧
      ∃ p, c.Traces c' f.parameters.length p := by
  rcases lowerFront_cases f Extra.silent_traces around breaks loops with
    failed | ⟨T, found, s, t, hx, tied, first, second⟩
  · exact .inl failed
  obtain ⟨accounts, setup, c, made, finished, run⟩ := lowerAll_finished breaks loops first
  obtain ⟨-, -, c', made', finished', run'⟩ := lowerAll_finished
    (around.breakDepth.trans breaks) (around.loopDepth.trans loops) second
  have fields := Draft.toFunction_fields made
  have fields' := Draft.toFunction_fields made'
  obtain ⟨stores, rest, caller, body, count, keeps⟩ :=
    (lowerFront_opens f around.options.1).of_ok first
  have weave := tied.draft.body
  rw [hx] at weave
  have flat : ∀ i ∈ s.draft.entry, i.isStraight := fun i hi =>
    Instr.isStraight_of_setup (setup i hi)
  have code : c.instrs.toList = s.draft.entry.toList ++
      (stores ++ .trace traceEnter caller :: rest) := by
    rw [finished.instrs, Array.toList_append, body]
  have tells : c.Tells (s.draft.entry.size + stores.length) := by
    refine ⟨fun k i hi => ?_, ⟨caller, ?_⟩, fun l j place =>
      finished.labelled accounts fields.labels place⟩
    · rw [finished.instrs] at hi ⊢
      exact weave.told_behind flat hi
    · rw [← Array.getElem?_toList, code, ← Array.length_toList]
      simp
  refine .inr ⟨c, c', s, t, run, run', s.draft.entry.size + stores.length, ?_⟩
  refine ⟨?_, ?_, fields.arguments.trans fields'.arguments.symm,
    fields.pads.trans fields'.pads.symm,
    fields.labels.trans ((tied.draft.labels_eq hx).trans fields'.labels.symm), ?_, ?_, ?_, ?_, ?_⟩
  · rw [fields.name, fields'.name, around.symbol]
  · rw [finished.registers, finished'.registers, tied.draft.registers]
  · rw [finished.instrs, finished'.instrs, tied.draft.entry, Array.toList_append,
      Array.toList_append, filter_append, (weave.mono fun _ _ => tied.draft.label_eq hx).erased]
    congr 1
    refine filter_eq_self.2 fun i hi => ?_
    rw [Instr.not_trace_of_straight (flat i (Array.mem_toList_iff.1 hi))]
    rfl
  · obtain ⟨caller, there⟩ := tells.enters
    exact ⟨_, _, there⟩
  · exact ⟨s.draft.entry.toList, stores, _, found.1.result.toList, found.1.parameters,
      found.1.callerStatus.toList, code,
      congrArg (· + stores.length) Array.length_toList.symm,
      ⟨s.status, entry c s run⟩, fields.arguments, count, keeps⟩
  · intro k value there
    obtain ⟨q, caller, place, leave⟩ := tells.leave_of_return there
    exact ⟨q, place, _, _, leave⟩
  · intro path k value run there
    exact tells.path_returns run there

end Lower

/-- Tracing only adds calls. If no function is one that traces, lowering with and without tracing
fails for the same reason, or makes the same function but for the calls that trace: one behind the
stores of the parameters, which every path to a return makes once before it comes to a statement,
and one in front of each return, which the path makes once and at last. -/
theorem lowerFunction_traces (symbols : SymbolTable) (options : Options) (f : Ast.Function)
    (unnamed : ∀ g ∈ symbols.functions, g.name ≠ traceEnter ∧ g.name ≠ traceLeave) :
    (∃ e, lowerFunction symbols { options with traceCalls := true } f = .error e ∧
      lowerFunction symbols { options with traceCalls := false } f = .error e) ∨
    ∃ a b, lowerFunction symbols { options with traceCalls := true } f = .ok a ∧
      lowerFunction symbols { options with traceCalls := false } f = .ok b ∧
      ∃ p, a.Traces b f.parameters.length p := by
  cases hs : symbols.functionSymbol f.function with
  | error e => exact .inl ⟨e, lowerFunction_of_unknown hs, lowerFunction_of_unknown hs⟩
  | ok symbol =>
    cases hl : LabelScopes.collect f.body with
    | error e => exact .inl ⟨e, lowerFunction_of_repeated hs hl, lowerFunction_of_repeated hs hl⟩
    | ok labels =>
      have around : Lower.Env.Tied ⟨.traces, [], []⟩
          (.start symbols symbol { options with traceCalls := true } labels)
          (.start symbols symbol { options with traceCalls := false } labels) := by
        refine .of_asked Extra.silent_traces ⟨rfl, rfl, rfl⟩ fun g symbol known _ => ?_
        have named := unnamed symbol (SymbolTable.mem_functions known)
        simp [Callee.isTrace, named.1, named.2]
      obtain ⟨e, s, t, run, run'⟩ | ⟨c, c', s, t, run, run', traces⟩ :=
        Lower.lowerAll_traces f around rfl rfl fun _ _ run => Marks.entry_of_run hs hl run
      · exact .inl ⟨e, lowerFunction_of_error hs hl run, lowerFunction_of_error hs hl run'⟩
      · exact .inr ⟨c, c', lowerFunction_of_ok hs hl run, lowerFunction_of_ok hs hl run', traces⟩

/-- A loop with a handler, where a landing pad returns, too. -/
theorem guardedLoop_traces :
    (∀ g ∈ guardSymbols.functions, g.name ≠ traceEnter ∧ g.name ≠ traceLeave) ∧
    ∃ a b, lowerFunction guardSymbols ⟨true, false⟩ guardedLoop = .ok a ∧
      lowerFunction guardSymbols ⟨false, false⟩ guardedLoop = .ok b ∧ ∃ p, a.Traces b 1 p := by
  have unnamed : ∀ g ∈ guardSymbols.functions, g.name ≠ traceEnter ∧ g.name ≠ traceLeave := by
    decide +kernel
  refine ⟨unnamed, ?_⟩
  obtain ⟨code, lowered⟩ := guardedLoop_lowers
  rcases lowerFunction_traces guardSymbols .default guardedLoop unnamed with ⟨e, -, failed⟩ | made
  · cases lowered.symm.trans failed
  · exact made

end Comparison
end FlatCode
