import FlatCode.Proofs.Folding.Source
import FlatCode.Proofs.Folding.Truth
import FlatCode.Proofs.Word.Machine

/-! Code that calculates. While it is written, code is only appended; run from its beginning, it
comes to its end, and leaves in its operands the words that they stand for. -/
namespace FlatCode
open Code Symbols Ast Lower List

namespace Calculator

structure Frame where
  code : Array Instr
  types : Array Ty

namespace Frame
variable {w : Frame}

structure Holds (w : Frame) (place : Nat) (added : List Instr) (registers : Array Ty) : Prop where
  instr : ∀ (k : Nat) (i : Instr), added[k]? = some i → w.code[place + k]? = some i
  label : ∀ (k : Nat) (l : Label), added[k]? = some (.label l) →
    Truth.place? w.code l = some (place + k)
  types : ∀ (k : Nat) (ty : Ty), registers[k]? = some ty → w.types[k]? = some ty

abbrev Reaches (w : Frame) (m m' : Config) : Prop := Calculator.Reaches w.code w.types m m'

variable {place : Nat} {added added' : List Instr} {registers more : Array Ty}

theorem Holds.left (h : w.Holds place (added ++ added') (registers ++ more)) :
    w.Holds place added registers := by
  have here {k : Nat} {i : Instr} (hi : added[k]? = some i) : (added ++ added')[k]? = some i := by
    obtain ⟨lt, -⟩ := List.getElem?_eq_some_iff.1 hi
    rwa [getElem?_append_left lt]
  refine ⟨fun k i hi => h.instr k i (here hi), fun k l hl => h.label k l (here hl),
    fun k ty hk => h.types k ty ?_⟩
  obtain ⟨lt, -⟩ := Array.getElem?_eq_some_iff.1 hk
  rwa [Array.getElem?_append_left lt]

theorem Holds.right (h : w.Holds place (added ++ added') registers) :
    w.Holds (place + added.length) added' registers := by
  have there (k : Nat) : (added ++ added')[added.length + k]? = added'[k]? := by
    rw [getElem?_append_right (Nat.le_add_right _ _), Nat.add_sub_cancel_left]
  refine ⟨fun k i hi => ?_, fun k l hl => ?_, h.types⟩
  · rw [Nat.add_assoc]
    exact h.instr _ i ((there k).trans hi)
  · rw [Nat.add_assoc]
    exact h.label _ l ((there k).trans hl)

end Frame
end Calculator

namespace Lower

structure State.Appends (s : State) (added : List Instr) (t : State) : Prop where
  body : t.draft.body = s.draft.body ++ added.toArray
  registers : ∃ more, t.draft.registers = s.draft.registers ++ more
  labels : ∃ count, t.draft.labels = s.draft.labels + count ∧
    added.filterMap Instr.placed? = (List.range' s.draft.labels count).map Label.mk

namespace State.Appends
variable {s t u : State} {added added' : List Instr}

theorem refl (s : State) : s.Appends [] s := ⟨by simp, ⟨#[], by simp⟩, 0, rfl, rfl⟩

theorem trans (h : s.Appends added t) (k : t.Appends added' u) : s.Appends (added ++ added') u := by
  obtain ⟨more, hmore⟩ := h.registers
  obtain ⟨more', hmore'⟩ := k.registers
  obtain ⟨count, made, placed⟩ := h.labels
  obtain ⟨count', made', placed'⟩ := k.labels
  refine ⟨?_, ⟨more ++ more', ?_⟩, count + count', ?_, ?_⟩
  · rw [k.body, h.body]
    simp
  · rw [hmore', hmore, Array.append_assoc]
  · rw [made', made, Nat.add_assoc]
  · rw [filterMap_append, placed, placed', made, ← map_append, range'_append_1]

theorem size_le (h : s.Appends added t) : s.draft.registers.size ≤ t.draft.registers.size := by
  obtain ⟨more, hmore⟩ := h.registers
  simp [hmore]

end State.Appends

def State.next (s : State) : Register := ⟨s.draft.registers.size⟩

def State.reserve (s : State) (ty : Ty) : State :=
  { s with draft := { s.draft with registers := s.draft.registers.push ty } }

def State.put (s : State) (ty : Ty) (i : Register → Instr) : State :=
  { s with draft := { s.draft with
      registers := s.draft.registers.push ty
      body := s.draft.body.push (i s.next) } }

theorem State.put_appends (s : State) (ty : Ty) (i : Register → Instr)
    (h : (i s.next).placed? = none) : s.Appends [i s.next] (s.put ty i) :=
  ⟨by simp [State.put], ⟨#[ty], by simp [State.put]⟩, 0, rfl, by simp [h]⟩

theorem put_run {E : Error → Prop} {env : Env} {s : State} (ty : Ty) (i : Register → Instr) :
    Ends E (fun r t => r = .reg s.next ∧ t = s.put ty i)
      ((do
        let r ← Draft.newRegister ty
        emit (i r)
        pure (.reg r) : LowerM Operand) env s) := ⟨rfl, rfl⟩

theorem placed_hops (first count : Nat) : (hops first count).filterMap Instr.placed? =
    (List.range' first count).map Label.mk := by
  unfold hops
  rw [filterMap_flatMap, map_eq_flatMap]
  rfl

theorem State.hop_appends (s : State) (count : Nat) :
    s.Appends (hops s.draft.labels count) (s.hop count) :=
  ⟨rfl, ⟨#[], by simp [State.hop]⟩, count, rfl, placed_hops _ _⟩

end Lower

namespace Calculator
variable {s t u : State}

def Calculates (s : State) (xs : List Operand) (words : List Word) (t : State) : Prop :=
  ∃ added, s.Appends added t ∧ (∀ r, .reg r ∈ xs → r.index < t.draft.registers.size) ∧
    ∀ (w : Frame) (m : Config), w.Holds m.place added t.draft.registers →
      ∃ m', w.Reaches m m' ∧ m'.place = m.place + added.length ∧
        (∀ r, r.index < s.draft.registers.size → m'.registers r = m.registers r) ∧
        xs.map (Operand.word? m'.registers) = words.map some

namespace Calculates
variable {xs ys : List Operand} {a b : List Word}

theorem nil (s : State) : Calculates s [] [] s :=
  ⟨[], .refl s, nofun, fun _ m _ => ⟨m, .refl m, rfl, fun _ _ => rfl, rfl⟩⟩

theorem imm (s : State) {v : Imm} {x : Word} (h : v.word? = some x) :
    Calculates s [.imm v] [x] s :=
  ⟨[], .refl s, nofun, fun _ m _ => ⟨m, .refl m, rfl, fun _ _ => rfl,
    congrArg (fun x => [x]) h⟩⟩

theorem append (h : Calculates s xs a t) (k : Calculates t ys b u) :
    Calculates s (xs ++ ys) (a ++ b) u := by
  obtain ⟨added, appends, made, runs⟩ := h
  obtain ⟨added', appends', made', runs'⟩ := k
  refine ⟨added ++ added', appends.trans appends', fun r hr => ?_, fun w m holds => ?_⟩
  · rcases mem_append.1 hr with hr | hr
    · exact Nat.lt_of_lt_of_le (made r hr) appends'.size_le
    · exact made' r hr
  obtain ⟨more, hmore⟩ := appends'.registers
  rw [hmore] at holds
  obtain ⟨m1, reaches, place, kept, words⟩ := runs w m holds.left
  rw [← hmore] at holds
  obtain ⟨m2, reaches', place', kept', words'⟩ := runs' w m1 (place ▸ holds.right)
  refine ⟨m2, reaches.trans reaches', ?_, fun r hr => ?_, ?_⟩
  · rw [place', place, length_append, Nat.add_assoc]
  · rw [kept' r (Nat.lt_of_lt_of_le hr appends.size_le), kept r hr]
  · have still : xs.map (Operand.word? m2.registers) = xs.map (Operand.word? m1.registers) :=
      map_congr_left fun x hx => Operand.word?_congr fun r hr => kept' r (made r (hr ▸ hx))
    rw [map_append, map_append, still, words, words']

theorem put (h : Calculates s xs a t) {x : Word} (i : Register → Instr)
    (placed : (i t.next).placed? = none)
    (calculates : ∀ types registers, xs.map (Operand.word? registers) = a.map some →
      types[t.next.index]? = some (.int x.width) →
        (i t.next).calculates? types registers = some (t.next, x)) :
    Calculates s [.reg t.next] [x] (t.put (.int x.width) i) := by
  obtain ⟨added, appends, made, runs⟩ := h
  refine ⟨added ++ [i t.next], appends.trans (t.put_appends _ i placed), fun r hr => ?_,
    fun w m holds => ?_⟩
  · cases mem_singleton.1 hr
    simp [State.put, State.next]
  have registers : (t.put (.int x.width) i).draft.registers =
      t.draft.registers ++ #[.int x.width] := by simp [State.put]
  rw [registers] at holds
  obtain ⟨m', reaches, place, kept, words⟩ := runs w m holds.left
  have here : w.code[m'.place]? = some (i t.next) := by
    rw [place]
    exact holds.right.instr 0 _ rfl
  have typed : w.types[t.next.index]? = some (.int x.width) :=
    holds.types _ _ (by simp [State.next])
  have step := step_calculates here (calculates w.types m'.registers words typed) typed
  refine ⟨m'.put t.next x, reaches.trans (.of_step step), ?_, fun r hr => ?_, ?_⟩
  · rw [length_append, ← Nat.add_assoc, ← place]
    rfl
  · have older : r ≠ t.next := by
      rintro rfl
      have := appends.size_le
      simp only [State.next] at hr
      omega
    rw [m'.put_other x older, kept r hr]
  · exact congrArg (fun x => [some x]) (m'.put_same t.next x)

theorem hop (s : State) : ∀ count, Calculates s [] [] (s.hop count)
  | 0 => by
    rw [State.hop_zero]
    exact .nil s
  | count + 1 => by
    rw [← State.hop_hop]
    refine (hop s count).append ⟨_, (s.hop count).hop_appends 1, nofun, fun w m holds => ?_⟩
    generalize (s.hop count).draft.labels = l at holds
    have jump : step w.code w.types m = some (m.goto (m.place + 1)) := by
      unfold step
      rw [show w.code[m.place]? = some (.jump (some ⟨l⟩)) from holds.instr 0 _ rfl]
      simp [holds.label 1 ⟨l⟩ rfl]
    have label : step w.code w.types (m.goto (m.place + 1)) = some (m.goto (m.place + 2)) := by
      unfold step
      rw [show w.code[(m.goto (m.place + 1)).place]? = some (.label ⟨l⟩) from
        holds.instr 1 _ rfl]
      rfl
    exact ⟨m.goto (m.place + 2), (Run.Reaches.of_step jump).trans (.of_step label), rfl,
      fun _ _ => rfl, rfl⟩

end Calculates

def Gives (table : SymbolTable) (value : LowerM (Option Operand)) (x : Word) : Prop :=
  ∀ ⦃env s⦄, env.symbols = table →
    Ends (fun _ => False) (fun y t => ∃ z, y = some z ∧ Calculates s [z] [x] t) (value env s)

section Connective
variable {table : SymbolTable} {jump : LowerM Branches} {value : Bool} {count : Nat}

theorem resolveHere_move (env : Env) (s : State) (count : Nat) (value : Bool) :
    Ends (fun _ => False)
      (fun _ t => t = (s.hop (count + 1)).put .bool fun r => .move r (Imm.bool value))
      ((do
        resolveHere [(s.hop count).waiting]
        emit (.move s.next (Imm.bool value)) : LowerM Unit) env
          ((s.reserve .bool).hop count).wait) := by
  refine .seq (P := fun _ t => t = (s.reserve .bool).hop (count + 1)) ?_ ?_
  · rw [← State.hop_hop]
    exact resolveHere_waiting
  · rintro _ _ rfl
    rfl

theorem Gives.materialize (h : Settled table jump value count) :
    Gives table (materialize jump) (.ofBool value) := by
  intro env s henv
  have moved := resolveHere_move env s count value
  have calculated : Calculates s [.reg (s.hop (count + 1)).next] [.ofBool value]
      ((s.hop (count + 1)).put .bool fun r => .move r (Imm.bool value)) :=
    (Calculates.hop s (count + 1)).put _ rfl fun _ _ _ _ => rfl
  unfold Lower.materialize
  refine (h henv).seq ?_
  rintro _ _ ⟨rfl, rfl⟩
  refine .seq (P := fun r t => r = s.next ∧ t = ((s.reserve .bool).hop count).wait) ⟨rfl, rfl⟩
    ?_
  rintro _ _ ⟨rfl, rfl⟩
  cases value with
  | true =>
    have side : trueSide (.known true [(s.hop count).waiting]) s.next = (do
        resolveHere [(s.hop count).waiting]
        emit (.move s.next (Imm.bool true))) >>= fun _ => pure [] := by
      rw [bind_assoc]
      rfl
    rw [side, bind_assoc]
    refine moved.seq ?_
    rintro _ _ rfl
    exact ⟨_, rfl, calculated⟩
  | false =>
    refine .seq (P := fun done t => done = [] ∧ t = ((s.reserve .bool).hop count).wait)
      ⟨rfl, rfl⟩ ?_
    rintro _ _ ⟨rfl, rfl⟩
    refine .seq moved ?_
    rintro _ _ rfl
    exact ⟨_, rfl, calculated⟩

end Connective
end Calculator
end FlatCode
