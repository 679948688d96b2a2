import FlatCode.Proofs.Marks.Walk

/-! Registers are written before they are read, on every path. -/
namespace FlatCode
open Code Symbols Ast Lower Marks List

namespace Code.Function

def Writes (c : Code.Function) (path : List (Nat × Way)) (r : Register) : Prop :=
  ∃ step ∈ path, ∃ i, c.instrs[step.1]? = some i ∧ i.dest? = some r

end Code.Function

namespace Marks
variable {S : Setting} {env : Env} {B Q : Scene} {codes : List (List Instr)} {code : Code.Function}
open Scene
variable {k : Nat} {i : Instr} {r : Register}

theorem Scene.Walk.held (typed : Q.Typed S) {path : List (Nat × Way)} {m : Mark}
    (walk : Q.Walk S path k m) : ∀ r ∈ m.held, ∃ step ∈ path, ∃ i,
      Q.state.draft.body[step.1]? = some i ∧ i.dest? = some r := by
  induction walk with
  | start =>
    rcases typed.start with dead | ⟨-, -, held⟩
    · cases dead.1
    · exact fun r hr => nomatch held r hr
  | @step path k k' m m' i way _ goes ih =>
    intro r hr
    have written : r ∈ m.held ∨ Q.state.draft.body[k]? = some i ∧ i.dest? = some r := by
      cases goes with
      | on hi _ awake on fits => exact (fits.holds awake on r hr).imp_right fun dest => ⟨hi, dest⟩
      | behind _ _ _ _ _ held => exact .inl (held r hr)
      | edge _ _ _ _ _ _ crosses => exact .inl (crosses.2 r hr)
      | choice _ _ _ _ _ _ crosses => exact .inl (crosses.2 r hr)
    rcases written with before | ⟨hi, dest⟩
    · obtain ⟨step, there, found⟩ := ih r before
      exact ⟨step, mem_append_left _ there, found⟩
    · exact ⟨(k, way), mem_append_right _ mem_cons_self, i, hi, dest⟩

theorem Scene.At.reads (typed : Q.Typed S) {m : Mark} (there : Q.At k m)
    (hi : Q.state.draft.body[k]? = some i) (hr : .reg r ∈ i.operands) :
    S.Given Q.state r ∨ r ∈ m.held := by
  obtain ⟨note, -, mark, fits⟩ := typed.note hi
  rw [there.mark hi (by rintro l rfl; cases hr), mark]
  exact fits.reads r hr

theorem Marked.writes_slots (h : Marked S env B Q codes code) (rest : List (Nat × Way))
    (given : S.Given Q.state r) : r ∈ code.arguments ∨
      code.Writes (straight Q.state.draft.entry.size ++ rest) r := by
  rcases given with argument | ⟨ty, name, slot⟩
  · rw [h.received]
    exact .inl argument
  · obtain ⟨k, hk⟩ := Array.mem_iff_getElem?.1 slot
    obtain ⟨lt, -⟩ := Array.getElem?_eq_some_iff.1 hk
    refine .inr ⟨(k, .on), mem_append_left _ ?_, _, (h.slot lt).trans hk, rfl⟩
    simpa [straight] using lt

theorem Entry.reads {code : List Instr} {status : Option Register} (h : Entry code status)
    (hi : code[k]? = some i) (hr : .reg r ∈ i.operands) :
    ∃ j i', j < k ∧ code[j]? = some i' ∧ i'.dest? = some r := by
  have longer {code rest : List Instr} {k : Nat}
      (h : ∃ j i', j < k ∧ code[j]? = some i' ∧ i'.dest? = some r) :
      ∃ j i', j < k ∧ (code ++ rest)[j]? = some i' ∧ i'.dest? = some r := by
    obtain ⟨j, i', lt, hj, dest⟩ := h
    exact ⟨j, i', lt, by rw [List.getElem?_append_left (List.getElem?_eq_some_iff.1 hj).1, hj],
      dest⟩
  induction h with
  | nil => cases hi
  | @slot code status r' ty name _ ih =>
    by_cases old : k < code.length
    · rw [getElem?_append_left old] at hi
      exact longer (ih hi)
    · rw [getElem?_append_right (by omega)] at hi
      cases mem_singleton.1 (mem_of_getElem? hi)
      cases hr
  | @status code slot ty name _ ih =>
    by_cases old : k < code.length
    · rw [getElem?_append_left old] at hi
      exact longer (ih hi)
    · rw [getElem?_append_right (by omega)] at hi
      match here : k - code.length, hi with
      | 0, hi =>
        cases hi
        cases hr
      | 1, hi =>
        cases hi
        simp only [Instr.operands, noException, mem_cons, Operand.reg.injEq, reduceCtorEq,
          not_mem_nil, or_false] at hr
        subst hr
        exact ⟨code.length, .alloc r ty name, by omega, by simp, rfl⟩
      | n + 2, hi => simp at hi

theorem Marked.bounds (h : Marked S env B Q codes code) (hi : code.instrs[k]? = some i)
    (hr : .reg r ∈ i.operands ∨ i.dest? = some r) :
    r.index < code.registers.size := by
  rw [h.finished.registers]
  by_cases slot : k < Q.state.draft.entry.size
  · rw [h.slot slot] at hi
    rcases hr with hr | hr
    · obtain ⟨j, i', -, hj, dest⟩ := h.firm.books.entry.reads (by simpa using hi) hr
      exact h.firm.books.allocs i' (Array.mem_def.2 (mem_of_getElem? hj)) r dest
    · exact h.firm.books.allocs i (Array.mem_of_getElem? hi) r hr
  · obtain ⟨k, rfl⟩ : ∃ k', k = Q.state.draft.entry.size + k' :=
      ⟨k - Q.state.draft.entry.size, by omega⟩
    rw [h.instr] at hi
    obtain ⟨note, -, -, fits⟩ := h.firm.typed.note hi
    exact fits.bounds r hr

theorem Marked.writes_first (h : Marked S env B Q codes code) {path : List (Nat × Way)}
    (run : code.Path path k) (hi : code.instrs[k]? = some i) (hr : .reg r ∈ i.operands) :
    r ∈ code.arguments ∨ code.Writes path r := by
  rcases h.walk run with ⟨lt, rfl⟩ | ⟨rest, k, m, rfl, rfl, walk⟩
  · rw [h.slot lt] at hi
    obtain ⟨j, i', before, hj, dest⟩ := h.firm.books.entry.reads (by simpa using hi) hr
    refine .inr ⟨(j, .on), by simpa [straight] using before, i', ?_, dest⟩
    rw [h.slot (by omega)]
    simpa using hj
  · rw [h.instr] at hi
    rcases (walk.at h.firm.typed).reads h.firm.typed hi hr with given | held
    · exact h.writes_slots _ given
    · obtain ⟨step, there, i', hi', dest⟩ := walk.held h.firm.typed r held
      refine .inr ⟨(Q.state.draft.entry.size + step.1, step.2), mem_append_right _ ?_, i', ?_,
        dest⟩
      · exact mem_map.2 ⟨step, there, rfl⟩
      · rw [h.instr]
        exact hi'

end Marks

section Function
variable {symbols : SymbolTable} {options : Options} {f : Ast.Function} {code : Code.Function}

/-- On every path through the code of a function, whatever an instruction reads is an argument or
was written by an instruction that control has run through. All registers are known to the
function. -/
theorem lowerFunction_writes_first (h : lowerFunction symbols options f = .ok code) :
    (∀ path k i r, code.Path path k → code.instrs[k]? = some i → .reg r ∈ i.operands →
      r ∈ code.arguments ∨ code.Writes path r) ∧
    (∀ (k : Nat) i r, code.instrs[k]? = some i → .reg r ∈ i.operands ∨ i.dest? = some r →
      r.index < code.registers.size) ∧
    ∀ r ∈ code.arguments, r.index < code.registers.size := by
  obtain ⟨_, _, B, Q, codes, -, -, marked⟩ :=
    lowerFunction_marked h false fun follows => nomatch follows
  refine ⟨fun path k i r run hi hr => marked.writes_first run hi hr,
    fun k i r hi hr => marked.bounds hi hr, fun r hr => ?_⟩
  rw [marked.finished.registers]
  exact marked.arguments r (marked.received ▸ hr)

theorem guardedLoop_writes_first : ∃ code,
    lowerFunction guardSymbols .default guardedLoop = .ok code ∧
    ∀ path k i r, code.Path path k → code.instrs[k]? = some i → .reg r ∈ i.operands →
      r ∈ code.arguments ∨ code.Writes path r := by
  obtain ⟨code, lowered⟩ := guardedLoop_lowers
  exact ⟨code, lowered, (lowerFunction_writes_first lowered).1⟩

end Function
end FlatCode
