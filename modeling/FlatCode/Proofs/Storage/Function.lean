import FlatCode.Proofs.Balance.Function

/-! The named slots of a function. The slots of variables have different names, which the storage
keeps apart. The slot of the status is named apart from the storage: it has the name of another
slot if, and only if, a variable with a slot is declared under the name of the status. -/
namespace FlatCode
open Code Symbols Ast Array

def Code.Function.slotNames (c : Code.Function) : List String :=
  c.instrs.toList.filterMap Instr.slotName?

theorem Code.Instr.slotName?_setTarget (i : Instr) (l : Label) (e : Edge) :
    (i.setTarget l e).slotName? = i.slotName? := by
  cases e <;> cases i <;> rfl

namespace Draft.Trace
variable {d d' : Draft}

theorem entry_eq (h : d.Trace d') : d'.entry = d.entry := by
  induction h with
  | trans _ _ h k => exact k.trans h
  | _ => rfl

theorem slotless (h : d.Trace d') (before : ∀ i ∈ d.body, i.slotName? = none) :
    ∀ i ∈ d'.body, i.slotName? = none := by
  induction h with
  | refl | label => exact before
  | trans _ _ h k => exact k (h before)
  | @push d i plain =>
    intro j there
    rcases mem_push.1 there with old | rfl
    · exact before j old
    · cases j <;> first | rfl | cases plain
  | @aim d b _ l =>
    intro i there
    obtain ⟨k, hk⟩ := mem_iff_getElem?.1 there
    rw [getElem?_modify] at hk
    split at hk
    · obtain ⟨j, hj, rfl⟩ := Option.map_eq_some_iff.1 hk
      rw [Instr.slotName?_setTarget]
      exact before j (mem_of_getElem? hj)
    · exact before i (mem_of_getElem? hk)

end Draft.Trace

namespace Lower

def State.Slotted (table : SymbolTable) (s : State) : Prop :=
  s.Named table ∧ ∀ i ∈ s.draft.body, i.slotName? = none

theorem State.Trace.slotted {table : SymbolTable} {may : Effect → Prop} {s t : State}
    (h : s.Trace table may t) (before : s.Slotted table) : t.Slotted table := by
  induction h with
  | refl | note | owe | name | compound => exact before
  | trans _ _ h k => exact k (h before)
  | straight h =>
    refine ⟨h.named before.1, fun i there => ?_⟩
    obtain ⟨added, body, inline⟩ := h.body
    rw [body] at there
    rcases mem_append.1 there with old | new
    · exact before.2 i old
    · exact Instr.slotName?_of_inline (inline i new)
  | edit h =>
    refine ⟨⟨?_, before.1.2⟩, h.slotless before.2⟩
    rw [h.entry_eq]
    exact before.1.1
  | scope _ h => exact h before
  | comment | choose =>
    refine ⟨before.1, fun i there => ?_⟩
    rcases mem_push.1 there with old | rfl
    · exact before.2 i old
    · rfl

theorem lowerAll_slotted (f : Ast.Function) (env : Env) :
    Ensures (fun _ t => t.Slotted env.symbols) (lowerAll f env .empty) := by
  refine lowerAll_keeps (J := State.Slotted env.symbols) f ?_ (.all _)
    (fun s t trace => trace.slotted) fun s h => h
  exact ⟨⟨List.Perm.nil, .empty⟩, fun i there => nomatch there⟩

end Lower

open Lower

theorem status_plain (base : String) (n : Nat) : "exception_status" ≠ Storage.numbered base n := by
  intro same
  obtain ⟨c, last, digit⟩ := Storage.numbered_getLast? base n
  rw [← same] at last
  cases last
  revert digit
  decide

/-- The named slots of a function are the slot of its status, if it has one, and the slots of its
variables. The variables have different names. All names are different, unless there is a slot for
the status and one for a variable that is declared as `exception_status`. -/
theorem lowerFunction_names_slots {symbols : SymbolTable} {options : Options} {f : Ast.Function}
    {code : Code.Function} (h : lowerFunction symbols options f = .ok code) :
    ∃ symbol labels s, symbols.functionSymbol f.function = .ok symbol ∧
      LabelScopes.collect f.body = .ok labels ∧
      lowerAll f (.start symbols symbol options labels) .empty = .ok code s ∧
      code.slotNames.Perm (s.status.toList.map (fun _ => "exception_status") ++
        s.storage.locations.map fun p => p.2.name) ∧
      (s.storage.locations.map fun p => p.2.name).Nodup ∧
      (code.slotNames.Nodup ↔ ¬ (s.status.isSome ∧ ∃ v declared, (s.location? v).isSome ∧
        symbols.variableSymbol v = .ok declared ∧ declared.name = "exception_status")) := by
  obtain ⟨symbol, labels, s, known, collected, run⟩ := lowerFunction_run h
  obtain ⟨-, finished, -⟩ := (lowerAll_closed f rfl rfl).of_ok run
  obtain ⟨⟨entry, named⟩, bare⟩ := (lowerAll_slotted f _).of_ok run
  have names : code.slotNames = s.draft.entry.toList.filterMap Instr.slotName? := by
    have none : s.draft.body.toList.filterMap Instr.slotName? = [] :=
      List.filterMap_eq_nil_iff.2 fun i hi => bare i (mem_toList_iff.1 hi)
    rw [Code.Function.slotNames, finished.instrs, toList_append, List.filterMap_append, none,
      List.append_nil]
  refine ⟨symbol, labels, s, known, collected, run, ?_⟩
  rw [← named.taken, names]
  refine ⟨entry, named.nodup, ?_⟩
  rw [entry.nodup_iff]
  have declared : "exception_status" ∈ s.storage.taken ↔ ∃ v declared, (s.location? v).isSome ∧
      symbols.variableSymbol v = .ok declared ∧ declared.name = "exception_status" := by
    rw [named.mem_taken_iff status_plain]
    simp only [State.location?, List.lookup_isSome_iff, beq_iff_eq]
    constructor
    · rintro ⟨p, mem, declared, found, name⟩
      exact ⟨p.1, declared, ⟨p, mem, rfl⟩, found, name⟩
    · rintro ⟨v, declared, ⟨p, mem, rfl⟩, found, name⟩
      exact ⟨p, mem, declared, found, name⟩
  rw [← declared]
  cases s.status with
  | none => simpa using named.nodup
  | some slot => simp [named.nodup]

section Example

def statusSymbols : SymbolTable where
  types := #[.void, .integer .w32]
  functions := #[⟨"fail", ⟨0⟩, true, false, none, none, none⟩, .plain "main" ⟨0⟩]
  vars := #[⟨"exception_status", ⟨1⟩⟩]

/-- `int exception_status; fail();` -/
def statusVariable : Ast.Function :=
  ⟨⟨1⟩, [], [⟨0⟩], [.expression (.call ⟨0⟩ ⟨0⟩ [] false)], false, false⟩

theorem statusVariable_shares_name : ∃ code symbol labels s,
    lowerFunction statusSymbols .default statusVariable = .ok code ∧
    code.slotNames = ["exception_status", "exception_status"] ∧
    lowerAll statusVariable (.start statusSymbols symbol .default labels) .empty = .ok code s ∧
    s.status.isSome ∧ ∃ v declared, (s.location? v).isSome ∧
      statusSymbols.variableSymbol v = .ok declared ∧ declared.name = "exception_status" := by
  have run : (lowerFunction statusSymbols .default statusVariable).toOption.map (·.slotNames) =
      some ["exception_status", "exception_status"] := by
    decide +kernel
  obtain ⟨code, ok, names⟩ := Option.map_eq_some_iff.1 run
  have lowered : lowerFunction statusSymbols .default statusVariable = .ok code := by
    cases h : lowerFunction statusSymbols .default statusVariable <;> rw [h] at ok <;> cases ok
    rfl
  obtain ⟨symbol, labels, s, -, -, run, -, -, apart⟩ := lowerFunction_names_slots lowered
  refine ⟨code, symbol, labels, s, lowered, names, run, ?_⟩
  rw [names] at apart
  exact not_not.1 (mt apart.2 (by decide))

end Example

end FlatCode
