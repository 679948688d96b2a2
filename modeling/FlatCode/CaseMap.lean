import FlatCode.Draft.Basic
import FlatCode.Ast.Basic

/-! The cases of a switch. All labels are made and all keys checked before the clauses are
written, so a jump to a case knows its label. -/
namespace FlatCode
open Ast

structure CaseTarget where
  label : Label
  /-- The clause that holds the case. -/
  clause : Nat
  value : Literal
  deriving DecidableEq

structure CaseMap where
  /-- In the order of the source. -/
  cases : List CaseTarget
  /-- The place among the cases that each key stands at. -/
  places : List (String × Nat)
  default : Option CaseTarget
  places_lookup : ∀ key, places.lookup key = cases.findIdx? fun c => c.value.key = key
  deriving DecidableEq

namespace CaseMap

def empty : CaseMap := ⟨[], [], none, fun _ => rfl⟩

def append (m : CaseMap) (target : CaseTarget) : CaseMap where
  cases := m.cases ++ [target]
  places := m.places ++ [(target.value.key, m.cases.length)]
  default := m.default
  places_lookup := by
    intro key
    rw [List.lookup_append, List.findIdx?_append, m.places_lookup]
    by_cases h : key = target.value.key
    · subst h
      simp
    · have h' : target.value.key ≠ key := fun e => h e.symm
      simp [List.lookup_cons, beq_eq_false_iff_ne.2 h, h']

def find? (m : CaseMap) (key : String) : Option CaseTarget :=
  (m.places.lookup key).bind fun place => m.cases[place]?

theorem find?_eq (m : CaseMap) (key : String) :
    m.find? key = m.cases.find? fun c => c.value.key = key := by
  rw [find?, m.places_lookup, List.find?_eq_bind_findIdx?_getElem?]

/-- Changes to a map, in place. -/
abbrev Edit := EStateM Error CaseMap

def insert (target : CaseTarget) : Edit Unit := fun m =>
  if (m.places.lookup target.value.key).isSome then .error (.duplicateCaseKey target.value.key) m
  else .ok () (m.append target)

theorem insert_eq (m : CaseMap) (target : CaseTarget) :
    insert target m = match m.find? target.value.key with
      | some _ => .error (.duplicateCaseKey target.value.key) m
      | none => .ok () (m.append target) := by
  rw [insert, m.places_lookup, find?_eq, List.findIdx?_isSome]
  split
  · rename_i found
    obtain ⟨c, hc⟩ := Option.isSome_iff_exists.1 (List.find?_isSome.2 (List.any_eq_true.1 found))
    rw [hc]
  · rename_i missing
    rw [List.find?_eq_none.2 fun c hc hkey => missing (List.any_eq_true.2 ⟨c, hc, hkey⟩)]

def setDefault (target : CaseTarget) : Edit Unit := fun m =>
  match m.default with
  | some _ => .error .duplicateDefault m
  | none => .ok () { m with default := some target }

def get (m : CaseMap) (value : Literal) : Except Error CaseTarget :=
  match m.find? value.key with
  | some target => .ok target
  | none => .error (.unknownCaseKey value.key)

def addClause (clause : Nat) (label : Label) : ClauseKind → Edit Unit
  | .case values => values.forM fun value => insert ⟨label, clause, value⟩
  | .default => setDefault ⟨label, clause, .null⟩

/-- Makes a label for each clause and enters its values, clause by clause. -/
def buildFrom (m : CaseMap) (clause : Nat) : List Clause → Draft.Edit (CaseMap × List Label)
  | [] => pure (m, [])
  | .mk kind _ :: rest => do
    let label ← Draft.newLabel
    match addClause clause label kind m with
    | .error e _ => throw e
    | .ok _ m =>
      let (m, labels) ← m.buildFrom (clause + 1) rest
      pure (m, label :: labels)

def build (clauses : List Clause) : Draft.Edit (CaseMap × List Label) := empty.buildFrom 0 clauses

end CaseMap
end FlatCode
