import FlatCode.Proofs.Outcome

/-! Faults of a tree and failures of the bookkeeping. Questions to the symbol table and to the
other tables fail only with faults of the tree. -/
namespace FlatCode
open Code Symbols Ast

/-- A failure of the bookkeeping itself: of lists of branches, of labels or of scopes. -/
def Error.isInternal : Error → Bool
  | .emptyTargetList | .branchAlreadyResolved _ | .notABranch _ | .unresolvedBranch _
  | .unplacedLabel _ | .emptyCleanupStack | .unbalancedScopes _ => true
  | _ => false

/-- A failure that is due to the tree or to the symbol table. -/
def Error.IsFault (e : Error) : Prop := e.isInternal = false

def ReportsFaults (x : Except Error α) : Prop := ∀ e, x = .error e → e.IsFault

namespace ReportsFaults

theorem ok (a : α) : ReportsFaults (.ok a) := by
  intro e h
  cases h

theorem error {e : Error} (h : e.IsFault) : ReportsFaults (.error e : Except Error α) := by
  intro e' he
  cases he
  exact h

theorem bind {x : Except Error α} {f : α → Except Error β} (hx : ReportsFaults x)
    (hf : ∀ a, ReportsFaults (f a)) : ReportsFaults (x >>= f) := by
  cases x with
  | ok a => exact hf a
  | error e => exact error (hx e rfl)

theorem mapM {f : α → Except Error β} (hf : ∀ a, ReportsFaults (f a)) :
    ∀ as : List α, ReportsFaults (as.mapM f)
  | [] => ok []
  | a :: as => by
    rw [List.mapM_cons]
    exact (hf a).bind fun b => (mapM hf as).bind fun bs => ok (b :: bs)

end ReportsFaults

namespace Symbols.SymbolTable
variable (table : SymbolTable)

theorem typeKind_faults (t : TypeId) : ReportsFaults (table.typeKind t) := by
  unfold typeKind
  split
  · exact .ok _
  · exact .error rfl

theorem functionSymbol_faults (f : FunctionId) : ReportsFaults (table.functionSymbol f) := by
  unfold functionSymbol
  split
  · exact .ok _
  · exact .error rfl

theorem variableSymbol_faults (v : VariableId) : ReportsFaults (table.variableSymbol v) := by
  unfold variableSymbol
  split
  · exact .ok _
  · exact .error rfl

theorem plainType_faults (t : TypeId) : ReportsFaults (table.plainType t) := by
  refine (table.typeKind_faults t).bind fun kind => ?_
  split <;> exact .ok _

theorem classInfo_faults (t : TypeId) : ReportsFaults (table.classInfo t) := by
  refine (table.typeKind_faults t).bind fun kind => ?_
  split
  · exact .ok _
  · exact .error rfl

theorem isVoid_faults (t : TypeId) : ReportsFaults (table.isVoid t) := by
  refine (table.typeKind_faults t).bind fun kind => ?_
  split <;> exact .ok _

theorem destructorOf_faults (t : TypeId) : ReportsFaults (table.destructorOf t) := by
  refine (table.typeKind_faults t).bind fun kind => ?_
  split <;> exact .ok _

theorem pointeeBy_faults {represent : TypeId → Except Error Ty}
    (h : ∀ t, ReportsFaults (represent t)) (t : TypeId) :
    ReportsFaults (table.pointeeBy represent t) := by
  refine (table.typeKind_faults t).bind fun kind => ?_
  split
  · exact .ok _
  · exact .ok _
  · exact h t

theorem codeTypeWithin_faults : ∀ (depth : Nat) (t : TypeId),
    ReportsFaults (table.codeTypeWithin depth t)
  | 0, t => .error rfl
  | depth + 1, t => by
    have inner := codeTypeWithin_faults depth
    refine (table.typeKind_faults t).bind fun kind => ?_
    split
    · exact .ok _
    · exact .ok _
    · exact .ok _
    · exact .ok _
    · exact .ok _
    · exact .ok _
    · exact (table.pointeeBy_faults inner _).bind fun ty => .ok _
    · exact (table.pointeeBy_faults inner _).bind fun ty => .ok _
    · exact .ok _
    · refine (ReportsFaults.mapM inner _).bind fun base => ?_
      exact (ReportsFaults.mapM inner _).bind fun fields => .ok _

theorem codeType_faults (t : TypeId) : ReportsFaults (table.codeType t) :=
  table.codeTypeWithin_faults _ t

theorem pointee_faults (t : TypeId) : ReportsFaults (table.pointee t) :=
  table.pointeeBy_faults table.codeType_faults t

end Symbols.SymbolTable

namespace Storage

theorem slotType_faults (table : SymbolTable) (t : TypeId) (role : Role) :
    ReportsFaults (slotType table t role) := by
  refine (table.typeKind_faults t).bind fun kind => ?_
  split
  · exact (table.pointee_faults _).bind fun ty => .ok _
  · exact (table.pointee_faults _).bind fun ty => .ok _
  · exact (table.pointee_faults _).bind fun ty => .ok _
  · exact table.codeType_faults t

theorem plan_faults (table : SymbolTable) (v : VariableId) (role : Role) :
    ReportsFaults (plan table v role) := by
  refine (table.variableSymbol_faults v).bind fun symbol => ?_
  refine (table.typeKind_faults _).bind fun kind => ?_
  exact (slotType_faults table _ role).bind fun ty => .ok _

theorem lookup_faults (s : Storage) (v : VariableId) : ReportsFaults (s.lookup v) := by
  unfold lookup
  split
  · exact .ok _
  · exact .error rfl

end Storage

namespace CaseMap

theorem insert_ends (target : CaseTarget) (m : CaseMap) :
    Ends Error.IsFault (fun _ m' => m' = m.append target) (insert target m) := by
  rw [insert_eq]
  cases m.find? target.value.key with
  | some _ => exact (rfl : (Error.duplicateCaseKey _).isInternal = false)
  | none => exact rfl

theorem insertAll_ends (clause : Nat) (label : Label) : ∀ (values : List Literal) (m : CaseMap),
    Ends Error.IsFault (fun _ m' => m'.default = m.default ∧
        m'.cases = m.cases ++ values.map (⟨label, clause, ·⟩))
      (values.forM (fun value => insert ⟨label, clause, value⟩) m)
  | [], m => ⟨rfl, by simp⟩
  | value :: values, m => by
    refine (insert_ends ⟨label, clause, value⟩ m).next ?_
    rintro _ _ rfl
    exact (insertAll_ends clause label values _).mono fun _ m' ⟨default_eq, cases_eq⟩ =>
      ⟨default_eq, by rw [cases_eq]; simp [append]⟩

theorem setDefault_ends (m : CaseMap) (target : CaseTarget) :
    Ends Error.IsFault (fun _ m' => m.default = none ∧ m' = { m with default := some target })
      (setDefault target m) := by
  unfold setDefault
  cases m.default with
  | some _ => exact (rfl : Error.duplicateDefault.isInternal = false)
  | none => exact ⟨rfl, rfl⟩

theorem get_faults (m : CaseMap) (value : Literal) : ReportsFaults (m.get value) := by
  unfold get
  split
  · exact .ok _
  · exact .error rfl

theorem addClause_faults (m : CaseMap) (clause : Nat) (label : Label) (kind : ClauseKind) :
    Ends Error.IsFault (fun _ _ => True) (addClause clause label kind m) := by
  cases kind with
  | case values => exact (insertAll_ends clause label values m).mono fun _ _ _ => trivial
  | default => exact (setDefault_ends m _).mono fun _ _ _ => trivial

end CaseMap

theorem Lower.requireDefault_faults (m : CaseMap) : ReportsFaults (Lower.requireDefault m) := by
  unfold Lower.requireDefault
  split
  · exact .ok _
  · exact .error rfl

theorem LabelScopes.scopesOf_faults (t : LabelScopes) (name : String) :
    ReportsFaults (t.scopesOf name) := by
  unfold scopesOf
  split
  · exact .ok _
  · exact .error rfl

theorem LabelScopes.collect_faults (body : List Stmt) : ReportsFaults (collect body) := by
  unfold collect
  dsimp only
  split
  · exact .error rfl
  · exact .ok _

theorem Gotos.finish_faults (g : Gotos) : ReportsFaults g.finish := by
  unfold finish
  split
  · exact .ok _
  · exact .error rfl

end FlatCode
