import FlatCode.Proofs.Folding.Arithmetic

/-! Expressions that may fold. Their types are such that every operator gets operands of one type,
and a literal is a value of its type. What such an expression folds to is a value of its type. -/
namespace FlatCode
open Code Symbols Ast Lower

def Symbols.TypeKind.wordWidth? : TypeKind → Option IntWidth
  | .bool => some .w8
  | .char => some .w32
  | .integer w | .unsignedInteger w => some w
  | _ => none

def Symbols.TypeKind.Has (kind : TypeKind) (n : Int) : Prop :=
  ∃ bounds, Fold.range? kind = some bounds ∧ bounds.1 ≤ n ∧ n ≤ bounds.2

def Symbols.TypeKind.IsPlain (kind : TypeKind) : Prop := ∀ inner, kind ≠ .reference inner

def Const.Fits (kind : TypeKind) : Const → Prop
  | .bool _ => kind = .bool
  | .int n => kind.Has n

def Ast.Literal.Fits (kind : TypeKind) (value : Literal) : Prop :=
  match value with
  | .bool _ => kind = .bool
  | _ => ∃ n, value.integer? = some n ∧ kind.Has n

def Operator.Yields (op : Operator) (operand result : TypeKind) : Prop :=
  if op = .logicalNot ∨ op.isComparison then result = .bool
  else if op = .convert then result.IsPlain
  else result = operand

namespace Symbols.SymbolTable
variable (table : SymbolTable)

def StandsFor (f : FunctionId) (op : Operator) : Prop :=
  ∃ symbol, table.functionSymbol f = .ok symbol ∧ symbol.operator = some op

/-- Literals, operators and connectives that are put together by their types. -/
inductive Typed : Expr → TypeKind → Prop where
  | literal {ty : TypeId} {value : Literal} {kind : TypeKind} : table.typeKind ty = .ok kind →
    value.Fits kind → Typed (.literal ty value) kind
  | unary {ty : TypeId} {f : FunctionId} {op : Operator} {operand : Expr} {k kind : TypeKind} :
    table.typeKind ty = .ok kind → table.StandsFor f op → Typed operand k → op.Yields k kind →
    Typed (.unary ty f operand) kind
  | conversion {ty : TypeId} {f : FunctionId} {op : Operator} {operand : Expr}
    {k kind : TypeKind} :
    table.typeKind ty = .ok kind → table.StandsFor f op → Typed operand k → op.Yields k kind →
    Typed (.conversion ty f operand) kind
  | binary {ty : TypeId} {f : FunctionId} {op : Operator} {lhs rhs : Expr} {k kind : TypeKind} :
    table.typeKind ty = .ok kind → table.StandsFor f op → Typed lhs k → Typed rhs k →
    op.Yields k kind → Typed (.binary ty f lhs rhs) kind
  | conjunction {ty : TypeId} {lhs rhs : Expr} {k k' : TypeKind} :
    table.typeKind ty = .ok .bool → Typed lhs k → Typed rhs k' →
    Typed (.conjunction ty lhs rhs) .bool
  | disjunction {ty : TypeId} {lhs rhs : Expr} {k k' : TypeKind} :
    table.typeKind ty = .ok .bool → Typed lhs k → Typed rhs k' →
    Typed (.disjunction ty lhs rhs) .bool

variable {table}

theorem plainType_of_plain {t : TypeId} {kind : TypeKind} (hk : table.typeKind t = .ok kind)
    (plain : kind.IsPlain) : table.plainType t = .ok t := by
  unfold plainType
  rw [hk]
  cases kind with
  | reference inner => exact absurd rfl (plain inner)
  | _ => rfl

theorem codeType_word {t : TypeId} {kind : TypeKind} {w : IntWidth}
    (hk : table.typeKind t = .ok kind) (hw : kind.wordWidth? = some w) :
    table.codeType t = .ok (.int w) := by
  unfold codeType codeTypeWithin
  rw [hk]
  cases kind <;> cases hw <;> rfl

end Symbols.SymbolTable

section Fits
variable {table : SymbolTable} {kind : TypeKind} {c d : Const} {m n : Int} {ty : TypeId}

theorem Symbols.TypeKind.Has.plain (h : kind.Has n) : kind.IsPlain := by
  rintro inner rfl
  obtain ⟨_, bounds, -⟩ := h
  cases bounds

theorem Symbols.TypeKind.Has.holds (h : kind.Has n) :
    ∃ w, kind.wordWidth? = some w ∧ (numeric kind).Holds w n := by
  obtain ⟨bounds, range, least, largest⟩ := h
  cases kind with
  | integer w =>
    cases range
    exact ⟨w, rfl, by simpa using least, by simpa using Int.lt_of_le_sub_one largest⟩
  | unsignedInteger w =>
    cases range
    exact ⟨w, rfl, least, by simpa using Int.lt_of_le_sub_one largest⟩
  | char =>
    cases range
    exact ⟨.w32, rfl, least, Int.lt_of_le_of_lt largest (by decide)⟩
  | _ => cases range

theorem Const.Fits.plain (h : c.Fits kind) : kind.IsPlain := by
  cases c with
  | bool b =>
    cases h
    exact nofun
  | int n => exact TypeKind.Has.plain h

theorem Const.Fits.holds (h : c.Fits kind) :
    ∃ w, kind.wordWidth? = some w ∧ (numeric kind).Holds w (Fold.integer c) := by
  cases c with
  | bool b =>
    cases h
    refine ⟨.w8, rfl, ?_⟩
    cases b <;> exact ⟨by decide, by decide⟩
  | int n => exact TypeKind.Has.holds h

theorem Ast.Literal.Fits.fold {value : Literal} (h : value.Fits kind)
    (folds : Fold.literal value = .ok c) : c.Fits kind := by
  cases value with
  | bool b =>
    cases folds
    exact h
  | char | signed | unsigned =>
    cases folds
    obtain ⟨_, ⟨rfl⟩, has⟩ := h
    exact has
  | float | null => cases folds

namespace Fold

variable {context : String} {op : Operator}

theorem ask_ok (a : α) : ask (.ok a) = .ok a := rfl

theorem fit_ok (hk : table.typeKind ty = .ok kind) (plain : kind.IsPlain)
    (h : fit table n ty = .ok c) : c = .int n ∧ kind.Has n := by
  unfold fit at h
  rw [SymbolTable.plainType_of_plain hk plain] at h
  simp only [ask_ok, bind, Except.bind, hk] at h
  cases range : range? kind with
  | none =>
    rw [range] at h
    cases h
  | some bounds =>
    rw [range] at h
    dsimp only at h
    split at h
    · rename_i inside
      exact ⟨(Except.ok.inj h).symm, bounds, range, inside⟩
    · cases h

theorem convert_ok (hk : table.typeKind ty = .ok kind) (plain : kind.IsPlain)
    (h : convert table c ty = .ok d) :
    kind = .bool ∧ d = .bool (integer c ≠ 0) ∨ d = .int (integer c) ∧ kind.Has (integer c) := by
  unfold convert at h
  rw [SymbolTable.plainType_of_plain hk plain] at h
  simp only [ask_ok, bind, Except.bind, hk] at h
  split at h
  · exact .inl ⟨rfl, (Except.ok.inj h).symm⟩
  · exact .inr (fit_ok hk plain h)

theorem negate_ok (hk : table.typeKind ty = .ok kind) (plain : kind.IsPlain)
    (h : unary table context ty .negate c = .ok d) :
    d = .int (-integer c) ∧ kind.Has (-integer c) := by
  unfold unary at h
  cases negated : within128 (-integer c) with
  | error _ =>
    rw [negated] at h
    cases h
  | ok v =>
    rw [negated] at h
    obtain rfl := within128_ok negated
    exact fit_ok hk plain h

theorem compare?_some {value : Bool} (h : compare? op m n = some value) :
    op.isComparison = true ∧ ∃ predicate, op.predicate? = some predicate := by
  cases op with
  | equals | notEquals | lessThan | lessThanOrEqualTo | greaterThan | greaterThanOrEqualTo =>
    exact ⟨rfl, _, rfl⟩
  | _ => cases h

theorem arithmetic_ok {v : Int} (h : arithmetic context op m n = .ok v) :
    op.predicate? = none ∧ (∃ binary, op.binary? = some binary) ∧
      ∀ k kind, op.Yields k kind → kind = k := by
  cases op with
  | add | subtract | multiply | divide | remainder | bitwiseAnd | bitwiseOr | bitwiseXor =>
    exact ⟨rfl, ⟨_, rfl⟩, fun _ _ yields => yields⟩
  | _ => cases h

theorem unary_fits {k : TypeKind} {d : Const} (hk : table.typeKind ty = .ok kind)
    (yields : op.Yields k kind) (fits : c.Fits k) (h : unary table context ty op c = .ok d) :
    d.Fits kind := by
  cases op with
  | logicalNot =>
    cases c with
    | int _ => cases h
    | bool b =>
      cases h
      exact yields
  | unaryPlus =>
    cases h
    obtain rfl : kind = k := yields
    exact fits
  | negate =>
    obtain rfl : kind = k := yields
    obtain ⟨rfl, has⟩ := negate_ok hk fits.plain h
    exact has
  | convert =>
    rcases convert_ok hk yields h with ⟨rfl, rfl⟩ | ⟨rfl, has⟩
    · exact rfl
    · exact has
  | _ => cases h

theorem binary_fits {k : TypeKind} {d : Const} (hk : table.typeKind ty = .ok kind)
    (yields : op.Yields k kind) (fits : c.Fits k) (h : binary table context ty op m n = .ok d) :
    d.Fits kind := by
  unfold binary at h
  cases compares : compare? op m n with
  | some value =>
    rw [compares] at h
    cases h
    exact (if_pos (.inr (compare?_some compares).1)).mp yields
  | none =>
    rw [compares] at h
    cases calculates : arithmetic context op m n with
    | error _ =>
      rw [calculates] at h
      cases h
    | ok v =>
      rw [calculates] at h
      obtain rfl := (arithmetic_ok calculates).2.2 k kind yields
      obtain ⟨rfl, has⟩ := fit_ok hk fits.plain h
      exact has

end Fold
end Fits

section Typed
variable {table : SymbolTable} {kind : TypeKind} {c : Const} {ty : TypeId} {f : FunctionId}
  {op : Operator} {operand lhs rhs : Expr}
open Symbols.SymbolTable

theorem Fold.operatorOf_standsFor (h : table.StandsFor f op) (context : String) :
    operatorOf table context f = .ok op := by
  obtain ⟨symbol, found, operator⟩ := h
  unfold operatorOf
  rw [found]
  cases symbol
  dsimp only at operator
  subst operator
  rfl

theorem Fold.of_bind {x : Fold.Result α} {g : α → Fold.Result β} {b : β}
    (h : (x >>= g) = .ok b) : ∃ a, x = .ok a ∧ g a = .ok b := by
  cases x with
  | error _ => cases h
  | ok a => exact ⟨a, rfl, h⟩

namespace Ast.Expr

theorem fold_unary (h : table.StandsFor f op) (folds : (unary ty f operand).fold table = .ok c) :
    ∃ d, operand.fold table = .ok d ∧ Fold.unary table "unary" ty op d = .ok c := by
  rw [fold, Fold.operatorOf_standsFor h] at folds
  exact Fold.of_bind folds

theorem fold_conversion (h : table.StandsFor f op)
    (folds : (conversion ty f operand).fold table = .ok c) :
    ∃ d, operand.fold table = .ok d ∧ Fold.unary table "conversion" ty op d = .ok c := by
  rw [fold, Fold.operatorOf_standsFor h] at folds
  exact Fold.of_bind folds

theorem fold_binary (h : table.StandsFor f op) (folds : (binary ty f lhs rhs).fold table = .ok c) :
    ∃ d d', lhs.fold table = .ok d ∧ rhs.fold table = .ok d' ∧
      Fold.binary table "binary" ty op (Fold.integer d) (Fold.integer d') = .ok c := by
  rw [fold, Fold.operatorOf_standsFor h] at folds
  obtain ⟨d, hd, rest⟩ := Fold.of_bind (x := lhs.fold table) folds
  obtain ⟨d', hd', result⟩ := Fold.of_bind rest
  exact ⟨d, d', hd, hd', result⟩

theorem fold_conjunction (folds : (conjunction ty lhs rhs).fold table = .ok c) :
    ∃ v, c = .bool v := by
  rw [fold] at folds
  obtain ⟨d, -, left⟩ := Fold.of_bind folds
  obtain ⟨v, -, rest⟩ := Fold.of_bind left
  cases v with
  | false => exact ⟨false, (Except.ok.inj rest).symm⟩
  | true =>
    obtain ⟨d', -, right⟩ := Fold.of_bind rest
    obtain ⟨v, -, result⟩ := Fold.of_bind right
    exact ⟨v, (Except.ok.inj result).symm⟩

theorem fold_disjunction (folds : (disjunction ty lhs rhs).fold table = .ok c) :
    ∃ v, c = .bool v := by
  rw [fold] at folds
  obtain ⟨d, -, left⟩ := Fold.of_bind folds
  obtain ⟨v, -, rest⟩ := Fold.of_bind left
  cases v with
  | true => exact ⟨true, (Except.ok.inj rest).symm⟩
  | false =>
    obtain ⟨d', -, right⟩ := Fold.of_bind rest
    obtain ⟨v, -, result⟩ := Fold.of_bind right
    exact ⟨v, (Except.ok.inj result).symm⟩

end Ast.Expr

theorem Symbols.SymbolTable.Typed.typeKind {e : Expr} (h : table.Typed e kind) :
    table.typeKind e.ty = .ok kind := by
  cases h <;> assumption

theorem Symbols.SymbolTable.Typed.fits {e : Expr} (h : table.Typed e kind)
    (folds : e.fold table = .ok c) : c.Fits kind := by
  induction h generalizing c with
  | literal _ fits => exact fits.fold folds
  | unary hk stands _ yields ih =>
    obtain ⟨d, hd, result⟩ := Expr.fold_unary stands folds
    exact Fold.unary_fits hk yields (ih hd) result
  | conversion hk stands _ yields ih =>
    obtain ⟨d, hd, result⟩ := Expr.fold_conversion stands folds
    exact Fold.unary_fits hk yields (ih hd) result
  | binary hk stands _ _ yields ih _ =>
    obtain ⟨d, d', hd, -, result⟩ := Expr.fold_binary stands folds
    exact Fold.binary_fits hk yields (ih hd) result
  | conjunction =>
    obtain ⟨v, rfl⟩ := Expr.fold_conjunction folds
    exact rfl
  | disjunction =>
    obtain ⟨v, rfl⟩ := Expr.fold_disjunction folds
    exact rfl

end Typed
end FlatCode
