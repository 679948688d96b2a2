import FlatCode.Proofs.Lifetime.Source
import FlatCode.Proofs.Truth.Machine

/-! What boolean expressions mean: truth values, calls, negation and the two connectives. The
arguments of a call are boolean again, or temporaries that are built for the call. Evaluation
takes the calls made so far to a value and the calls made when it is known. -/
namespace FlatCode
open Code Symbols Ast

namespace Symbols.SymbolTable
variable (symbols : SymbolTable)

def isCalm (f : FunctionId) : Bool :=
  match symbols.functionSymbol f with
  | .ok g => !g.canRaise
  | .error _ => false

def isPlain (f : FunctionId) : Bool :=
  match symbols.functionSymbol f with
  | .ok g => g.operator.isNone && !g.canRaise && !g.returnsByHiddenSlot
  | .error _ => false

def isNegation (f : FunctionId) : Bool :=
  match symbols.functionSymbol f with
  | .ok g => g.operator = some .logicalNot
  | .error _ => false

def nameOf? (f : FunctionId) : Option String :=
  (symbols.functionSymbol f).toOption.map FunctionSymbol.name

def destructorFor? (v : VariableId) : Option FunctionId :=
  (symbols.variableSymbol v).toOption.bind fun x => symbols.destructor? x.ty

variable {symbols}

theorem isCalm_iff {f : FunctionId} : symbols.isCalm f ↔
    ∃ g, symbols.functionSymbol f = .ok g ∧ g.canRaise = false := by
  unfold isCalm
  cases symbols.functionSymbol f <;> simp

theorem isPlain_iff {f : FunctionId} : symbols.isPlain f ↔
    ∃ g, symbols.functionSymbol f = .ok g ∧ g.operator = none ∧ g.canRaise = false ∧
      g.returnsByHiddenSlot = false := by
  unfold isPlain
  cases symbols.functionSymbol f <;> simp [and_assoc]

theorem isNegation_iff {f : FunctionId} : symbols.isNegation f ↔
    ∃ g, symbols.functionSymbol f = .ok g ∧ g.operator = some .logicalNot := by
  unfold isNegation
  cases symbols.functionSymbol f <;> simp

theorem nameOf?_eq {f : FunctionId} {g : FunctionSymbol} (h : symbols.functionSymbol f = .ok g) :
    symbols.nameOf? f = some g.name := by
  unfold nameOf?
  rw [h]
  rfl

end Symbols.SymbolTable

namespace Truth

section Fragment
variable (symbols : SymbolTable)

mutual
def isBoolean : Expr → Bool
  | .literal _ (.bool _) => true
  | .unary _ f operand => symbols.isNegation f && isBoolean operand
  | .conjunction _ lhs rhs => isBoolean lhs && isBoolean rhs
  | .disjunction _ lhs rhs => isBoolean lhs && isBoolean rhs
  | .call _ f arguments _ => symbols.isPlain f && areArguments arguments
  | _ => false
def isObject : Expr → Bool
  | .temporary ty v ctor arguments destroy =>
    (symbols.isClass ty).toOption = some true && symbols.isPlain ctor &&
      (!destroy || (symbols.destructorFor? v).all symbols.isCalm) && areArguments arguments
  | _ => false
def areArguments : List Expr → Bool
  | [] => true
  | e :: es => (isBoolean e || isObject e) && areArguments es
end

end Fragment

/-- The bits of a value and the calls made when it is known, given the calls made before. -/
abbrev Evaluation := Log → Nat × Log

def bit (b : Bool) : Nat := b.toNat

def isTrue (bits : Nat) : Bool := decide (bits ≠ 0)

@[simp] theorem isTrue_bit (b : Bool) : isTrue (bit b) = b := by cases b <;> rfl

def finish (e : Evaluation) (calls : Log) : Evaluation := fun h => ((e h).1, (e h).2 ++ calls)

def negate (e : Evaluation) : Evaluation := fun h => (bit (!isTrue (e h).1), (e h).2)

/-- The second evaluation is made only if the first one ends with the given truth. -/
def connect (on : Bool) (first second : Evaluation) : Evaluation := fun h =>
  if isTrue (first h).1 = on then
    (bit (isTrue (second (first h).2).1), (second (first h).2).2)
  else (bit (!on), (first h).2)

section Meaning
variable (symbols : SymbolTable) (address : VariableId → Nat) (results : Log → Nat)

def destruction (v : VariableId) : Log :=
  (symbols.destructorFor? v).toList.map fun d => ⟨symbols.nameOf? d, [address v]⟩

mutual
/-- The destructor calls that are due when the expression around an expression ends: the object
that was built last is destroyed first. A connective leaves none behind. -/
def due : Expr → Log
  | .temporary _ v _ arguments destroy =>
    (if destroy then destruction symbols address v else []) ++ dueAll arguments
  | .call _ _ arguments _ => dueAll arguments
  | .unary _ _ operand => due operand
  | _ => []
def dueAll : List Expr → Log
  | [] => []
  | e :: es => dueAll es ++ due e
end

mutual
/-- Evaluation from left to right. An operand of a connective is evaluated if the one before it
does not decide, and its temporaries are destroyed right behind it. -/
def evaluate : Expr → Evaluation
  | .literal _ (.bool b) => fun h => (bit b, h)
  | .unary _ _ operand => negate (evaluate operand)
  | .conjunction _ lhs rhs =>
    connect true (finish (evaluate lhs) (due symbols address lhs))
      (finish (evaluate rhs) (due symbols address rhs))
  | .disjunction _ lhs rhs =>
    connect false (finish (evaluate lhs) (due symbols address lhs))
      (finish (evaluate rhs) (due symbols address rhs))
  | .call _ f arguments isVirtual => fun h =>
    let passed := evaluateAll arguments h
    let log := passed.2 ++ [⟨if isVirtual then none else symbols.nameOf? f, passed.1⟩]
    (results log, log)
  | .temporary _ v ctor arguments _ => fun h =>
    let passed := evaluateAll arguments h
    (address v, passed.2 ++ [⟨symbols.nameOf? ctor, address v :: passed.1⟩])
  | _ => fun h => (0, h)
def evaluateAll : List Expr → Log → List Nat × Log
  | [], h => ([], h)
  | e :: es, h =>
    let first := evaluate e h
    let rest := evaluateAll es first.2
    (first.1 :: rest.1, rest.2)
end

def evaluateFull (e : Expr) : Evaluation :=
  finish (evaluate symbols address results e) (due symbols address e)

end Meaning
end Truth
end FlatCode
