import FlatCode.Proofs.Control.Machine

/-! What a procedure tree means where it only calls and branches. A statement takes the calls
made so far to the calls made when it is left, and to the way it is left. Every loop goes around
at most a given number of times, so the meaning is a function; a run that needs more rounds is
cut off, and counts as not finished. -/
namespace FlatCode
open Code Symbols Ast

inductive Flow where
  | next
  | break_
  | continue_
  | gotoCase (value : Literal)
  | gotoDefault
  | return_
  deriving DecidableEq

abbrev Outcome := History × Option Flow

namespace Outcome

def andThen (o : Outcome) (rest : History → Outcome) : Outcome :=
  match o with
  | (h, some .next) => rest h
  | o => o

/-- A `continue` ends the round like the end of the body does. -/
def endRound : Outcome → Outcome
  | (h, some .continue_) => (h, some .next)
  | o => o

/-- At most so many rounds of a loop. A round that does not end with `next` is the last. -/
def loop (round : History → Outcome) : Nat → History → Outcome
  | 0, h => (h, none)
  | n + 1, h =>
    match round h with
    | (h, some .next) => loop round n h
    | (h, some .break_) => (h, some .next)
    | o => o

end Outcome

namespace Ast

def Clause.values (c : Clause) : List Literal :=
  match c.kind with
  | .case values => values
  | .default => []

def Clause.hasCase (value : Literal) (c : Clause) : Bool := c.values.contains value

def Clause.isDefault (c : Clause) : Bool := c.kind = .default

def Clause.accepts (v : Int) (c : Clause) : Bool :=
  c.values.any fun value => value.integer? = some v

/-- The clause that a value selects: the one that has it, or else the default. -/
def selectClause (v : Int) (clauses : List Clause) : Option Nat :=
  match clauses.findIdx? (Clause.accepts v) with
  | some i => some i
  | none => clauses.findIdx? Clause.isDefault

/-- Runs a switch from a clause on, where `run` runs the clauses from one on. A jump to a case
starts again, at most so many times in all. -/
def runSwitch (clauses : List Clause) (run : Nat → History → Outcome) :
    Nat → Option Nat → History → Outcome
  | _, none, h => (h, some .next)
  | 0, some _, h => (h, none)
  | n + 1, some i, h =>
    match run i h with
    | (h, some .next) | (h, some .break_) => (h, some .next)
    | (h, some (.gotoCase value)) =>
      runSwitch clauses run n (clauses.findIdx? (Clause.hasCase value)) h
    | (h, some .gotoDefault) => runSwitch clauses run n (clauses.findIdx? Clause.isDefault) h
    | o => o

end Ast

def Symbols.TypeKind.read (kind : TypeKind) (v : Int) : Int :=
  match kind with
  | .integer w => (BitVec.ofInt w.bits v).toInt
  | .unsignedInteger w => (BitVec.ofInt w.bits v).toNat
  | _ => v

namespace Ast

def Expr.perform (symbols : SymbolTable) (e : Expr) (h : History) : History :=
  match e with
  | .call _ f [] _ =>
    match symbols.functionSymbol f with
    | .ok symbol => h ++ [⟨.direct symbol.name, []⟩]
    | .error _ => h
  | _ => h

/-- The truth of a condition, and the calls made behind it. Truth values have eight bits. -/
def Expr.holds (symbols : SymbolTable) (oracle : Oracle) : Expr → History → Bool × History
  | .literal _ (.bool b), h => (b, h)
  | .unary _ _ operand, h =>
    let inner := operand.holds symbols oracle h
    (!inner.1, inner.2)
  | .conjunction _ lhs rhs, h =>
    let left := lhs.holds symbols oracle h
    if left.1 then rhs.holds symbols oracle left.2 else left
  | .disjunction _ lhs rhs, h =>
    let left := lhs.holds symbols oracle h
    if left.1 then left else rhs.holds symbols oracle left.2
  | e, h =>
    let h := e.perform symbols h
    (IntWidth.w8.pattern (oracle h) ≠ 0, h)

theorem Expr.holds_call (symbols : SymbolTable) (oracle : Oracle) (ty : TypeId) (f : FunctionId)
    (arguments : List Expr) (isVirtual : Bool) (h : History) :
    (Expr.call ty f arguments isVirtual).holds symbols oracle h =
      (decide (IntWidth.w8.pattern
          (oracle ((Expr.call ty f arguments isVirtual).perform symbols h)) ≠ 0),
        (Expr.call ty f arguments isVirtual).perform symbols h) := rfl

def Expr.test (symbols : SymbolTable) (oracle : Oracle) (e : Expr) (h : History) : Outcome :=
  let truth := e.holds symbols oracle h
  (truth.2, some (if truth.1 then .next else .break_))

def Expr.number (symbols : SymbolTable) (oracle : Oracle) (e : Expr) (h : History) : Int :=
  match symbols.typeKind e.ty with
  | .ok kind => kind.read (oracle h)
  | .error _ => oracle h

section Meaning
variable (symbols : SymbolTable) (oracle : Oracle) (rounds : Nat)

def forRound (e increment : Option Expr) (body : History → Outcome) (h : History) : Outcome :=
  Outcome.andThen ((e.map (Expr.test symbols oracle)).getD (fun h => (h, some .next)) h) fun h =>
    (body h).endRound.andThen fun h =>
      ((increment.map (Expr.perform symbols)).getD id h, some .next)

mutual
def Stmt.exec : Stmt → History → Outcome
  | .compound body, h => execAll body h
  | .expression e, h => (e.perform symbols h, some .next)
  | .ifElse e then_ none, h =>
    let truth := e.holds symbols oracle h
    if truth.1 then then_.exec truth.2 else (truth.2, some .next)
  | .ifElse e then_ (some else_), h =>
    let truth := e.holds symbols oracle h
    if truth.1 then then_.exec truth.2 else else_.exec truth.2
  | .whileLoop e body, h =>
    Outcome.loop (fun h => (e.test symbols oracle h).andThen fun h => (body.exec h).endRound)
      rounds h
  | .doWhile body e, h =>
    Outcome.loop (fun h => (body.exec h).endRound.andThen (e.test symbols oracle)) rounds h
  | .forLoop none e increment body, h =>
    Outcome.loop (forRound symbols oracle e increment body.exec) rounds h
  | .forLoop (some init) e increment body, h =>
    (init.exec h).andThen
      (Outcome.loop (forRound symbols oracle e increment body.exec) rounds)
  | .switch e clauses, h =>
    let h := e.perform symbols h
    runSwitch clauses (execFrom clauses) rounds
      (selectClause (e.number symbols oracle h) clauses) h
  | .return_ _, h => (h, some .return_)
  | .break_, h => (h, some .break_)
  | .continue_, h => (h, some .continue_)
  | .gotoCase value, h => (h, some (.gotoCase value))
  | .gotoDefault, h => (h, some .gotoDefault)
  | _, h => (h, some .next)
def execAll : List Stmt → History → Outcome
  | [], h => (h, some .next)
  | s :: rest, h => (s.exec h).andThen (execAll rest)
def execFrom : List Clause → Nat → History → Outcome
  | [], _, h => (h, some .next)
  | .mk _ body :: rest, 0, h => (execAll body h).andThen (execFrom rest 0)
  | _ :: rest, i + 1, h => execFrom rest i h
end

end Meaning

def traceCall (options : Options) (function name : String) : History :=
  if options.traceCalls then [⟨.direct function, [Imm.fn name]⟩] else []

def Function.name (symbols : SymbolTable) (f : Function) : String :=
  match symbols.functionSymbol f.function with
  | .ok symbol => symbol.name
  | .error _ => ""

/-- The calls a function makes, up to a number of rounds of each loop, and whether it returned. -/
def Function.calls (symbols : SymbolTable) (options : Options) (oracle : Oracle) (f : Function)
    (rounds : Nat) : History × Bool :=
  match execAll symbols oracle rounds f.body (traceCall options traceEnter (f.name symbols)) with
  | (h, none) => (h, false)
  | (h, some _) => (h ++ traceCall options traceLeave (f.name symbols), true)

section Fragment
variable (symbols : SymbolTable)

/-- A call that passes nothing: no arguments, no slot for its result and no status. -/
def Expr.isCall : Expr → Bool
  | .call _ f [] _ =>
    match symbols.functionSymbol f with
    | .ok g => g.operator.isNone && !g.canRaise && !g.returnsByHiddenSlot
    | .error _ => false
  | _ => false

variable {symbols} in
theorem Expr.isCall_cases {e : Expr} (h : e.isCall symbols) :
    ∃ ty f isVirtual g, e = .call ty f [] isVirtual ∧ symbols.functionSymbol f = .ok g ∧
      g.operator = none ∧ g.canRaise = false ∧ g.returnsByHiddenSlot = false := by
  cases e with
  | call ty f arguments isVirtual =>
    cases arguments with
    | cons _ _ => cases h
    | nil =>
      cases hf : symbols.functionSymbol f with
      | error _ => simp [Expr.isCall, hf] at h
      | ok g =>
        simp only [Expr.isCall, hf, Bool.and_eq_true, Option.isNone_iff_eq_none,
          Bool.not_eq_true'] at h
        exact ⟨ty, f, isVirtual, g, rfl, hf, h.1.1, h.1.2, h.2⟩
  | _ => cases h

def Expr.resultKind? : Expr → Option TypeKind
  | .call _ f _ _ =>
    match symbols.functionSymbol f with
    | .ok g => (symbols.typeKind g.returnType).toOption
    | .error _ => none
  | _ => none

def Expr.isCondition : Expr → Bool
  | .literal _ (.bool _) => true
  | .unary _ f operand =>
    (match symbols.functionSymbol f with
      | .ok g => g.operator = some .logicalNot
      | .error _ => false) && operand.isCondition
  | .conjunction _ lhs rhs => lhs.isCondition && rhs.isCondition
  | .disjunction _ lhs rhs => lhs.isCondition && rhs.isCondition
  | e => e.isCall symbols && e.resultKind? symbols = some .bool

/-- The least and the largest number that a call of an integer function returns, if the type of
the expression is the one that the function returns. -/
def Expr.integerRange? : Expr → Option (Int × Int)
  | .call ty f _ _ =>
    match symbols.functionSymbol f with
    | .ok g =>
      if g.returnType = ty then
        match symbols.typeKind ty with
        | .ok (.integer w) => Fold.range? (.integer w)
        | .ok (.unsignedInteger w) => Fold.range? (.unsignedInteger w)
        | _ => none
      else none
    | .error _ => none
  | _ => none

def Literal.isCaseOf (range : Int × Int) : Literal → Bool
  | .signed v => range.1 ≤ v.toInt && v.toInt ≤ range.2
  | _ => false

/-- A number is selected on, and every case is one that it can be equal to. -/
def isSelection (e : Expr) (clauses : List Clause) : Bool :=
  e.isCall symbols &&
    match e.integerRange? symbols with
    | some range => clauses.all fun c => c.values.all (Literal.isCaseOf range)
    | none => false

mutual
def Stmt.isControl : Stmt → Bool
  | .compound body => allControl body
  | .expression e => e.isCall symbols
  | .ifElse e then_ none => e.isCondition symbols && then_.isControl
  | .ifElse e then_ (some else_) => e.isCondition symbols && then_.isControl && else_.isControl
  | .whileLoop e body => e.isCondition symbols && body.isControl
  | .doWhile body e => body.isControl && e.isCondition symbols
  | .forLoop none e increment body =>
    e.all (Expr.isCondition symbols) && increment.all (Expr.isCall symbols) && body.isControl
  | .forLoop (some init) e increment body =>
    init.isControl && e.all (Expr.isCondition symbols) && increment.all (Expr.isCall symbols) &&
      body.isControl
  | .switch e clauses => isSelection symbols e clauses && clausesControl clauses
  | .return_ value => value.isNone
  | .break_ | .continue_ | .gotoDefault | .empty => true
  | .gotoCase (.signed _) => true
  | _ => false
def allControl : List Stmt → Bool
  | [] => true
  | s :: rest => s.isControl && allControl rest
def clausesControl : List Clause → Bool
  | [] => true
  | .mk _ body :: rest => allControl body && clausesControl rest
end

end Fragment
end Ast
end FlatCode
