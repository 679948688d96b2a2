import FlatCode.Ast.Walk
import FlatCode.Goto

/-! Where the statements of a body stand. Objects belong to a compound, or to a `for` loop if its
initializer builds them; the scopes around a statement are told apart by the order in which they
are entered. The list of all statements with the scopes around them is what the visitor of a body
sees, and the labels found before lowering are read off it. -/
namespace FlatCode.Ast

inductive Owner where
  | compound (id : ScopeId)
  | loop (index : Nat)
  deriving DecidableEq

def Owner.compound? : Owner → Option ScopeId
  | compound id => some id
  | loop _ => none

def compoundsOf (around : List Owner) : List ScopeId := around.filterMap Owner.compound?

structure Tally where
  compounds : Nat
  loops : Nat

namespace Tally

def compound (t : Tally) : Owner := .compound ⟨t.compounds⟩

def loop (t : Tally) : Owner := .loop t.loops

def enter (t : Tally) : Tally := { t with compounds := t.compounds + 1 }

def enterLoop (t : Tally) : Tally := { t with loops := t.loops + 1 }

end Tally

mutual
def Stmt.tally (t : Tally) : Stmt → Tally
  | .compound body => Stmt.tallyAll t.enter body
  | .ifElse _ then_ none => then_.tally t
  | .ifElse _ then_ (some else_) => else_.tally (then_.tally t)
  | .whileLoop _ body | .doWhile body _ => body.tally t
  | .forLoop none _ _ body => body.tally t.enterLoop
  | .forLoop (some init) _ _ body => body.tally (init.tally t.enterLoop)
  | .switch _ clauses => Clause.tallyAll t clauses
  | .labeled _ statement => statement.tally t
  | .try_ body handler => Stmt.tallyAll (Stmt.tallyAll t.enter body).enter handler
  | _ => t
def Stmt.tallyAll (t : Tally) : List Stmt → Tally
  | [] => t
  | s :: rest => Stmt.tallyAll (s.tally t) rest
def Clause.tallyAll (t : Tally) : List Clause → Tally
  | [] => t
  | .mk _ body :: rest => Clause.tallyAll (Stmt.tallyAll t.enter body) rest
end

abbrev Spot := List Owner × Stmt

mutual
def Stmt.spots (around : List Owner) (t : Tally) (s : Stmt) : List Spot :=
  (around, s) ::
    match s with
    | .compound body => Stmt.spotsAll (around ++ [t.compound]) t.enter body
    | .ifElse _ then_ none => then_.spots around t
    | .ifElse _ then_ (some else_) => then_.spots around t ++ else_.spots around (then_.tally t)
    | .whileLoop _ body | .doWhile body _ => body.spots around t
    | .forLoop none _ _ body => body.spots (around ++ [t.loop]) t.enterLoop
    | .forLoop (some init) _ _ body =>
      init.spots (around ++ [t.loop]) t.enterLoop ++
        body.spots (around ++ [t.loop]) (init.tally t.enterLoop)
    | .switch _ clauses => Clause.spotsAll around t clauses
    | .labeled _ statement => statement.spots around t
    | .try_ body handler =>
      let t' := Stmt.tallyAll t.enter body
      Stmt.spotsAll (around ++ [t.compound]) t.enter body ++
        Stmt.spotsAll (around ++ [t'.compound]) t'.enter handler
    | _ => []
def Stmt.spotsAll (around : List Owner) (t : Tally) : List Stmt → List Spot
  | [] => []
  | s :: rest => s.spots around t ++ Stmt.spotsAll around (s.tally t) rest
def Clause.spotsAll (around : List Owner) (t : Tally) : List Clause → List Spot
  | [] => []
  | .mk _ body :: rest =>
    Stmt.spotsAll (around ++ [t.compound]) t.enter body ++
      Clause.spotsAll around (Stmt.tallyAll t.enter body) rest
end

/-- All statements of a body. The body itself is the first compound. -/
def spots (body : List Stmt) : List Spot :=
  Stmt.spotsAll [.compound ⟨0⟩] ⟨1, 0⟩ body

section Order

def Node.stmt? : Node → Option Stmt
  | .stmt s => some s
  | _ => none

def stmtsOf (visits : List Visit) : List Stmt := visits.filterMap fun v => v.2.stmt?

@[simp] theorem stmtsOf_nil : stmtsOf [] = [] := rfl

@[simp] theorem stmtsOf_cons_stmt (depth : Nat) (s : Stmt) (visits : List Visit) :
    stmtsOf ((depth, .stmt s) :: visits) = s :: stmtsOf visits := rfl

@[simp] theorem stmtsOf_cons_compound (depth : Nat) (body : List Stmt) (visits : List Visit) :
    stmtsOf ((depth, .compound body) :: visits) = stmtsOf visits := rfl

@[simp] theorem stmtsOf_cons_clause (depth : Nat) (c : Clause) (visits : List Visit) :
    stmtsOf ((depth, .clause c) :: visits) = stmtsOf visits := rfl

@[simp] theorem stmtsOf_cons_expr (depth : Nat) (e : Expr) (visits : List Visit) :
    stmtsOf ((depth, .expr e) :: visits) = stmtsOf visits := rfl

@[simp] theorem stmtsOf_append (visits more : List Visit) :
    stmtsOf (visits ++ more) = stmtsOf visits ++ stmtsOf more := List.filterMap_append

mutual
@[simp] theorem stmtsOf_walk_expr : ∀ (e : Expr) (depth : Nat), stmtsOf (e.walk depth) = []
  | .literal _ _, _ | .localVariable _ _, _ | .parameter _ _, _ => by simp [Expr.walk]
  | .memberVariable _ operand _, _ | .addressOf _ operand, _ | .dereference _ operand, _
  | .conversion _ _ operand, _ | .unary _ _ operand, _ => by
    simp [Expr.walk, stmtsOf_walk_expr operand]
  | .binary _ _ lhs rhs, _ | .conjunction _ lhs rhs, _ | .disjunction _ lhs rhs, _ => by
    simp [Expr.walk, stmtsOf_walk_expr lhs, stmtsOf_walk_expr rhs]
  | .call _ _ arguments _, _ | .temporary _ _ _ arguments _, _ => by
    simp [Expr.walk, stmtsOf_walk_exprs arguments]
@[simp] theorem stmtsOf_walk_exprs : ∀ (es : List Expr) (depth : Nat),
    stmtsOf (Expr.walkAll depth es) = []
  | [], _ => by simp [Expr.walkAll]
  | e :: es, _ => by simp [Expr.walkAll, stmtsOf_walk_expr e, stmtsOf_walk_exprs es]
end

mutual
theorem map_spots : ∀ (s : Stmt) (around : List Owner) (t : Tally) (depth : Nat),
    (s.spots around t).map Prod.snd = stmtsOf (s.walk depth)
  | .compound body, _, _, depth => by
    simp [Stmt.spots, Stmt.walk, map_spotsAll body _ _ (depth + 2)]
  | .ifElse _ then_ none, _, _, depth => by
    simp [Stmt.spots, Stmt.walk, map_spots then_ _ _ (depth + 1)]
  | .ifElse _ then_ (some else_), _, _, depth => by
    simp [Stmt.spots, Stmt.walk, map_spots then_ _ _ (depth + 1), map_spots else_ _ _ (depth + 1)]
  | .whileLoop _ body, _, _, depth | .doWhile body _, _, _, depth => by
    simp [Stmt.spots, Stmt.walk, map_spots body _ _ (depth + 1)]
  | .forLoop none condition increment body, _, _, depth => by
    cases condition <;> cases increment <;>
      simp [Stmt.spots, Stmt.walk, map_spots body _ _ (depth + 1)]
  | .forLoop (some init) condition increment body, _, _, depth => by
    cases condition <;> cases increment <;>
      simp [Stmt.spots, Stmt.walk, map_spots init _ _ (depth + 1),
        map_spots body _ _ (depth + 1)]
  | .switch _ clauses, _, _, depth => by
    simp [Stmt.spots, Stmt.walk, map_clauseSpots clauses _ _ (depth + 1)]
  | .labeled _ statement, _, _, depth => by
    simp [Stmt.spots, Stmt.walk, map_spots statement _ _ (depth + 1)]
  | .try_ body handler, _, _, depth => by
    simp [Stmt.spots, Stmt.walk, map_spotsAll body _ _ (depth + 2),
      map_spotsAll handler _ _ (depth + 2)]
  | .return_ none, _, _, _ | .return_ (some _), _, _, _ | .expression _, _, _, _
  | .construction _ _ _, _, _, _ | .assignment _ _, _, _, _ | .break_, _, _, _
  | .continue_, _, _, _ | .goto _, _, _, _ | .gotoCase _, _, _, _ | .gotoDefault, _, _, _
  | .destruction _ _, _, _, _ | .throw_ _, _, _, _ | .empty, _, _, _ => by
    simp [Stmt.spots, Stmt.walk]
theorem map_spotsAll : ∀ (body : List Stmt) (around : List Owner) (t : Tally) (depth : Nat),
    (Stmt.spotsAll around t body).map Prod.snd = stmtsOf (Stmt.walkAll depth body)
  | [], _, _, _ => by simp [Stmt.spotsAll, Stmt.walkAll]
  | s :: rest, _, _, depth => by
    simp [Stmt.spotsAll, Stmt.walkAll, map_spots s _ _ depth, map_spotsAll rest _ _ depth]
theorem map_clauseSpots : ∀ (clauses : List Clause) (around : List Owner) (t : Tally)
    (depth : Nat), (Clause.spotsAll around t clauses).map Prod.snd =
      stmtsOf (Clause.walkAll depth clauses)
  | [], _, _, _ => by simp [Clause.spotsAll, Clause.walkAll]
  | .mk _ body :: rest, _, _, depth => by
    simp [Clause.spotsAll, Clause.walkAll, map_spotsAll body _ _ (depth + 2),
      map_clauseSpots rest _ _ depth]
end

theorem map_bodySpots (body : List Stmt) : (spots body).map Prod.snd = stmtsOf (walk body) :=
  map_spotsAll body _ _ 1

end Order

section Labels

def Spot.label? : Spot → Option (String × List ScopeId)
  | (around, .labeled name _) => some (name, compoundsOf around)
  | _ => none

def labelsOf (spots : List Spot) : List (String × List ScopeId) := spots.filterMap Spot.label?

@[simp] theorem labelsOf_nil : labelsOf [] = [] := rfl

@[simp] theorem labelsOf_append (l l' : List Spot) :
    labelsOf (l ++ l') = labelsOf l ++ labelsOf l' := List.filterMap_append

theorem compoundsOf_enter (around : List Owner) (t : Tally) :
    compoundsOf (around ++ [t.compound]) = compoundsOf around ++ [⟨t.compounds⟩] := by
  simp [compoundsOf, Tally.compound, Owner.compound?]

theorem compoundsOf_enterLoop (around : List Owner) (t : Tally) :
    compoundsOf (around ++ [t.loop]) = compoundsOf around := by
  simp [compoundsOf, Tally.loop, Owner.compound?]

def Owner.Before (t : Tally) : Owner → Prop
  | .compound id => id.index < t.compounds
  | .loop index => index < t.loops

/-- The scopes around two places are the same up to a point, and from there on no scope around the
first place is around the second one. -/
def Parts (a b : List Owner) : Prop :=
  ∃ shared left right, a = shared ++ left ∧ b = shared ++ right ∧ ∀ o ∈ left, o ∉ b

open LabelScopes

/-- The scan has come from before a place inside `around` to behind it, with the labels on the way.
The scopes around each statement there are `around` and others entered on the way, and any two
statements share only an outer part of them. -/
structure Scanned (scan : Scan → Scan) (around : List Owner) (t t' : Tally) (found : List Spot) :
    Prop where
  labels : ∀ reversed, scan ⟨t.compounds, reversed⟩ =
    ⟨t'.compounds, (labelsOf found).reverse ++ reversed⟩
  outer : ∀ o ∈ around, o.Before t
  later : ∀ o : Owner, o.Before t → o.Before t'
  inside : ∀ spot ∈ found, ∃ inner, spot.1 = around ++ inner ∧
    ∀ o ∈ inner, ¬ o.Before t ∧ o.Before t'
  parts : ∀ spot ∈ found, ∀ spot' ∈ found, Parts spot.1 spot'.1

namespace Scanned
variable {f g : Scan → Scan} {around : List Owner} {t t' t'' : Tally} {l l' : List Spot}

theorem nothing (outer : ∀ o ∈ around, o.Before t) : Scanned (fun scan => scan) around t t [] :=
  ⟨fun _ => rfl, outer, fun _ h => h, by simp, by simp⟩

theorem append (hf : Scanned f around t t' l)
    (hg : (∀ o ∈ around, o.Before t') → Scanned g around t' t'' l') :
    Scanned (fun scan => g (f scan)) around t t'' (l ++ l') := by
  have hg := hg fun o ho => hf.later o (hf.outer o ho)
  -- what is entered in one part is not entered in the other one
  have apart : ∀ spot ∈ l, ∀ spot' ∈ l', Parts spot.1 spot'.1 ∧ Parts spot'.1 spot.1 := by
    intro spot hs spot' hs'
    obtain ⟨inner, eq, new⟩ := hf.inside spot hs
    obtain ⟨inner', eq', new'⟩ := hg.inside spot' hs'
    refine ⟨⟨around, inner, inner', eq, eq', fun o ho mem => ?_⟩,
      ⟨around, inner', inner, eq', eq, fun o ho mem => ?_⟩⟩
    · rcases List.mem_append.1 (eq' ▸ mem) with mem | mem
      · exact (new o ho).1 (hf.outer o mem)
      · exact (new' o mem).1 (new o ho).2
    · rcases List.mem_append.1 (eq ▸ mem) with mem | mem
      · exact (new' o ho).1 (hg.outer o mem)
      · exact (new' o ho).1 (new o mem).2
  refine ⟨fun reversed => ?_, hf.outer, fun o ho => hg.later o (hf.later o ho), fun spot hs => ?_,
    fun spot hs spot' hs' => ?_⟩
  · rw [hf.labels reversed, hg.labels]
    simp
  · rcases List.mem_append.1 hs with hs | hs
    · obtain ⟨inner, eq, new⟩ := hf.inside spot hs
      exact ⟨inner, eq, fun o ho => ⟨(new o ho).1, hg.later o (new o ho).2⟩⟩
    · obtain ⟨inner, eq, new⟩ := hg.inside spot hs
      exact ⟨inner, eq, fun o ho => ⟨fun before => (new o ho).1 (hf.later o before), (new o ho).2⟩⟩
  · rcases List.mem_append.1 hs with hs | hs <;> rcases List.mem_append.1 hs' with hs' | hs'
    · exact hf.parts spot hs spot' hs'
    · exact (apart spot hs spot' hs').1
    · exact (apart spot' hs' spot hs).2
    · exact hg.parts spot hs spot' hs'

theorem node (h : Scanned f around t t' l) {s : Stmt}
    (same : ∀ reversed, g ⟨t.compounds, reversed⟩ =
      f ⟨t.compounds, (Spot.label? (around, s)).toList ++ reversed⟩) :
    Scanned g around t t' ((around, s) :: l) := by
  have here : Scanned (fun scan => { scan with
      reversed := (Spot.label? (around, s)).toList ++ scan.reversed }) around t t
        [(around, s)] := by
    refine ⟨fun reversed => ?_, h.outer, fun _ ho => ho, fun spot hs => ?_,
      fun spot hs spot' hs' => ?_⟩
    · cases hl : Spot.label? (around, s) <;> simp [labelsOf, hl]
    · obtain rfl := List.mem_singleton.1 hs
      exact ⟨[], by simp, by simp⟩
    · obtain rfl := List.mem_singleton.1 hs
      obtain rfl := List.mem_singleton.1 hs'
      exact ⟨around, [], [], by simp, by simp, by simp⟩
  have both := here.append fun _ => h
  exact { both with labels := fun reversed => (same reversed).trans (both.labels reversed) }

theorem enter {o : Owner} {t₁ : Tally} (outer : ∀ o ∈ around, o.Before t) (new : ¬ o.Before t)
    (h : (∀ o' ∈ around ++ [o], o'.Before t₁) → Scanned f (around ++ [o]) t₁ t' l)
    (later : ∀ o : Owner, o.Before t → o.Before t₁) (entered : o.Before t₁)
    (same : ∀ reversed, g ⟨t.compounds, reversed⟩ = f ⟨t₁.compounds, reversed⟩) :
    Scanned g around t t' l := by
  have h := h fun o' ho' => by
    rcases List.mem_append.1 ho' with ho' | ho'
    · exact later o' (outer o' ho')
    · exact List.mem_singleton.1 ho' ▸ entered
  refine ⟨fun reversed => (same reversed).trans (h.labels reversed), outer,
    fun o' ho' => h.later o' (later o' ho'), fun spot hs => ?_, h.parts⟩
  obtain ⟨inner, eq, inside⟩ := h.inside spot hs
  refine ⟨o :: inner, by rw [eq, List.append_assoc, List.singleton_append], fun o' ho' => ?_⟩
  rcases List.mem_cons.1 ho' with rfl | ho'
  · exact ⟨new, h.later o' entered⟩
  · exact ⟨fun before => (inside o' ho').1 (later o' before), (inside o' ho').2⟩

theorem inCompound {body : List Stmt} (outer : ∀ o ∈ around, o.Before t)
    (h : (∀ o ∈ around ++ [t.compound], o.Before t.enter) →
      Scanned (fun scan => scanStmts (compoundsOf (around ++ [t.compound])) scan body)
        (around ++ [t.compound]) t.enter t' l) :
    Scanned (fun scan => scanStmts (scan.inner (compoundsOf around)) scan.enter body) around t t'
      l := by
  refine .enter (o := t.compound) outer (Nat.lt_irrefl t.compounds) h (fun o ho => ?_)
    (Nat.lt_succ_self t.compounds) fun reversed => ?_
  · cases o with
    | compound id => exact Nat.lt_succ_of_lt ho
    | loop index => exact ho
  · rw [compoundsOf_enter]
    rfl

theorem inLoop {k : List ScopeId → Scan → Scan} (outer : ∀ o ∈ around, o.Before t)
    (h : (∀ o ∈ around ++ [t.loop], o.Before t.enterLoop) →
      Scanned (k (compoundsOf (around ++ [t.loop]))) (around ++ [t.loop]) t.enterLoop t' l) :
    Scanned (k (compoundsOf around)) around t t' l := by
  refine .enter (o := t.loop) outer (Nat.lt_irrefl t.loops) h (fun o ho => ?_)
    (Nat.lt_succ_self t.loops) fun reversed => ?_
  · cases o with
    | compound id => exact ho
    | loop index => exact Nat.lt_succ_of_lt ho
  · rw [compoundsOf_enterLoop]
    rfl

end Scanned

mutual
theorem scanStmt_spots : ∀ (s : Stmt) {around : List Owner} {t : Tally},
    (∀ o ∈ around, o.Before t) →
    Scanned (fun scan => scanStmt (compoundsOf around) scan s) around t (s.tally t)
      (s.spots around t)
  | .compound body, _, _, outer => .node (.inCompound outer (scanStmts_spots body)) fun _ => rfl
  | .ifElse _ then_ none, _, _, outer => .node (scanStmt_spots then_ outer) fun _ => rfl
  | .ifElse _ then_ (some else_), _, _, outer =>
    .node (.append (scanStmt_spots then_ outer) (scanStmt_spots else_)) fun _ => rfl
  | .whileLoop _ body, _, _, outer | .doWhile body _, _, _, outer =>
    .node (scanStmt_spots body outer) fun _ => rfl
  | .forLoop none _ _ body, _, _, outer =>
    .node (.inLoop (k := fun ids scan => scanStmt ids scan body) outer (scanStmt_spots body))
      fun _ => rfl
  | .forLoop (some init) _ _ body, _, _, outer =>
    .node (.inLoop (k := fun ids scan => scanStmt ids (scanStmt ids scan init) body) outer
      fun outer => .append (scanStmt_spots init outer) (scanStmt_spots body)) fun _ => rfl
  | .switch _ clauses, _, _, outer => .node (scanClauses_spots clauses outer) fun _ => rfl
  | .labeled _ statement, _, _, outer => .node (scanStmt_spots statement outer) fun _ => rfl
  | .try_ body handler, _, _, outer =>
    .node (.append (.inCompound outer (scanStmts_spots body))
      fun outer => .inCompound outer (scanStmts_spots handler)) fun _ => rfl
  | .return_ _, _, _, outer | .expression _, _, _, outer | .construction _ _ _, _, _, outer
  | .assignment _ _, _, _, outer | .break_, _, _, outer | .continue_, _, _, outer
  | .goto _, _, _, outer | .gotoCase _, _, _, outer | .gotoDefault, _, _, outer
  | .destruction _ _, _, _, outer | .throw_ _, _, _, outer | .empty, _, _, outer =>
    .node (.nothing outer) fun _ => rfl
theorem scanStmts_spots : ∀ (body : List Stmt) {around : List Owner} {t : Tally},
    (∀ o ∈ around, o.Before t) →
    Scanned (fun scan => scanStmts (compoundsOf around) scan body) around t (Stmt.tallyAll t body)
      (Stmt.spotsAll around t body)
  | [], _, _, outer => .nothing outer
  | s :: rest, _, _, outer => .append (scanStmt_spots s outer) (scanStmts_spots rest)
theorem scanClauses_spots : ∀ (clauses : List Clause) {around : List Owner} {t : Tally},
    (∀ o ∈ around, o.Before t) →
    Scanned (fun scan => scanClauses (compoundsOf around) scan clauses) around t
      (Clause.tallyAll t clauses) (Clause.spotsAll around t clauses)
  | [], _, _, outer => .nothing outer
  | .mk _ body :: rest, _, _, outer =>
    .append (.inCompound outer (scanStmts_spots body)) (scanClauses_spots rest)
end

theorem scanned (body : List Stmt) : Scanned (fun scan => scanStmts [⟨0⟩] scan body)
    [.compound ⟨0⟩] ⟨1, 0⟩ (Stmt.tallyAll ⟨1, 0⟩ body) (spots body) := by
  refine @scanStmts_spots body [.compound ⟨0⟩] ⟨1, 0⟩ fun o ho => ?_
  obtain rfl := List.mem_singleton.1 ho
  exact Nat.zero_lt_one

theorem ofBody_eq (body : List Stmt) : ofBody body = labelsOf (spots body) := by
  rw [ofBody, (scanned body).labels []]
  simp

end Labels

end FlatCode.Ast
