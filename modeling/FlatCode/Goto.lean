import FlatCode.Draft.Pending
import FlatCode.Ast.Basic

/-! Jumps to names. Before anything is written, each name is mapped to the compounds around
it; while code is written, a jump to a name not placed yet waits for it. -/
namespace FlatCode
open Ast

/-- A compound, by the order in which compounds are entered. -/
structure ScopeId where
  index : Nat
  deriving DecidableEq

/-- For each label of a body, in order, the compounds around it, the outermost first. -/
structure LabelScopes where
  labels : List (String × List ScopeId)
  deriving DecidableEq

namespace LabelScopes

/-- How many compounds have been entered, and the labels found, the last first. -/
structure Scan where
  compounds : Nat
  reversed : List (String × List ScopeId)

/-- Enters a compound: its number joins those around it. -/
def Scan.enter (s : Scan) : Scan := { s with compounds := s.compounds + 1 }

def Scan.inner (s : Scan) (around : List ScopeId) : List ScopeId := around ++ [⟨s.compounds⟩]

mutual
def scanStmt (around : List ScopeId) (s : Scan) : Stmt → Scan
  | .compound body => scanStmts (s.inner around) s.enter body
  | .ifElse _ then_ none => scanStmt around s then_
  | .ifElse _ then_ (some else_) => scanStmt around (scanStmt around s then_) else_
  | .whileLoop _ body | .doWhile body _ => scanStmt around s body
  | .forLoop none _ _ body => scanStmt around s body
  | .forLoop (some init) _ _ body => scanStmt around (scanStmt around s init) body
  | .switch _ clauses => scanClauses around s clauses
  | .labeled label statement =>
    scanStmt around { s with reversed := (label, around) :: s.reversed } statement
  | .try_ body handler =>
    let s := scanStmts (s.inner around) s.enter body
    scanStmts (s.inner around) s.enter handler
  | _ => s
def scanStmts (around : List ScopeId) (s : Scan) : List Stmt → Scan
  | [] => s
  | statement :: rest => scanStmts around (scanStmt around s statement) rest
def scanClauses (around : List ScopeId) (s : Scan) : List Clause → Scan
  | [] => s
  | .mk _ body :: rest => scanClauses around (scanStmts (s.inner around) s.enter body) rest
end

/-- The labels of a body in the order in which they are visited. -/
def ofBody (body : List Stmt) : List (String × List ScopeId) :=
  (scanStmts [⟨0⟩] ⟨1, []⟩ body).reversed.reverse

/-- The first name that comes a second time. -/
def firstRepeated (seen : List String) : List String → Option String
  | [] => none
  | name :: names =>
    if seen.contains name then some name else firstRepeated (name :: seen) names

def collect (body : List Stmt) : Except Error LabelScopes :=
  let labels := ofBody body
  match firstRepeated [] (labels.map Prod.fst) with
  | some name => .error (.duplicateLabel name)
  | none => .ok ⟨labels⟩

def scopesOf (t : LabelScopes) (name : String) : Except Error (List ScopeId) :=
  match t.labels.lookup name with
  | some scopes => .ok scopes
  | none => .error (.unknownLabel name)

end LabelScopes

/-- The names placed so far, and the jumps that wait for a name. -/
structure Gotos where
  placed : List (String × Label)
  pending : List (String × Pending)
  deriving DecidableEq

namespace Gotos

def empty : Gotos := ⟨[], []⟩

def waiting (g : Gotos) (name : String) : Pending := (g.pending.lookup name).getD []

def withoutPending (g : Gotos) (name : String) : List (String × Pending) :=
  g.pending.filter fun p => p.1 ≠ name

def place (g : Gotos) (name : String) (l : Label) : Gotos :=
  ⟨(name, l) :: g.placed, g.withoutPending name⟩

def await (g : Gotos) (name : String) (jump : Pending) : Gotos :=
  { g with pending := g.withoutPending name ++ [(name, g.waiting name ++ jump)] }

@[simp] theorem place_placed (g : Gotos) (name : String) (l : Label) :
    (g.place name l).placed = (name, l) :: g.placed := rfl

@[simp] theorem await_placed (g : Gotos) (name : String) (jump : Pending) :
    (g.await name jump).placed = g.placed := rfl

/-- Every name jumped to has been placed. -/
def finish (g : Gotos) : Except Error Unit :=
  match g.pending with
  | [] => .ok ()
  | (name, _) :: _ => .error (.unknownLabel name)

end Gotos
end FlatCode
