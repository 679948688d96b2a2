import FlatCode.Proofs.Outcome

/-! What a procedure tree says about objects: which calls it makes, which objects they build, and
which of these have to be destroyed. Throws and handlers are listed along with the calls. -/
namespace FlatCode
open Code Symbols Ast List
variable {table : SymbolTable}

namespace Symbols

def TypeKind.destructor? : TypeKind → Option FunctionId
  | .classType info => info.destructor
  | _ => none

namespace SymbolTable

def destructor? (table : SymbolTable) (ty : TypeId) : Option FunctionId :=
  table.types[ty.index.toNat]?.bind TypeKind.destructor?

theorem destructorOf_eq {ty : TypeId} {d : Option FunctionId} (h : table.destructorOf ty = .ok d) :
    table.destructor? ty = d := by
  unfold destructorOf typeKind at h
  unfold destructor?
  cases hk : table.types[ty.index.toNat]? with
  | none =>
    rw [hk] at h
    cases h
  | some kind =>
    rw [hk] at h
    cases kind <;> (cases h; rfl)

def isDestructible (table : SymbolTable) (v : VariableId) : Bool :=
  match table.vars[v.index.toNat]? with
  | some symbol => (table.destructor? symbol.ty).isSome
  | none => false

def destructorsCalm (table : SymbolTable) : Bool :=
  table.types.toList.all fun kind => kind.destructor?.all fun d =>
    match table.functionSymbol d with
    | .ok destructor => !destructor.canRaise
    | .error _ => true

theorem calm_of_destructorsCalm (h : table.destructorsCalm) {ty : TypeId} {d : FunctionId}
    {destructor : FunctionSymbol} (hd : table.destructor? ty = some d)
    (hs : table.functionSymbol d = .ok destructor) : destructor.canRaise = false := by
  obtain ⟨kind, hk, hd⟩ := Option.bind_eq_some_iff.1 hd
  have known := all_eq_true.1 h kind (Array.mem_def.1 (Array.mem_of_getElem? hk))
  simpa [hd, hs] using known

end SymbolTable
end Symbols

inductive CallSite where
  | call (function : FunctionId) (isVirtual : Bool)
  /-- Builds a temporary. Without `destroy`, it is destroyed by no one. -/
  | temporary (var : VariableId) (constructor : FunctionId) (destroy : Bool)
  | construction (var : VariableId) (constructor : FunctionId)
  deriving DecidableEq

namespace CallSite

def function : CallSite → FunctionId
  | .call f _ | .temporary _ f _ | .construction _ f => f

def isVirtual : CallSite → Bool
  | .call _ isVirtual => isVirtual
  | .temporary _ _ _ | .construction _ _ => false

def built? : CallSite → Option VariableId
  | .call _ _ => none
  | .temporary v _ _ | .construction v _ => some v

def isLocal : CallSite → Bool
  | .construction _ _ => true
  | .call _ _ | .temporary _ _ _ => false

def owed? (table : SymbolTable) : CallSite → Option VariableId
  | .call _ _ => none
  | .temporary v _ destroy => if destroy && table.isDestructible v then some v else none
  | .construction v _ => if table.isDestructible v then some v else none

theorem built?_of_owed? {site : CallSite} {v : VariableId} (h : site.owed? table = some v) :
    site.built? = some v ∧ table.isDestructible v := by
  cases site with
  | call => cases h
  | temporary v' _ destroy =>
    simp only [owed?, Option.ite_none_right_eq_some, Bool.and_eq_true] at h
    obtain ⟨⟨-, destructible⟩, same⟩ := h
    cases same
    exact ⟨rfl, destructible⟩
  | construction v' _ =>
    simp only [owed?, Option.ite_none_right_eq_some] at h
    obtain ⟨destructible, same⟩ := h
    cases same
    exact ⟨rfl, destructible⟩

/-- The objects that a call builds and that have to be destroyed, the latest first: the one that a
constructor is called for, and the one in the result slot. -/
def objects (table : SymbolTable) (site : CallSite) (symbol : FunctionSymbol)
    (slot : Option Register) (object : Option Operand) : List Operand :=
  (if (site.owed? table).isSome then object.toList else []) ++
    if (table.destructor? symbol.returnType).isSome then slot.toList.map Operand.reg else []

/-- A constructor whose object has to be destroyed is called, not expanded in place. -/
def isCalled (table : SymbolTable) (site : CallSite) : Bool :=
  (site.owed? table).isNone || match table.functionSymbol site.function with
    | .ok symbol => symbol.operator.isNone
    | .error _ => true

end CallSite

/-- A place of a tree that shows in its code: a call, a throw or the beginning of a handler. -/
inductive Site where
  | call (site : CallSite)
  | throw_
  | handler
  deriving DecidableEq

namespace Site

def isCall : Site → Bool
  | .call _ => true
  | .throw_ | .handler => false

def isCalled (table : SymbolTable) : Site → Bool
  | .call site => site.isCalled table
  | .throw_ | .handler => true

def owed? (table : SymbolTable) : Site → Option VariableId
  | .call site => site.owed? table
  | .throw_ | .handler => none

/-- What comes of the places of a tree, in order: all throws and handlers, and some of the calls. -/
structure Done (sites made : List Site) : Prop where
  some : made.Sublist sites
  all : made.filter (!·.isCall) = sites.filter (!·.isCall)

namespace Done
variable {a b c d : List Site}

theorem refl (a : List Site) : Done a a := ⟨.refl a, rfl⟩

theorem append (h : Done a b) (k : Done c d) : Done (a ++ c) (b ++ d) :=
  ⟨h.some.append k.some, by rw [filter_append, filter_append, h.all, k.all]⟩

theorem trans (h : Done a b) (k : Done b c) : Done a c :=
  ⟨k.some.trans h.some, k.all.trans h.all⟩

theorem of_calls (h : ∀ site ∈ a, site.isCall) : Done a [] := by
  refine ⟨nil_sublist a, (filter_eq_nil_iff.2 fun site hs => ?_).symm⟩
  simp [h site hs]

theorem append_calls (a : List Site) (h : ∀ site ∈ b, site.isCall) : Done (a ++ b) a := by
  simpa using (refl a).append (of_calls h)

theorem count (h : Done a b) {site : Site} (own : site.isCall = false) :
    b.count site = a.count site := by
  rw [← count_filter (p := (!·.isCall)) (by simp [own]), h.all,
    count_filter (by simp [own])]

theorem eq_nil (h : Done [] a) : a = [] := eq_nil_of_sublist_nil h.some

end Done
end Site

section Tree

namespace Ast

mutual
def Expr.sites : Expr → List Site
  | .literal _ _ | .localVariable _ _ | .parameter _ _ => []
  | .memberVariable _ operand _ | .addressOf _ operand | .dereference _ operand => operand.sites
  | .conversion _ f operand | .unary _ f operand => operand.sites ++ [.call (.call f false)]
  | .binary _ f lhs rhs => lhs.sites ++ rhs.sites ++ [.call (.call f false)]
  | .conjunction _ lhs rhs | .disjunction _ lhs rhs => lhs.sites ++ rhs.sites
  | .call _ f arguments isVirtual => Expr.sitesOfAll arguments ++ [.call (.call f isVirtual)]
  | .temporary _ v ctor arguments destroy =>
    Expr.sitesOfAll arguments ++ [.call (.temporary v ctor destroy)]
def Expr.sitesOfAll : List Expr → List Site
  | [] => []
  | e :: es => e.sites ++ Expr.sitesOfAll es
end

def Expr.sitesOfOption : Option Expr → List Site
  | none => []
  | some e => e.sites

mutual
def Stmt.sites : Stmt → List Site
  | .compound body => Stmt.sitesOfAll body
  | .expression e | .destruction e _ | .return_ (some e) => e.sites
  | .throw_ e => e.sites ++ [.throw_]
  | .construction v ctor arguments => Expr.sitesOfAll arguments ++ [.call (.construction v ctor)]
  | .assignment target value => target.sites ++ value.sites
  | .ifElse e then_ none => e.sites ++ then_.sites
  | .ifElse e then_ (some else_) => e.sites ++ then_.sites ++ else_.sites
  | .whileLoop e body => e.sites ++ body.sites
  | .doWhile body e => body.sites ++ e.sites
  | .forLoop none e increment body =>
    Expr.sitesOfOption e ++ body.sites ++ Expr.sitesOfOption increment
  | .forLoop (some init) e increment body =>
    init.sites ++ (Expr.sitesOfOption e ++ body.sites ++ Expr.sitesOfOption increment)
  | .switch e clauses => e.sites ++ Clause.sitesOfAll clauses
  | .labeled _ s => s.sites
  | .try_ body handler => Stmt.sitesOfAll body ++ (.handler :: Stmt.sitesOfAll handler)
  | .return_ none | .break_ | .continue_ | .goto _ | .gotoCase _ | .gotoDefault | .empty => []
def Stmt.sitesOfAll : List Stmt → List Site
  | [] => []
  | s :: rest => s.sites ++ Stmt.sitesOfAll rest
def Clause.sitesOfAll : List Clause → List Site
  | [] => []
  | .mk _ body :: rest => Stmt.sitesOfAll body ++ Clause.sitesOfAll rest
end

mutual
theorem Expr.isCall_of_sites : ∀ (e : Expr), ∀ site ∈ e.sites, site.isCall
  | .literal _ _, _, h | .localVariable _ _, _, h | .parameter _ _, _, h => nomatch h
  | .memberVariable _ operand _, site, h | .addressOf _ operand, site, h
  | .dereference _ operand, site, h => operand.isCall_of_sites site h
  | .conversion _ _ operand, site, h | .unary _ _ operand, site, h => by
    rcases mem_append.1 h with h | h
    · exact operand.isCall_of_sites site h
    · rw [mem_singleton.1 h]
      rfl
  | .binary _ _ lhs rhs, site, h => by
    rcases mem_append.1 h with h | h
    · rcases mem_append.1 h with h | h
      · exact lhs.isCall_of_sites site h
      · exact rhs.isCall_of_sites site h
    · rw [mem_singleton.1 h]
      rfl
  | .conjunction _ lhs rhs, site, h | .disjunction _ lhs rhs, site, h => by
    rcases mem_append.1 h with h | h
    · exact lhs.isCall_of_sites site h
    · exact rhs.isCall_of_sites site h
  | .call _ _ arguments _, site, h | .temporary _ _ _ arguments _, site, h => by
    rcases mem_append.1 h with h | h
    · exact Expr.isCall_of_sitesOfAll arguments site h
    · rw [mem_singleton.1 h]
      rfl
theorem Expr.isCall_of_sitesOfAll : ∀ (es : List Expr), ∀ site ∈ Expr.sitesOfAll es, site.isCall
  | [], _, h => nomatch h
  | e :: es, site, h => by
    rcases mem_append.1 h with h | h
    · exact e.isCall_of_sites site h
    · exact Expr.isCall_of_sitesOfAll es site h
end

mutual
/-- Variables are built only in the list of a compound or clause or at the head of a `for`, perhaps
behind labels. There are no jumps to names, and no destructors are called by name. -/
def Stmt.isScoped (inList : Bool) : Stmt → Bool
  | .construction _ _ _ => inList
  | .labeled _ s => s.isScoped inList
  | .compound body => Stmt.allScoped body
  | .ifElse _ then_ none => then_.isScoped false
  | .ifElse _ then_ (some else_) => then_.isScoped false && else_.isScoped false
  | .whileLoop _ body | .doWhile body _ | .forLoop none _ _ body => body.isScoped false
  | .forLoop (some init) _ _ body => init.isScoped true && body.isScoped false
  | .switch _ clauses => Clause.allScoped clauses
  | .try_ body handler => Stmt.allScoped body && Stmt.allScoped handler
  | .goto _ | .destruction _ _ => false
  | .expression _ | .assignment _ _ | .return_ _ | .break_ | .continue_ | .gotoCase _
  | .gotoDefault | .throw_ _ | .empty => true
def Stmt.allScoped : List Stmt → Bool
  | [] => true
  | s :: rest => s.isScoped true && Stmt.allScoped rest
def Clause.allScoped : List Clause → Bool
  | [] => true
  | .mk _ body :: rest => Stmt.allScoped body && Clause.allScoped rest
end

def Function.sites (f : Ast.Function) : List Site := Stmt.sitesOfAll f.body

/-- A function whose objects are owed their destructors by scopes alone. -/
structure Function.Scoped (f : Ast.Function) (table : SymbolTable) : Prop where
  inScopes : Stmt.allScoped f.body
  /-- Constructors of objects that have to be destroyed are called. -/
  called : ∀ site, .call site ∈ f.sites → site.isCalled table
  /-- A variable that has to be destroyed is built at one place. -/
  once : (f.sites.filterMap (Site.owed? table)).Nodup

/-- A function whose objects live by scopes alone. -/
structure Function.Tidy (f : Ast.Function) (table : SymbolTable) : Prop
    extends f.Scoped table where
  calm : table.destructorsCalm

end Ast
end Tree

section Example

def guardSymbols : SymbolTable where
  types := #[.void, .bool, .classType ⟨"Guard", none, [], false, some ⟨0⟩⟩, .integer .w32]
  functions := #[.plain "~Guard" ⟨0⟩, ⟨"Guard", ⟨0⟩, true, false, none, none, none⟩,
    ⟨"ready", ⟨1⟩, true, false, none, none, none⟩, ⟨"make", ⟨2⟩, true, true, none, none, none⟩,
    ⟨"main", ⟨0⟩, true, false, none, none, none⟩]
  vars := #[⟨"code", ⟨3⟩⟩, ⟨"guard", ⟨2⟩⟩]

/-- `main(code) { while (ready()) { Guard guard;
try { make(); throw code; } catch { continue; } } }`, where all but a destructor can raise. -/
def guardedLoop : Ast.Function where
  function := ⟨4⟩
  parameters := [⟨0⟩]
  locals := [⟨1⟩]
  body := [.whileLoop (.call ⟨1⟩ ⟨2⟩ [] false) (.compound [.construction ⟨1⟩ ⟨1⟩ [],
    .try_ [.expression (.call ⟨2⟩ ⟨3⟩ [] false), .throw_ (.parameter ⟨3⟩ ⟨0⟩)] [.continue_]])]
  returnsByHiddenSlot := false
  canRaise := true

theorem guardedLoop_lowers :
    ∃ code, lowerFunction guardSymbols .default guardedLoop = .ok code :=
  exists_ok_of_isSome (by decide +kernel)

end Example

end FlatCode
