import Mathlib.Data.List.Basic
import FlatCode.Proofs.Balance.Function
import FlatCode.Proofs.Lifetime.Source

/-! Statements and the cleanup scopes. Compounds, `for` loops, clauses and handlers have scopes of
their own; the branches of an `if` and the bodies of the other loops have none. What such a part
builds without braces is owed by the scope around the whole statement, whether or not control ever
comes to the part. Every other statement leaves the scopes as they were. -/
namespace FlatCode
open Code Symbols Ast List

theorem Cleanups.grow_eq_self {c : Cleanups} (h : 0 < c.depth) {added : List Obligation} :
    c.grow added = c ↔ added = [] := by
  obtain ⟨scopes⟩ := c
  cases scopes with
  | nil => exact absurd h (Nat.lt_irrefl 0)
  | cons scope outer => simp [grow]

namespace Lower

def State.owedFor (table : SymbolTable) (s : State) (vs : List VariableId) : List Obligation :=
  vs.filterMap fun v => (s.location? v).bind fun l =>
    (table.destructor? l.ty).map fun d => ⟨.reg l.slot, d⟩

structure State.Owes (table : SymbolTable) (s : State) (vs : List VariableId) (t : State) :
    Prop where
  later : s.Later t
  located : ∀ v ∈ vs, ∃ l, t.location? v = some l
  cleanups : t.cleanups = s.cleanups.grow (t.owedFor table vs)
  /-- Without a scope there is nothing that could owe them. -/
  depth : t.owedFor table vs ≠ [] → 0 < s.cleanups.depth

namespace State.Owes
variable {table : SymbolTable} {s t u : State} {vs ws : List VariableId}

theorem owedFor_later (h : s.Owes table vs t) (later : t.Later u) :
    u.owedFor table vs = t.owedFor table vs := by
  refine filterMap_congr fun v hv => ?_
  obtain ⟨l, hl⟩ := h.located v hv
  rw [hl, later.locations v l hl]

theorem append (h : s.Owes table vs t) (k : t.Owes table ws u) : s.Owes table (ws ++ vs) u := by
  have parts : u.owedFor table (ws ++ vs) = u.owedFor table ws ++ t.owedFor table vs := by
    rw [← h.owedFor_later k.later]
    exact filterMap_append
  refine ⟨h.later.trans k.later, fun v hv => ?_, ?_, fun owed => ?_⟩
  · rcases mem_append.1 hv with hv | hv
    · exact k.located v hv
    · obtain ⟨l, hl⟩ := h.located v hv
      exact ⟨l, k.later.locations v l hl⟩
  · rw [parts, k.cleanups, h.cleanups, Cleanups.grow_grow]
  · rw [parts] at owed
    by_cases first : t.owedFor table vs = []
    · rw [first, append_nil] at owed
      have inside := k.depth owed
      rwa [h.cleanups, Cleanups.depth_grow] at inside
    · exact h.depth first

end State.Owes

def Owing (vs : List VariableId) (m : LowerM α) : Prop :=
  ∀ env s, Ends (fun _ => True) (fun _ t => s.Owes env.symbols vs t) (m env s)

abbrev Restoring (m : LowerM α) : Prop := Traced (· ≠ .owe) m

namespace Owing
variable {vs ws : List VariableId} {m : LowerM α} {f : α → LowerM β}

theorem nothing (h : Restoring m) : Owing [] m := fun env s =>
  (h env s).mono fun _ _ trace => ⟨trace.later, by simp,
    (trace.rests fun owe => owe rfl).trans (Cleanups.grow_nil _).symm, fun h => absurd rfl h⟩

theorem bind (hm : Owing vs m) (hf : ∀ a, Owing ws (f a)) : Owing (ws ++ vs) (m >>= f) :=
  fun env s => (hm env s).seq fun a t ht => (hf a env t).mono fun _ _ hu => ht.append hu

theorem before (hm : Owing vs m) (hf : ∀ a, Restoring (f a)) : Owing vs (m >>= f) :=
  hm.bind fun a => .nothing (hf a)

theorem after (hm : Restoring m) (hf : ∀ a, Owing vs (f a)) : Owing vs (m >>= f) := by
  have both := (Owing.nothing hm).bind hf
  rwa [append_nil] at both

theorem inLoop (h : Owing vs m) : Owing vs (inLoop m) :=
  fun env s => .look (Ends.inside (h { env with
    breakDepth := some s.cleanups.depth, loopDepth := some s.cleanups.depth } s))

theorem commented (name : String) {m : LowerM Exits} (h : Owing vs m) :
    Owing vs (do comment name; m) :=
  .after (comment_traced (by nofun) name) fun _ => h

end Owing

theorem oweDestructor_owes {env : Env} {s : State} {v : VariableId} {l : Location}
    (hl : s.location? v = some l) :
    Ensures (fun _ t => s.Owes env.symbols [v] t)
      (oweDestructor l.slot l.ty env s) := by
  refine .seq (P := fun d t => s = t ∧ env.symbols.destructor? l.ty = d)
    (Ends.table (Ends.answered (fun _ hd => ⟨rfl, SymbolTable.destructorOf_eq hd⟩)
      fun _ _ => trivial)) ?_
  rintro destructor _ ⟨rfl, hd⟩
  have owed {t : State} (same : t.storage = s.storage) : t.owedFor env.symbols [v] =
      (destructor.map fun d => ⟨.reg l.slot, d⟩).toList := by
    have there : t.location? v = some l := by rw [State.location?, same]; exact hl
    cases destructor <;> simp [State.owedFor, there, hd]
  cases destructor with
  | none =>
    refine .ret ⟨.refl s, by simpa using ⟨l, hl⟩, ?_, fun h => absurd (owed rfl) h⟩
    rw [owed rfl]
    exact (Cleanups.grow_nil _).symm
  | some d =>
    refine (owe_grows _ env s).mono ?_
    rintro _ _ ⟨inside, rfl⟩
    exact ⟨.of_cleanups s _, by simpa using ⟨l, hl⟩, congrArg s.cleanups.grow (owed rfl).symm,
      fun _ => inside⟩

theorem lowerConstruction_owing (v : VariableId) (ctor : FunctionId) (arguments : List Expr) :
    Owing [v] (lowerConstruction v ctor arguments) := by
  intro env s
  refine ((allocate_located v _).and (allocate_straight v _ env s).anyError).seq ?_
  rintro l t ⟨located, allocated⟩
  have initialized : Restoring (withTemporaries (initializeAt l ctor arguments)) :=
    withTemporaries_traced ((traced_rules _).initializeAt l ctor arguments)
  refine (initialized env t).seq fun _ u trace => ?_
  refine (oweDestructor_owes (trace.later.locations v l located)).mono fun _ w hw => ?_
  have same : u.cleanups = s.cleanups :=
    (trace.rests fun owe => owe rfl).trans allocated.cleanups
  exact ⟨(allocated.later.trans trace.later).trans hw.later, hw.located, same ▸ hw.cleanups,
    same ▸ hw.depth⟩

section Parts
variable {m n : LowerM Exits} {vs ws : List VariableId}

theorem lowerIf_owing (e : Expr) (h : Owing vs m) : Owing vs (lowerIf e m) :=
  .after (condition_traced e) fun _ => .after (resolveHere_traced _) fun _ =>
    h.before fun _ => .pure _

theorem lowerIfElse_owing (e : Expr) (hm : Owing vs m) (hn : Owing ws n) :
    Owing (ws ++ vs) (lowerIfElse e m n) :=
  .after (condition_traced e) fun _ => .after (resolveHere_traced _) fun _ =>
    hm.bind fun _ => .after jumpOver_traced fun _ => .after (resolveHere_traced _) fun _ =>
      hn.before fun _ => .pure _

theorem lowerWhile_owing (e : Expr) (h : Owing vs m) : Owing vs (lowerWhile e m) := by
  unfold lowerWhile
  exact .after hereLabel_traced fun head => .after (condition_traced e) fun _ =>
    .after (resolveHere_traced _) fun _ => h.inLoop.before fun _ =>
      (resolveTo_traced _ _).bind fun _ => (goBack_traced head).bind fun _ => .pure _

theorem lowerDoWhile_owing (e : Expr) (h : Owing vs m) : Owing vs (lowerDoWhile m e) :=
  .after hereLabel_traced fun _ => h.inLoop.before fun _ => (resolveHere_traced _).bind fun _ =>
    (condition_traced e).bind fun _ => (resolveTo_traced _ _).bind fun _ => .pure _

end Parts

theorem lowerStmt_restoring (s : Stmt) (h : s.exposed = []) : Restoring (lowerStmt s) :=
  lowerStmt_traced s 0 ⟨nofun, nofun, nofun, fun _ _ _ _ => nofun⟩ (.inl h)

theorem lowerStmt_owing : ∀ s : Stmt, Owing s.exposed (lowerStmt s)
  | .construction v ctor arguments => by
    rw [lowerStmt]
    exact ((lowerConstruction_owing v ctor arguments).before fun _ => .pure _).commented _
  | .ifElse e then_ none => by
    rw [lowerStmt]
    exact (lowerIf_owing e (lowerStmt_owing then_)).commented _
  | .ifElse e then_ (some else_) => by
    rw [lowerStmt]
    exact (lowerIfElse_owing e (lowerStmt_owing then_) (lowerStmt_owing else_)).commented _
  | .whileLoop e body => by
    rw [lowerStmt]
    exact (lowerWhile_owing e (lowerStmt_owing body)).commented _
  | .doWhile body e => by
    rw [lowerStmt]
    exact (lowerDoWhile_owing e (lowerStmt_owing body)).commented _
  | .labeled label statement => by
    rw [lowerStmt]
    exact (Owing.after (placeName_traced (by simp) label) fun _ =>
      lowerStmt_owing statement).commented _
  | .compound _ | .expression _ | .assignment _ _ | .forLoop _ _ _ _ | .switch _ _ | .return_ _
  | .break_ | .continue_ | .goto _ | .gotoCase _ | .gotoDefault | .destruction _ _ | .try_ _ _
  | .throw_ _ | .empty => .nothing (lowerStmt_restoring _ rfl)

theorem State.Owes.owedFor_eq_nil {table : SymbolTable} {s t : State} {vs : List VariableId}
    (h : s.Owes table vs t) : t.owedFor table vs = [] ↔
      ∀ v ∈ vs, ∃ l, t.location? v = some l ∧ table.destructor? l.ty = Option.none := by
  rw [State.owedFor, filterMap_eq_nil_iff]
  refine forall₂_congr fun v hv => ?_
  obtain ⟨l, hl⟩ := h.located v hv
  simp [hl]

/-- In every state a statement leaves all scopes as they were, but that the innermost one owes the
objects that the statement builds outside of braces. So the scopes are the same again exactly if
no variable that is built there has a destructor. -/
theorem lowerStmt_leaves_exposed {env : Env} {s t : State} {stmt : Stmt} {x : Exits}
    (h : lowerStmt stmt env s = .ok x t) :
    t.cleanups = s.cleanups.grow (t.owedFor env.symbols stmt.exposed) ∧
      (t.cleanups = s.cleanups ↔ ∀ v ∈ stmt.exposed, ∃ l, t.location? v = some l ∧
        env.symbols.destructor? l.ty = none) := by
  have owes : s.Owes env.symbols stmt.exposed t := (lowerStmt_owing stmt env s).of_ok h
  refine ⟨owes.cleanups, ?_⟩
  rw [← owes.owedFor_eq_nil, owes.cleanups]
  constructor
  · intro same
    by_contra owed
    exact owed ((Cleanups.grow_eq_self (owes.depth owed)).1 same)
  · intro none
    rw [none, Cleanups.grow_nil]

section Example

def flagSymbols : SymbolTable where
  types := #[.void, .bool, .classType ⟨"Guard", none, [], false, some ⟨0⟩⟩]
  functions := #[.plain "~Guard" ⟨0⟩, .plain "Guard" ⟨0⟩, .plain "flag" ⟨1⟩, .plain "main" ⟨0⟩]
  vars := #[⟨"guard", ⟨2⟩⟩]

/-- `if (flag()) Guard guard;` -/
def bareGuard : Stmt := .ifElse (.call ⟨1⟩ ⟨2⟩ [] false) (.construction ⟨0⟩ ⟨1⟩ []) none

/-- The guard stays owed behind the branch that builds it. -/
theorem bareGuard_stays_owed :
    let env := Env.start flagSymbols (.plain "main" ⟨0⟩) .default ⟨[]⟩
    ∃ x t, lowerStmt bareGuard env State.empty.inScope = .ok x t ∧
      t.cleanups = ⟨[[⟨.reg ⟨1⟩, ⟨0⟩⟩]]⟩ ∧ t.cleanups ≠ State.empty.inScope.cleanups := by
  intro env
  have run : Ends (fun _ => False) (fun _ t => t.owedFor env.symbols bareGuard.exposed =
      [⟨.reg ⟨1⟩, ⟨0⟩⟩] ∧ (t.location? ⟨0⟩).map Location.ty = some ⟨2⟩)
      (lowerStmt bareGuard env State.empty.inScope) := by
    decide +kernel
  obtain ⟨x, t, ran, owed, located⟩ := run.exists_ok
  obtain ⟨cleanups, same⟩ := lowerStmt_leaves_exposed ran
  refine ⟨x, t, ran, by rw [cleanups, owed]; rfl, fun unchanged => ?_⟩
  obtain ⟨l, hl, none⟩ := same.1 unchanged ⟨0⟩ mem_cons_self
  rw [hl, Option.map_some, Option.some.injEq] at located
  rw [located] at none
  cases none

/-- The destructor is called behind the place where the two ways meet. -/
example : (lowerFunction flagSymbols .default
      ⟨⟨3⟩, [], [⟨0⟩], [bareGuard], false, false⟩).toOption.map (·.instrs.toList.tail) =
    some [.call (.direct "flag") [] (some ⟨1⟩), .branch (.reg ⟨1⟩) (some ⟨0⟩) (some ⟨1⟩),
      .label ⟨0⟩, .call (.direct "Guard") [.reg ⟨0⟩] none, .label ⟨1⟩,
      .call (.direct "~Guard") [.reg ⟨0⟩] none, .ret none] := by
  decide +kernel

end Example

end Lower
end FlatCode
