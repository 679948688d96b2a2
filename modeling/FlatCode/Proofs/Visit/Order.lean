import FlatCode.Proofs.Balance.Function
import FlatCode.Proofs.Visit.Walk

/-! Lowering and the search for labels walk through a body in one order, that of its visitor. What
lowering has around a labeled statement is what the search has noted for its name, so no name is
placed twice and none is waited for in the end. -/
namespace FlatCode
open Code Symbols Ast List
variable {name : String} {body : List Stmt}

def Ast.Stmt.name? : Stmt → Option String
  | .labeled name _ => some name
  | _ => none

namespace LabelScopes

def namesIn (body : List Stmt) : List String := (stmtsOf (walk body)).filterMap Stmt.name?

theorem namesIn_eq (body : List Stmt) : namesIn body = (labelsOf (spots body)).map Prod.fst := by
  rw [namesIn, ← map_bodySpots, labelsOf, map_filterMap, filterMap_map]
  congr 1
  funext spot
  obtain ⟨around, s⟩ := spot
  cases s <;> rfl

/-- The name is the first one that has come before. -/
def FirstRepeat (names : List String) (name : String) : Prop :=
  ∃ before after, names = before ++ name :: after ∧ before.Nodup ∧ name ∈ before

theorem firstRepeated_eq_some : ∀ {names seen : List String}, seen.Nodup →
    (firstRepeated seen names = some name ↔ ∃ before after, names = before ++ name :: after ∧
      (before.reverse ++ seen).Nodup ∧ name ∈ before.reverse ++ seen)
  | [], seen, _ => by simp [firstRepeated]
  | first :: names, seen, nodup => by
    unfold firstRepeated
    by_cases old : first ∈ seen
    · rw [if_pos (by simpa using old)]
      constructor
      · intro h
        cases h
        exact ⟨[], names, rfl, by simpa using nodup, by simpa using old⟩
      · rintro ⟨before, after, eq, nodup', -⟩
        cases before with
        | nil =>
          cases eq
          rfl
        | cons other before =>
          cases eq
          simp only [reverse_cons, append_assoc, singleton_append] at nodup'
          exact absurd old (nodup_cons.1 (nodup_append.1 nodup').2.1).1
    · rw [if_neg (by simpa using old), firstRepeated_eq_some (nodup_cons.2 ⟨old, nodup⟩)]
      constructor
      · rintro ⟨before, after, rfl, nodup', mem⟩
        exact ⟨first :: before, after, rfl, by simpa using nodup', by simpa using mem⟩
      · rintro ⟨before, after, eq, nodup', mem⟩
        cases before with
        | nil =>
          cases eq
          exact absurd (by simpa using mem) old
        | cons other before =>
          cases eq
          exact ⟨before, after, rfl, by simpa using nodup', by simpa using mem⟩

theorem firstRepeated_eq_none : ∀ {names seen : List String},
    firstRepeated seen names = none ↔ names.Nodup ∧ ∀ name ∈ names, name ∉ seen
  | [], seen => by simp [firstRepeated]
  | first :: names, seen => by
    unfold firstRepeated
    by_cases old : first ∈ seen
    · simp [old]
    · rw [if_neg (by simpa using old), firstRepeated_eq_none, nodup_cons]
      grind

theorem collect_eq (body : List Stmt) :
    collect body = match firstRepeated [] (namesIn body) with
      | some name => .error (.duplicateLabel name)
      | none => .ok ⟨labelsOf (spots body)⟩ := by
  rw [namesIn_eq, ← ofBody_eq]
  rfl

/-- The search fails with the first name that comes a second time, and with nothing else. -/
theorem collect_eq_error {e : Error} :
    collect body = .error e ↔ ∃ name, e = .duplicateLabel name ∧
      FirstRepeat (namesIn body) name := by
  have repeats (name : String) : firstRepeated [] (namesIn body) = some name ↔
      FirstRepeat (namesIn body) name := by
    rw [firstRepeated_eq_some nodup_nil]
    simp [FirstRepeat, (reverse_perm _).nodup_iff]
  rw [collect_eq]
  cases found : firstRepeated [] (namesIn body) with
  | none =>
    constructor
    · intro h
      cases h
    · rintro ⟨name, -, first⟩
      rw [(repeats name).2 first] at found
      cases found
  | some name =>
    constructor
    · intro h
      cases h
      exact ⟨name, rfl, (repeats name).1 found⟩
    · rintro ⟨name', rfl, first⟩
      rw [(repeats name').2 first] at found
      cases found
      rfl

theorem collect_eq_ok {labels : LabelScopes} :
    collect body = .ok labels ↔ (namesIn body).Nodup ∧ labels = ⟨labelsOf (spots body)⟩ := by
  have distinct : firstRepeated [] (namesIn body) = none ↔ (namesIn body).Nodup := by
    simp [firstRepeated_eq_none]
  rw [collect_eq, ← distinct]
  cases firstRepeated [] (namesIn body) with
  | none => simp [eq_comm]
  | some name => simp

end LabelScopes

def Code.Function.comments (code : Code.Function) : List String :=
  code.instrs.toList.filterMap Instr.comment?

theorem Draft.toFunction_comments {d : Draft} {arguments : List Register} {pads : Nat}
    {code : Code.Function} (h : d.toFunction name arguments pads = .ok code) :
    code.comments = d.comments := by
  rw [Code.Function.comments, (Draft.toFunction_fields h).instrs, Draft.comments]

theorem Draft.forM_patch_fails (l : Label) : ∀ (pending : Pending) (d : Draft),
    Ends (fun e => e.isInternal = true) (fun _ _ => True) (pending.forM (patch l) d)
  | [], _ => trivial
  | b :: pending, d => by
    refine .next (P := fun _ _ => True) ?_ fun _ d' _ => forM_patch_fails l pending d'
    exact patch_ends fun _ => trivial

theorem Draft.resolveTo_fails (pending : Pending) (l : Label) (d : Draft) :
    Ends (fun e => e.isInternal = true) (fun _ _ => True) (Draft.resolveTo pending l d) := by
  unfold Draft.resolveTo
  split
  · trivial
  · unfold Draft.backpatch
    split
    · exact rfl
    · exact Draft.forM_patch_fails l pending d

namespace Lower

variable {base : Env} {around : List Owner}

def visitBody (hook : Hook) (body : List Stmt) : LowerM Nat := do
  let _ ← inCompound (visitStmts hook [.compound ⟨0⟩] ⟨1, 0⟩ body)
  fallOut
  finishBody

def visitAll (hook : Hook) (f : Ast.Function) : LowerM Code.Function := do
  let incoming ← prologue f
  let pads ← withReader (fun env =>
    { env with result := incoming.result, callerStatus := incoming.callerStatus })
    (visitBody hook f.body)
  let s ← get
  s.gotos.finish
  s.draft.toFunction (← read).symbol.name incoming.arguments pads

/-- Lowers a function with a hook at every statement. -/
def visitFunction (hook : Hook) (symbols : SymbolTable) (options : Options) (f : Ast.Function) :
    Except Error Code.Function := do
  let symbol ← symbols.functionSymbol f.function
  let labels ← LabelScopes.collect f.body
  match visitAll hook f (.start symbols symbol options labels) .empty with
  | .ok code _ => .ok code
  | .error e _ => .error e

theorem visitFunction_eq {symbols : SymbolTable} {options : Options} {f : Ast.Function}
    {symbol : FunctionSymbol} {labels : LabelScopes}
    (hs : symbols.functionSymbol f.function = .ok symbol)
    (hl : LabelScopes.collect f.body = .ok labels) (hook : Hook) :
    visitFunction hook symbols options f =
      match visitAll hook f (.start symbols symbol options labels) .empty with
      | .ok code _ => .ok code
      | .error e _ => .error e := by
  unfold visitFunction
  rw [hs, hl]
  rfl

theorem lowerBody_eq_visit (body : List Stmt) : lowerBody body = visitBody commenting body := by
  rw [lowerBody, visitBody, lowerStmts_eq_visit body]

theorem lowerFunction_eq_visit (symbols : SymbolTable) (options : Options) (f : Ast.Function) :
    lowerFunction symbols options f = visitFunction commenting symbols options f := by
  unfold lowerFunction visitFunction lowerAll visitAll
  rw [lowerBody_eq_visit]
  rfl

def Point.start : Point := ⟨⟨0, 0⟩, [], []⟩

theorem visitBody_leads {marks : Spot → List String} {hook hook' : Hook}
    (hh : Hooked base marks hook hook' (spots body)) (distinct : (LabelScopes.namesIn body).Nodup) :
    Leads base [] 0 0 .start
      (Point.start.past (Stmt.tallyAll ⟨1, 0⟩ body) marks (spots body))
      (visitBody hook body) (visitBody hook' body) := by
  have walked : Follows base marks [] ⟨0, 0⟩ (Stmt.tallyAll ⟨1, 0⟩ body) (spots body)
      (inCompound (visitStmts hook [.compound ⟨0⟩] ⟨1, 0⟩ body))
      (inCompound (visitStmts hook' [.compound ⟨0⟩] ⟨1, 0⟩ body)) :=
    .inCompound (visitStmts_follows body _ _ hh)
  rw [LabelScopes.namesIn_eq] at distinct
  exact (walked .start rfl (by simpa [Point.start, namesOf] using distinct)).bind fun _ =>
    (Leads.silent fallOut_traced).bind fun _ => .moves finishBody_moves

theorem Standing.start (known : List String) : Standing known 0 .start .empty :=
  ⟨rfl, rfl, rfl, by simp [State.empty, Gotos.empty], rfl⟩

section Function
variable {base : Env} {marks : Spot → List String} {hook hook' : Hook} {f : Ast.Function}

theorem visitAll_leads (hh : Hooked base marks hook hook' (spots f.body))
    (distinct : (LabelScopes.namesIn f.body).Nodup) :
    Leads base [] 0 0 .start
      (Point.start.past (Stmt.tallyAll ⟨1, 0⟩ f.body) marks (spots f.body))
      (visitAll hook f) (visitAll hook' f) := by
  refine .after (prologue_traced f) fun incoming => Leads.bind (fun env s like scopes start => ?_)
    fun pads => .silent (.look fun s => (Passes.answered _).bind fun _ => .ask fun _ => .answered _)
  exact visitBody_leads hh distinct { env with
    result := incoming.result, callerStatus := incoming.callerStatus } s
    ⟨like.symbols, like.options, like.labels⟩ scopes start

theorem visitAll_comments (hook : Hook) (env : Env) (s : State) :
    Ensures (fun code t => code.comments = t.draft.comments) (visitAll hook f env s) := by
  refine .seq (Ends.any _) fun incoming s1 _ => .seq (Ends.any _) fun pads s2 _ =>
    Ends.look (Ends.query fun _ _ => ?_)
  exact .ask (Ends.answered (fun _ found => Draft.toFunction_comments found)
    fun _ _ => trivial)

end Function

section Hooks
open Classical in
noncomputable def checking (P : List Owner → Stmt → Env → State → Prop) (e : Error) : Hook :=
  fun around s env st => if P around s env st then comment s.name env st else .error e st

def marking (mark : Stmt → String) : Hook := fun _ s => emit (.comment (mark s))

/-- While a function is lowered, `P` holds wherever a statement is lowered: a check in front of
each statement changes nothing, whatever it would report. -/
def Throughout (symbols : SymbolTable) (options : Options) (f : Ast.Function)
    (P : List Owner → Stmt → Env → State → Prop) : Prop :=
  ∀ e, visitFunction (checking P e) symbols options f = lowerFunction symbols options f

variable {symbols : SymbolTable} {options : Options} {f : Ast.Function}

theorem emit_comment_leads {d : Nat} {p : Point} (text : String) :
    Leads base around d d p (p.noted [text]) (emit (.comment text)) (emit (.comment text)) := by
  refine .of_ends fun env s _ _ stands => ?_
  refine ⟨stands.depth, stands.compounds, stands.placed, stands.pending, ?_⟩
  rw [Draft.comments_push, stands.comments]
  rfl

def comments (options : Options) (spot : Spot) : List String :=
  if options.debugComments then [spot.2.name] else []

theorem comment_leads {d : Nat} {p : Point} (s : Stmt) :
    Leads base around d d p (p.noted (comments base.options (around, s))) (comment s.name)
      (comment s.name) := by
  intro env st like scopes stands
  unfold comments
  have shown := like.options
  by_cases on : base.options.debugComments
  · have run : comment s.name env st = emit (.comment s.name) env st := by
      change (if env.options.debugComments then emit (.comment s.name) else pure ()) env st = _
      rw [if_pos (by rw [shown]; exact on)]
    rw [if_pos on, run]
    exact emit_comment_leads s.name env st like scopes stands
  · have run : comment s.name env st = (pure () : LowerM Unit) env st := by
      change (if env.options.debugComments then emit (.comment s.name) else pure ()) env st = _
      rw [if_neg (by rw [shown]; exact on)]
    rw [if_neg on, run]
    have silent : Leads base around d d p p (pure () : LowerM Unit) (pure ()) := .silent (.pure _)
    have same : p.noted [] = p := by simp [Point.noted]
    rw [same]
    exact silent env st like scopes stands

structure Visited (base : Env) (spot : Spot) (env : Env) (s : State) : Prop where
  like : base.Like env
  scopes : env.scopes = activeScopes spot.1
  standing : ∃ p, Standing base.known spot.1.length p s ∧
    ∀ name inner, spot.2 = .labeled name inner → name ∉ p.names

theorem checking_hooked {P : List Owner → Stmt → Env → State → Prop} (e : Error) {l : List Spot}
    (h : ∀ spot ∈ l, ∀ env s, Visited base spot env s → P spot.1 spot.2 env s) :
    Hooked base (comments base.options) (checking P e) commenting l := by
  intro spot hs p new env s like scopes stands
  have holds := h spot hs env s ⟨like, scopes, p, stands, new⟩
  have run : checking P e spot.1 spot.2 env s = commenting spot.1 spot.2 env s := if_pos holds
  rw [run]
  exact comment_leads spot.2 env s like scopes stands

theorem throughout {P : List Owner → Stmt → Env → State → Prop}
    (h : ∀ symbol labels, LabelScopes.collect f.body = .ok labels →
      ∀ spot ∈ spots f.body, ∀ env s, Visited (.start symbols symbol options labels) spot env s →
        P spot.1 spot.2 env s) :
    Throughout symbols options f P := by
  intro e
  rw [lowerFunction_eq_visit]
  cases hs : symbols.functionSymbol f.function with
  | error err =>
    have fails (hook : Hook) : visitFunction hook symbols options f = .error err := by
      unfold visitFunction
      rw [hs]
      rfl
    rw [fails, fails]
  | ok symbol =>
    cases hl : LabelScopes.collect f.body with
    | error err =>
      have fails (hook : Hook) : visitFunction hook symbols options f = .error err := by
        unfold visitFunction
        rw [hs, hl]
        rfl
      rw [fails, fails]
    | ok labels =>
      have run := visitAll_leads (checking_hooked e (h symbol labels hl))
        (LabelScopes.collect_eq_ok.1 hl).1 (.start symbols symbol options labels) .empty
        ⟨rfl, rfl, rfl⟩ rfl (.start _)
      rw [visitFunction_eq hs hl, visitFunction_eq hs hl, run.same]

theorem visitFunction_comments {hook : Hook} {marks : Spot → List String} {code : Code.Function}
    (hh : ∀ symbol labels,
      Hooked (.start symbols symbol options labels) marks hook hook (spots f.body))
    (h : visitFunction hook symbols options f = .ok code) :
    code.comments = (spots f.body).flatMap marks := by
  cases hs : symbols.functionSymbol f.function with
  | error err =>
    unfold visitFunction at h
    rw [hs] at h
    cases h
  | ok symbol =>
    cases hl : LabelScopes.collect f.body with
    | error err =>
      unfold visitFunction at h
      rw [hs, hl] at h
      cases h
    | ok labels =>
      have run := visitAll_leads (hh symbol labels) (LabelScopes.collect_eq_ok.1 hl).1
        (.start symbols symbol options labels) .empty ⟨rfl, rfl, rfl⟩ rfl (.start _)
      have ends := run.ends.and (visitAll_comments (f := f) hook
        (.start symbols symbol options labels) .empty)
      rw [visitFunction_eq hs hl] at h
      cases hr : visitAll hook f (.start symbols symbol options labels) .empty with
      | error err t =>
        rw [hr] at h
        cases h
      | ok made t =>
        rw [hr] at h
        cases h
        have found := ends.of_ok hr
        exact found.2.trans found.1.comments

end Hooks

section Labels
variable {symbols : SymbolTable} {symbol : FunctionSymbol} {options : Options} {body : List Stmt}
  {labels : LabelScopes} {inner : Stmt} {env : Env} {s : State}

theorem lookup_of_mem {entry : α × β} [BEq α] [LawfulBEq α] : ∀ {l : List (α × β)}, entry ∈ l →
    (l.map Prod.fst).Nodup → l.lookup entry.1 = some entry.2
  | first :: l, mem, nodup => by
    obtain ⟨new, nodup⟩ := nodup_cons.1 nodup
    rw [lookup_cons]
    rcases mem_cons.1 mem with rfl | mem
    · simp
    · have differ : entry.1 ≠ first.1 := by
        intro same
        rw [← same] at new
        exact new (mem_map_of_mem mem)
      rw [beq_eq_false_iff_ne.2 differ]
      exact lookup_of_mem mem nodup

theorem scopesOf_labeled (found : LabelScopes.collect body = .ok labels)
    (mem : (around, .labeled name inner) ∈ spots body) :
    labels.scopesOf name = .ok (compoundsOf around) := by
  obtain ⟨distinct, rfl⟩ := LabelScopes.collect_eq_ok.1 found
  have listed : (name, compoundsOf around) ∈ labelsOf (spots body) :=
    mem_filterMap.2 ⟨_, mem, rfl⟩
  rw [LabelScopes.namesIn_eq] at distinct
  rw [LabelScopes.scopesOf, lookup_of_mem listed distinct]

theorem Visited.scopesOf {spot : Spot}
    (h : Visited (.start symbols symbol options labels) spot env s)
    (found : LabelScopes.collect body = .ok labels) (mem : spot ∈ spots body)
    (labeled : spot.2 = .labeled name inner) :
    env.labels.scopesOf name = .ok (env.scopes.map ActiveScope.id) := by
  obtain ⟨around, stmt⟩ := spot
  cases labeled
  rw [h.scopes, map_activeScopes, h.like.labels]
  exact scopesOf_labeled found mem

theorem Visited.place {spot : Spot} (h : Visited base spot env s)
    (labeled : spot.2 = .labeled name inner) (d : Draft) (t : State) (other : String) :
    placeName name env { s with draft := d } ≠ .error (.duplicateLabel other) t := by
  obtain ⟨p, stands, new⟩ := h.standing
  have ends : Ends (fun e => e.isInternal = true) (fun _ _ => True)
      (placeName name env { s with draft := d }) := by
    refine .look ?_
    rw [not_placed stands (new name inner labeled), if_neg (by simp)]
    refine .drafted (P := fun _ _ => True) ?_ fun l d1 _ =>
      .drafted (Draft.resolveTo_fails _ l d1) fun _ _ _ => trivial
    obtain ⟨l, -, run⟩ | ⟨-, run⟩ := Draft.hereLabel_cases d
    · rw [run]
      trivial
    · rw [run]
      trivial
  intro failed
  cases ends.of_error failed

theorem lowerBody_awaits_none (found : LabelScopes.collect body = .ok labels) {t : State}
    {pads : Nat} (like : (Env.start symbols symbol options labels).Like env)
    (scopes : env.scopes = [])
    (start : Standing (Env.start symbols symbol options labels).known 0 .start s)
    (run : lowerBody body env s = .ok pads t) : t.gotos.finish = .ok () := by
  obtain ⟨distinct, rfl⟩ := LabelScopes.collect_eq_ok.1 found
  have hooked : Hooked (Env.start symbols symbol options ⟨labelsOf (spots body)⟩) (comments options)
      commenting commenting (spots body) := fun spot _ p _ => comment_leads spot.2
  rw [lowerBody_eq_visit] at run
  have stands := (visitBody_leads hooked distinct env s like scopes start).ends.of_ok run
  unfold Gotos.finish
  cases waiting : t.gotos.pending with
  | nil => rfl
  | cons entry rest =>
    have left := stands.pending entry.1 (by rw [waiting]; exact mem_cons_self)
    exact absurd (by simpa [Point.start, Point.past, Env.known, Env.start] using left.1) left.2

end Labels

end Lower

open LabelScopes Lower in
/-- The search for labels and lowering walk through a body in the order of its visitor. -/
theorem lowerFunction_visits_in_order (symbols : SymbolTable) (options : Options)
    (f : Ast.Function) :
    (∀ e, collect f.body = .error e ↔
      ∃ name, e = .duplicateLabel name ∧ FirstRepeat (namesIn f.body) name) ∧
    ((∃ e, collect f.body = .error e) ↔ ¬ (namesIn f.body).Nodup) ∧
    (Throughout symbols options f fun _ s env st => ∀ name inner, s = .labeled name inner →
      env.labels.scopesOf name = .ok (env.scopes.map ActiveScope.id) ∧
      ∀ d t other, placeName name env { st with draft := d } ≠ .error (.duplicateLabel other) t) ∧
    (∀ mark code, visitFunction (marking mark) symbols options f = .ok code →
      code.comments = (stmtsOf (walk f.body)).map mark) ∧
    (∀ code, options.debugComments = true → lowerFunction symbols options f = .ok code →
      code.comments = (stmtsOf (walk f.body)).map Stmt.name) ∧
    ∀ symbol labels incoming s pads t, collect f.body = .ok labels →
      prologue f (.start symbols symbol options labels) .empty = .ok incoming s →
      withReader (fun env =>
        { env with result := incoming.result, callerStatus := incoming.callerStatus })
        (lowerBody f.body) (.start symbols symbol options labels) s = .ok pads t →
      t.gotos.finish = .ok () := by
  refine ⟨fun e => collect_eq_error, ?_, ?_, ?_, ?_, ?_⟩
  · cases found : collect f.body with
    | error e =>
      have repeated : ¬ (namesIn f.body).Nodup := fun distinct => by
        have := collect_eq_ok.2 ⟨distinct, rfl⟩
        rw [found] at this
        cases this
      simp [repeated]
    | ok labels => simp [(collect_eq_ok.1 found).1]
  · refine throughout fun symbol labels found spot mem env s visited name inner labeled => ?_
    exact ⟨visited.scopesOf found mem labeled, visited.place labeled⟩
  · intro mark code lowered
    have hooked (base : Env) : Hooked base (fun spot => [mark spot.2]) (marking mark) (marking mark)
        (spots f.body) := fun spot _ p _ => emit_comment_leads (mark spot.2)
    rw [visitFunction_comments (fun symbol labels => hooked _) lowered, ← map_bodySpots,
      map_map]
    exact map_eq_flatMap.symm
  · intro code shown lowered
    have hooked (symbol : FunctionSymbol) (labels : LabelScopes) :
        Hooked (.start symbols symbol options labels) (comments options) commenting commenting
          (spots f.body) := fun spot _ p _ => comment_leads spot.2
    have marks : comments options = fun spot => [spot.2.name] := by
      funext spot
      exact if_pos shown
    rw [lowerFunction_eq_visit] at lowered
    rw [visitFunction_comments hooked lowered, marks, ← map_bodySpots, map_map]
    exact map_eq_flatMap.symm
  · intro symbol labels incoming s pads t found entered run
    have quiet : Quiet (prologue f) := prologue_traced f
    have moved := (quiet.moves 0 (.start symbols symbol options labels) .empty 0 rfl).of_ok entered
    have start : Standing (Env.start symbols symbol options labels).known 0 .start s :=
      (Standing.start _).still moved.1 moved.2
    have like : (Env.start symbols symbol options labels).Like
        { Env.start symbols symbol options labels with
          result := incoming.result, callerStatus := incoming.callerStatus } := ⟨rfl, rfl, rfl⟩
    exact lowerBody_awaits_none found like rfl start run

section Example

def plainSymbols : SymbolTable where
  types := #[.void]
  functions := #[.plain "main" ⟨0⟩]
  vars := #[]

/-- `outer: { for (;;) inner: goto outer; } goto inner;` -/
def nestedLabels : Ast.Function where
  function := ⟨0⟩
  parameters := []
  locals := []
  body := [.labeled "outer"
    (.compound [.forLoop none none none (.labeled "inner" (.goto "outer"))]),
    .goto "inner"]
  returnsByHiddenSlot := false
  canRaise := false

theorem nestedLabels_visited :
    (¬ ∃ e, LabelScopes.collect nestedLabels.body = .error e) ∧
    ∃ code, lowerFunction plainSymbols ⟨false, true⟩ nestedLabels = .ok code ∧
      code.comments = ["labeled", "compound", "for", "labeled", "goto", "goto"] := by
  obtain ⟨-, collected, -, -, commented, -⟩ :=
    lowerFunction_visits_in_order plainSymbols ⟨false, true⟩ nestedLabels
  obtain ⟨code, lowered⟩ := exists_ok_of_isSome
    (x := lowerFunction plainSymbols ⟨false, true⟩ nestedLabels) (by decide +kernel)
  exact ⟨fun failed => collected.1 failed (by decide +kernel), code, lowered,
    commented code rfl lowered⟩

end Example

end FlatCode
