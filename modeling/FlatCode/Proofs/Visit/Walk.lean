import FlatCode.Proofs.Visit.Quiet
import FlatCode.Proofs.Visit.Spots

/-! Lowering, seen statement by statement. A hook runs in front of every statement and is told the
scopes around it; lowering itself is the case where the hook writes the comment. What is known of
names, compounds and comments at each point of the walk is what the list of visited statements
says, whatever the hook does besides. -/
namespace FlatCode.Lower
open Code Symbols Ast List
variable {m m' : LowerM α} {f f' : α → LowerM β} {name : String} {base : Env}
  {marks : Spot → List String} {hook hook' : Hook} {l : List Spot}

abbrev Hook := List Owner → Stmt → LowerM Unit

mutual
def visitStmt (hook : Hook) (around : List Owner) (t : Tally) (s : Stmt) : LowerM Exits := do
  hook around s
  match s with
  | .compound body => inCompound (visitStmts hook (around ++ [t.compound]) t.enter body)
  | .expression e => straight (discard (fullValue e))
  | .construction v ctor arguments => straight (lowerConstruction v ctor arguments)
  | .assignment target value => straight (lowerAssignment target value)
  | .ifElse e then_ none => lowerIf e (visitStmt hook around t then_)
  | .ifElse e then_ (some else_) =>
    lowerIfElse e (visitStmt hook around t then_) (visitStmt hook around (then_.tally t) else_)
  | .whileLoop e body => lowerWhile e (visitStmt hook around t body)
  | .doWhile body e => lowerDoWhile (visitStmt hook around t body) e
  | .forLoop none e increment body =>
    lowerFor (pure .none) e increment (visitStmt hook (around ++ [t.loop]) t.enterLoop body)
  | .forLoop (some init) e increment body =>
    lowerFor (visitStmt hook (around ++ [t.loop]) t.enterLoop init) e increment
      (visitStmt hook (around ++ [t.loop]) (init.tally t.enterLoop) body)
  | .switch e clauses => lowerSwitch e clauses (visitClauses hook around t clauses)
  | .return_ e => straight (lowerReturn e)
  | .break_ => lowerBreak
  | .continue_ => lowerContinue
  | .labeled label statement =>
    let _ ← placeName label
    visitStmt hook around t statement
  | .goto label => straight (lowerGoto label)
  | .gotoCase value => straight (lowerGotoCase fun cases => cases.get value)
  | .gotoDefault => straight (lowerGotoCase requireDefault)
  | .destruction object destructor => straight (lowerDestruction object destructor)
  | .try_ body handler =>
    let t' := Stmt.tallyAll t.enter body
    lowerTry (inCompound (visitStmts hook (around ++ [t.compound]) t.enter body))
      (inCompound (visitStmts hook (around ++ [t'.compound]) t'.enter handler))
  | .throw_ e => straight (lowerThrow e)
  | .empty => pure .none
def visitStmts (hook : Hook) (around : List Owner) (t : Tally) : List Stmt → LowerM Exits
  | [] => pure .none
  | s :: rest => do
    let first ← settle (← visitStmt hook around t s)
    return first ++ (← visitStmts hook around (s.tally t) rest)
def visitClauses (hook : Hook) (around : List Owner) (t : Tally) :
    List Clause → List Label → LowerM Exits
  | .mk _ body :: rest, label :: labels => do
    Draft.place label
    let first ← inCompound (visitStmts hook (around ++ [t.compound]) t.enter body)
    return first ++ (← visitClauses hook around (Stmt.tallyAll t.enter body) rest labels)
  | _, _ => pure .none
end

def commenting : Hook := fun _ s => comment s.name

mutual
theorem lowerStmt_eq_visit : ∀ (s : Stmt) (around : List Owner) (t : Tally),
    lowerStmt s = visitStmt commenting around t s
  | .compound body, around, t => by
    rw [lowerStmt, visitStmt, lowerStmts_eq_visit body]
    rfl
  | .ifElse _ body none, _, _ | .whileLoop _ body, _, _ | .doWhile body _, _, _
  | .forLoop none _ _ body, _, _ | .labeled _ body, _, _ => by
    rw [lowerStmt, visitStmt, lowerStmt_eq_visit body]
    rfl
  | .ifElse e then_ (some else_), around, t => by
    rw [lowerStmt, visitStmt, lowerStmt_eq_visit then_, lowerStmt_eq_visit else_]
    rfl
  | .forLoop (some init) e increment body, around, t => by
    rw [lowerStmt, visitStmt, lowerStmt_eq_visit init, lowerStmt_eq_visit body]
    rfl
  | .switch e clauses, around, t => by
    rw [lowerStmt, visitStmt, lowerClauses_eq_visit clauses]
    rfl
  | .try_ body handler, around, t => by
    rw [lowerStmt, visitStmt, lowerStmts_eq_visit body, lowerStmts_eq_visit handler]
    rfl
  | .return_ _, _, _ | .expression _, _, _ | .construction _ _ _, _, _ | .assignment _ _, _, _
  | .break_, _, _ | .continue_, _, _ | .goto _, _, _ | .gotoCase _, _, _ | .gotoDefault, _, _
  | .destruction _ _, _, _ | .throw_ _, _, _ | .empty, _, _ => by
    rfl
theorem lowerStmts_eq_visit : ∀ (body : List Stmt) (around : List Owner) (t : Tally),
    lowerStmts body = visitStmts commenting around t body
  | [], _, _ => by rw [lowerStmts, visitStmts]
  | s :: rest, _, _ => by
    rw [lowerStmts, visitStmts, lowerStmt_eq_visit s, lowerStmts_eq_visit rest]
theorem lowerClauses_eq_visit : ∀ (clauses : List Clause) (around : List Owner) (t : Tally),
    lowerClauses clauses = visitClauses commenting around t clauses
  | [], _, _ => by
    funext labels
    rw [lowerClauses, visitClauses] <;> simp
  | .mk _ body :: rest, around, t => by
    funext labels
    cases labels with
    | nil => rw [lowerClauses, visitClauses] <;> simp
    | cons label labels =>
      rw [lowerClauses, visitClauses, lowerStmts_eq_visit body, lowerClauses_eq_visit rest]
end

/-- The compounds among the scopes around a place, as lowering keeps them: each with the number of
scopes that were open when it was entered. -/
def activeScopes (around : List Owner) : List ActiveScope :=
  around.zipIdx.filterMap fun entry => entry.1.compound?.map fun id => ⟨id, entry.2⟩

theorem activeScopes_enter (around : List Owner) (t : Tally) :
    activeScopes (around ++ [t.compound]) =
      activeScopes around ++ [⟨⟨t.compounds⟩, around.length⟩] := by
  simp [activeScopes, zipIdx_append, Tally.compound, Owner.compound?]

theorem activeScopes_enterLoop (around : List Owner) (t : Tally) :
    activeScopes (around ++ [t.loop]) = activeScopes around := by
  simp [activeScopes, zipIdx_append, Tally.loop, Owner.compound?]

def activesFrom (k : Nat) (around : List Owner) : List ActiveScope :=
  (around.zipIdx k).filterMap fun entry => entry.1.compound?.map fun id => ⟨id, entry.2⟩

theorem map_activesFrom (k : Nat) (around : List Owner) :
    (activesFrom k around).map ActiveScope.id = compoundsOf around := by
  induction around generalizing k with
  | nil => rfl
  | cons o around ih =>
    cases o with
    | compound id => exact congrArg (cons id) (ih (k + 1))
    | loop index => exact ih (k + 1)

theorem map_activeScopes (around : List Owner) :
    (activeScopes around).map ActiveScope.id = compoundsOf around := map_activesFrom 0 around

structure Point where
  tally : Tally
  /-- The labels placed. -/
  names : List String
  /-- The comments written. -/
  texts : List String

namespace Point

def past (p : Point) (t : Tally) (marks : Spot → List String) (l : List Spot) : Point :=
  ⟨t, p.names ++ (labelsOf l).map Prod.fst, p.texts ++ l.flatMap marks⟩

def noted (p : Point) (texts : List String) : Point := { p with texts := p.texts ++ texts }

def named (p : Point) (name : String) : Point := { p with names := p.names ++ [name] }

end Point

/-- The state at a point of the walk with `depth` scopes open. Only names of the body are waited
for, and none that has been placed. -/
structure Standing (known : List String) (depth : Nat) (p : Point) (s : State) : Prop where
  depth : s.cleanups.depth = depth
  compounds : s.compounds = p.tally.compounds
  placed : s.gotos.placed.map Prod.fst = p.names.reverse
  pending : ∀ name ∈ s.gotos.pending.map Prod.fst, name ∈ known ∧ name ∉ p.names
  comments : s.draft.comments = p.texts

theorem Standing.still {known : List String} {d e : Nat} {p : Point} {s t : State}
    (h : Standing known d p s) (k : s.Still t) (depth : t.cleanups.depth = e) :
    Standing known e p t := by
  refine ⟨depth, k.compounds.trans h.compounds, ?_, ?_, k.comments.trans h.comments⟩
  · rw [k.gotos]
    exact h.placed
  · rw [k.gotos]
    exact h.pending

structure Env.Like (base env : Env) : Prop where
  symbols : env.symbols = base.symbols
  options : env.options = base.options
  labels : env.labels = base.labels

def Env.known (base : Env) : List String := base.labels.labels.map Prod.fst

structure Alike (Q : State → Prop) (r r' : EStateM.Result Error State α) : Prop where
  same : r = r'
  ends : Ends (fun _ => True) (fun _ t => Q t) r

/-- Two steps that do the same between the given points of the walk, inside `around`. The numbers
tell how many scopes are open in front of them and behind. -/
def Leads (base : Env) (around : List Owner) (d e : Nat) (p q : Point)
    (m m' : LowerM α) : Prop :=
  ∀ env s, base.Like env → env.scopes = activeScopes around → Standing base.known d p s →
    Alike (Standing base.known e q) (m env s) (m' env s)

namespace Leads
variable {base : Env} {around : List Owner} {c d e : Nat} {o p q : Point}

theorem of_ends
    (h : ∀ env s, base.Like env → env.scopes = activeScopes around → Standing base.known d p s →
      Ensures (fun _ t => Standing base.known e q t) (m env s)) :
    Leads base around d e p q m m :=
  fun env s like hs hp => ⟨rfl, h env s like hs hp⟩

theorem moves {a b : Nat} (h : Moves a b m) : Leads base around (d + a) (d + b) p p m m :=
  of_ends fun env s _ _ hp => (h env s d hp.depth).mono fun _ _ ht => hp.still ht.1 ht.2

theorem silent (h : Quiet m) : Leads base around d d p p m m := moves (h.moves 0)

theorem bind (hm : Leads base around c d o p m m')
    (hf : ∀ a, Leads base around d e p q (f a) (f' a)) :
    Leads base around c e o q (m >>= f) (m' >>= f') := by
  intro env s like hs ho
  have first := hm env s like hs ho
  change Alike _ (EStateM.bind (m env) (fun a => f a env) s)
    (EStateM.bind (m' env) (fun a => f' a env) s)
  unfold EStateM.bind
  rw [← first.same]
  cases hr : m env s with
  | ok a t => exact hf a env t like hs (first.ends.of_ok hr)
  | error err t => exact ⟨rfl, trivial⟩

theorem after (hm : Quiet m) (hf : ∀ a, Leads base around d e p q (f a) (f' a)) :
    Leads base around d e p q (m >>= f) (m >>= f') :=
  (silent hm).bind hf

theorem afterWith {P : α → Prop} (hm : Quiet m)
    (value : ∀ env s, Ensures (fun a _ => P a) (m env s))
    (hf : ∀ a, P a → Leads base around d e p q (f a) (f' a)) :
    Leads base around d e p q (m >>= f) (m >>= f') := by
  intro env s like hs hp
  have first := (hm.moves 0 env s d hp.depth).and (value env s)
  change Alike _ (EStateM.bind (m env) (fun a => f a env) s)
    (EStateM.bind (m env) (fun a => f' a env) s)
  unfold EStateM.bind
  cases hr : m env s with
  | ok a t =>
    have found := first.of_ok hr
    exact hf a found.2 env t like hs (hp.still found.1.1 found.1.2)
  | error err t => exact ⟨rfl, trivial⟩

theorem before (hm : Leads base around d e p q m m') (hf : ∀ a, Quiet (f a)) :
    Leads base around d e p q (m >>= f) (m' >>= f) :=
  hm.bind fun a => silent (hf a)

theorem inLoop (h : Leads base around d e p q m m') :
    Leads base around d e p q (inLoop m) (inLoop m') :=
  fun env s like => h { env with
    breakDepth := some s.cleanups.depth, loopDepth := some s.cleanups.depth } s
    ⟨like.symbols, like.options, like.labels⟩

theorem inSwitch (cases : CaseMap) (h : Leads base around d e p q m m') :
    Leads base around d e p q (inSwitch cases m) (inSwitch cases m') :=
  fun env s like => h { env with
    breakDepth := some s.cleanups.depth, switch := some ⟨cases, s.cleanups.depth⟩ } s
    ⟨like.symbols, like.options, like.labels⟩

theorem inRegion (handler : Label) (h : Leads base around d e p q m m') :
    Leads base around d e p q (inRegion handler m) (inRegion handler m') :=
  fun env s like => h { env with region := some ⟨handler, s.cleanups.depth⟩ } s
    ⟨like.symbols, like.options, like.labels⟩

theorem inCompound {q : Point}
    (h : Leads base (around ++ [p.tally.compound]) (around.length + 1) (around.length + 1)
      { p with tally := p.tally.enter } q m m') :
    Leads base around around.length around.length p q (inCompound m) (inCompound m') := by
  intro env s like hs hp
  let entered : State :=
    { s with compounds := s.compounds + 1, cleanups := s.cleanups.openScope }
  have stands : Standing base.known (around.length + 1)
      { p with tally := p.tally.enter } entered := by
    refine ⟨?_, ?_, hp.placed, hp.pending, hp.comments⟩
    · change s.cleanups.depth + 1 = _
      rw [hp.depth]
    · change s.compounds + 1 = p.tally.compounds + 1
      rw [hp.compounds]
  have scopes : env.scopes ++ [⟨⟨s.compounds⟩, s.cleanups.depth⟩] =
      activeScopes (around ++ [p.tally.compound]) := by
    rw [activeScopes_enter, hs, hp.compounds, hp.depth]
  have leave : ∀ a : α, Leads base around (around.length + 1) around.length q q
      (do closeScope; pure a) (do closeScope; pure a) := fun a =>
    (moves (closeScope_moves 0)).bind fun _ => silent (.pure a)
  have body := h { env with scopes := env.scopes ++ [⟨⟨s.compounds⟩, s.cleanups.depth⟩] } entered
    ⟨like.symbols, like.options, like.labels⟩ scopes stands
  have run (m : LowerM α) : Lower.inCompound m env s = (EStateM.bind
      (m { env with scopes := env.scopes ++ [⟨⟨s.compounds⟩, s.cleanups.depth⟩] })
      (fun a => (do closeScope; pure a : LowerM α) env)) entered := rfl
  rw [run m, run m']
  unfold EStateM.bind
  rw [← body.same]
  cases hr : m { env with scopes := env.scopes ++ [⟨⟨s.compounds⟩, s.cleanups.depth⟩] } entered with
  | ok a t => exact leave a env t like hs (body.ends.of_ok hr)
  | error err t => exact ⟨rfl, trivial⟩

theorem enterLoop {t : Tally} (h : Leads base (around ++ [t.loop]) d e p q m m') :
    Leads base around d e p q m m' :=
  fun env s like hs hp => h env s like (hs.trans (activeScopes_enterLoop around t).symm) hp

end Leads

section Names
variable {base : Env} {around : List Owner} {d : Nat} {p : Point}

theorem not_placed {known : List String} {s : State} (h : Standing known d p s)
    (new : name ∉ p.names) : s.gotos.placed.lookup name = none := by
  rw [lookup_eq_none_iff]
  intro entry he
  have listed : entry.1 ∈ p.names.reverse := by
    rw [← h.placed]
    exact mem_map_of_mem he
  have differ : name ≠ entry.1 := by
    rintro rfl
    exact new (mem_reverse.1 listed)
  simpa using differ

theorem placeName_leads (new : name ∉ p.names) :
    Leads base around d d p (p.named name) (placeName name) (placeName name) := by
  refine .of_ends fun env s like hs hp => .look ?_
  rw [not_placed hp new, if_neg (by simp)]
  refine .drafted (Draft.hereLabel_traced s.draft) fun l draft hd => ?_
  refine .drafted (Draft.resolveTo_traced _ l draft) fun _ draft' hd' => ?_
  refine ⟨hp.depth, hp.compounds, ?_, fun other ho => ?_, (hd.trans hd').comments.trans hp.comments⟩
  · change name :: s.gotos.placed.map Prod.fst = (p.names ++ [name]).reverse
    rw [hp.placed]
    simp
  · obtain ⟨entry, he, rfl⟩ := mem_map.1 ho
    obtain ⟨he, differ⟩ := mem_filter.1 he
    obtain ⟨known, fresh⟩ := hp.pending entry.1 (mem_map_of_mem he)
    refine ⟨known, fun placed => ?_⟩
    rcases mem_append.1 placed with placed | placed
    · exact fresh placed
    · rw [mem_singleton.1 placed] at differ
      simp at differ

theorem lowerGoto_leads (name : String) :
    Leads base around d d p p (lowerGoto name) (lowerGoto name) := by
  refine .of_ends fun env s like hs hp => .ask ?_
  refine .seq (P := fun _ t => s = t ∧ name ∈ base.known)
    (Ends.answered ?_ fun _ _ => trivial) ?_
  · intro ids found
    refine ⟨rfl, ?_⟩
    rw [like.labels] at found
    unfold LabelScopes.scopesOf at found
    split at found
    · rename_i scopes hscopes
      obtain ⟨before, after, eq, -⟩ := lookup_eq_some_iff.1 hscopes
      rw [Env.known, eq]
      simp
    · cases found
  · rintro ids _ ⟨rfl, known⟩
    have leave (depth : Nat) : Quiet (leaveTo depth) := leaveTo_traced depth
    refine .ask (((leave _).moves 0 env s _ rfl).seq fun _ t ht => .look ?_)
    have stands := hp.still ht.1 (ht.2.trans hp.depth)
    cases absent : t.gotos.placed.lookup name with
    | some l =>
      exact .drafted (Draft.emit_traced rfl t.draft) fun _ draft hd => ⟨stands.depth,
        stands.compounds, stands.placed, stands.pending, hd.comments.trans stands.comments⟩
    | none =>
      refine .drafted (Draft.pendingJump_traced t.draft) fun jump draft hd => ⟨stands.depth,
        stands.compounds, stands.placed, fun other ho => ?_, hd.comments.trans stands.comments⟩
      simp only [Gotos.await, map_append, map_cons, map_nil, mem_append, mem_singleton] at ho
      rcases ho with ho | rfl
      · obtain ⟨entry, he, rfl⟩ := mem_map.1 ho
        exact stands.pending _ (mem_map_of_mem (mem_filter.1 he).1)
      · refine ⟨known, fun placed => ?_⟩
        have listed : other ∈ t.gotos.placed.map Prod.fst := by
          rw [stands.placed]
          exact mem_reverse.2 placed
        obtain ⟨entry, he, rfl⟩ := mem_map.1 listed
        have := lookup_eq_none_iff.1 absent entry he
        simp at this

end Names

def namesOf (l : List Spot) : List String := (labelsOf l).map Prod.fst

/-- Two ways to lower some statements that do the same: from any point in front of the statements
they lead behind them. -/
def Follows (base : Env) (marks : Spot → List String) (around : List Owner) (t t' : Tally)
    (l : List Spot) (m m' : LowerM α) : Prop :=
  ∀ p : Point, p.tally = t → (p.names ++ namesOf l).Nodup →
    Leads base around around.length around.length p (p.past t' marks l) m m'

/-- What hooks do at some statements: they do the same, and write the marks of each. The name of a
labeled statement has not been placed yet. -/
def Hooked (base : Env) (marks : Spot → List String) (hook hook' : Hook) (l : List Spot) :
    Prop :=
  ∀ spot ∈ l, ∀ p : Point, (∀ name s, spot.2 = .labeled name s → name ∉ p.names) →
    Leads base spot.1 spot.1.length spot.1.length p (p.noted (marks spot)) (hook spot.1 spot.2)
      (hook' spot.1 spot.2)

theorem Hooked.left {l' : List Spot} (h : Hooked base marks hook hook' (l ++ l')) :
    Hooked base marks hook hook' l :=
  fun spot hs => h spot (mem_append_left _ hs)

theorem Hooked.right {l' : List Spot} (h : Hooked base marks hook hook' (l ++ l')) :
    Hooked base marks hook hook' l' :=
  fun spot hs => h spot (mem_append_right _ hs)

theorem Hooked.inner {spot : Spot} (h : Hooked base marks hook hook' (spot :: l)) :
    Hooked base marks hook hook' l :=
  fun spot hs => h spot (mem_cons_of_mem _ hs)

namespace Point

theorem past_nil (p : Point) (marks : Spot → List String) : p.past p.tally marks [] = p := by
  simp [past]

theorem past_past (p : Point) (t t' : Tally) (marks : Spot → List String) (l l' : List Spot) :
    (p.past t marks l).past t' marks l' = p.past t' marks (l ++ l') := by
  simp [past]

theorem past_node (p : Point) (t : Tally) (marks : Spot → List String) {spot : Spot} (l : List Spot)
    (plain : spot.label? = none) :
    (p.noted (marks spot)).past t marks l = p.past t marks (spot :: l) := by
  have same : labelsOf (spot :: l) = labelsOf l := filterMap_cons_none plain
  simp [past, noted, same]

theorem past_labeled (p : Point) (t : Tally) (marks : Spot → List String) (around : List Owner)
    (name : String) (s : Stmt) (l : List Spot) :
    ((p.noted (marks (around, .labeled name s))).named name).past t marks l =
      p.past t marks ((around, .labeled name s) :: l) := by
  simp [past, noted, named, labelsOf, Spot.label?]

end Point

namespace Follows
variable {base : Env} {marks : Spot → List String} {hook hook' : Hook}
  {around : List Owner} {t t' t'' : Tally} {l l' : List Spot}

theorem silent (h : Quiet m) : Follows base marks around t t [] m m := by
  rintro p rfl -
  rw [p.past_nil]
  exact .silent h

theorem append (hm : Follows base marks around t t' l m m')
    (hf : ∀ a, Follows base marks around t' t'' l' (f a) (f' a)) :
    Follows base marks around t t'' (l ++ l') (m >>= f) (m' >>= f') := by
  intro p hp new
  simp only [namesOf, labelsOf_append, map_append, ← append_assoc] at new
  rw [← p.past_past t']
  refine (hm p hp (nodup_append.1 new).1).bind fun a => ?_
  exact hf a (p.past t' marks l) rfl (by simpa [Point.past, namesOf] using new)

theorem after (hm : Quiet m) (hf : ∀ a, Follows base marks around t t' l (f a) (f' a)) :
    Follows base marks around t t' l (m >>= f) (m >>= f') :=
  (silent hm : Follows base marks around t t [] m m).append hf

theorem before (hm : Follows base marks around t t' l m m') (hf : ∀ a, Quiet (f a)) :
    Follows base marks around t t' l (m >>= f) (m' >>= f) := by
  have done := hm.append (fun a => (silent (hf a) : Follows base marks around t' t' [] _ _))
  rwa [append_nil] at done

theorem inLoop (h : Follows base marks around t t' l m m') :
    Follows base marks around t t' l (inLoop m) (inLoop m') :=
  fun p hp new => (h p hp new).inLoop

theorem inRegion (handler : Label) (h : Follows base marks around t t' l m m') :
    Follows base marks around t t' l (inRegion handler m) (inRegion handler m') :=
  fun p hp new => (h p hp new).inRegion handler

theorem inCompound (h : Follows base marks (around ++ [t.compound]) t.enter t' l m m') :
    Follows base marks around t t' l (inCompound m) (inCompound m') := by
  rintro p rfl new
  have inner := h { p with tally := p.tally.enter } rfl new
  rw [length_append] at inner
  exact inner.inCompound

theorem inForScope (h : Follows base marks (around ++ [t.loop]) t.enterLoop t' l m m') :
    Follows base marks around t t' l (withTemporaries m) (withTemporaries m') := by
  rintro p rfl new
  have inner := h { p with tally := p.tally.enterLoop } rfl new
  rw [length_append] at inner
  have entered : Leads base around (around.length + 1) (around.length + 1) p
      (p.past t' marks l) m m' := fun env s like hs hp =>
    inner.enterLoop env s like hs ⟨hp.depth, hp.compounds, hp.placed, hp.pending, hp.comments⟩
  exact (Leads.moves (d := around.length) (openScope_moves 0)).bind fun _ =>
    entered.bind fun x => (Leads.moves (d := around.length) (closeScope_moves 0)).bind fun _ =>
      .silent (.pure x)

theorem node {s : Stmt} (hh : Hooked base marks hook hook' ((around, s) :: l))
    (plain : Spot.label? (around, s) = none) (h : Follows base marks around t t' l m m') :
    Follows base marks around t t' ((around, s) :: l) (do hook around s; m)
      (do hook' around s; m') := by
  intro p hp new
  have unnamed : ∀ name inner, s = .labeled name inner → name ∉ p.names := by
    rintro name inner rfl
    cases plain
  have same : namesOf ((around, s) :: l) = namesOf l :=
    congrArg (List.map Prod.fst) (filterMap_cons_none plain)
  rw [same] at new
  rw [← p.past_node t' marks l plain]
  exact (hh _ mem_cons_self p unnamed).bind fun _ => h (p.noted _) hp new

theorem labeled {s : Stmt} (hh : Hooked base marks hook hook' ((around, .labeled name s) :: l))
    (h : Follows base marks around t t' l m m') :
    Follows base marks around t t' ((around, .labeled name s) :: l)
      (do hook around (.labeled name s); let _ ← placeName name; m)
      (do hook' around (.labeled name s); let _ ← placeName name; m') := by
  intro p hp new
  have names : namesOf ((around, .labeled name s) :: l) = name :: namesOf l := rfl
  rw [names] at new
  have fresh : name ∉ p.names := fun placed =>
    (nodup_append.1 new).2.2 name placed name mem_cons_self rfl
  rw [← p.past_labeled t' marks around name s l]
  refine (hh _ mem_cons_self p fun other inner eq => ?_).bind fun _ =>
    (placeName_leads (p := p.noted _) fresh).bind fun _ => h ((p.noted _).named name) hp ?_
  · cases eq
    exact fresh
  · simpa [Point.named, Point.noted] using new

section Statements
variable {m m' n n' : LowerM Exits}

theorem lowerIf (e : Expr) (h : Follows base marks around t t' l m m') :
    Follows base marks around t t' l (lowerIf e m) (lowerIf e m') :=
  .after (condition_traced e) fun _ => .after (resolveHere_traced _) fun _ =>
    h.before fun _ => .pure _

theorem lowerIfElse (e : Expr) (hm : Follows base marks around t t' l m m')
    (hn : Follows base marks around t' t'' l' n n') :
    Follows base marks around t t'' (l ++ l') (lowerIfElse e m n) (lowerIfElse e m' n') :=
  .after (condition_traced e) fun _ => .after (resolveHere_traced _) fun _ =>
    hm.append fun _ => .after jumpOver_traced fun _ => .after (resolveHere_traced _) fun _ =>
      hn.before fun _ => .pure _

theorem lowerWhile (e : Expr) (h : Follows base marks around t t' l m m') :
    Follows base marks around t t' l (lowerWhile e m) (lowerWhile e m') := by
  unfold Lower.lowerWhile
  exact .after hereLabel_traced fun head => .after (condition_traced e) fun _ =>
    .after (resolveHere_traced _) fun _ => h.inLoop.before fun _ =>
      (resolveTo_traced _ _).bind fun _ => (goBack_traced head).bind fun _ => .pure _

theorem lowerDoWhile (e : Expr) (h : Follows base marks around t t' l m m') :
    Follows base marks around t t' l (lowerDoWhile m e) (lowerDoWhile m' e) :=
  .after hereLabel_traced fun _ => h.inLoop.before fun _ => (resolveHere_traced _).bind fun _ =>
    (condition_traced e).bind fun _ => (resolveTo_traced _ _).bind fun _ => .pure _

theorem lowerFor (e increment : Option Expr)
    (hm : Follows base marks (around ++ [t.loop]) t.enterLoop t' l m m')
    (hn : Follows base marks (around ++ [t.loop]) t' t'' l' n n') :
    Follows base marks around t t'' (l ++ l') (lowerFor m e increment n)
      (lowerFor m' e increment n') := by
  refine .inForScope (hm.append fun x => .after (settle_traced x) fun _ =>
    .after hereLabel_traced fun _ => .after (loopCondition_traced e) fun _ => ?_)
  exact hn.inLoop.before fun _ => (resolveHere_traced _).bind fun _ =>
    (lowerIncrement_traced increment).bind fun _ => (jumpTo_traced _).bind fun _ =>
      (resolveHere_traced _).bind fun _ => .pure _

theorem lowerSwitch (e : Expr) (clauses : List Clause) {body body' : List Label → LowerM Exits}
    (h : ∀ targets : List Label, targets.length = clauses.length →
      Follows base marks around t t' l (body targets) (body' targets)) :
    Follows base marks around t t' l (lowerSwitch e clauses body)
      (lowerSwitch e clauses body') := by
  unfold Lower.lowerSwitch
  intro p hp new
  refine .afterWith (build_traced clauses) (build_found clauses) fun found ⟨enough, _, _, run⟩ => ?_
  refine .after (chooseCase_traced trivial run) fun _ => ?_
  exact ((h found.2 enough p hp new).inSwitch found.1).before fun _ =>
    (place_traced _).bind fun _ => .pure _

theorem lowerTry (hm : Follows base marks around t t' l m m')
    (hn : Follows base marks around t' t'' l' n n') :
    Follows base marks around t t'' (l ++ l') (lowerTry m n) (lowerTry m' n') := by
  unfold Lower.lowerTry
  exact .after newLabel_traced fun label => (hm.inRegion label).append fun _ =>
    .after jumpOver_traced fun _ => .after (enterHandler_traced label) fun _ =>
      hn.before fun _ => .pure _

end Statements

end Follows

section Walk
variable {base : Env} {marks : Spot → List String} {hook hook' : Hook}

mutual
theorem visitStmt_follows : ∀ (s : Stmt) (around : List Owner) (t : Tally),
    Hooked base marks hook hook' (s.spots around t) →
    Follows base marks around t (s.tally t) (s.spots around t) (visitStmt hook around t s)
      (visitStmt hook' around t s)
  | .compound body, around, t, hh =>
    .node hh rfl (.inCompound (visitStmts_follows body _ _ hh.inner))
  | .ifElse e then_ none, around, t, hh =>
    .node hh rfl (.lowerIf e (visitStmt_follows then_ _ _ hh.inner))
  | .ifElse e then_ (some else_), around, t, hh =>
    .node hh rfl (.lowerIfElse e (visitStmt_follows then_ _ _ hh.inner.left)
      (visitStmt_follows else_ _ _ hh.inner.right))
  | .whileLoop e body, around, t, hh =>
    .node hh rfl (.lowerWhile e (visitStmt_follows body _ _ hh.inner))
  | .doWhile body e, around, t, hh =>
    .node hh rfl (.lowerDoWhile e (visitStmt_follows body _ _ hh.inner))
  | .forLoop none e increment body, around, t, hh =>
    .node hh rfl (.lowerFor e increment (.silent (.pure _))
      (visitStmt_follows body _ _ hh.inner))
  | .forLoop (some init) e increment body, around, t, hh =>
    .node hh rfl (.lowerFor e increment (visitStmt_follows init _ _ hh.inner.left)
      (visitStmt_follows body _ _ hh.inner.right))
  | .switch e clauses, around, t, hh =>
    .node hh rfl (.lowerSwitch e clauses (visitClauses_follows clauses _ _ hh.inner))
  | .labeled name statement, around, t, hh =>
    .labeled hh (visitStmt_follows statement _ _ hh.inner)
  | .try_ body handler, around, t, hh =>
    .node hh rfl (.lowerTry (.inCompound (visitStmts_follows body _ _ hh.inner.left))
      (.inCompound (visitStmts_follows handler _ _ hh.inner.right)))
  | .goto name, around, t, hh => by
    simp only [Stmt.spots, Stmt.tally, visitStmt] at hh ⊢
    refine .node hh rfl fun p hp _ => ?_
    subst hp
    rw [p.past_nil]
    exact (lowerGoto_leads name).before fun _ => .pure _
  | .return_ e, around, t, hh =>
    .node hh rfl (.silent (straight_traced (lowerReturn_traced e)))
  | .expression e, around, t, hh =>
    .node hh rfl (.silent (straight_traced (fullValue_traced e).discarded))
  | .construction v ctor arguments, around, t, hh =>
    .node hh rfl (.silent
      (straight_traced ((lowerConstruction_traced v ctor arguments).strengthen trivial)))
  | .assignment target value, around, t, hh =>
    .node hh rfl (.silent (straight_traced (lowerAssignment_traced target value)))
  | .break_, around, t, hh =>
    .node hh rfl (.silent (jumpOut_traced _ _ _))
  | .continue_, around, t, hh =>
    .node hh rfl (.silent (jumpOut_traced _ _ _))
  | .gotoCase value, around, t, hh =>
    .node hh rfl (.silent (straight_traced (lowerGotoCase_traced _)))
  | .gotoDefault, around, t, hh =>
    .node hh rfl (.silent (straight_traced (lowerGotoCase_traced _)))
  | .destruction object destructor, around, t, hh =>
    .node hh rfl (.silent (straight_traced (lowerDestruction_traced object destructor)))
  | .throw_ e, around, t, hh =>
    .node hh rfl (.silent (straight_traced (lowerThrow_traced e)))
  | .empty, around, t, hh =>
    .node hh rfl (.silent (.pure _))
theorem visitStmts_follows : ∀ (body : List Stmt) (around : List Owner) (t : Tally),
    Hooked base marks hook hook' (Stmt.spotsAll around t body) →
    Follows base marks around t (Stmt.tallyAll t body) (Stmt.spotsAll around t body)
      (visitStmts hook around t body) (visitStmts hook' around t body)
  | [], _, _, _ => .silent (.pure _)
  | s :: rest, around, t, hh =>
    (visitStmt_follows s around t hh.left).append fun x => .after (settle_traced x) fun _ =>
      (visitStmts_follows rest around _ hh.right).before fun _ => .pure _
theorem visitClauses_follows : ∀ (clauses : List Clause) (around : List Owner) (t : Tally),
    Hooked base marks hook hook' (Clause.spotsAll around t clauses) →
    ∀ targets : List Label, targets.length = clauses.length →
    Follows base marks around t (Clause.tallyAll t clauses) (Clause.spotsAll around t clauses)
      (visitClauses hook around t clauses targets) (visitClauses hook' around t clauses targets)
  | [], around, t, _, [], _ => .silent (.pure _)
  | .mk _ body :: rest, around, t, hh, target :: targets, enough => by
    refine .after (place_traced target) fun _ => ?_
    refine Follows.append (.inCompound (visitStmts_follows body _ _ hh.left)) fun _ => ?_
    exact (visitClauses_follows rest around _ hh.right targets (Nat.succ.inj enough)).before
      fun _ => .pure _
end

end Walk

end FlatCode.Lower
