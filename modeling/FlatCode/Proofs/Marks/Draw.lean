import FlatCode.Proofs.Marks.Unwind

/-! Steps of expressions. An expression may build temporaries, which its innermost scope owes from
then on; registers that it holds stay in use behind it. -/
namespace FlatCode.Marks
open Code Symbols Ast Lower List
variable {known : List Operand} {m : LowerM α}

/-- A step of an expression can begin. Besides what is owed, objects of one's own may be alive. -/
structure Ready (S : Setting) (env : Env) (own : List Operand) (P : Scene) : Prop where
  sound : P.Sound S
  suits : Suits S env P
  scope : 0 < P.state.cleanups.depth
  inside : ∀ depth ∈ env.depths, depth < P.state.cleanups.depth
  live : P.live = own ++ S.alive P.state.cleanups

def Scene.Gains (S : Setting) (P Q : Scene) : Prop :=
  ∃ added, Q.state.cleanups = P.state.cleanups.grow added ∧
    ∀ o ∈ added, S.Temp Q.state o.object

section Ready
variable {S : Setting} {env : Env} {P Q R : Scene} {own : List Operand} {a : List Site}
open Scene

theorem Scene.Gains.refl (P : Scene) : P.Gains S P := ⟨[], (Cleanups.grow_nil _).symm, by simp⟩

theorem Scene.Gains.of_eq (h : Q.state.cleanups = P.state.cleanups) : P.Gains S Q :=
  ⟨[], h.trans (Cleanups.grow_nil _).symm, by simp⟩

theorem Scene.Gains.trans (h : P.Gains S Q) (k : Q.Gains S R) (later : Q.Later S R) :
    P.Gains S R := by
  obtain ⟨added, hc, temp⟩ := h
  obtain ⟨added', hc', temp'⟩ := k
  refine ⟨added' ++ added, by rw [hc', hc, Cleanups.grow_grow], fun o ho => ?_⟩
  rcases mem_append.1 ho with ho | ho
  · exact temp' o ho
  · exact (temp o ho).widen later.widens

theorem Ready.later (h : Ready S env own P) (sound : Q.Sound S) (later : P.Later S Q)
    (gains : P.Gains S Q) {own' : List Operand} (live : Q.live = own' ++ S.alive Q.state.cleanups) :
    Ready S env own' Q := by
  obtain ⟨added, hc, -⟩ := gains
  refine ⟨sound, h.suits.mono later fun depth hd => ?_, ?_, fun depth hd => ?_, live⟩
  · rw [hc, S.aliveBelow_grow _ (h.inside depth hd)]
  · rw [hc, Cleanups.depth_grow]
    exact h.scope
  · rw [hc, Cleanups.depth_grow]
    exact h.inside depth hd

theorem Ready.stands (h : Ready S env own P) (sound : Q.Sound S) (later : P.Later S Q)
    {held : List Register} (stands : P.Stands held P.live Q) : Ready S env own Q := by
  refine h.later sound later (.of_eq stands.cleanups) ?_
  rw [stands.live, stands.cleanups]
  exact h.live

end Ready

section Compute
variable {S : Setting} {env : Env} {P : Scene} {address value : Operand} {b : List Site}
  {post : β → Scene → Prop}
open Scene

theorem holds_one (h : P.Holds S value) : ∀ o ∈ [value], P.Holds S o :=
  forall_mem_singleton.2 h

theorem holds_two (h : P.Holds S address) (h' : P.Holds S value) :
    ∀ o ∈ [address, value], P.Holds S o :=
  forall_mem_cons.2 ⟨h, holds_one h'⟩

theorem compute_arrives {i : Register → Instr} {ty : Ty} {f : Register → LowerM β}
    (h : P.Sound S) (straight : ∀ r, (i r).isInline) (dest : ∀ r, (i r).dest? = some r)
    (reads : ∀ r, ∀ o ∈ (i r).operands, P.Holds S o)
    (k : ∀ r Q, Q.Sound S → P.Leads S [] Q → P.Stands (r :: P.held) P.live Q →
      Q.Holds S (.reg r) → Arrives S Q b post (f r env Q.state)) :
    Arrives S P b post ((do
      let r ← Draft.newRegister ty
      emit (i r)
      f r : LowerM β) env P.state) := by
  refine (newRegister_arrives h ty).next fun r Q sound leads ⟨stands, _, usable⟩ => ?_
  refine (emit_straight sound (Instr.isStraight_of_inline (straight r))
    (fun o ho => (reads r o ho).mono leads) fun r' hr' => ?_).next
      fun _ R sound' leads' stands' => ?_
  · rw [dest r] at hr'
    cases hr'
    exact usable
  · rw [stands.held, stands.live, dest r] at stands'
    refine k r R sound' (leads.trans leads') (stands.trans stands') fun r' same => ?_
    cases same
    refine ⟨.inr ?_, leads'.widens.usable usable⟩
    rw [stands'.held]
    exact mem_cons_self

theorem addressOfVariable_arrives (h : P.Sound S) (v : VariableId) :
    Arrives S P [] (fun x Q => (∃ held, P.Stands held P.live Q) ∧ Q.Holds S x)
      (addressOfVariable v env P.state) := by
  refine .look (Arrives.query fun l hl => ?_)
  have holds : P.Holds S (.reg l.slot) := (h.books.slots v l (Storage.lookup_ok.1 hl)).holds
  cases l.shape
  case value | pointer => exact .here h ⟨⟨_, rfl, rfl, rfl⟩, holds⟩
  case reference | byAddress =>
    exact compute_arrives (i := fun r => .load r l.slot) h (fun _ => rfl) (fun _ => rfl)
      (fun _ => holds_one holds) fun _ _ sound _ stands holds' => .here sound ⟨⟨_, stands⟩, holds'⟩

theorem holds_known {operands : List Operand} (h : Known operands known)
    (holds : ∀ o ∈ known, P.Holds S o) : ∀ o ∈ operands, P.Holds S o := by
  rintro o ho r rfl
  exact holds _ (h r ho) r rfl

theorem Arrives.derived {out : α → List Operand} (d : Derives known out m) (h : P.Sound S)
    (holds : ∀ o ∈ known, P.Holds S o) :
    Arrives S P [] (fun v Q => (∃ held, P.Stands held P.live Q) ∧ ∀ o ∈ out v, Q.Holds S o)
      (m env P.state) := by
  induction d generalizing P with
  | pure found => exact .here h ⟨⟨_, rfl, rfl, rfl⟩, holds_known found holds⟩
  | fail => trivial
  | answered =>
    exact .answered (fun _ _ => ⟨P, rfl, h, .refl P, ⟨_, rfl, rfl, rfl⟩, by simp⟩)
      fun _ _ => trivial
  | table _ ih => exact ih env.symbols h holds
  | look _ _ ih => exact .look (ih P.state h holds)
  | emit i straight dest =>
    refine (emit_straight h (Instr.isStraight_of_inline straight) holds fun r hr => ?_).mono
      fun _ _ _ _ stands => ⟨⟨_, stands⟩, by simp⟩
    rw [dest] at hr
    cases hr
  | compute straight dest reads _ ih =>
    refine compute_arrives h straight dest (fun r => holds_known (reads r) holds)
      fun r Q sound leads stands here => ?_
    have known := forall_mem_cons.2 ⟨here, fun o ho => (holds o ho).mono leads⟩
    refine (ih r sound known).mono fun _ _ _ _ ⟨⟨_, stands'⟩, outs⟩ => ?_
    rw [stands.live] at stands'
    exact ⟨⟨_, stands.trans stands'⟩, outs⟩
  | address v =>
    exact (addressOfVariable_arrives h v).mono fun _ _ _ _ ⟨stands, holds'⟩ =>
      ⟨stands, holds_one holds'⟩
  | bind _ _ sub ihm ihf =>
    refine (ihm h (holds_known sub holds)).next fun v Q sound leads ⟨⟨_, stands⟩, found⟩ => ?_
    have known := forall_mem_append.2 ⟨found, fun o ho => (holds o ho).mono leads⟩
    refine (ihf v sound known).mono fun _ _ _ _ ⟨⟨_, stands'⟩, outs⟩ => ?_
    rw [stands.live] at stands'
    exact ⟨⟨_, stands.trans stands'⟩, outs⟩
  | mono _ sub ih => exact ih h (holds_known sub holds)

end Compute

def Draws (S : Setting) (env : Env) (P : Scene) (own : List Operand) (sites : List Site)
    (post : α → Scene → Prop) (m : LowerM α) : Prop :=
  Arrives S P sites (fun v Q => Ready S env own Q ∧ P.Gains S Q ∧ post v Q) (m env P.state)

namespace Draws
variable {S : Setting} {env : Env} {P : Scene} {own : List Operand} {a b : List Site}
  {post : β → Scene → Prop} {mid : α → Scene → Prop}
open Scene
variable {f : α → LowerM β} {first : List Operand}

theorem seq (h : Draws S env P first a mid m)
    (k : ∀ v Q, Ready S env first Q → P.Leads S a Q → P.Gains S Q → mid v Q →
      Draws S env Q own b post (f v))
    : Draws S env P own (a ++ b) post (m >>= f) :=
  Arrives.seq h fun v Q _ leads ⟨ready, gains, hv⟩ =>
    (k v Q ready leads gains hv).mono fun _ _ _ leads' ⟨ready', gains', hw⟩ =>
      ⟨ready', gains.trans gains' leads'.toLater, hw⟩

theorem next (h : Draws S env P first [] mid m)
    (k : ∀ v Q, Ready S env first Q → P.Leads S [] Q → P.Gains S Q → mid v Q →
      Draws S env Q own b post (f v))
    : Draws S env P own b post (m >>= f) :=
  seq h k

theorem last (h : Draws S env P first a mid m)
    (k : ∀ v Q, Ready S env first Q → P.Leads S a Q → P.Gains S Q → mid v Q →
      Draws S env Q own [] post (f v))
    : Draws S env P own a post (m >>= f) := by
  have both := seq h k
  rwa [append_nil] at both

theorem pure {v : β} (ready : Ready S env own P) (h : post v P) :
    Draws S env P own [] post (pure v) :=
  ⟨P, rfl, ready.sound, .refl P, ready, .refl P, h⟩

theorem fail {e : Error} : Draws S env P own a post (throw e) := trivial

theorem sites {m : LowerM β} (h : Draws S env P own a post m) (done : Site.Done b a) :
    Draws S env P own b post m :=
  Arrives.sites h done

theorem mono {post' : β → Scene → Prop} {m : LowerM β} (h : Draws S env P own a post m)
    (weaken : ∀ v Q, Ready S env own Q → P.Leads S a Q → post v Q → post' v Q) :
    Draws S env P own a post' m :=
  Arrives.mono h fun v Q _ leads ⟨ready, gains, hv⟩ => ⟨ready, gains, weaken v Q ready leads hv⟩

theorem asked {q : SymbolTable → Except Error α}
    (h : ∀ v, q env.symbols = .ok v → Draws S env P own a post (f v)) :
    Draws S env P own a post ((symbols >>= fun table => liftM (q table)) >>= f) := by
  exact Arrives.query h

theorem ask {f : Env → LowerM β} (h : Draws S env P own a post (f env)) :
    Draws S env P own a post (read >>= f) := h

theorem table {f : SymbolTable → LowerM β} (h : Draws S env P own a post (f env.symbols)) :
    Draws S env P own a post (symbols >>= f) := h

theorem still {m : LowerM β} (ready : Ready S env own P)
    (h : Arrives S P a (fun v Q => (∃ held, P.Stands held P.live Q) ∧ post v Q) (m env P.state)) :
    Draws S env P own a post m :=
  h.mono fun _ _ sound leads ⟨⟨_, stands⟩, hv⟩ =>
    ⟨ready.stands sound leads.toLater stands, .of_eq stands.cleanups, hv⟩

theorem derived {out : β → List Operand} {m : LowerM β} (d : Derives known out m)
    (ready : Ready S env [] P) (holds : ∀ o ∈ known, P.Holds S o) :
    Draws S env P [] [] (fun v Q => ∀ o ∈ out v, Q.Holds S o) m :=
  still ready (.derived d ready.sound holds)

theorem value {m : LowerM Operand} (d : Derives known (fun v => [v]) m) (ready : Ready S env [] P)
    (holds : ∀ o ∈ known, P.Holds S o) :
    Draws S env P [] [] (fun v Q => Q.Holds S v) m :=
  (derived d ready holds).mono fun _ _ _ _ all => forall_mem_singleton.1 all

theorem result {m : LowerM (Option Operand)} (d : Derives known Option.toList m)
    (ready : Ready S env [] P) (holds : ∀ o ∈ known, P.Holds S o) :
    Draws S env P [] [] (fun v Q => ∀ x ∈ v, Q.Holds S x) m :=
  (derived d ready holds).mono fun _ _ _ _ all x hx => all x (Option.mem_toList.2 hx)

end Draws

theorem some_draws {S : Setting} {env : Env} {P : Scene} {m : LowerM Operand} {a : List Site}
    (h : Draws S env P [] a (fun v Q => Q.Holds S v) m) :
    Draws S env P [] a (fun v Q => ∀ x ∈ v, Q.Holds S x) (do return some (← m)) :=
  h.last fun _ _ ready _ _ holds => .pure ready fun _ hx => Option.mem_some.1 hx ▸ holds

end FlatCode.Marks
