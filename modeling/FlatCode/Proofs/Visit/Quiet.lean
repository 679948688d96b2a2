import FlatCode.Proofs.Growth.Tree

/-! Steps that leave the names alone. Expressions and the parts of statements that are no
statements themselves place and await no name, enter no compound, write no comment, and leave as
many scopes open as they found. -/
namespace FlatCode
open Code Symbols Ast List

def Code.Instr.comment? : Instr → Option String
  | .comment text => some text
  | _ => none

theorem Code.Instr.comment?_setTarget (l : Label) (e : Edge) (i : Instr) :
    (i.setTarget l e).comment? = i.comment? := by
  cases e <;> cases i <;> rfl

namespace Draft

def comments (d : Draft) : List String := (d.entry ++ d.body).toList.filterMap Instr.comment?

theorem comments_push (d : Draft) (i : Instr) :
    comments { d with body := d.body.push i } = d.comments ++ i.comment?.toList := by
  rw [comments, comments, Array.append_push, Array.toList_push, filterMap_append]
  cases i <;> rfl

theorem comments_modify (d : Draft) (k : Nat) (l : Label) (e : Edge) :
    comments { d with body := d.body.modify k (Instr.setTarget l e) } = d.comments := by
  simp only [comments, Array.toList_append, Array.toList_modify, filterMap_append]
  congr 1
  generalize d.body.toList = body
  induction body generalizing k with
  | nil => simp
  | cons i body ih =>
    cases k with
    | zero => simp [filterMap_cons, Instr.comment?_setTarget]
    | succ k => simp [filterMap_cons, ih]

theorem Trace.comments {d d' : Draft} (h : d.Trace d') : d'.comments = d.comments := by
  induction h with
  | refl d | label d => rfl
  | trans _ _ h k => exact k.trans h
  | @push d i h =>
    have plain : i.comment? = none := by cases i <;> first | rfl | cases h
    rw [comments_push, plain]
    exact append_nil _
  | aim _ l => exact comments_modify _ _ l _

end Draft

namespace Lower

structure State.Still (s t : State) : Prop where
  gotos : t.gotos = s.gotos
  compounds : t.compounds = s.compounds
  comments : t.draft.comments = s.draft.comments

theorem State.Still.refl (s : State) : s.Still s := ⟨rfl, rfl, rfl⟩

theorem State.Still.trans {s t u : State} (h : s.Still t) (k : t.Still u) : s.Still u :=
  ⟨k.gotos.trans h.gotos, k.compounds.trans h.compounds, k.comments.trans h.comments⟩

def Effect.isQuiet : Effect → Prop
  | .owe | .choose _ _ => True
  | .name | .compound | .comment => False

theorem State.Adds.still {table : SymbolTable} {s t : State} (h : s.Adds table Instr.isInline t) :
    s.Still t := by
  refine ⟨h.gotos, h.compounds, ?_⟩
  have none_in {q : Instr → Bool} {added : Array Instr} (hq : ∀ i, q i → i.comment? = none)
      (allowed : ∀ i ∈ added, q i) : added.toList.filterMap Instr.comment? = [] :=
    filterMap_eq_nil_iff.2 fun i hi => hq i (allowed i (Array.mem_toList_iff.1 hi))
  obtain ⟨added, body, allowed⟩ := h.body
  obtain ⟨slots, entry, setup⟩ := h.entry
  simp only [Draft.comments, entry, body, Array.toList_append, filterMap_append,
    none_in (fun i hi => by cases i <;> first | rfl | cases hi) allowed,
    none_in (fun i hi => by cases i <;> first | rfl | cases hi) setup, append_nil]

theorem State.Trace.still {table : SymbolTable} {may : Effect → Prop} {s t : State}
    (h : s.Trace table may t) (quiet : ∀ x, may x → x.isQuiet) : s.Still t := by
  induction h with
  | refl s => exact .refl s
  | trans _ _ h k => exact (h quiet).trans (k quiet)
  | straight h => exact h.still
  | edit h => exact ⟨rfl, rfl, h.comments⟩
  | note _ _ | owe _ _ _ => exact ⟨rfl, rfl, rfl⟩
  | scope _ h =>
    have inner := h fun x hx => hx.elim (fun owe => owe ▸ trivial) (quiet x)
    exact ⟨inner.gotos, inner.compounds, inner.comments⟩
  | name _ _ h | compound _ h | comment _ _ h => exact (quiet _ h).elim
  | choose s _ _ _ _ _ =>
    refine ⟨rfl, rfl, ?_⟩
    rw [Draft.comments_push]
    exact append_nil _

abbrev Quiet (m : LowerM α) : Prop := Traced Effect.isQuiet m

def Moves (a b : Nat) (m : LowerM α) : Prop :=
  ∀ env s d, s.cleanups.depth = d + a →
    Ends (fun _ => True) (fun _ t => s.Still t ∧ t.cleanups.depth = d + b) (m env s)

theorem Traced.moves {m : LowerM α} (h : Quiet m) (a : Nat) : Moves a a m := fun env s _ hd =>
  (h env s).mono fun _ _ trace => ⟨trace.still fun _ => id, trace.grows.depth_eq.trans hd⟩

theorem Moves.bind {a b c : Nat} {m : LowerM α} {f : α → LowerM β} (hm : Moves a b m)
    (hf : ∀ x, Moves b c (f x)) : Moves a c (m >>= f) :=
  fun env s d hd => (hm env s d hd).seq fun x t first =>
    (hf x env t d first.2).mono fun _ _ second => ⟨first.1.trans second.1, second.2⟩

theorem openScope_moves (a : Nat) : Moves a (a + 1) openScope := by
  intro env s d hd
  refine ⟨⟨rfl, rfl, rfl⟩, ?_⟩
  change s.cleanups.depth + 1 = _
  omega

theorem dropScope_moves (a : Nat) : Moves (a + 1) a dropScope := by
  intro env s d hd
  refine .look (Ends.seq (P := fun c t => t = s ∧ c.depth + 1 = s.cleanups.depth)
    (Ends.answered ?_ fun _ _ => trivial) ?_)
  · intro c hc
    unfold Cleanups.closeScope at hc
    split at hc
    · cases hc
    · rename_i scope outer hs
      cases hc
      refine ⟨rfl, ?_⟩
      rw [Cleanups.depth, Cleanups.depth, hs]
      rfl
  · rintro c _ ⟨rfl, hc⟩
    refine .put ⟨⟨rfl, rfl, rfl⟩, ?_⟩
    change c.depth = _
    omega

theorem closeScope_moves (a : Nat) : Moves (a + 1) a closeScope := by
  intro env s d hd
  refine .look ?_
  dsimp only
  split
  · trivial
  · refine ((endsInTerminator_traced.moves _).bind fun ends => ?_) env s d hd
    split
    · exact dropScope_moves a
    · exact ((leaveTo_traced _).moves _).bind fun _ => dropScope_moves a

theorem finishBody_moves : Moves 0 0 finishBody := by
  intro env s d hd
  have finished : Ensures (fun _ t => State.Trace env.symbols Effect.isQuiet
      { s with pads := .empty } t) (finishBody env s) := finishBody_trace
  refine finished.mono fun _ t trace => ?_
  have still := trace.still fun _ => id
  exact ⟨⟨still.gotos, still.compounds, still.comments⟩, trace.grows.depth_eq.trans hd⟩

end Lower
end FlatCode
