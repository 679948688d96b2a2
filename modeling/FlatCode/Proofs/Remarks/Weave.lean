import Mathlib.Data.List.Forall2
import FlatCode.Proofs.Placement

/-! Two bodies side by side. The same program is written twice, and the first time there is
something in between: comments, or calls that tell when the function is entered and left. Apart from
that both bodies hold the same instructions in the same order, up to the labels that branches go to.
Behind a comment the first body may need a label of its own where the second body uses the label
just placed again. -/
namespace FlatCode
open Code Ast List
variable {l : Label} {k : Nat}

inductive Extra where
  /-- Comments. Returns carry a value or carry none, if that is known. -/
  | comments (returns : Option Bool)
  | traces

def Extra.Silent (x : Extra) : Prop := ∀ b, x ≠ .comments (some b)

theorem Extra.silent_comments : (comments none).Silent := by
  rintro b ⟨⟩

theorem Extra.silent_traces : traces.Silent := by
  rintro b ⟨⟩

namespace Code

def Callee.isTrace : Callee → Bool
  | .direct name => name == traceEnter || name == traceLeave
  | .indirect _ => false

namespace Instr

variable {i : Instr}

def isKept : Instr → Bool
  | .label _ | .comment _ => false
  | _ => true

def isTrace : Instr → Bool
  | .call callee _ _ => callee.isTrace
  | _ => false

def trace (function caller : String) : Instr := .call (.direct function) [Imm.fn caller] none

/-- The same instruction, with targets that correspond. Returns, and calls that trace, are not the
same where only one of the bodies traces. -/
inductive Match (x : Extra) (R : Label → Label → Prop) : Instr → Instr → Prop
  | straight {i : Instr} (h : i.isStraight) : Match x R i i
  | call {callee : Callee} (apart : x = .traces → callee.isTrace = false)
    (arguments : List Operand) (dest : Option Register) :
    Match x R (.call callee arguments dest) (.call callee arguments dest)
  | ret {returns : Option Bool} (comments : x = .comments returns) {value : Option Operand}
    (fits : ∀ b, returns = some b → value.isSome = b) : Match x R (.ret value) (.ret value)
  | branch (condition : Operand) {p p' n n' : Option Label} (positive : Option.Rel R p p')
    (negative : Option.Rel R n n') : Match x R (.branch condition p n) (.branch condition p' n')
  | jump {t t' : Option Label} (target : Option.Rel R t t') : Match x R (.jump t) (.jump t')
  | switch (value : Operand) {cases cases' : List (Imm × Label)} {d d' : Label}
    (choices : List.Forall₂ (fun c c' => c.1 = c'.1 ∧ R c.2 c'.2) cases cases')
    (default : R d d') : Match x R (.switch value cases d) (.switch value cases' d')

theorem not_label_of_straight (h : i.isStraight) (l : Label) : i ≠ .label l := by
  rintro rfl
  cases h

theorem isTerminator_of_straight (h : i.isStraight) : i.isTerminator = false := by
  cases i <;> first | rfl | cases h

theorem setTarget_straight (h : i.isStraight) (l : Label) (e : Edge) : i.setTarget l e = i := by
  cases i <;> first | (cases e <;> rfl) | cases h

namespace Match
variable {x : Extra} {R Q : Label → Label → Prop} {i j : Instr}

theorem mono_target {t t' : Option Label} (weaken : ∀ l l', R l l' → Q l l')
    (h : Option.Rel R t t') : Option.Rel Q t t' := by
  cases h with
  | none => exact .none
  | some h => exact .some (weaken _ _ h)

theorem mono (weaken : ∀ l l', R l l' → Q l l') (h : Match x R i j) : Match x Q i j := by
  cases h with
  | straight h => exact .straight h
  | call apart arguments dest => exact .call apart arguments dest
  | ret comments fits => exact .ret comments fits
  | branch c p n => exact .branch c (mono_target weaken p) (mono_target weaken n)
  | jump t => exact .jump (mono_target weaken t)
  | switch v choices default =>
    exact .switch v (choices.imp fun _ _ h => ⟨h.1, weaken _ _ h.2⟩) (weaken _ _ default)

theorem kept (h : Match x R i j) : i.isKept = true ∧ j.isKept = true := by
  cases h with
  | straight h => cases i <;> first | exact ⟨rfl, rfl⟩ | cases h
  | _ => exact ⟨rfl, rfl⟩

theorem isComment (h : Match x R i j) : i.isComment = false ∧ j.isComment = false := by
  cases h with
  | straight h => cases i <;> first | exact ⟨rfl, rfl⟩ | cases h
  | _ => exact ⟨rfl, rfl⟩

theorem isTerminator (h : Match x R i j) : j.isTerminator = i.isTerminator := by
  cases h <;> rfl

theorem not_label (h : Match x R i j) (l : Label) : i ≠ .label l ∧ j ≠ .label l := by
  have kept := h.kept
  refine ⟨?_, ?_⟩
  · rintro rfl
    cases kept.1
  · rintro rfl
    cases kept.2

theorem target (h : Match x R i j) (e : Edge) :
    Option.Rel (Option.Rel R) (i.target? e) (j.target? e) := by
  cases h with
  | straight h => cases i <;> first | (cases e <;> exact .none) | cases h
  | branch c p n =>
    cases e with
    | positive => exact .some p
    | negative => exact .some n
    | unconditional => exact .none
  | jump t =>
    cases e with
    | unconditional => exact .some t
    | _ => exact .none
  | _ => cases e <;> exact .none

theorem setTarget (h : Match x R i j) {l' : Label} (hl : R l l') (e : Edge) :
    Match x R (i.setTarget l e) (j.setTarget l' e) := by
  cases h with
  | straight h => cases i <;> first | (cases e <;> exact .straight rfl) | cases h
  | call apart arguments dest => cases e <;> exact .call apart arguments dest
  | ret comments fits => cases e <;> exact .ret comments fits
  | branch c p n =>
    cases e with
    | positive => exact .branch c (.some hl) n
    | negative => exact .branch c p (.some hl)
    | unconditional => exact .branch c p n
  | jump t =>
    cases e with
    | unconditional => exact .jump (.some hl)
    | _ => exact .jump t
  | switch v choices default => cases e <;> exact .switch v choices default

end Match
end Instr
end Code

/-- Two bodies that are written side by side. Labels correspond by `R`, and the places of
corresponding instructions are listed in order. -/
inductive Weave (x : Extra) (R : Label → Label → Prop) :
    List (InstrId × InstrId) → Array Instr → Array Instr → Prop
  | empty : Weave x R [] #[] #[]
  | both {S : List (InstrId × InstrId)} {a b : Array Instr} {i j : Instr}
    (before : Weave x R S a b) (same : i.Match x R j) :
    Weave x R (S ++ [(⟨a.size⟩, ⟨b.size⟩)]) (a.push i) (b.push j)
  | label {S : List (InstrId × InstrId)} {a b : Array Instr} {l l' : Label}
    (before : Weave x R S a b) (tied : R l l') :
    Weave x R S (a.push (.label l)) (b.push (.label l'))
  /-- A comment, which only the first body has. -/
  | remark {S : List (InstrId × InstrId)} {a b : Array Instr} {returns : Option Bool}
    (comments : x = .comments returns) (before : Weave x R S a b) (text : String) :
    Weave x R S (a.push (.comment text)) b
  /-- A label behind a comment, where the second body still ends in a label. -/
  | again {S : List (InstrId × InstrId)} {a b : Array Instr} {l l' : Label} {returns : Option Bool}
    (comments : x = .comments returns) (before : Weave x R S a b)
    (last : b.back? = some (.label l'))
    (tied : R l l') : Weave x R S (a.push (.label l)) b
  /-- A comment in both bodies. -/
  | comment {S : List (InstrId × InstrId)} {a b : Array Instr} (traces : x = .traces)
    (before : Weave x R S a b) (text : String) :
    Weave x R S (a.push (.comment text)) (b.push (.comment text))
  /-- The first body tells that the function is entered. -/
  | entered {S : List (InstrId × InstrId)} {a b : Array Instr} (traces : x = .traces)
    (before : Weave x R S a b) (flat : ∀ i ∈ a, i.isStraight) (flat' : ∀ i ∈ b, i.isStraight)
    (caller : String) : Weave x R S (a.push (.trace traceEnter caller)) b
  /-- The first body tells that the function is left. -/
  | returned {S : List (InstrId × InstrId)} {a b : Array Instr} (traces : x = .traces)
    (before : Weave x R S a b) (caller : String) (value : Option Operand) :
    Weave x R S ((a.push (.trace traceLeave caller)).push (.ret value)) (b.push (.ret value))

namespace Weave
variable {x : Extra} {R Q : Label → Label → Prop} {S : List (InstrId × InstrId)} {a b : Array Instr}
  {returns : Option Bool} {p : InstrId × InstrId}

theorem mono (weaken : ∀ l l', R l l' → Q l l') (h : Weave x R S a b) : Weave x Q S a b := by
  induction h with
  | empty => exact .empty
  | both _ same ih => exact ih.both (same.mono weaken)
  | label _ tied ih => exact ih.label (weaken _ _ tied)
  | remark comments _ text ih => exact ih.remark comments text
  | again comments _ last tied ih => exact ih.again comments last (weaken _ _ tied)
  | comment traces _ text ih => exact ih.comment traces text
  | entered traces _ flat flat' caller ih => exact ih.entered traces flat flat' caller
  | returned traces _ caller value ih => exact ih.returned traces caller value

theorem last (h : Weave x R S a b) (ends : a.back? = some (.label l)) :
    ∃ l', b.back? = some (.label l') ∧ R l l' := by
  cases h with
  | empty => simp at ends
  | both _ same =>
    rw [Array.back?_push, Option.some.injEq] at ends
    exact absurd ends (same.not_label l).1
  | label _ tied =>
    rw [Array.back?_push, Option.some.injEq] at ends
    cases ends
    exact ⟨_, Array.back?_push, tied⟩
  | again _ _ last tied =>
    rw [Array.back?_push, Option.some.injEq] at ends
    cases ends
    exact ⟨_, last, tied⟩
  | remark | comment | entered | returned =>
    rw [Array.back?_push, Option.some.injEq] at ends
    cases ends

theorem last_of_traces (h : Weave .traces R S a b) {l' : Label}
    (ends : b.back? = some (.label l')) : ∃ l, a.back? = some (.label l) := by
  cases h with
  | empty => simp at ends
  | both _ same =>
    rw [Array.back?_push, Option.some.injEq] at ends
    exact absurd ends (same.not_label l').2
  | label _ tied => exact ⟨_, Array.back?_push⟩
  | remark comments | again comments => cases comments
  | comment | returned =>
    rw [Array.back?_push, Option.some.injEq] at ends
    cases ends
  | entered _ _ _ flat' =>
    exact absurd rfl (Instr.not_label_of_straight (flat' _ (Array.mem_of_back? ends)) l')

theorem closes (h : Weave x R S a b) :
    Draft.closes b.toList.reverse = Draft.closes a.toList.reverse := by
  induction h with
  | empty => rfl
  | both _ same =>
    rw [Draft.closes_push, Draft.closes_push, same.isComment.1, same.isComment.2]
    exact same.isTerminator
  | label =>
    rw [Draft.closes_push, Draft.closes_push]
    rfl
  | remark _ _ _ ih =>
    rw [Draft.closes_push]
    exact ih
  | again _ _ last =>
    obtain ⟨b', rfl⟩ := Array.back?_eq_some_iff.1 last
    rw [Draft.closes_push, Draft.closes_push]
    rfl
  | comment _ _ _ ih =>
    rw [Draft.closes_push, Draft.closes_push]
    exact ih
  | entered _ _ _ flat' =>
    rw [Draft.closes_push]
    refine Draft.closes_of_open fun i hi => Instr.isTerminator_of_straight (flat' i ?_)
    simpa using hi
  | returned =>
    rw [Draft.closes_push, Draft.closes_push]
    rfl

theorem endsInTerminator {d d' : Draft} (h : Weave x R S d.body d'.body) :
    d'.endsInTerminator = d.endsInTerminator := by
  rw [Draft.endsInTerminator_eq, Draft.endsInTerminator_eq, h.closes]

theorem site_lt (h : Weave x R S a b) (hp : p ∈ S) : p.1.index < a.size ∧ p.2.index < b.size := by
  induction h with
  | empty => cases hp
  | both _ _ ih =>
    rw [Array.size_push, Array.size_push]
    rcases mem_append.1 hp with old | new
    · have := ih old
      omega
    · cases mem_singleton.1 new
      exact ⟨Nat.lt_succ_self _, Nat.lt_succ_self _⟩
  | label _ _ ih | comment _ _ _ ih =>
    rw [Array.size_push, Array.size_push]
    have := ih hp
    omega
  | remark _ _ _ ih | again _ _ _ _ ih | entered _ _ _ _ _ ih =>
    rw [Array.size_push]
    have := ih hp
    omega
  | returned _ _ _ _ ih =>
    rw [Array.size_push, Array.size_push, Array.size_push]
    have := ih hp
    omega

theorem site (h : Weave x R S a b) (hp : p ∈ S) :
    ∃ i j, a[p.1.index]? = some i ∧ b[p.2.index]? = some j ∧ i.Match x R j := by
  have kept {a : Array Instr} {k : Nat} {i j : Instr} (hi : a[k]? = some i) :
      (a.push j)[k]? = some i := by
    have lt := (Array.getElem?_eq_some_iff.1 hi).1
    rw [Array.getElem?_push_lt lt, ← hi, Array.getElem?_eq_getElem lt]
  induction h with
  | empty => cases hp
  | @both S a b i j before same ih =>
    rcases mem_append.1 hp with old | new
    · obtain ⟨i, j, hi, hj, same⟩ := ih old
      exact ⟨i, j, kept hi, kept hj, same⟩
    · cases mem_singleton.1 new
      exact ⟨i, j, Array.getElem?_push_size, Array.getElem?_push_size, same⟩
  | label _ _ ih | comment _ _ _ ih =>
    obtain ⟨i, j, hi, hj, same⟩ := ih hp
    exact ⟨i, j, kept hi, kept hj, same⟩
  | remark _ _ _ ih | again _ _ _ _ ih | entered _ _ _ _ _ ih =>
    obtain ⟨i, j, hi, hj, same⟩ := ih hp
    exact ⟨i, j, kept hi, hj, same⟩
  | returned _ _ _ _ ih =>
    obtain ⟨i, j, hi, hj, same⟩ := ih hp
    exact ⟨i, j, kept (kept hi), kept hj, same⟩

section Patch
variable {f g : Instr → Instr}

theorem modify_push_lt (lt : k < a.size) (i : Instr) :
    (a.push i).modify k f = (a.modify k f).push i := by
  apply Array.ext_getElem?
  intro j
  simp only [Array.getElem?_modify, Array.getElem?_push, Array.size_modify]
  by_cases hj : j = a.size
  · subst hj
    simp [Nat.ne_of_lt lt]
  · simp [hj]

theorem modify_push_size (i : Instr) : (a.push i).modify a.size f = a.push (f i) := by
  apply Array.ext_getElem?
  intro j
  simp only [Array.getElem?_modify, Array.getElem?_push]
  by_cases hj : j = a.size
  · subst hj
    simp
  · simp [hj, Ne.symm hj]

theorem modify_straight (flat : ∀ i ∈ a, i.isStraight) (k : Nat)
    (same : ∀ i, i.isStraight → f i = i) : a.modify k f = a := by
  apply Array.ext_getElem?
  intro j
  rw [Array.getElem?_modify]
  split
  · cases hj : a[j]? with
    | none => rfl
    | some i => exact congrArg some (same i (flat i (Array.mem_of_getElem? hj)))
  · rfl

theorem modify (h : Weave x R S a b) (hp : p ∈ S)
    (change : ∀ i j, i.Match x R j → (f i).Match x R (g j)) (labels : ∀ l, g (.label l) = .label l)
    (straight : ∀ i, i.isStraight → f i = i) (straight' : ∀ i, i.isStraight → g i = i) :
    Weave x R S (a.modify p.1.index f) (b.modify p.2.index g) := by
  induction h with
  | empty => cases hp
  | @both S a b i j before same ih =>
    rcases mem_append.1 hp with old | new
    · obtain ⟨lt, lt'⟩ := before.site_lt old
      rw [modify_push_lt lt, modify_push_lt lt']
      simpa using (ih old).both same
    · cases mem_singleton.1 new
      rw [modify_push_size, modify_push_size]
      exact before.both (change i j same)
  | label before tied ih =>
    obtain ⟨lt, lt'⟩ := before.site_lt hp
    rw [modify_push_lt lt, modify_push_lt lt']
    exact (ih hp).label tied
  | comment traces before text ih =>
    obtain ⟨lt, lt'⟩ := before.site_lt hp
    rw [modify_push_lt lt, modify_push_lt lt']
    exact (ih hp).comment traces text
  | entered traces before flat flat' caller ih =>
    rw [modify_push_lt (before.site_lt hp).1, modify_straight flat _ straight,
      modify_straight flat' _ straight']
    exact before.entered traces flat flat' caller
  | returned traces before caller value ih =>
    obtain ⟨lt, lt'⟩ := before.site_lt hp
    rw [modify_push_lt (by rw [Array.size_push]; omega), modify_push_lt lt, modify_push_lt lt']
    exact (ih hp).returned traces caller value
  | remark comments before text ih =>
    rw [modify_push_lt (before.site_lt hp).1]
    exact (ih hp).remark comments text
  | again comments before last tied ih =>
    rw [modify_push_lt (before.site_lt hp).1]
    refine (ih hp).again comments ?_ tied
    rw [Array.back?_eq_getElem?] at last ⊢
    rw [Array.size_modify, Array.getElem?_modify]
    split
    · simp [last, labels]
    · exact last

end Patch

theorem kept (h : Weave (.comments returns) R S a b) :
    List.Forall₂ (Instr.Match (.comments returns) R) (a.toList.filter Instr.isKept)
      (b.toList.filter Instr.isKept) := by
  induction h with
  | empty => exact .nil
  | both _ same ih =>
    rw [Array.toList_push, Array.toList_push, filter_append, filter_append,
      filter_singleton, filter_singleton, same.kept.1, same.kept.2]
    exact rel_append ih (.cons same .nil)
  | label _ _ ih => simpa [filter_append, Instr.isKept] using ih
  | remark _ _ _ ih => simpa [filter_append, Instr.isKept] using ih
  | again _ _ _ _ ih => simpa [filter_append, Instr.isKept] using ih
  | comment traces | entered traces | returned traces => cases traces

end Weave

def Code.keptBefore (code : List Instr) (k : Nat) : Nat :=
  ((code.take k).filter Instr.isKept).length

namespace Weave
variable {R : Label → Label → Prop} {S : List (InstrId × InstrId)} {a b : Array Instr}
  {returns : Option Bool}

theorem keptBefore_push (le : k ≤ a.size) (i : Instr) :
    keptBefore (a.push i).toList k = keptBefore a.toList k := by
  rw [keptBefore, Array.toList_push, take_append_of_le_length (by simpa using le)]
  rfl

theorem keptBefore_size (a : Array Instr) :
    keptBefore a.toList a.size = (a.toList.filter Instr.isKept).length := by
  rw [keptBefore, ← Array.length_toList, take_length]

/-- A label at a place of the first body stands in the second one too, behind as many
instructions. -/
def Placed (R : Label → Label → Prop) (a b : Array Instr) (k : Nat) (l : Label) : Prop :=
  ∃ (k' : Nat) (l' : Label), b[k']? = some (.label l') ∧ R l l' ∧
    keptBefore a.toList k = keptBefore b.toList k'

theorem Placed.push_left (h : Placed R a b k l) (lt : k < a.size) (i : Instr) :
    Placed R (a.push i) b k l := by
  obtain ⟨k', l', hk', tied, count⟩ := h
  exact ⟨k', l', hk', tied, by rw [keptBefore_push (Nat.le_of_lt lt), count]⟩

theorem Placed.push_right (h : Placed R a b k l) (i : Instr) : Placed R a (b.push i) k l := by
  obtain ⟨k', l', hk', tied, count⟩ := h
  have lt := (Array.getElem?_eq_some_iff.1 hk').1
  refine ⟨k', l', ?_, tied, ?_⟩
  · rw [Array.getElem?_push, if_neg (Nat.ne_of_lt lt), hk']
  · rw [keptBefore_push (Nat.le_of_lt lt), count]

theorem place (h : Weave (.comments returns) R S a b) (hk : a[k]? = some (.label l)) :
    Placed R a b k l := by
  have before {a : Array Instr} {i : Instr} (hk : (a.push i)[k]? = some (.label l)) :
      k = a.size ∧ i = .label l ∨ k < a.size ∧ a[k]? = some (.label l) := by
    rw [Array.getElem?_push] at hk
    split at hk
    · exact .inl ⟨‹_›, Option.some.inj hk⟩
    · exact .inr ⟨(Array.getElem?_eq_some_iff.1 hk).1, hk⟩
  induction h with
  | empty => simp at hk
  | both _ same ih =>
    obtain ⟨-, here⟩ | ⟨lt, hk⟩ := before hk
    · exact absurd here (same.not_label l).1
    · exact ((ih hk).push_left lt _).push_right _
  | @label S a b l1 l2 weave tied ih =>
    obtain ⟨rfl, here⟩ | ⟨lt, hk⟩ := before hk
    · cases here
      refine ⟨b.size, l2, Array.getElem?_push_size, tied, ?_⟩
      rw [keptBefore_push (Nat.le_refl _), keptBefore_push (Nat.le_refl _), keptBefore_size,
        keptBefore_size, weave.kept.length_eq]
    · exact ((ih hk).push_left lt _).push_right _
  | remark _ _ _ ih =>
    obtain ⟨-, here⟩ | ⟨lt, hk⟩ := before hk
    · cases here
    · exact (ih hk).push_left lt _
  | comment traces | entered traces | returned traces => cases traces
  | @again S a b l1 l2 _ _ weave last tied ih =>
    obtain ⟨rfl, here⟩ | ⟨lt, hk⟩ := before hk
    · cases here
      obtain ⟨b', rfl⟩ := Array.back?_eq_some_iff.1 last
      refine ⟨b'.size, l2, Array.getElem?_push_size, tied, ?_⟩
      rw [keptBefore_push (Nat.le_refl _), keptBefore_push (Nat.le_refl _), keptBefore_size,
        keptBefore_size, weave.kept.length_eq]
      simp [filter_append, Instr.isKept]
    · exact (ih hk).push_left lt _

end Weave
end FlatCode
