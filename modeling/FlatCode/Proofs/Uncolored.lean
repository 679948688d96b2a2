import Mathlib.Data.List.Forall2
import FlatCode.Code.Printer
import FlatCode.Proofs.StraightLine

/-! A listing in colors is the plain listing with color sequences in it. Painted pieces nest and
stand side by side, so what is carried along is not a text without colors but a text made of whole
sequences and of characters that start none. -/
namespace FlatCode
open Code List

namespace Text
variable {s s' t t' : List Char} {c : Char}

/-- What follows a color sequence: an escape, `[`, a number and `m`. -/
def afterColor? : List Char → Option (List Char)
  | '\x1b' :: '[' :: d :: cs =>
    match d.isDigit, cs.dropWhile Char.isDigit with
    | true, 'm' :: rest => some rest
    | _, _ => none
  | _ => none

theorem length_afterColor? {rest : List Char} (h : afterColor? s = some rest) :
    rest.length < s.length := by
  unfold afterColor? at h
  split at h
  · next d cs =>
    split at h
    · next rest' _ drop =>
      cases h
      have := (dropWhile_suffix (l := cs) Char.isDigit).length_le
      simp only [drop, length_cons] at this ⊢
      omega
    · cases h
  · cases h

def uncolor : List Char → List Char
  | [] => []
  | c :: cs =>
    match _h : afterColor? (c :: cs) with
    | some rest => uncolor rest
    | none => c :: uncolor cs
termination_by s => s.length
decreasing_by
  · exact length_afterColor? _h
  · simp

/-- The first text is the second one with colors: whole sequences, and characters that are not
the start of one. -/
inductive Painted : List Char → List Char → Prop
  | nil : Painted [] []
  | char {c : Char} {s t : List Char} (h : c ≠ '\x1b') (k : Painted s t) : Painted (c :: s) (c :: t)
  | start (color : Color) {s t : List Char} (k : Painted s t) : Painted (color.start ++ s) t
  | reset {s t : List Char} (k : Painted s t) : Painted (reset ++ s) t

theorem uncolor_of_after {rest : List Char} (h : afterColor? s = some rest) :
    uncolor s = uncolor rest := by
  cases s with
  | nil => cases h
  | cons c cs =>
    rw [uncolor]
    split <;> simp_all

theorem uncolor_cons (h : c ≠ '\x1b') : uncolor (c :: s) = c :: uncolor s := by
  have : afterColor? (c :: s) = none := by
    unfold afterColor?
    split <;> simp_all
  rw [uncolor]
  split <;> simp_all

theorem resume_cons (start : List Char) (h : c ≠ '\x1b') :
    resume start (c :: s) = c :: resume start s := by
  rw [resume]
  simp_all

namespace Painted

theorem uncolor_eq (h : Painted s t) : uncolor s = t := by
  induction h with
  | nil => rw [uncolor]
  | char hc _ ih => rw [uncolor_cons hc, ih]
  | start color _ ih =>
    rw [← ih]
    exact uncolor_of_after (by cases color <;> rfl)
  | reset _ ih =>
    rw [← ih]
    exact uncolor_of_after rfl

theorem append (h : Painted s t) (k : Painted s' t') : Painted (s ++ s') (t ++ t') := by
  induction h with
  | nil => exact k
  | char hc _ ih => exact .char hc ih
  | start color _ ih => simpa only [append_assoc] using ih.start color
  | reset _ ih => simpa only [append_assoc] using ih.reset

theorem self : ∀ {s}, '\x1b' ∉ s → Painted s s
  | [], _ => .nil
  | c :: _, h => .char (fun hc => h (hc ▸ mem_cons_self)) (self fun hs => h (.tail c hs))

theorem resume (color : Color) (h : Painted s t) : Painted (resume color.start s) t := by
  induction h with
  | nil => exact .nil
  | char hc _ ih =>
    rw [resume_cons _ hc]
    exact .char hc ih
  | @start color' s _ _ ih =>
    have : Text.resume color.start (color'.start ++ s) =
        color'.start ++ Text.resume color.start s := by cases color' <;> rfl
    rw [this]
    exact ih.start color'
  | @reset s _ _ ih =>
    have : Text.resume color.start (Text.reset ++ s) =
        Text.reset ++ (color.start ++ Text.resume color.start s) := rfl
    rw [this]
    exact (ih.start color).reset

end Painted

def Shows (s t : String) : Prop := Painted s.toList t.toList

abbrev Unescaped (s : String) : Prop := '\x1b' ∉ s.toList

namespace Shows
variable {s s' t t' : String}

theorem self (h : Unescaped s := by decide) : Shows s s := Painted.self h

theorem append (h : Shows s t) (k : Shows s' t') : Shows (s ++ s') (t ++ t') := by
  simpa only [Shows, String.toList_append] using Painted.append h k

theorem paint (color : Color) (h : Shows s t) :
    Shows (Paint.apply .colored color s) (Paint.apply .plain color t) := by
  have painted := ((Painted.resume color h).append (Painted.reset .nil)).start color
  simpa [Shows, Paint.apply] using painted

theorem intercalate {separator : String} {xs ys : List String} (h : List.Forall₂ Shows xs ys)
    (k : Unescaped separator := by decide) :
    Shows (separator.intercalate xs) (separator.intercalate ys) := by
  simp only [Shows, String.toList_intercalate]
  induction h with
  | nil => exact .nil
  | cons hx rest ih =>
    cases rest with
    | nil => simpa [Shows] using hx
    | cons hy rest => simpa using Painted.append hx ((Painted.self k).append ih)

theorem join {xs ys : List String} (h : List.Forall₂ Shows xs ys) :
    Shows (String.join xs) (String.join ys) := by
  simp only [Shows, String.toList_join]
  induction h with
  | nil => exact .nil
  | cons hx _ ih => simpa using Painted.append hx ih

end Shows

theorem unescaped_append {s t : String} : Unescaped (s ++ t) ↔ Unescaped s ∧ Unescaped t := by
  simp [Unescaped]

theorem unescaped_digits (n : Nat) : '\x1b' ∉ Nat.toDigits 10 n := fun h => by
  have := Nat.isDigit_of_mem_toDigits (by decide) (by decide) h
  exact absurd this (by decide)

theorem unescaped_nat (n : Nat) : Unescaped (toString n) := by
  simpa [Unescaped, Nat.repr_eq_ofList_toDigits] using unescaped_digits n

theorem unescaped_int : ∀ n : Int, Unescaped (toString n)
  | .ofNat n => unescaped_nat n
  | .negSucc n => unescaped_append.2 ⟨by decide, unescaped_nat (n + 1)⟩

end Text

open Text

theorem Binary64.unescaped_magnitudeText (m : Nat) : Unescaped (magnitudeText m) := by
  have digits := unescaped_digits (shortest m).digits
  have taken : ∀ n, '\x1b' ∉ (Nat.toDigits 10 (shortest m).digits).take n :=
    fun _ h => digits (mem_of_mem_take h)
  have dropped : ∀ n, '\x1b' ∉ (Nat.toDigits 10 (shortest m).digits).drop n :=
    fun _ h => digits (mem_of_mem_drop h)
  unfold magnitudeText
  split
  · decide
  · dsimp only
    split
    · simp [Unescaped, digits]
    · split
      · simp only [Unescaped, String.toList_ofList, mem_append, mem_cons, not_or]
        refine ⟨⟨taken _, by simp⟩, by decide, ?_⟩
        split
        · decide
        · exact dropped _
      · refine unescaped_append.2 ⟨unescaped_append.2 ⟨?_, by decide⟩, unescaped_int _⟩
        simp only [Unescaped, String.toList_ofList, mem_append, not_or]
        refine ⟨taken _, ?_⟩
        split
        · decide
        · simpa using dropped 1

theorem Binary64.unescaped_text (x : Binary64) : Unescaped x.text := by
  unfold text
  split
  · decide
  · refine unescaped_append.2 ⟨?_, ?_⟩
    · split <;> decide
    · split
      · decide
      · exact unescaped_magnitudeText _

namespace Code
variable {i : Instr}

/-! The texts that code is written with. -/

mutual
def Ty.texts : Ty → List String
  | .void | .int _ | .float _ => []
  | .ptr t => t.texts
  | .struct none fields => Ty.listTexts fields
  | .struct (some name) _ | .named name => [name]
def Ty.listTexts : List Ty → List String
  | [] => []
  | t :: ts => t.texts ++ Ty.listTexts ts
end

def Imm.texts : Imm → List String
  | .fn name => [name]
  | _ => []

def Operand.texts : Operand → List String
  | .imm value => value.texts
  | .reg _ => []

def Instr.texts (i : Instr) : List String :=
  i.operands.flatMap Operand.texts ++ match i with
    | .alloc _ ty name => ty.texts ++ name.toList
    | .call (.direct name) _ _ => [name]
    | .switch _ cases _ => cases.flatMap fun c => c.1.texts
    | .comment text => [text]
    | _ => []

def Function.texts (f : Function) : List String :=
  f.name :: f.arguments.flatMap (fun r => (f.registers.getD r.index .void).texts) ++
    f.instrs.toList.flatMap Instr.texts

mutual
theorem Ty.unescaped_text : ∀ {t : Ty}, (∀ s ∈ t.texts, Unescaped s) → Unescaped t.text
  | .void, _ => by decide
  | .int w, _ => by cases w <;> decide
  | .float w, _ => by cases w <;> decide
  | .ptr t, h => unescaped_append.2 ⟨by decide, Ty.unescaped_text h⟩
  | .struct none fields, h =>
    unescaped_append.2 ⟨unescaped_append.2 ⟨by decide, Ty.unescaped_listText h⟩,
      by decide⟩
  | .struct (some name) _, h | .named name, h =>
    unescaped_append.2 ⟨by decide, h name (mem_singleton_self _)⟩
theorem Ty.unescaped_listText : ∀ {ts : List Ty}, (∀ s ∈ Ty.listTexts ts, Unescaped s) →
    Unescaped (Ty.listText ts)
  | [], _ => by decide
  | [t], h => Ty.unescaped_text fun s hs => h s (by simp [listTexts, hs])
  | t :: t' :: ts, h =>
    unescaped_append.2 ⟨unescaped_append.2 ⟨
      Ty.unescaped_text fun s hs => h s (mem_append_left _ hs), by decide⟩,
      Ty.unescaped_listText fun s hs => h s (mem_append_right _ hs)⟩
end

theorem Imm.unescaped_text {v : Imm} (h : ∀ s ∈ v.texts, Unescaped s) : Unescaped v.text := by
  cases v with
  | int value w => exact unescaped_int value
  | float value w => exact value.unescaped_text
  | bool value => cases value <;> decide
  | null => decide
  | fn name => exact unescaped_append.2 ⟨by decide, h name (mem_singleton_self _)⟩

theorem unescaped_labelText (l : Label) : Unescaped (labelText l) :=
  unescaped_append.2 ⟨by decide, unescaped_nat l.index⟩

theorem registerText_shows (r : Register) :
    Shows (registerText .colored r) (registerText .plain r) :=
  .paint _ (.self (unescaped_append.2 ⟨by decide, unescaped_nat r.index⟩))

theorem Operand.text_shows {x : Operand} (h : ∀ s ∈ x.texts, Unescaped s) :
    Shows (x.text .colored) (x.text .plain) := by
  cases x with
  | imm value => exact .paint _ (.self (Imm.unescaped_text h))
  | reg r => exact registerText_shows r

theorem labelText_shows (l : Label) (c : Color) :
    Shows (Paint.apply .colored c (labelText l)) (Paint.apply .plain c (labelText l)) :=
  .paint _ (.self (unescaped_labelText l))

theorem targetText_shows (t : Option Label) :
    Shows (targetText .colored t) (targetText .plain t) := by
  cases t with
  | some l => exact labelText_shows l _
  | none => exact .paint _ .self

theorem literal_shows {name : String} {c : Color} (h : Unescaped name := by decide) :
    Shows (Paint.apply .colored c name) (Paint.apply .plain c name) :=
  .paint c (.self h)

section Parts
variable {xs ys : List String} {x y x' y' name : String}

/-- Parts with a blank in between. -/
theorem spaced (h : Shows x y) (k : Shows x' y') : Shows (x ++ " " ++ x') (y ++ " " ++ y') :=
  (h.append .self).append k

theorem assigned_shows (dest : Register) (hn : Unescaped name) (h : List.Forall₂ Shows xs ys) :
    Shows (assigned .colored dest name xs) (assigned .plain dest name ys) :=
  spaced (spaced (spaced (registerText_shows dest) literal_shows)
    (literal_shows hn)) (.intercalate h)

theorem mapped {f g : α → String} {xs : List α} (h : ∀ x ∈ xs, Shows (f x) (g x)) :
    List.Forall₂ Shows (xs.map f) (xs.map g) := by
  rw [forall₂_map_left_iff, forall₂_map_right_iff, forall₂_same]
  exact h

end Parts

theorem Callee.text_shows {callee : Callee} (h : ∀ name, callee = .direct name → Unescaped name) :
    Shows (callee.text .colored) (callee.text .plain) := by
  cases callee with
  | direct name => exact literal_shows (h name rfl)
  | indirect r => exact registerText_shows r

theorem Instr.text_shows (h : ∀ s ∈ i.texts, Unescaped s) :
    Shows (i.text .colored) (i.text .plain) := by
  have operands : ∀ x ∈ i.operands, Shows (x.text .colored) (x.text .plain) := fun x hx =>
    Operand.text_shows fun s hs => h s (mem_append_left _ (mem_flatMap.2 ⟨x, hx, hs⟩))
  have arrow : ∀ {dest source}, dest ∈ i.operands → source ∈ i.operands →
      Shows (arrow .colored dest source) (arrow .plain dest source) := fun hd hs =>
    spaced (spaced (operands _ hd) literal_shows) (operands _ hs)
  cases i with
  | label l => exact .self (unescaped_append.2 ⟨unescaped_labelText l, by decide⟩)
  | alloc dest ty name =>
    have typed : Unescaped ty.text := Ty.unescaped_text fun s hs => h s (by simp [texts, hs])
    have slot := assigned_shows dest (show Unescaped "alloc" by decide) (.cons (.self typed) .nil)
    cases name with
    | none => exact slot.append .self
    | some name =>
      exact slot.append ((Shows.self).append
        (literal_shows (unescaped_append.2 ⟨by decide, h name (by simp [texts])⟩)))
  | load dest source => exact assigned_shows dest (by decide) (.cons (operands _ (.head _)) .nil)
  | store dest source =>
    exact spaced literal_shows (arrow (.head _) (.tail _ (.head _)))
  | copy dest source size =>
    exact ((spaced literal_shows (arrow (.head _) (.tail _ (.head _)))).append
      .self).append (literal_shows (unescaped_nat size))
  | move dest source =>
    exact spaced (spaced (registerText_shows dest) literal_shows)
      (operands _ (.head _))
  | unary op dest operand =>
    exact assigned_shows dest (by cases op <;> decide) (.cons (operands _ (.head _)) .nil)
  | binary op kind dest lhs rhs =>
    exact assigned_shows dest (by cases op <;> cases kind <;> decide)
      (.cons (operands _ (.head _)) (.cons (operands _ (.tail _ (.head _))) .nil))
  | compare predicate kind dest lhs rhs =>
    exact assigned_shows dest (by cases predicate <;> cases kind <;> decide)
      (.cons (operands _ (.head _)) (.cons (operands _ (.tail _ (.head _))) .nil))
  | cast kind dest operand =>
    exact assigned_shows dest (by cases kind <;> decide) (.cons (operands _ (.head _)) .nil)
  | fieldPtr dest source index =>
    exact assigned_shows dest (by decide)
      (.cons (operands _ (.head _)) (.cons (literal_shows (unescaped_nat index)) .nil))
  | elementPtr dest source index =>
    exact assigned_shows dest (by decide)
      (.cons (operands _ (.head _)) (.cons (operands _ (.tail _ (.head _))) .nil))
  | call callee arguments dest =>
    have target : Shows (callee.text .colored) (callee.text .plain) :=
      Callee.text_shows fun name hn => h name (by simp [texts, hn])
    have passed : List.Forall₂ Shows (arguments.map (Operand.text .colored))
        (arguments.map (Operand.text .plain)) :=
      mapped fun x hx => operands x (mem_append_right _ hx)
    refine ((((spaced (Shows.append ?_ literal_shows) target).append
      .self).append (.intercalate passed)).append .self)
    cases dest with
    | none => exact .self
    | some dest =>
      exact (spaced (registerText_shows dest) literal_shows).append
        .self
  | branch condition positive negative =>
    exact spaced (spaced (spaced literal_shows (operands _ (.head _)))
      (targetText_shows positive)) (targetText_shows negative)
  | jump target => exact spaced literal_shows (targetText_shows target)
  | switch value cases default =>
    have listed : List.Forall₂ Shows (cases.map (caseText .colored))
      (cases.map (caseText .plain)) :=
      mapped fun c hc => ((literal_shows (Imm.unescaped_text fun s hs => h s
        (by simp only [texts]; grind))).append .self).append (labelText_shows c.2 _)
    exact spaced (((((spaced literal_shows (operands _ (.head _))).append
      .self).append (.intercalate listed)).append
        .self).append literal_shows) (labelText_shows default _)
  | ret value =>
    cases value with
    | none => exact literal_shows
    | some value => exact spaced literal_shows (operands _ (.head _))
  | comment text =>
    exact literal_shows (unescaped_append.2 ⟨by decide, h text (by simp [texts])⟩)

theorem Instr.line_shows (h : ∀ s ∈ i.texts, Unescaped s) :
    Shows (i.line .colored) (i.line .plain) := by
  unfold line
  split
  · exact literal_shows (unescaped_append.2 ⟨unescaped_labelText _, by decide⟩)
  · exact (Shows.self).append (Instr.text_shows h)

theorem Function.heading_shows {f : Function} (h : ∀ s ∈ f.texts, Unescaped s) :
    Shows (f.heading .colored) (f.heading .plain) := by
  have arguments : List.Forall₂ Shows (f.arguments.map (f.argumentText .colored))
      (f.arguments.map (f.argumentText .plain)) := mapped fun r hr =>
    ((registerText_shows r).append .self).append
      (.self (Ty.unescaped_text fun s hs => h s (by simp only [texts]; grind)))
  exact ((((spaced literal_shows (literal_shows (h f.name (.head _)))).append
    literal_shows).append (.paint _ (.intercalate arguments)))).append
      literal_shows

/-- Where no symbol, slot, callee, class or comment text holds an escape character, a listing in
colors is the plain listing but for its color sequences, and so is each instruction. -/
theorem uncolor_listing :
    (∀ f : Function, (∀ s ∈ f.texts, Unescaped s) →
      uncolor (f.listing .colored).toList = (f.listing .plain).toList) ∧
    ∀ i : Instr, (∀ s ∈ i.texts, Unescaped s) →
      uncolor (i.text .colored).toList = (i.text .plain).toList := by
  refine ⟨fun f h => ?_, fun i h => Painted.uncolor_eq (Instr.text_shows h)⟩
  have lines : List.Forall₂ Shows (f.instrs.toList.map (Instr.line .colored))
      (f.instrs.toList.map (Instr.line .plain)) :=
    mapped fun i hi => Instr.line_shows fun s hs =>
      h s (mem_append_right _ (mem_flatMap.2 ⟨i, hi, hs⟩))
  have body := rel_append (List.Forall₂.cons (Function.heading_shows h) lines)
    (.cons (literal_shows (c := .white) (show Unescaped "\x7d" by decide)) .nil)
  exact Painted.uncolor_eq (Shows.join
    (rel_map (fun _ _ h => h.append .self) body))

def boxed : Function where
  name := "f"
  registers := #[.ptr (.named "Box"), .ptr (.int .w32)]
  arguments := [⟨0⟩]
  instrs := #[.alloc ⟨1⟩ (.int .w32) (some "n"),
    .call (.direct "g") [.reg ⟨0⟩, .imm (.fn "h")] none,
    .ret none]
  labels := []
  landingPads := 0

theorem uncolor_boxed :
    (∀ s ∈ boxed.texts, Unescaped s) ∧
      uncolor (boxed.listing .colored).toList = (boxed.listing .plain).toList :=
  have unescaped : ∀ s ∈ boxed.texts, Unescaped s := by decide
  ⟨unescaped, uncolor_listing.1 boxed unescaped⟩

end Code
end FlatCode
