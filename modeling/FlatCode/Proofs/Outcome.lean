import FlatCode.Lower.Function

/-! How a run can end. A run of a lowering step is described by what holds of its value and
of the state behind it, and by the failures it may stop with. Each step has one such
description, and a sequence of steps is described by those of its parts. -/
namespace FlatCode

/-- A function that cannot raise, and whose result needs no slot. -/
def Symbols.FunctionSymbol.plain (name : String) (returnType : TypeId)
    (operator : Option Operator := none) : FunctionSymbol :=
  ⟨name, returnType, false, false, operator, none, none⟩

theorem exists_ok_of_isSome {x : Except ε α} (h : x.toOption.isSome) : ∃ a, x = .ok a := by
  cases x with
  | error e => cases h
  | ok a => exact ⟨a, rfl⟩

theorem Lower.read_bind (k : Lower.Env → Lower.LowerM α) (env : Lower.Env) (s : Lower.State) :
    (read >>= k) env s = k env env s := rfl

theorem Lower.get_bind (k : Lower.State → Lower.LowerM α) (env : Lower.Env) (s : Lower.State) :
    (get >>= k) env s = k s env s := rfl

/-- The state that a run leaves behind, also one that fails. -/
def stateOf : EStateM.Result ε σ α → σ
  | .ok _ s => s
  | .error _ s => s

/-- The run succeeds with a value and a state as `Q` says, or fails as `E` says. -/
def Ends (E : Error → Prop) (Q : α → σ → Prop) : EStateM.Result Error σ α → Prop
  | .ok a s => Q a s
  | .error e _ => E e

abbrev Ensures (Q : α → σ → Prop) (r : EStateM.Result Error σ α) : Prop := Ends (fun _ => True) Q r

instance (E : Error → Prop) (Q : α → σ → Prop) [DecidablePred E] [∀ a s, Decidable (Q a s)] :
    DecidablePred (Ends E Q)
  | .ok a s => inferInstanceAs (Decidable (Q a s))
  | .error e _ => inferInstanceAs (Decidable (E e))

namespace Ends
open Lower
variable {E : Error → Prop} {Q R : α → σ → Prop} {r : EStateM.Result Error σ α} {a : α} {s : σ}
  {m : LowerM α} {f : α → LowerM β}

theorem mono (h : Ends E Q r) (weaken : ∀ a s, Q a s → R a s) : Ends E R r := by
  cases r with
  | ok a s => exact weaken a s h
  | error e s => exact h

/-- Which failures there can be is known from the first description. -/
theorem and {F : Error → Prop} (hq : Ends E Q r) (hr : Ends F R r) :
    Ends E (fun a s => Q a s ∧ R a s) r := by
  cases r with
  | ok a s => exact ⟨hq, hr⟩
  | error e s => exact hq

theorem anyError (h : Ends E Q r) : Ensures Q r := by
  cases r with
  | ok a s => exact h
  | error e s => trivial

theorem any (r : EStateM.Result Error σ α) : Ensures (fun _ _ => True) r := by
  cases r <;> trivial

theorem of_ok (h : Ends E Q r) (hr : r = .ok a s) : Q a s := by
  rw [hr] at h
  exact h

theorem of_error {e : Error} (h : Ends E Q r) (hr : r = .error e s) : E e := by
  rw [hr] at h
  exact h

/-- A run that can only fail in two ways which exclude each other does not fail. -/
theorem succeeds {F : Error → Prop} (hq : Ends E Q r) (hr : Ends F R r) (apart : ∀ e, E e → ¬ F e) :
    ∃ a s, r = .ok a s := by
  cases r with
  | ok a s => exact ⟨a, s, rfl⟩
  | error e s => exact absurd hr (apart e hq)

theorem exists_ok (h : Ends (fun _ => False) Q r) : ∃ a s, r = .ok a s ∧ Q a s := by
  cases r with
  | ok a s => exact ⟨a, s, rfl, h⟩
  | error e s => exact h.elim

theorem recorded (h : Ends E Q r) : Ends E (fun a s => Q a s ∧ r = .ok a s) r := by
  cases r with
  | ok a s => exact ⟨h, rfl⟩
  | error e s => exact h

theorem next {m : EStateM Error σ α} {f : α → EStateM Error σ β} {P : α → σ → Prop}
    {Q : β → σ → Prop} (h : Ends E P (m s)) (k : ∀ a s, P a s → Ends E Q (f a s)) :
    Ends E Q ((m >>= f) s) := by
  change Ends E Q (EStateM.bind m f s)
  unfold EStateM.bind
  cases hm : m s with
  | ok a s => exact k a s (h.of_ok hm)
  | error e s => exact h.of_error hm

end Ends

theorem bind_of_ok {m : EStateM ε σ α} {f : α → EStateM ε σ β} {a : α} {s t : σ}
    (h : m s = .ok a t) : (m >>= f) s = f a t := by
  change EStateM.bind m f s = _
  simp only [EStateM.bind, h]

theorem bind_of_error {m : EStateM ε σ α} {f : α → EStateM ε σ β} {e : ε} {s t : σ}
    (h : m s = .error e t) : (m >>= f) s = .error e t := by
  change EStateM.bind m f s = _
  simp only [EStateM.bind, h]

namespace Ends
open Lower
variable {E : Error → Prop} {a : α} {m : LowerM α} {f : α → LowerM β} {env : Env} {s : State}

theorem seq {P : α → State → Prop} {Q : β → State → Prop} (h : Ends E P (m env s))
    (k : ∀ a s, P a s → Ends E Q (f a env s)) :
    Ends E Q ((m >>= f) env s) :=
  h.next k

theorem known {Q : β → State → Prop} {t : State} (h : m env s = .ok a t)
    (k : Ends E Q (f a env t)) : Ends E Q ((m >>= f) env s) := by
  refine .seq (P := fun b u => a = b ∧ t = u) ?_ ?_
  · rw [h]
    exact ⟨rfl, rfl⟩
  · rintro _ _ ⟨rfl, rfl⟩
    exact k

theorem ret {Q : α → State → Prop} (h : Q a s) :
    Ends E Q ((pure a : LowerM α) env s) := h

theorem fail {Q : α → State → Prop} {e : Error} (h : E e) :
    Ends E Q ((throw e : LowerM α) env s) := h

theorem look {Q : α → State → Prop} {f : State → LowerM α} (h : Ends E Q (f s env s)) :
    Ends E Q ((get >>= f) env s) := h

theorem ask {Q : α → State → Prop} {f : Env → LowerM α} (h : Ends E Q (f env env s)) :
    Ends E Q ((read >>= f) env s) := h

theorem table {Q : α → State → Prop} {f : Symbols.SymbolTable → LowerM α}
    (h : Ends E Q (f env.symbols env s)) : Ends E Q ((symbols >>= f) env s) := h

theorem put {Q : PUnit → State → Prop} {g : State → State} (h : Q ⟨⟩ (g s)) :
    Ends E Q ((modify g : LowerM PUnit) env s) := h

theorem discarded {Q : PUnit → State → Prop} (h : Ends E (fun _ t => Q ⟨⟩ t) (m env s)) :
    Ends E Q ((discard m : LowerM PUnit) env s) := by
  change Ends E Q (EStateM.map (fun _ => ⟨⟩) (m env) s)
  unfold EStateM.map
  cases hm : m env s with
  | ok a t => exact h.of_ok hm
  | error e t => exact h.of_error hm

theorem inside {Q : α → State → Prop} {g : Env → Env} (h : Ends E Q (m (g env) s)) :
    Ends E Q ((withReader g m) env s) := h

theorem edited {m : Draft.Edit α} {Q : α → State → Prop}
    (h : Ends E (fun a d => Q a { s with draft := d }) (m s.draft)) :
    Ends E Q ((liftM m : LowerM α) env s) := by
  change Ends E Q (edit m s)
  obtain ⟨draft, _, _, _, _, _, _⟩ := s
  unfold edit
  cases hm : m draft with
  | ok a d =>
    simp only [hm]
    exact h.of_ok hm
  | error e d =>
    simp only [hm]
    exact h.of_error hm

theorem drafted {m : Draft.Edit α} {P : α → Draft → Prop} {Q : β → State → Prop}
    (h : Ends E P (m s.draft)) (k : ∀ a d, P a d → Ends E Q (f a env { s with draft := d })) :
    Ends E Q ((liftM m >>= f) env s) := by
  refine .seq (P := fun a t => ∃ d, t = { s with draft := d } ∧ P a d)
    (.edited (h.mono fun a d hd => ⟨d, rfl, hd⟩)) ?_
  rintro a _ ⟨d, rfl, hd⟩
  exact k a d hd

theorem answered {x : Except Error α} {Q : α → State → Prop} (ok : ∀ a, x = .ok a → Q a s)
    (error : ∀ e, x = .error e → E e) : Ends E Q ((liftM x : LowerM α) env s) := by
  change Ends E Q (answer x s)
  unfold answer
  cases x with
  | ok a => exact ok a rfl
  | error e => exact error e rfl

theorem query {x : Except Error α} {Q : β → State → Prop}
    (h : ∀ a, x = .ok a → Ensures Q (f a env s)) :
    Ensures Q ((liftM x >>= f) env s) := by
  refine .seq (P := fun a t => x = .ok a ∧ s = t)
    (Ends.answered (fun a ha => ⟨ha, rfl⟩) fun _ _ => trivial) ?_
  rintro a _ ⟨ha, rfl⟩
  exact h a ha

theorem asked {q : Symbols.SymbolTable → Except Error α} {Q : β → State → Prop}
    (h : ∀ a, q env.symbols = .ok a → Ensures Q (f a env s)) :
    Ensures Q (((symbols >>= fun table => liftM (q table)) >>= f) env s) :=
  query (x := q env.symbols) h

/-- A question to the table whose answer is known. -/
theorem told {q : Symbols.SymbolTable → Except Error α} {Q : β → State → Prop}
    (h : q env.symbols = .ok a) (k : Ends E Q (f a env s)) :
    Ends E Q (((symbols >>= fun table => liftM (q table)) >>= f) env s) := by
  refine .known (a := a) (t := s) ?_ k
  change answer (q env.symbols) s = _
  rw [h]
  rfl

end Ends

theorem Lower.run_bind {m : Lower.LowerM α} {f : α → Lower.LowerM β} {env : Lower.Env}
    {s t : Lower.State} {a : α} (h : m env s = .ok a t) : (m >>= f) env s = f a env t :=
  bind_of_ok h

theorem Lower.run_edit {m : Draft.Edit α} {env : Lower.Env} {s : Lower.State} {a : α} {d : Draft}
    (h : m s.draft = .ok a d) : (liftM m : Lower.LowerM α) env s = .ok a { s with draft := d } := by
  change Lower.edit m s = _
  simp only [Lower.edit, h]

theorem Lower.run_answer {x : Except Error α} {env : Lower.Env} {s : Lower.State} {a : α}
    (h : x = .ok a) : (liftM x : Lower.LowerM α) env s = .ok a s := by
  rw [h]
  rfl

theorem Lower.lift_bind (m : Draft.Edit α) (f : α → Draft.Edit β) :
    (liftM (m >>= f) : LowerM β) = (liftM m : LowerM α) >>= fun a => liftM (f a) := by
  funext env s
  change edit (m >>= f) s = EStateM.bind (edit m) (fun a => edit (f a)) s
  obtain ⟨draft, _, _, _, _, _, _⟩ := s
  simp only [edit, EStateM.bind, bind]
  cases m draft <;> rfl

end FlatCode
