import FlatCode.Proofs.Balance.Function

/-! How a function takes its arguments. First comes the address for the result, if it has one, then
the parameters, then the address for the status, if the function can raise. Each parameter is
stored in its slot before anything else is done. -/
namespace FlatCode.Lower
open Code Symbols Ast

inductive State.Stores (s : State) : List VariableId → List Register → List Instr → Prop
  | nil : Stores s [] [] []
  | cons {v : VariableId} {r : Register} {l : Location} {vs : List VariableId} {rs : List Register}
    {code : List Instr} (here : s.location? v = some l) (rest : Stores s vs rs code) :
    Stores s (v :: vs) (r :: rs) (.store l.slot r :: code)

namespace State.Stores
variable {s t : State} {vs : List VariableId} {rs : List Register} {code : List Instr}

theorem mono (h : s.Stores vs rs code)
    (stays : ∀ v l, s.location? v = some l → t.location? v = some l) :
    t.Stores vs rs code := by
  induction h with
  | nil => exact .nil
  | cons here _ ih => exact .cons (stays _ _ here) ih

theorem length_eq (h : s.Stores vs rs code) : rs.length = vs.length ∧ code.length = vs.length := by
  induction h with
  | nil => exact ⟨rfl, rfl⟩
  | cons _ _ ih => exact ⟨congrArg (· + 1) ih.1, congrArg (· + 1) ih.2⟩

theorem at_place (h : s.Stores vs rs code) {k : Nat} {v : VariableId} (hk : vs[k]? = some v) :
    ∃ r l, rs[k]? = some r ∧ s.location? v = some l ∧ code[k]? = some (.store l.slot r) := by
  induction h generalizing k with
  | nil => cases hk
  | @cons v1 r l _ _ _ here _ ih =>
    cases k with
    | zero =>
      cases hk
      exact ⟨r, l, rfl, here, rfl⟩
    | succ k => exact ih hk

end State.Stores

structure Taken (f : Ast.Function) (s : State) (incoming : Incoming) (t : State) : Prop where
  result : incoming.result.isSome = f.returnsByHiddenSlot
  callerStatus : incoming.callerStatus.isSome = f.canRaise
  stores : ∃ code : List Instr, t.draft.body = s.draft.body ++ code.toArray ∧
    t.Stores f.parameters incoming.parameters code

section Receive
variable {env : Env} {s : State}

theorem newRegister_ends (ty : Ty) :
    Ensures (fun _ t => t.draft.body = s.draft.body ∧ t.storage = s.storage)
      ((liftM (Draft.newRegister ty) : LowerM Register) env s) :=
  Ends.edited ⟨rfl, rfl⟩

theorem receiveResult_ends (f : Ast.Function) :
    Ensures (fun result t => result.isSome = f.returnsByHiddenSlot ∧
      t.draft.body = s.draft.body) (receiveResult f env s) := by
  unfold receiveResult
  cases f.returnsByHiddenSlot with
  | true =>
    refine .ask (Ends.seq (P := fun _ t => t = s) ?_ ?_)
    · exact .table (Ends.answered (fun _ _ => rfl) fun _ _ => trivial)
    · rintro ty _ rfl
      exact (newRegister_ends _).seq fun _ _ h => .ret ⟨rfl, h.1⟩
  | false => exact .ret ⟨rfl, rfl⟩

theorem receiveStatus_ends (f : Ast.Function) :
    Ensures (fun status t => status.isSome = f.canRaise ∧
      t.draft.body = s.draft.body ∧ t.storage = s.storage) (receiveStatus f env s) := by
  unfold receiveStatus
  cases f.canRaise with
  | true => exact (newRegister_ends _).seq fun _ _ h => .ret ⟨rfl, h⟩
  | false => exact .ret ⟨rfl, rfl, rfl⟩

theorem receiveParameter_stores (v : VariableId) :
    Ensures (fun (r : Register) (t : State) => ∃ l : Location, t.location? v = some l ∧
        t.draft.body = s.draft.body.push (.store l.slot r) ∧
        ∀ v l, s.location? v = some l → t.location? v = some l)
      (receiveParameter v env s) := by
  refine ((allocate_adds (p := fun _ => false) v _ env s).anyError.and
    (allocate_located v _)).seq fun l t ⟨adds, located⟩ => ?_
  refine (newRegister_ends _).seq fun r u ⟨body, storage⟩ => ?_
  refine .seq (P := fun _ w => w = { u with draft.body := u.draft.body.push (.store l.slot r) })
    rfl ?_
  rintro _ _ rfl
  have same (v : VariableId) : u.location? v = t.location? v :=
    congrArg (·.locations.lookup v) storage
  refine .ret ⟨l, (same v).trans located, ?_, fun v l hl =>
    (same v).trans (adds.houses.stays v l hl)⟩
  exact congrArg (fun code : Array Instr => code.push (.store l.slot r)) (body.trans adds.body_eq)

theorem receiveParameters_stores : ∀ (vs : List VariableId) (s : State),
    Ensures (fun rs t => (∃ code : List Instr,
        t.draft.body = s.draft.body ++ code.toArray ∧ t.Stores vs rs code) ∧
        ∀ v l, s.location? v = some l → t.location? v = some l)
      (vs.mapM receiveParameter env s)
  | [], s => .ret ⟨⟨[], by simp, .nil⟩, fun _ _ h => h⟩
  | v :: vs, s => by
    rw [List.mapM_cons]
    refine (receiveParameter_stores v).seq fun r t ⟨l, located, body, stays⟩ => ?_
    refine (receiveParameters_stores vs t).seq fun rs u ⟨⟨code, more, stores⟩, stays'⟩ => .ret ?_
    refine ⟨⟨.store l.slot r :: code, ?_, .cons (stays' v l located) stores⟩,
      fun v l hl => stays' v l (stays v l hl)⟩
    rw [more, body]
    simp

theorem receive_taken (f : Ast.Function) :
    Ensures (fun incoming t => Taken f s incoming t) (receive f env s) := by
  refine (receiveResult_ends f).seq fun result t1 ⟨hidden, body1⟩ => ?_
  refine (receiveParameters_stores f.parameters t1).seq
    fun parameters t2 ⟨⟨code, body2, stores⟩, _⟩ => ?_
  refine (receiveStatus_ends f).seq fun status t3 ⟨raises, body3, storage⟩ => ?_
  have locals := Adding.forM (p := fun _ => false)
    (fun v env s => .discarded (allocate_adds v .localVariable env s)) f.locals env t3
  refine locals.anyError.seq fun _ t4 adds => .ret ⟨hidden, raises, code, ?_, ?_⟩
  · rw [adds.body_eq, body3, body2, body1]
  · refine stores.mono fun v l hl => adds.houses.stays v l ?_
    exact (congrArg (·.locations.lookup v) storage).trans hl

end Receive

end FlatCode.Lower
