import FlatCode.Proofs.Typing.Reference

/-! The codes of thrown integers. A literal is stored as the number it spells. A variable is loaded,
and narrow words are extended by their sign whether their type is signed or not, so that a variable
and a literal of the same value can be stored as different codes. -/
namespace FlatCode
open Code Symbols Ast List
variable {x : Operand} {a : Word} {w : IntWidth}

/-- The number that an operand stands for. Words are read as signed. -/
def Code.Operand.number? (registers : Registers) : Operand → Option Int
  | .imm (.int n _) => some n
  | x => (x.word? registers).map fun a => a.bits.toInt

theorem Code.Operand.number?_of_word {registers : Registers} (other : ∀ n w, x ≠ .imm (.int n w))
    (word : x.word? registers = some a) :
    x.number? registers = some a.bits.toInt := by
  unfold number?
  split
  · exact absurd rfl (other _ _)
  · rw [word]
    rfl

theorem Code.Word.cast_status (narrow : a.width ≠ .w32) :
    a.cast (if a.width.bytes < 4 then .signExtend else .truncate) .w32 =
      some (.ofInt .w32 a.bits.toInt) := by
  obtain ⟨w, bits⟩ := a
  cases w with
  | w8 | w16 => rfl
  | w32 => exact absurd rfl narrow
  | w64 => exact congrArg (fun b => some (Word.mk .w32 b)) (ofInt_toInt_of_le (by decide) bits).symm

namespace Lower
variable {types : Array Ty} {y : Operand} {s : State} {code : List Instr} {E : Error → Prop}

inductive Narrows (types : Array Ty) : IntWidth → Operand → List Instr → Operand → Prop where
  | literal {n : Int} {w : IntWidth} : Narrows types w (.imm (.int n w)) [] (.imm (.int n .w32))
  | same {x : Operand} : (∀ n w, x ≠ .imm (.int n w)) → Narrows types .w32 x [] x
  | cast {x : Operand} {w : IntWidth} {r : Register} : (∀ n w, x ≠ .imm (.int n w)) →
    w ≠ .w32 → types[r.index]? = some .status →
    Narrows types w x [.cast (if w.bytes < 4 then .signExtend else .truncate) r x] (.reg r)

theorem Narrows.later {added : Array Ty} (h : Narrows types w x code y) :
    Narrows (types ++ added) w x code y := by
  cases h with
  | literal => exact .literal
  | same other => exact .same other
  | cast other narrow typed =>
    refine .cast other narrow ?_
    rw [Array.getElem?_append_left (Array.getElem?_eq_some_iff.1 typed).1, typed]

theorem statusSlot_found (env : Env) (s : State) :
    Ends E (fun slot t => t.status = some slot ∧ t.draft.body = s.draft.body)
      (statusSlot env s) := by
  refine .look ?_
  cases hs : s.status with
  | some slot => exact ⟨hs, rfl⟩
  | none => exact ⟨rfl, rfl⟩

theorem exceptionCode_narrows {env : Env} (typed : s.draft.operandType? x = some (.int w)) :
    Ends E (fun y t => ∃ code : List Instr, Narrows t.draft.registers w x code y ∧
      t.draft.body = s.draft.body ++ code) (exceptionCode x env s) := by
  unfold exceptionCode
  split
  · rename_i n w'
    cases typed
    exact .ret ⟨[], .literal, by simp⟩
  · rename_i other
    have casts (narrow : w ≠ .w32) : ∃ code : List Instr,
        Narrows (s.draft.registers.push .status) w x code (.reg ⟨s.draft.registers.size⟩) ∧
        s.draft.body.push (.cast (if w.bytes < 4 then .signExtend else .truncate)
          ⟨s.draft.registers.size⟩ x) = s.draft.body ++ code :=
      ⟨_, .cast other narrow (by simp), by simp⟩
    refine .look ?_
    rw [typed]
    cases w with
    | w32 => exact .ret ⟨[], .same other, by simp⟩
    | w8 | w16 | w64 => exact casts nofun

theorem throwValue_growing (x : Operand) : Growing (throwValue x) :=
  Traced.growing <| (exceptionCode_derives x).straight.traced.bind fun _ =>
    statusSlot_straight.traced.bind fun _ => (emit_traced rfl).bind fun _ =>
      (notePad_traced 0).bind fun _ => jumpTo_traced _

end Lower

namespace Throw

structure Memory where
  registers : Registers
  slots : Register → Word

namespace Memory
variable (types : Array Ty) (m : Memory)

def put (r : Register) (a : Word) : Memory :=
  { m with registers := fun r' => if r' = r then a else m.registers r' }

def write (slot : Register) (a : Word) : Memory :=
  { m with slots := fun r => if r = slot then a else m.slots r }

/-- One instruction that goes on. What is loaded has the width of its register. -/
def step (m : Memory) : Instr → Option Memory
  | .load r (.reg slot) =>
    if types[r.index]? = some (.int (m.slots slot).width) then some (m.put r (m.slots slot))
    else none
  | .store (.reg slot) x => (x.word? m.registers).map (m.write slot)
  | i => (i.calculates? types m.registers).map fun (r, a) => m.put r a

def run (code : List Instr) : Option Memory := code.foldlM (step types) m

end Memory

section Run
variable {types : Array Ty} {m : Memory} {w : IntWidth} {a : Word} {x y : Operand}
  {code : List Instr}

theorem Memory.run_cons {i : Instr} {next : Memory} (h : m.step types i = some next) :
    m.run types (i :: code) = next.run types code := by
  rw [run, foldlM_cons, h]
  rfl

theorem Memory.run_narrows (slot : Register) (narrows : Lower.Narrows types w x code y)
    (word : x.word? m.registers = some a) (width : a.width = w) :
    ∃ n next, x.number? m.registers = some n ∧
      m.run types (code ++ [.store (.reg slot) y]) = some next ∧
      next.slots slot = .ofInt .w32 n := by
  have stored {m : Memory} {n : Int} (word : y.word? m.registers = some (.ofInt .w32 n)) :
      ∃ next, m.run types [.store (.reg slot) y] = some next ∧ next.slots slot = .ofInt .w32 n :=
    ⟨m.write slot (.ofInt .w32 n), by rw [run_cons (by rw [step, word]; rfl)]; rfl, if_pos rfl⟩
  cases narrows with
  | literal =>
    obtain ⟨next, ran, held⟩ := stored (m := m) rfl
    exact ⟨_, next, rfl, ran, held⟩
  | same other =>
    obtain ⟨next, ran, held⟩ := stored (m := m) (n := a.bits.toInt) (by
      rw [word]
      obtain ⟨_, bits⟩ := a
      cases width
      exact congrArg (fun b => some (Word.mk .w32 b)) BitVec.ofInt_toInt.symm)
    exact ⟨_, next, Operand.number?_of_word other word, ran, held⟩
  | @cast _ _ r other narrow typed =>
    subst width
    obtain ⟨next, ran, held⟩ := stored (m := m.put r (.ofInt .w32 a.bits.toInt))
      (congrArg some (if_pos rfl))
    refine ⟨_, next, Operand.number?_of_word other word, ?_, held⟩
    refine (run_cons ?_).trans ran
    have typed : types[r.index]? = some (.int .w32) := typed
    simp [step, Instr.calculates?, typed, word, Word.cast_status narrow]

end Run
end Throw

theorem Code.Word.toInt_ofInt_of_top {w : IntWidth} {v : Int} (holds : Numeric.unsigned.Holds w v)
    (top : 2 ^ (w.bits - 1) ≤ v) : (BitVec.ofInt w.bits v).toInt = v - 2 ^ w.bits := by
  rw [BitVec.toInt_ofInt, Int.bmod_def]
  obtain ⟨low, high⟩ := holds
  cases w <;> simp only [IntWidth.bits, IntWidth.bytes] at * <;> omega

/-- A number and its bits, read with a sign, have the same code unless it has no sign and its
highest bit is set. -/
theorem Code.Word.status_toInt_iff {kind : Numeric} {w : IntWidth} {v : Int}
    (holds : kind.Holds w v) :
    BitVec.ofInt 32 v = .ofInt 32 (BitVec.ofInt w.bits v).toInt ↔
      ¬ (kind = .unsigned ∧ w.bits < 32 ∧ 2 ^ (w.bits - 1) ≤ v) := by
  by_cases wide : 32 ≤ w.bits
  · rw [ofInt_toInt_of_le wide, setWidth_ofInt wide]
    simp [Nat.not_lt.2 wide]
  · by_cases signed : Numeric.signed.Holds w v
    · rw [toInt_ofInt signed]
      simp [Int.not_le.2 signed.2]
    · cases kind with
      | signed => exact absurd holds signed
      | float => exact holds.elim
      | unsigned =>
        have pos : (0 : Int) < 2 ^ (w.bits - 1) := Int.pow_pos (by decide)
        have top : 2 ^ (w.bits - 1) ≤ v := by
          by_contra low
          exact signed ⟨by have := holds.1; omega, Int.not_le.1 low⟩
        refine iff_of_false (fun same => ?_) (not_not_intro ⟨rfl, Nat.not_le.1 wide, top⟩)
        rw [toInt_ofInt_of_top holds top] at same
        -- both numbers are statuses, and differ by the words of the width
        have fits : Numeric.signed.Holds .w32 v ∧ Numeric.signed.Holds .w32 (v - 2 ^ w.bits) := by
          obtain ⟨low, high⟩ := holds
          cases w <;> simp only [Numeric.Holds, IntWidth.bits, IntWidth.bytes] at * <;> omega
        have differ : (0 : Int) < 2 ^ w.bits := Int.pow_pos (by decide)
        have := (ofInt_inj fits.1 fits.2).1 same
        omega

namespace Lower
open Throw
variable {env : Env} {s t u : State} {e : Expr} {x : Operand} {w : IntWidth}
  {m : Memory} {a b : Word}

section Run

theorem withTemporaries_run {f : LowerM α} {v : α} (h : f env s.inScope = .ok v t)
    (same : t.cleanups = s.cleanups.openScope) :
    withTemporaries f env s = .ok v { t with cleanups := s.cleanups } := by
  obtain ⟨_, _, closed, rfl⟩ := (closeScope_drops same : Ends _ _ (closeScope env t)).exists_ok
  change (do let a ← f; closeScope; pure a : LowerM α) env s.inScope = _
  rw [run_bind h, run_bind closed]
  rfl

def State.Codes (s t : State) (x : Operand) (w : IntWidth) : Prop :=
  ∃ slot pad code y, t.status = some slot ∧ Narrows t.draft.registers w x code y ∧
    t.draft.body.toList =
      s.draft.body.toList ++ (code ++ [.store (.reg slot) y]) ++ [.jump (some pad)]

/-- The last jump goes to a new landing pad for the region that it is in, which destroys what is
alive there. -/
def State.Lands (s t : State) (region : Option Region) : Prop :=
  ∃ pad, t.draft.body.back? = some (.jump (some pad)) ∧
    t.pads = s.pads.note pad (region.map Region.handler)
      (s.cleanups.pendingFrom ((region.map Region.depth).getD 0))

theorem throwValue_codes (env : Env) (typed : s.draft.operandType? x = some (.int w)) :
    Ends (fun _ => False) (fun _ t => (s.Codes t x w ∧ s.Lands t env.region) ∧ s.Later t)
      (throwValue x env s) := by
  refine .and ?_ (throwValue_growing x env s)
  refine ((exceptionCode_narrows typed).and ((exceptionCode_derives x).straight env s).anyError).seq
    fun y t1 ⟨⟨code, narrows, body1⟩, added1⟩ => ?_
  refine ((statusSlot_found env t1).and (statusSlot_straight env t1).anyError).seq
    fun slot t2 ⟨⟨status, body2⟩, added2⟩ => ?_
  have added := added1.trans added2
  obtain ⟨types, registers⟩ := added2.registers
  refine ⟨⟨slot, ⟨t2.draft.labels⟩, code, y, status, ?_, ?_⟩, ⟨t2.draft.labels⟩,
    Array.back?_push, ?_⟩
  · change Narrows t2.draft.registers w x code y
    rw [registers]
    exact narrows.later
  · change ((t2.draft.body.push (.store (.reg slot) y)).push (.jump (some _))).toList = _
    rw [body2, body1]
    simp
  · rw [← added.pads, ← added.cleanups]
    cases env.region <;> rfl

theorem lowerThrow_codes (evaluated : fullOperand e env s = .ok x u)
    (typed : u.draft.operandType? x = some (.int w)) :
    ∃ t, lowerThrow e env s = .ok () t ∧ (u.Codes t x w ∧ u.Lands t env.region) ∧ u.Later t := by
  obtain ⟨_, t, thrown, codes⟩ := (throwValue_codes env typed).exists_ok
  exact ⟨t, by rw [lowerThrow, run_bind evaluated, thrown], codes⟩

/-- The code from the first state to the second stores the word as the status, and jumps. -/
def State.SetsStatus (s t : State) (m : Memory) (a : Word) : Prop :=
  ∃ slot pad code next, t.status = some slot ∧
    t.draft.body.toList = s.draft.body.toList ++ code ++ [.jump (some pad)] ∧
    m.run t.draft.registers code = some next ∧ next.slots slot = a

theorem State.SetsStatus.unique (h : s.SetsStatus t m a) (h' : s.SetsStatus t m b) : a = b := by
  obtain ⟨slot, pad, code, next, status, body, ran, rfl⟩ := h
  obtain ⟨slot', pad', code', next', status', body', ran', rfl⟩ := h'
  cases status.symm.trans status'
  have same := append_inj_left' (body.symm.trans body') rfl
  cases append_cancel_left same
  cases ran.symm.trans ran'
  rfl

theorem State.Codes.setsStatus {code : List Instr} {n : Memory} (h : u.Codes t x w)
    (body : u.draft.body.toList = s.draft.body.toList ++ code)
    (ran : m.run t.draft.registers code = some n) (word : x.word? n.registers = some a)
    (width : a.width = w) :
    ∃ number, x.number? n.registers = some number ∧ s.SetsStatus t m (.ofInt .w32 number) := by
  obtain ⟨slot, pad, narrowing, y, status, narrows, written⟩ := h
  obtain ⟨number, next, spelled, stored, held⟩ := Memory.run_narrows slot narrows word width
  refine ⟨number, spelled, slot, pad, code ++ (narrowing ++ [.store (.reg slot) y]), next, status,
    ?_, ?_, held⟩
  · rw [written, body]
    simp
  · rw [Memory.run, foldlM_append]
    exact (congrArg (· >>= _) ran).trans stored

end Run

section Codes
variable {ty : TypeId} {kind : TypeKind} {value : Literal} {v : Int} {var : VariableId}
  {l : Location}

theorem codeType_integer (known : env.symbols.typeKind ty = .ok kind)
    (integer : kind = .integer w ∨ kind = .unsignedInteger w) :
    env.symbols.codeType ty = .ok (.int w) := by
  rcases integer with rfl | rfl <;> exact SymbolTable.codeType_iff.2 ⟨_, known, by constructor⟩

theorem fullOperand_literal (code : env.symbols.codeType ty = .ok (.int w))
    (spelled : value.integer? = some v) :
    fullOperand (.literal ty value) env s = .ok (.imm (.int v w)) s := by
  refine withTemporaries_run (t := s.inScope) ?_ rfl
  rw [plan]
  change EStateM.bind (EStateM.bind (answer (env.symbols.codeType ty)) _) _ s.inScope = _
  rw [code]
  cases value <;> cases spelled <;> rfl

theorem fullOperand_variable (lodged : s.Lodged env.symbols)
    (declared : env.symbols.Declares var ty) (located : s.location? var = some l)
    (known : env.symbols.typeKind ty = .ok kind)
    (integer : kind = .integer w ∨ kind = .unsignedInteger w)
    (names : (plan e).value = valueOfVariable var) :
    fullOperand e env s = .ok (.reg s.next) (s.put (.int w) (.load · (.reg l.slot))) := by
  obtain ⟨rfl, -, kind', role, known', notVoid, shape, -⟩ := lodged.held declared located
  cases known.symm.trans known'
  have shape : l.shape = .value := by rcases integer with rfl | rfl <;> cases role <;> exact shape
  have plain : kind.isObject = false := by rcases integer with rfl | rfl <;> rfl
  have found : s.inScope.storage.lookup var = .ok l := Storage.lookup_ok.2 located
  have address : addressOfVariable var env s.inScope = .ok (.reg l.slot) s.inScope := by
    rw [addressOfVariable, get_bind, run_bind (run_answer found), shape]
    rfl
  have read : valueOfVariable var env s.inScope =
      .ok (some (.reg s.next)) (s.inScope.put (.int w) (.load · (.reg l.slot))) := by
    rw [valueOfVariable, get_bind, run_bind (run_answer found), run_bind address, shape]
    exact run_bind (loadValue_run known notVoid plain (codeType_integer known integer) _ _)
  refine withTemporaries_run
    (t := s.inScope.put (.int w) (.load · (.reg l.slot))) ?_ rfl
  rw [← names] at read
  exact run_bind read

/-- Throws of a literal and of a variable that holds its value. The literal is stored as its number,
and the variable as the number of its bits with a sign. These are the same code unless the type is
unsigned and narrower than a status, and the value has its highest bit set. -/
theorem throw_codes_agree_iff (reached : s.Reached env.symbols)
    (declared : env.symbols.Declares var ty) (located : s.location? var = some l)
    (known : env.symbols.typeKind ty = .ok kind)
    (integer : kind = .integer w ∨ kind = .unsignedInteger w)
    (spelled : value.integer? = some v) (holds : (numeric kind).Holds w v)
    (names : e = .localVariable ty var ∨ e = .parameter ty var) :
    ∃ t u, lowerThrow (.literal ty value) env s = .ok () t ∧ lowerThrow e env s = .ok () u ∧
      ∀ m : Memory, m.slots l.slot = .ofInt w v →
        s.SetsStatus t m (.ofInt .w32 v) ∧
        s.SetsStatus u m (.ofInt .w32 (BitVec.ofInt w.bits v).toInt) ∧
        ((∃ code, s.SetsStatus t m code ∧ s.SetsStatus u m code) ↔
          ¬ (kind = .unsignedInteger w ∧ w.bits < 32 ∧ 2 ^ (w.bits - 1) ≤ v)) := by
  have code := codeType_integer known integer
  have loads : (plan e).value = valueOfVariable var := by
    rcases names with rfl | rfl <;> (rw [plan]; rfl)
  have evaluated := fullOperand_variable reached.lodged declared located known integer loads
  obtain ⟨t, literal, ⟨codes, -⟩, -⟩ :=
    lowerThrow_codes (w := w) (fullOperand_literal code spelled) rfl
  obtain ⟨u, named, ⟨codes', -⟩, later⟩ := lowerThrow_codes evaluated (s.put_type _ _)
  refine ⟨t, u, literal, named, fun m held => ?_⟩
  have first : s.SetsStatus t m (.ofInt .w32 v) := by
    obtain ⟨number, same, sets⟩ :=
      codes.setsStatus (append_nil _).symm (n := m) rfl (a := .ofInt w v) rfl rfl
    cases same
    exact sets
  have second : s.SetsStatus u m (.ofInt .w32 (BitVec.ofInt w.bits v).toInt) := by
    have ran : m.run u.draft.registers [.load s.next (.reg l.slot)] =
        some (m.put s.next (.ofInt w v)) := by
      have typed : u.draft.registers[s.next.index]? = some (.int w) :=
        later.draft.operandType? (s.put_type (.int w) (.load · (.reg l.slot)))
      refine Memory.run_cons ?_
      rw [Memory.step, held]
      exact if_pos typed
    have word : (Operand.reg s.next).word? (m.put s.next (.ofInt w v)).registers =
        some (.ofInt w v) := congrArg some (if_pos rfl)
    obtain ⟨number, same, sets⟩ := codes'.setsStatus (s := s) (by simp [State.put]) ran word rfl
    rw [Operand.number?_of_word (x := .reg s.next) (by simp) word] at same
    cases same
    exact sets
  refine ⟨first, second, ?_⟩
  have kinds : numeric kind = .unsigned ↔ kind = .unsignedInteger w := by
    rcases integer with rfl | rfl <;> simp [numeric]
  rw [← kinds, ← Word.status_toInt_iff holds]
  constructor
  · rintro ⟨code, here, there⟩
    have same : Word.ofInt .w32 v = .ofInt .w32 (BitVec.ofInt w.bits v).toInt :=
      (first.unique here).trans (there.unique second)
    injection same
  · intro same
    have same : Word.ofInt .w32 v = .ofInt .w32 (BitVec.ofInt w.bits v).toInt :=
      congrArg (Word.mk .w32) same
    exact ⟨_, first, same ▸ second⟩

section Example

def byteSymbols : SymbolTable where
  types := #[.void, .unsignedInteger .w8]
  functions := #[]
  vars := #[⟨"x", ⟨1⟩⟩]

def byteEnv : Env :=
  .start byteSymbols (.plain "main" ⟨0⟩) .default ⟨[]⟩

def byteMain : Ast.Function := ⟨⟨0⟩, [], [⟨0⟩], [], false, false⟩

/-- `throw 200` stores 200, and `throw x` of a byte that is 200 stores -56. -/
theorem byte_codes_differ : ∃ l t u,
    (State.entering byteEnv byteMain).location? ⟨0⟩ = some l ∧
    lowerThrow (.literal ⟨1⟩ (.unsigned 200)) byteEnv (.entering byteEnv byteMain) = .ok () t ∧
    lowerThrow (.localVariable ⟨1⟩ ⟨0⟩) byteEnv (.entering byteEnv byteMain) = .ok () u ∧
    ∀ m : Memory, m.slots l.slot = .ofInt .w8 200 →
      (State.entering byteEnv byteMain).SetsStatus t m (.ofInt .w32 200) ∧
      (State.entering byteEnv byteMain).SetsStatus u m (.ofInt .w32 (-56)) ∧
      ¬ ∃ code, (State.entering byteEnv byteMain).SetsStatus t m code ∧
        (State.entering byteEnv byteMain).SetsStatus u m code := by
  have reached : (State.entering byteEnv byteMain).Reached byteSymbols :=
    State.reached_entering byteEnv byteMain (by decide +kernel)
  have known : ((State.entering byteEnv byteMain).location? ⟨0⟩).isSome := by decide +kernel
  obtain ⟨l, located⟩ := Option.isSome_iff_exists.1 known
  have declared : byteEnv.symbols.Declares ⟨0⟩ ⟨1⟩ := ⟨_, _, rfl, rfl, rfl, nofun⟩
  have spelled : (Literal.unsigned 200).integer? = some 200 := rfl
  have holds : (numeric (.unsignedInteger .w8)).Holds .w8 200 := ⟨by decide, by decide⟩
  obtain ⟨t, u, literal, named, stores⟩ := throw_codes_agree_iff reached declared located rfl
    (.inr rfl) spelled holds (.inl rfl)
  refine ⟨l, t, u, located, literal, named, fun m held => ?_⟩
  obtain ⟨first, second, agree⟩ := stores m held
  exact ⟨first, second, fun same => agree.1 same ⟨rfl, by decide, by decide⟩⟩

end Example
end Codes
end Lower
end FlatCode
