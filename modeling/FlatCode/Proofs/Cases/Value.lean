import Mathlib.Algebra.Group.Nat.Defs
import Mathlib.Order.Monotone.Basic
import FlatCode.Proofs.Cases.Map
import FlatCode.Proofs.Folding.Value
import FlatCode.Proofs.Visit.Spots

/-! What case constants stand for. Cases are told apart by how their constants are spelled, and
compared as values of the type of the condition. The two agree for constants of that very type; a
constant of another kind, one that does not fit or a negative zero can be a second spelling of a
value that another case has. -/
namespace FlatCode
open Code Symbols Ast Array

namespace Binary64

/-- The number of units that a width keeps of a magnitude. Single precision has 24 digits, none
below 2^-149, and ends at 2^128. -/
def rounded (u : Nat) : FloatWidth → Nat
  | .w64 => u
  | .w32 =>
    let step := Nat.pow 2 (max 925 (u.log2 - 23))
    let twice := 2 * (u % step)
    let up := step < twice || (step = twice && u / step % 2 = 1)
    min (Nat.pow 2 1202) ((u / step + if up then 1 else 0) * step)

/-- The number that a float of a width is equal to, unless it is none. Both zeros are the same. -/
def numberAs (w : FloatWidth) (x : Binary64) : Option Int :=
  if x.isNaN then none
  else some (if x.isNegative then -rounded (units x.magnitude) w else rounded (units x.magnitude) w)

/-- The width keeps the number, and it is not the second zero. -/
def IsExact (w : FloatWidth) (x : Binary64) : Prop :=
  rounded (units x.magnitude) w = units x.magnitude ∧ (x.isNegative → x.magnitude ≠ 0)

theorem units_strictMono : StrictMono units := by
  refine strictMono_nat_of_lt_succ fun m => ?_
  have power : Nat.pow 2 52 = 4503599627370496 := rfl
  simp only [units, power]
  split
  · split <;> rename_i small _
    · omega
    · obtain rfl : m = 4503599627370495 := by omega
      decide
  · rename_i large
    rw [if_neg (by omega)]
    by_cases carry : (m + 1) % 4503599627370496 = 0
    · -- the next power of two
      obtain ⟨e, he⟩ : ∃ e, m / 4503599627370496 = e + 1 := ⟨m / 4503599627370496 - 1, by omega⟩
      have next : (m + 1) / 4503599627370496 = e + 2 := by omega
      rw [carry, next, he, Nat.add_sub_cancel]
      change _ * 2 ^ e < _ * 2 ^ (e + 1)
      rw [Nat.pow_succ, ← Nat.mul_assoc, Nat.mul_right_comm]
      exact Nat.mul_lt_mul_of_pos_right (by omega) (Nat.two_pow_pos e)
    · have same : (m + 1) / 4503599627370496 = m / 4503599627370496 := by omega
      rw [same]
      exact Nat.mul_lt_mul_of_pos_right (by omega) (Nat.two_pow_pos _)

theorem toNat_bits (x : Binary64) :
    x.bits.toNat = x.magnitude + if x.isNegative then 2 ^ 63 else 0 := by
  have bound : x.bits.toNat < 2 ^ 64 := x.bits.toNat_lt
  have power : Nat.pow 2 63 = 9223372036854775808 := rfl
  simp only [magnitude, isNegative, power, decide_eq_true_eq]
  split <;> omega

theorem numberAs_inj {w : FloatWidth} {x y : Binary64} {n : Int} (hx : x.IsExact w)
    (hy : y.IsExact w) (nx : x.numberAs w = some n) (ny : y.numberAs w = some n) : x = y := by
  simp only [numberAs, hx.1, hy.1] at nx ny
  split at nx
  · cases nx
  split at ny
  · cases ny
  have number := (Option.some.inj nx).trans (Option.some.inj ny).symm
  have zero {m : Nat} (h : units m = 0) : m = 0 := units_strictMono.injective (h.trans (by decide))
  have magnitude : x.magnitude = y.magnitude ∧ x.isNegative = y.isNegative := by
    cases sx : x.isNegative <;> cases sy : y.isNegative <;> simp only [sx, sy] at number
    case false.true | true.false =>
      have none : units x.magnitude = 0 ∧ units y.magnitude = 0 := by
        simp only [if_true, Bool.false_eq_true, if_false] at number
        omega
      simp [sx, sy, IsExact, zero none.1, zero none.2] at hx hy
    all_goals
      refine ⟨units_strictMono.injective ?_, rfl⟩
      simp only [if_true, Bool.false_eq_true, if_false] at number
      omega
  have bits : x.bits.toNat = y.bits.toNat := by
    rw [toNat_bits, toNat_bits, magnitude.1, magnitude.2]
  cases x
  cases y
  exact congrArg mk (UInt64.toNat_inj.1 bits)

end Binary64

def Code.Imm.valueAs : Ty → Imm → Option Int
  | .int w, .int n _ | .ptr _, .int n w => some (w.pattern n)
  | .int _, .bool b => some b.toNat
  | .float w, .float x _ => x.numberAs w
  | .ptr _, .null => some 0
  | _, _ => none

namespace Ast.Literal

def IsOf : TypeKind → Literal → Prop
  | .bool, .bool _ | .char, .char _ => True
  | .integer w, .signed n => Numeric.signed.Holds w n.toInt
  | .integer w, .unsigned n => Numeric.signed.Holds w n.toNat
  | .unsignedInteger w, .signed n => Numeric.unsigned.Holds w n.toInt
  | .unsignedInteger w, .unsigned n => Numeric.unsigned.Holds w n.toNat
  | .float w, .float x => x.IsExact w
  | .pointer _, .null | .reference _, .null | .functionPointer, .null => True
  | _, _ => False

def Meets (ty : Ty) (a b : Literal) : Prop :=
  ∃ v, (a.toImm ty).valueAs ty = some v ∧ (b.toImm ty).valueAs ty = some v

end Ast.Literal

namespace Ast.Literal
variable {table : SymbolTable} {t : TypeId} {kind : TypeKind} {ty : Ty} {a b : Literal}

theorem eq_of_pattern {w : IntWidth} {read : Numeric} {m n : Int} (hm : read.Holds w m)
    (hn : read.Holds w n) (h : (w.pattern m : Int) = w.pattern n) : m = n :=
  (Word.ofInt_inj hm hn).1 (IntWidth.pattern_inj.1 (Int.ofNat.inj h))

/-- Two spellings of one value are not both of the type of the condition. -/
theorem key_eq_of_meets (kind_eq : table.typeKind t = .ok kind) (typed : table.codeType t = .ok ty)
    (ha : a.IsOf kind) (hb : b.IsOf kind) (meets : a.Meets ty b) : a.key = b.key := by
  obtain ⟨v, va, vb⟩ := meets
  have same := va.trans vb.symm
  simp only [SymbolTable.codeType, SymbolTable.codeTypeWithin, kind_eq, bind, Except.bind, pure,
    Except.pure] at typed
  cases kind with
  | bool =>
    cases typed
    cases a <;> try exact ha.elim
    cases b <;> try exact hb.elim
    rename_i a b
    cases a <;> cases b <;> first | rfl | cases same
  | char =>
    cases typed
    cases a <;> try exact ha.elim
    cases b <;> try exact hb.elim
    rename_i a b
    have holds (c : Char) : Numeric.unsigned.Holds .w32 c.toNat :=
      ⟨Int.natCast_nonneg _, Int.ofNat_lt.2 c.val.toNat_lt⟩
    have code := eq_of_pattern (holds a) (holds b) (Option.some.inj same)
    rw [Char.toNat_inj.1 (Int.ofNat_inj.1 code)]
  | integer w | unsignedInteger w =>
    cases typed
    cases a <;> try exact ha.elim
    all_goals cases b <;> try exact hb.elim
    all_goals
      dsimp only [IsOf] at ha hb
      exact congrArg Int.repr (eq_of_pattern ha hb (Option.some.inj same))
  | float w =>
    cases typed
    cases a <;> try exact ha.elim
    cases b <;> try exact hb.elim
    rw [Binary64.numberAs_inj ha hb va vb]
  | void | classType _ => exact ha.elim
  | pointer _ | reference _ | functionPointer =>
    cases a <;> try exact ha.elim
    cases b <;> try exact hb.elim
    rfl

end Ast.Literal

namespace CaseMap
variable {clauses : List Clause} {d d' : Draft} {m : CaseMap} {labels : List Label}

theorem values_of_build (run : build clauses d = .ok (m, labels) d') :
    m.cases.map CaseTarget.value = clauses.flatMap Clause.values := by
  obtain ⟨-, length, cases, -⟩ := (buildFrom_entries clauses empty 0 d).of_ok run
  dsimp only at length cases
  rw [cases]
  exact entries_values 0 clauses labels length

end CaseMap

open Lower

/-- The cases of a jump are the constants of a switch, as values of the type of its condition. -/
def Chooses (table : SymbolTable) (e : Expr) (clauses : List Clause) (cases : List (Imm × Label)) :
    Prop :=
  ∃ ty, table.codeType e.ty = .ok ty ∧
    cases.map Prod.fst = (clauses.flatMap Clause.values).map (Literal.toImm ty) ∧
    ((clauses.flatMap Clause.values).map Literal.key).Nodup

def Draft.Switches (table : SymbolTable) (may : Effect → Prop) (d : Draft) : Prop :=
  ∀ ⦃value cases default⦄, .switch value cases default ∈ d.body →
    ∃ e clauses, may (.choose e clauses) ∧ Chooses table e clauses cases

theorem Draft.Trace.mem_switch {d d' : Draft} (h : d.Trace d') {value : Operand}
    {cases : List (Imm × Label)} {default : Label} (there : .switch value cases default ∈ d'.body) :
    .switch value cases default ∈ d.body := by
  induction h with
  | refl | label => exact there
  | trans _ _ h k => exact h (k there)
  | push d plain =>
    rcases mem_push.1 there with old | rfl
    · exact old
    · cases plain
  | @aim d b _ l =>
    obtain ⟨k, hk⟩ := mem_iff_getElem?.1 there
    rw [getElem?_modify] at hk
    split at hk
    · obtain ⟨i, hi, aimed⟩ := Option.map_eq_some_iff.1 hk
      have same : i = .switch value cases default := by
        cases e : b.edge <;> rw [e] at aimed <;> cases i <;> first | exact aimed | cases aimed
      exact mem_of_getElem? (same ▸ hi)
    · exact mem_of_getElem? hk

theorem Lower.State.Trace.switches {table : SymbolTable} {may : Effect → Prop} {s t : State}
    (h : s.Trace table may t) {goal : Effect → Prop} (within : ∀ x, may x → x = .owe ∨ goal x)
    (before : s.draft.Switches table goal) : t.draft.Switches table goal := by
  induction h with
  | refl | note | owe | name | compound => exact before
  | trans _ _ h k => exact k within (h within before)
  | straight h =>
    intro value cases default there
    obtain ⟨added, body, straight⟩ := h.body
    rw [body] at there
    rcases mem_append.1 there with old | new
    · exact before old
    · exact absurd (straight _ new) (by simp [Instr.isInline, Instr.isStraight])
  | edit h => exact fun _ _ _ there => before (h.mem_switch there)
  | scope _ h => exact h (fun x hx => hx.elim .inl (within x)) before
  | comment =>
    intro value cases default there
    rcases mem_push.1 there with old | new
    · exact before old
    · cases new
  | choose s allowed built typed value past =>
    intro value cases default there
    rcases mem_push.1 there with old | new
    · exact before old
    · cases new
      refine ⟨_, _, (within _ allowed).resolve_left nofun, _, typed, ?_, ?_⟩
      · rw [← CaseMap.values_of_build built, List.map_map, List.map_map]
        rfl
      · exact (CaseMap.distinct_of_build built).1

theorem Lower.lowerAll_switches (f : Ast.Function) (env : Env) : Ensures
    (fun _ t => t.draft.Switches env.symbols fun x =>
      ∀ e clauses, x = .choose e clauses → .switch e clauses ∈ stmtsOf (walk f.body))
    (lowerAll f env .empty) := by
  let may : Effect → Prop := fun x =>
    ∀ e clauses, x = .choose e clauses → .switch e clauses ∈ stmtsOf (walk f.body)
  have allows : Allows may (Stmt.walkAll 1 f.body) := by
    refine ⟨nofun, nofun, nofun, fun depth e clauses mem => ?_⟩
    rintro _ _ ⟨⟩
    exact List.mem_filterMap.2 ⟨_, List.mem_cons_of_mem _ mem, rfl⟩
  exact lowerAll_keeps f (fun _ _ _ there => nomatch there) allows
    (fun s t trace => trace.switches fun _ => .inr) fun s h => h

/-- The cases of every multiway jump in the code of a function are the constants of a switch of its
body, with no spelling twice. Two of them that are the same value of the type of the condition are
not both constants of that type. -/
theorem lowerFunction_spells_cases {symbols : SymbolTable} {options : Options} {f : Ast.Function}
    {code : Code.Function} (h : lowerFunction symbols options f = .ok code) {value : Operand}
    {cases : List (Imm × Label)} {default : Label}
    (there : .switch value cases default ∈ code.instrs) :
    ∃ e clauses kind ty, .switch e clauses ∈ stmtsOf (walk f.body) ∧
      symbols.typeKind e.ty = .ok kind ∧ symbols.codeType e.ty = .ok ty ∧
      cases.map Prod.fst = (clauses.flatMap Clause.values).map (Literal.toImm ty) ∧
      (clauses.flatMap Clause.values).Pairwise fun a b => a.key ≠ b.key ∧
        (a.Meets ty b → ¬ (a.IsOf kind ∧ b.IsOf kind)) := by
  obtain ⟨symbol, labels, t, -, -, run⟩ := lowerFunction_run h
  obtain ⟨-, finished, setup⟩ := (lowerAll_closed f rfl rfl).of_ok run
  rw [finished.instrs] at there
  have written : .switch value cases default ∈ t.draft.body := by
    refine (mem_append.1 there).resolve_left fun entry => ?_
    cases setup _ entry
  obtain ⟨e, clauses, source, ty, typed, constants, nodup⟩ :=
    (lowerAll_switches f _).of_ok run written
  obtain ⟨kind, known⟩ : ∃ kind, symbols.typeKind e.ty = .ok kind := by
    cases known : symbols.typeKind e.ty with
    | ok kind => exact ⟨kind, rfl⟩
    | error =>
      simp [SymbolTable.codeType, SymbolTable.codeTypeWithin, known, Env.start, bind,
        Except.bind] at typed
  refine ⟨e, clauses, kind, ty, source e clauses rfl, known, typed, constants, ?_⟩
  refine (List.pairwise_map.1 nodup).imp fun differ => ⟨differ, fun meets own => ?_⟩
  exact differ (Literal.key_eq_of_meets known typed own.1 own.2 meets)

section Example

def letterSymbols : SymbolTable where
  types := #[.void, .char]
  functions := #[.plain "next" ⟨1⟩, .plain "main" ⟨0⟩]
  vars := #[]

/-- `switch (next()) { case 'A': ; case 65: ; }` -/
def letterSwitch : Ast.Function :=
  ⟨⟨1⟩, [], [], [.switch (.call ⟨1⟩ ⟨0⟩ [] false)
    [.mk (.case [.char 'A']) [], .mk (.case [.signed 65]) []]], false, false⟩

/-- The second case is the value of the first, and a number is no constant of characters. -/
theorem letterSwitch_spelled : ∃ code value cases default,
    lowerFunction letterSymbols .default letterSwitch = .ok code ∧
    .switch value cases default ∈ code.instrs ∧
    cases.map Prod.fst = [.int 65 .w32, .int 65 .w32] ∧
    (Literal.char 'A').Meets (.int .w32) (.signed 65) ∧ ¬ (Literal.signed 65).IsOf .char := by
  have run : (lowerFunction letterSymbols .default letterSwitch).toOption.map (·.instrs.toList) =
      some [.call (.direct "next") [] (some ⟨0⟩), .switch (.reg ⟨0⟩)
        [(.int 65 .w32, ⟨0⟩), (.int 65 .w32, ⟨1⟩)] ⟨2⟩, .label ⟨0⟩, .label ⟨1⟩, .label ⟨2⟩,
        .ret none] := by
    decide +kernel
  obtain ⟨code, ok, instrs⟩ := Option.map_eq_some_iff.1 run
  have lowered : lowerFunction letterSymbols .default letterSwitch = .ok code := by
    cases h : lowerFunction letterSymbols .default letterSwitch <;> rw [h] at ok <;> cases ok
    rfl
  have there : .switch (.reg ⟨0⟩) [(.int 65 .w32, ⟨0⟩), (.int 65 .w32, ⟨1⟩)] ⟨2⟩ ∈ code.instrs := by
    rw [← mem_toList_iff, instrs]
    simp
  obtain ⟨e, clauses, kind, ty, source, known, typed, -, spelled⟩ :=
    lowerFunction_spells_cases lowered there
  cases List.mem_singleton.1 (source : _ ∈ [_])
  cases known
  cases typed
  have meets : (Literal.char 'A').Meets (.int .w32) (.signed 65) := ⟨65, rfl, rfl⟩
  refine ⟨code, _, _, _, lowered, there, rfl, meets, fun own => ?_⟩
  exact (List.rel_of_pairwise_cons spelled List.mem_cons_self).2 meets ⟨trivial, own⟩

end Example

end FlatCode
