import Mathlib.Data.List.Forall2
import Mathlib.Data.List.Nodup
import FlatCode.Proofs.Folding.Value

/-! Folding is sound. Where an expression folds, its code calculates what it folds to. -/
namespace FlatCode
open Code Symbols Ast Lower List
variable {f : FunctionId} {op : Operator} {p : Plan}

namespace Lower
variable {table : SymbolTable} {env : Env} {s : State} {E : Error → Prop} {ty : TypeId}

theorem call_operator (h : env.symbols.StandsFor f op) (object : Option Operand)
    (arguments : List Plan) (isVirtual : Bool) (ty : TypeId) :
    call f object arguments isVirtual ty env s = applyOperator op object arguments ty env s := by
  obtain ⟨symbol, found, operator⟩ := h
  change EStateM.bind (answer (env.symbols.functionSymbol f)) _ s = _
  rw [found]
  cases symbol
  dsimp only at operator
  subst operator
  rfl

theorem applyOperator_values {ps : List Plan} (arity : ps.length + 1 = op.arity)
    (values : op ≠ .assign) (ty : TypeId) :
    applyOperator op none (p :: ps) ty = (do
      let operands ← (p :: ps).mapM Plan.operand
      let plain ← plainType p.ty
      let kind ← typeKind plain
      emitOperator op p.ty kind ty operands) := by
  have operands : operatorOperands op none (p :: ps) = (p :: ps).mapM Plan.operand := by
    unfold operatorOperands
    split
    · exact absurd rfl values
    · simp
  unfold applyOperator
  rw [if_neg (by simp [arity]), operands]

end Lower

namespace Calculator
variable {table : SymbolTable} {env : Env} {s t : State} {k : TypeKind}

theorem Gives.operand {x : Word} (h : Gives table p.value x) (henv : env.symbols = table) :
    Ends (fun _ => False) (fun z t => Calculates s [z] [x] t) (p.operand env s) := by
  refine (h henv).seq ?_
  rintro _ t ⟨z, rfl, calculates⟩
  exact .ret calculates

theorem Gives.operands : ∀ {ps : List Plan} {xs : List Word},
    List.Forall₂ (fun p x => Gives table p.value x) ps xs → env.symbols = table → ∀ s,
    Ends (fun _ => False) (fun zs t => zs.length = xs.length ∧ Calculates s zs xs t)
      (ps.mapM Plan.operand env s)
  | [], [], _, _, s => ⟨rfl, .nil s⟩
  | p :: ps, x :: xs, .cons h hs, henv, s => by
    rw [mapM_cons]
    refine (h.operand henv).seq fun z t first => ?_
    refine (Gives.operands hs henv t).seq fun zs u ⟨length, rest⟩ => .ret ⟨?_, first.append rest⟩
    rw [length_cons, length_cons, length]

def Results (s : State) (x : Word) (r : EStateM.Result Error State (Option Operand)) : Prop :=
  Ends (fun _ => False) (fun y t => ∃ z, y = some z ∧ Calculates s [z] [x] t) r

theorem Gives.operator {ps : List Plan} {xs : List Word} {x : Word} {ty : TypeId}
    (stands : table.StandsFor f op) (arity : ps.length + 1 = op.arity) (values : op ≠ .assign)
    (hk : table.typeKind p.ty = .ok k) (plain : k.IsPlain)
    (given : List.Forall₂ (fun p x => Gives table p.value x) (p :: ps) xs)
    (applied : ∀ ⦃env s zs t⦄, env.symbols = table → zs.length = xs.length → Calculates s zs xs t →
      Results s x (emitOperator op p.ty k ty zs env t)) :
    Gives table (call f none (p :: ps) false ty) x := by
  intro env s henv
  subst henv
  rw [call_operator stands, applyOperator_values arity values]
  refine (Gives.operands given rfl s).seq fun zs t ⟨length, calculates⟩ => ?_
  refine .told (SymbolTable.plainType_of_plain hk plain) ?_
  refine .told hk ?_
  exact applied rfl length calculates

section Operators
variable {x y : Word} {z z' : Operand} {ty : TypeId} {w v : IntWidth}
  {k kind : TypeKind} {m n : Int}

theorem Results.of_operand {step : LowerM Operand}
    (h : Ends (fun _ => False) (fun z u => Calculates s [z] [x] u) (step env t)) :
    Results s x ((do return some (← step) : LowerM (Option Operand)) env t) :=
  h.seq fun z _ calculates => .ret ⟨z, rfl, calculates⟩

theorem emitUnary_calculates (h : Calculates s [z] [x] t) (op : UnaryOp) :
    Ends (fun _ => False) (fun r u => Calculates s [r] [x.unary op] u)
      (emitUnary op (.int (x.unary op).width) z env t) := by
  refine (put_run _ fun r => .unary op r z).mono ?_
  rintro _ _ ⟨rfl, rfl⟩
  refine h.put _ rfl fun types registers words typed => ?_
  have operand : z.word? registers = some x := by simpa using words
  simp [Instr.calculates?, operand]

theorem emitBinary_calculates (h : Calculates s [z, z'] [x, y] t) {op : BinaryOp} {kind : Numeric}
    {r : Word} (result : x.binary op kind y = some r)
    (code : env.symbols.codeType ty = .ok (.int r.width)) :
    Ends (fun _ => False) (fun o u => Calculates s [o] [r] u)
      (emitBinary op kind ty z z' env t) := by
  refine .told code ?_
  refine (put_run _ fun r => .binary op kind r z z').mono ?_
  rintro _ _ ⟨rfl, rfl⟩
  refine h.put _ rfl fun types registers words typed => ?_
  have operands : z.word? registers = some x ∧ z'.word? registers = some y := by simpa using words
  simp [Instr.calculates?, operands, result]

theorem emitCompare_calculates (h : Calculates s [z, z'] [x, y] t) {predicate : Predicate}
    {kind : Numeric} {value : Bool} (result : x.compare predicate kind y = some (.ofBool value)) :
    Ends (fun _ => False) (fun o u => Calculates s [o] [.ofBool value] u)
      (emitCompare predicate kind z z' env t) := by
  refine (put_run _ fun r => .compare predicate kind r z z').mono ?_
  rintro _ _ ⟨rfl, rfl⟩
  refine h.put _ rfl fun types registers words typed => ?_
  have operands : z.word? registers = some x ∧ z'.word? registers = some y := by simpa using words
  simp [Instr.calculates?, operands, result]

theorem scalar_word (hw : k.wordWidth? = some w) :
    scalar? k = some (.integer (numeric k = .signed) w) := by
  cases k <;> cases hw <;> rfl

theorem plain_word (hw : k.wordWidth? = some w) : k.IsPlain := by
  rintro inner rfl
  cases hw

theorem cast_conversion (hn : (numeric k).Holds w n) (different : w ≠ v) (signed : Bool) :
    ∃ cast, conversion (.integer (numeric k = .signed) w) (.integer signed v) = .cast cast ∧
      (Word.ofInt w n).cast cast v = some (.ofInt v n) := by
  have bytes : w.bytes ≠ v.bytes := fun same =>
    different (by cases w <;> cases v <;> simp_all [IntWidth.bytes])
  unfold conversion
  dsimp only
  by_cases wider : w.bytes < v.bytes
  · have bits : w.bits < v.bits := by unfold IntWidth.bits; omega
    rw [if_pos wider]
    cases hs : numeric k with
    | signed => exact ⟨.signExtend, rfl, Word.cast_signExtend bits (hs ▸ hn)⟩
    | unsigned => exact ⟨.zeroExtend, rfl, Word.cast_zeroExtend bits (hs ▸ hn)⟩
    | float => exact absurd hs hn.ne_float
  · have bits : v.bits < w.bits := by unfold IntWidth.bits; omega
    rw [if_neg wider, if_pos (by omega)]
    exact ⟨.truncate, rfl, Word.cast_truncate bits n⟩

def Converts (z : Operand) (x y : Word) (s : State) (r : EStateM.Result Error State Operand) :
    Prop :=
  Ends (fun _ => False) (fun o t => o = z ∧ t = s ∧ x = y ∨
    ∃ i : Register → Instr, o = .reg s.next ∧ t = s.put (.int y.width) i ∧
      (i s.next).placed? = none ∧ ∀ types registers, z.word? registers = some x →
        types[s.next.index]? = some (.int y.width) →
          (i s.next).calculates? types registers = some (s.next, y)) r

theorem Converts.calculates {r : EStateM.Result Error State Operand} (c : Converts z x y t r)
    (h : Calculates s [z] [x] t) : Ends (fun _ => False) (fun o u => Calculates s [o] [y] u) r := by
  refine c.mono ?_
  rintro _ _ (⟨rfl, rfl, rfl⟩ | ⟨i, rfl, rfl, placed, result⟩)
  · exact h
  · exact h.put i placed fun types registers words => result types registers (by simpa using words)

theorem convert_number {source target : TypeId}
    (hk : env.symbols.typeKind source = .ok k) (hkind : env.symbols.typeKind target = .ok kind)
    (hw : k.wordWidth? = some w) (hv : kind.wordWidth? = some v) (hn : (numeric k).Holds w n)
    (number : kind = .bool → k = .bool) :
    Converts z (.ofInt w n) (.ofInt v n) t (convert z source target env t) := by
  refine .told (SymbolTable.plainType_of_plain hk (plain_word hw)) ?_
  refine .told (SymbolTable.plainType_of_plain hkind (plain_word hv)) ?_
  refine .told hk ?_
  refine .told hkind ?_
  rw [if_neg (fun both => both.2 (number both.1))]
  refine .told (SymbolTable.codeType_word hkind hv) ?_
  refine .told (SymbolTable.codeType_word hk hw) ?_
  by_cases same : w = v
  · subst same
    rw [if_pos rfl]
    exact .inl ⟨rfl, rfl, rfl⟩
  · obtain ⟨cast, how, result⟩ := cast_conversion hn same (numeric kind = .signed)
    rw [if_neg (fun he => same (Ty.int.inj he)), scalar_word hw, scalar_word hv]
    dsimp only
    rw [how]
    refine (put_run _ fun r => .cast cast r z).mono fun _ _ ⟨fresh, written⟩ =>
      .inr ⟨_, fresh, written, rfl, fun types registers operand typed => ?_⟩
    simp [Instr.calculates?, operand, result, typed]

theorem convert_truth {source target : TypeId}
    (hk : env.symbols.typeKind source = .ok k) (hkind : env.symbols.typeKind target = .ok .bool)
    (hw : k.wordWidth? = some w) (hn : (numeric k).Holds w n) (number : k ≠ .bool) :
    Converts z (.ofInt w n) (.ofBool (n ≠ 0)) t (convert z source target env t) := by
  refine .told (SymbolTable.plainType_of_plain hk (plain_word hw)) ?_
  refine .told (SymbolTable.plainType_of_plain hkind nofun) ?_
  refine .told hk ?_
  refine .told hkind ?_
  rw [if_pos ⟨rfl, number⟩]
  refine .told (SymbolTable.codeType_word hk hw) ?_
  refine (put_run _ fun r => .compare .ne (numeric k) r z (Imm.int 0 w)).mono
    fun _ _ ⟨fresh, written⟩ =>
      .inr ⟨_, fresh, written, rfl, fun types registers operand typed => ?_⟩
  have zero : (Operand.imm (.int 0 w)).word? registers = some (.ofInt w 0) := rfl
  have result : (Word.ofInt w n).compare .ne (numeric k) (.ofInt w 0) = some (.ofBool (n ≠ 0)) :=
    Fold.compare_agrees hn hn.zero (show Operator.notEquals.predicate? = some .ne from rfl) rfl
  simp only [Instr.calculates?, operand, zero, result, Option.bind_eq_bind, Option.bind_some,
    Option.pure_def]

def converted (kind : TypeKind) (v : IntWidth) (n : Int) : Word :=
  if kind = .bool then .ofBool (n ≠ 0) else .ofInt v n

theorem convert_converts {source target : TypeId}
    (hk : env.symbols.typeKind source = .ok k) (hkind : env.symbols.typeKind target = .ok kind)
    (hw : k.wordWidth? = some w) (hv : kind.wordWidth? = some v) (hn : (numeric k).Holds w n)
    (truth : k = .bool → n = 0 ∨ n = 1) :
    Converts z (.ofInt w n) (converted kind v n) t (convert z source target env t) := by
  unfold converted
  split
  · subst kind
    by_cases number : k = .bool
    · have same : Word.ofBool (n ≠ 0) = .ofInt v n := by
        cases hv
        obtain rfl | rfl := truth number <;> rfl
      rw [same]
      exact convert_number hk hkind hw hv hn fun _ => number
    · exact convert_truth hk hkind hw hn number
  · exact convert_number hk hkind hw hv hn fun isBool => absurd isBool ‹_›

theorem converted_width (hv : kind.wordWidth? = some v) : (converted kind v n).width = v := by
  unfold converted
  split
  · subst kind
    cases hv
    rfl
  · rfl

theorem converted_bits : ((converted kind v n).bits.toNat : Int) =
    if kind = .bool then (if n = 0 then 0 else 1) else n % 2 ^ v.bits := by
  by_cases truth : kind = .bool
  · subst truth
    by_cases zero : n = 0
    · subst zero
      rfl
    · have one : converted .bool v n = .ofBool true := by simp [converted, zero]
      rw [one, if_pos rfl, if_neg zero]
      rfl
  · have same : converted kind v n = .ofInt v n := if_neg truth
    have pos : (0 : Int) < 2 ^ v.bits := Int.pow_pos (by decide)
    have nonneg := Int.emod_nonneg n (Int.ne_of_gt pos)
    rw [same, if_neg truth, Word.ofInt, BitVec.toNat_ofInt]
    exact_mod_cast Int.toNat_of_nonneg nonneg

theorem read_converted (hn : (numeric kind).Holds v n)
    (truth : kind = .bool → n = 0 ∨ n = 1) : (converted kind v n).read (numeric kind) = n := by
  unfold converted
  split
  · subst kind
    obtain rfl | rfl := truth rfl <;> rfl
  · exact Word.read_ofInt hn

/-- A conversion between truth values, characters and integers is always written, and its code, run
with the bits of a value in its operand, leaves zero or one where the target is a truth value, and
the value modulo the width of the target otherwise. What the target can hold keeps its value. -/
theorem convert_keeps_residue {source target : TypeId} (z : Operand) (s : State)
    (hk : env.symbols.typeKind source = .ok k) (hkind : env.symbols.typeKind target = .ok kind)
    (hw : k.wordWidth? = some w) (hv : kind.wordWidth? = some v) (hn : (numeric k).Holds w n)
    (truth : k = .bool → n = 0 ∨ n = 1) :
    ∃ o t added, convert z source target env s = .ok o t ∧ t.draft.body = s.draft.body ++ added ∧
      ∃ word : Word, word.width = v ∧
        (word.bits.toNat : Int) = (if kind = .bool then (if n = 0 then 0 else 1)
          else n % 2 ^ v.bits) ∧
        ((numeric kind).Holds v n → (kind = .bool → n = 0 ∨ n = 1) →
          word.read (numeric kind) = n) ∧
        ∀ registers : Registers, z.word? registers = some (.ofInt w n) →
          ∃ m, Reaches added t.draft.registers ⟨0, registers⟩ m ∧ m.place = added.size ∧
            o.word? m.registers = some word := by
  obtain ⟨o, t, run, shape⟩ :=
    (convert_converts (z := z) (t := s) hk hkind hw hv hn truth).exists_ok
  obtain ⟨added, body, runs⟩ : ∃ added, t.draft.body = s.draft.body ++ added ∧
      ∀ registers : Registers, z.word? registers = some (.ofInt w n) →
        ∃ m, Reaches added t.draft.registers ⟨0, registers⟩ m ∧ m.place = added.size ∧
          o.word? m.registers = some (converted kind v n) := by
    rcases shape with ⟨rfl, rfl, same⟩ | ⟨i, rfl, rfl, -, result⟩
    · exact ⟨#[], by simp, fun registers operand => ⟨_, .refl _, rfl, same ▸ operand⟩⟩
    · refine ⟨#[i s.next], by simp [State.put], fun registers operand => ?_⟩
      have typed : (s.put (.int (converted kind v n).width) i).draft.registers[s.next.index]? =
          some (.int (converted kind v n).width) := by simp [State.put, State.next]
      exact ⟨_, .of_step (step_calculates rfl (result _ registers operand typed) typed), rfl,
        congrArg some (Config.put_same _ _ _)⟩
  exact ⟨o, t, added, run, body, _, converted_width hv, converted_bits, read_converted, runs⟩

end Operators

section Fold
variable {x y : Word} {z z' : Operand} {ty operandTy : TypeId} {w v : IntWidth}
  {k kind : TypeKind} {c d d' : Const} {op : Operator} {context : String}

theorem emitOperator_unary (h : Calculates s [z] [.ofInt w (Fold.integer d)] t)
    (hk : env.symbols.typeKind operandTy = .ok k) (hkind : env.symbols.typeKind ty = .ok kind)
    (hw : k.wordWidth? = some w) (hv : kind.wordWidth? = some v) (fits : d.Fits k)
    (yields : op.Yields k kind) (folds : Fold.unary env.symbols context ty op d = .ok c) :
    Results s (.ofInt v (Fold.integer c)) (emitOperator op operandTy k ty [z] env t) := by
  obtain ⟨w', hw', hn⟩ := fits.holds
  obtain rfl : w = w' := Option.some.inj (hw.symm.trans hw')
  cases op with
  | unaryPlus =>
    cases folds
    obtain rfl : kind = k := yields
    obtain rfl : w = v := Option.some.inj (hw.symm.trans hv)
    exact ⟨z, rfl, h⟩
  | negate =>
    obtain rfl : kind = k := yields
    obtain rfl : w = v := Option.some.inj (hw.symm.trans hv)
    obtain ⟨rfl, -⟩ := Fold.negate_ok hkind fits.plain folds
    refine .told (SymbolTable.codeType_word hkind hv) ?_
    rw [Fold.integer, ← Word.unary_negate]
    exact Results.of_operand (emitUnary_calculates h .negate)
  | logicalNot =>
    obtain rfl : kind = .bool := yields
    cases hv
    cases d with
    | int n => cases folds
    | bool b =>
      cases folds
      obtain rfl : k = .bool := fits
      cases hw
      have negated : Word.ofInt .w8 (Fold.integer (.bool !b)) = (Word.ofBool b).unary .not :=
        (Word.unary_not b).symm
      rw [negated]
      exact .of_operand (emitUnary_calculates h .not)
  | convert =>
    refine .of_operand ?_
    rcases Fold.convert_ok hkind (plain_word hv) folds with ⟨rfl, rfl⟩ | ⟨rfl, has⟩
    · cases hv
      by_cases number : k = .bool
      · cases d with
        | int n =>
          subst number
          obtain ⟨_, bounds, -⟩ := fits
          cases bounds
        | bool b =>
          have same : Fold.integer (.bool (Fold.integer (.bool b) ≠ 0)) =
              Fold.integer (.bool b) := by
            cases b <;> rfl
          rw [same]
          exact (convert_number hk hkind hw rfl hn fun _ => number).calculates h
      · exact (convert_truth hk hkind hw hn number).calculates h
    · refine (convert_number hk hkind hw hv hn fun isBool => ?_).calculates h
      subst isBool
      obtain ⟨_, bounds, -⟩ := has
      cases bounds
  | _ => cases folds

theorem emitOperator_compare {predicate : Predicate} (h : op.predicate? = some predicate) :
    emitOperator op operandTy k ty [z, z'] =
      (do return some (← emitCompare predicate (numeric k) z z')) := by
  cases op <;> cases h <;> rfl

theorem emitOperator_arithmetic {binary : BinaryOp} (h : op.binary? = some binary)
    (hw : k.wordWidth? = some w) : emitOperator op operandTy k ty [z, z'] =
      (do return some (← emitBinary binary (numeric k) ty z z')) := by
  have number : isPointer k = false := by cases k <;> cases hw <;> rfl
  cases op <;> cases h <;> simp [emitOperator, number, Operator.predicate?, Operator.binary?]

theorem emitOperator_binary
    (h : Calculates s [z, z'] [.ofInt w (Fold.integer d), .ofInt w (Fold.integer d')] t)
    (hkind : env.symbols.typeKind ty = .ok kind) (hw : k.wordWidth? = some w)
    (hv : kind.wordWidth? = some v) (fits : d.Fits k) (fits' : d'.Fits k)
    (yields : op.Yields k kind)
    (folds : Fold.binary env.symbols context ty op (Fold.integer d) (Fold.integer d') = .ok c) :
    Results s (.ofInt v (Fold.integer c)) (emitOperator op operandTy k ty [z, z'] env t) := by
  obtain ⟨w', hw', hn⟩ := fits.holds
  obtain rfl : w = w' := Option.some.inj (hw.symm.trans hw')
  obtain ⟨w', hw', hn'⟩ := fits'.holds
  obtain rfl : w = w' := Option.some.inj (hw.symm.trans hw')
  unfold Fold.binary at folds
  cases compares : Fold.compare? op (Fold.integer d) (Fold.integer d') with
  | some value =>
    rw [compares] at folds
    cases folds
    obtain ⟨comparison, predicate, hp⟩ := Fold.compare?_some compares
    obtain rfl : kind = .bool := (if_pos (.inr comparison)).mp yields
    cases hv
    rw [emitOperator_compare hp]
    exact .of_operand (emitCompare_calculates h (Fold.compare_agrees hn hn' hp compares))
  | none =>
    rw [compares] at folds
    cases calculates : Fold.arithmetic context op (Fold.integer d) (Fold.integer d') with
    | error _ =>
      rw [calculates] at folds
      cases folds
    | ok n =>
      rw [calculates] at folds
      obtain ⟨noPredicate, ⟨binary, hb⟩, same⟩ := Fold.arithmetic_ok calculates
      obtain rfl := same k kind yields
      obtain rfl : w = v := Option.some.inj (hw.symm.trans hv)
      obtain ⟨rfl, has⟩ := Fold.fit_ok hkind fits.plain folds
      obtain ⟨w', hw', hr⟩ := has.holds
      obtain rfl : w = w' := Option.some.inj (hw.symm.trans hw')
      rw [emitOperator_arithmetic hb hw]
      exact .of_operand (emitBinary_calculates h (Fold.arithmetic_agrees hn hn' hr hb calculates)
        (SymbolTable.codeType_word hkind hv))

end Fold

section Whole
variable {w : IntWidth} {kind : TypeKind} {c : Const} {e : Expr} {value : Literal} {ty : TypeId}

theorem literal_gives (hk : table.typeKind ty = .ok kind) (hw : kind.wordWidth? = some w)
    (fits : value.Fits kind) (folds : Fold.literal value = .ok c) :
    Gives table (plan (.literal ty value)).value (.ofInt w (Fold.integer c)) := by
  intro env s henv
  subst henv
  have word : (value.toImm (.int w)).word? = some (.ofInt w (Fold.integer c)) := by
    cases value with
    | bool b =>
      cases folds
      obtain rfl : kind = .bool := fits
      cases hw
      rfl
    | char | signed | unsigned =>
      cases folds
      rfl
    | float | null => cases folds
  refine .told (SymbolTable.codeType_word hk hw) ?_
  exact ⟨_, rfl, .imm s word⟩

theorem ofJump_gives {jump : LowerM Branches} {b : Bool} (hp : plan e = .ofJump e jump)
    (known : e.fold table = .ok (.bool b)) :
    Gives table (plan e).value (.ofInt .w8 (Fold.integer (.bool b))) := by
  have announces : Announces table (plan e).jump (e.truth? table) := plan_announces e
  rw [Expr.truth?_eq_some.2 known, hp] at announces
  obtain ⟨count, settled⟩ := announces
  rw [hp]
  exact .materialize settled

theorem plan_ty (e : Expr) : (plan e).ty = e.ty := by
  cases e <;> (rw [plan]; rfl)

theorem unary_gives {operand : Expr} {d : Const} {v : IntWidth} {context : String}
    (hkind : table.typeKind ty = .ok kind) (stands : table.StandsFor f op)
    (typed : table.Typed operand k) (yields : op.Yields k kind) (hd : operand.fold table = .ok d)
    (hv : k.wordWidth? = some v) (hw : kind.wordWidth? = some w)
    (given : Gives table (plan operand).value (.ofInt v (Fold.integer d)))
    (folds : Fold.unary table context ty op d = .ok c) :
    Gives table (call f none [plan operand] false ty) (.ofInt w (Fold.integer c)) := by
  have shape : op.arity = 1 ∧ op ≠ .assign := by
    cases op with
    | negate | unaryPlus | logicalNot | convert => exact ⟨rfl, nofun⟩
    | _ => cases folds
  have fits := typed.fits hd
  have hk : table.typeKind (plan operand).ty = .ok k := (plan_ty operand).symm ▸ typed.typeKind
  refine Gives.operator stands shape.1.symm shape.2 hk fits.plain (.cons given .nil) ?_
  intro env s zs t henv length calculates
  subst henv
  obtain ⟨z, rfl⟩ := length_eq_one_iff.1 length
  exact emitOperator_unary calculates hk hkind hv hw fits yields folds

theorem binary_gives {lhs rhs : Expr} {d d' : Const} {v : IntWidth} {context : String}
    (hkind : table.typeKind ty = .ok kind) (stands : table.StandsFor f op)
    (left : table.Typed lhs k) (right : table.Typed rhs k) (yields : op.Yields k kind)
    (hd : lhs.fold table = .ok d) (hd' : rhs.fold table = .ok d') (hv : k.wordWidth? = some v)
    (hw : kind.wordWidth? = some w)
    (given : Gives table (plan lhs).value (.ofInt v (Fold.integer d)))
    (given' : Gives table (plan rhs).value (.ofInt v (Fold.integer d')))
    (folds : Fold.binary table context ty op (Fold.integer d) (Fold.integer d') = .ok c) :
    Gives table (call f none [plan lhs, plan rhs] false ty) (.ofInt w (Fold.integer c)) := by
  have shape : op.arity = 2 ∧ op ≠ .assign := by
    cases op with
    | negate | unaryPlus | complement | logicalNot | convert | defaultConstruct | assign =>
      cases folds
    | _ => exact ⟨rfl, nofun⟩
  have fits := left.fits hd
  have hk : table.typeKind (plan lhs).ty = .ok k := (plan_ty lhs).symm ▸ left.typeKind
  refine Gives.operator stands shape.1.symm shape.2 hk fits.plain
    (.cons given (.cons given' .nil)) ?_
  intro env s zs t henv length calculates
  subst henv
  obtain ⟨z, z', rfl⟩ := length_eq_two.1 length
  exact emitOperator_binary calculates hkind hv hw fits (right.fits hd') yields folds

theorem typed_gives (typed : table.Typed e kind) (folds : e.fold table = .ok c)
    (hw : kind.wordWidth? = some w) : Gives table (plan e).value (.ofInt w (Fold.integer c)) := by
  induction typed generalizing c w with
  | literal hk fits => exact literal_gives hk hw fits folds
  | unary hk stands operand yields ih =>
    obtain ⟨d, hd, result⟩ := Expr.fold_unary stands folds
    obtain ⟨v, hv, -⟩ := (operand.fits hd).holds
    exact unary_gives hk stands operand yields hd hv hw (ih hd hv) result
  | conversion hk stands operand yields ih =>
    obtain ⟨d, hd, result⟩ := Expr.fold_conversion stands folds
    obtain ⟨v, hv, -⟩ := (operand.fits hd).holds
    exact unary_gives hk stands operand yields hd hv hw (ih hd hv) result
  | binary hk stands lhs rhs yields ihl ihr =>
    obtain ⟨d, d', hd, hd', result⟩ := Expr.fold_binary stands folds
    obtain ⟨v, hv, -⟩ := (lhs.fits hd).holds
    exact binary_gives hk stands lhs rhs yields hd hd' hv hw (ihl hd hv) (ihr hd' hv) result
  | conjunction =>
    obtain ⟨b, rfl⟩ := Expr.fold_conjunction folds
    cases hw
    exact ofJump_gives rfl folds
  | disjunction =>
    obtain ⟨b, rfl⟩ := Expr.fold_disjunction folds
    cases hw
    exact ofJump_gives rfl folds

theorem Frame.holds_self {added : List Instr} {registers : Array Ty}
    (distinct : (added.filterMap Instr.placed?).Nodup) :
    (Frame.mk added.toArray registers).Holds 0 added registers := by
  refine ⟨fun k i hi => by simpa using hi, fun k l hl => ?_, fun _ _ h => h⟩
  change Array.findIdx? _ _ = _
  rw [Array.findIdx?_eq_some_iff_getElem]
  obtain ⟨lt, here⟩ := List.getElem?_eq_some_iff.1 hl
  refine ⟨by simpa using lt, by simp [here], fun j hj => ?_⟩
  simp only [getElem_toArray, decide_eq_true_eq]
  intro there
  have same := Draft.index_unique distinct (b := l)
    ((getElem?_eq_getElem (by omega)).trans (congrArg some there)) hl rfl rfl
  omega

/-- The code of the expression is written from this state on, and run from its beginning with any
registers it comes to its end with a word of the type of the expression that reads as the value. -/
def Computes (table : SymbolTable) (env : Env) (s : State) (e : Expr) (kind : TypeKind)
    (value : Int) : Prop :=
  ∃ x t added, (plan e).value env s = .ok (some x) t ∧ t.draft.body = s.draft.body ++ added ∧
    ∀ registers : Registers, ∃ m word, Reaches added t.draft.registers ⟨0, registers⟩ m ∧
      m.place = added.size ∧ x.word? m.registers = some word ∧
      table.codeType e.ty = .ok (.int word.width) ∧ word.read (numeric kind) = value

/-- Folding is sound: the code of an expression that folds computes the value that was folded. -/
theorem fold_sound (typed : table.Typed e kind) (folds : e.fold table = .ok c)
    (henv : env.symbols = table) (s : State) :
    Computes table env s e kind (Fold.integer c) := by
  obtain ⟨w, hw, hn⟩ := (typed.fits folds).holds
  obtain ⟨_, t, run, x, rfl, added, appends, -, runs⟩ :=
    (typed_gives typed folds hw henv (s := s)).exists_ok
  obtain ⟨count, -, placed⟩ := appends.labels
  have distinct : (added.filterMap Instr.placed?).Nodup := by
    rw [placed]
    exact (nodup_range' 1).map fun _ _ same => Label.mk.inj same
  refine ⟨x, t, added.toArray, run, appends.body, fun registers => ?_⟩
  obtain ⟨m, reaches, place, -, words⟩ := runs _ ⟨0, registers⟩ (Frame.holds_self distinct)
  exact ⟨m, .ofInt w (Fold.integer c), reaches, by simpa using place, by simpa using words,
    SymbolTable.codeType_word typed.typeKind hw, Word.read_ofInt hn⟩

end Whole

section Example

def sumSymbols : SymbolTable where
  types := #[.void, .bool, .integer .w8, .integer .w64]
  functions := #[.plain "!" ⟨1⟩ (some .logicalNot), .plain "<" ⟨1⟩ (some .lessThan),
    .plain "/" ⟨2⟩ (some .divide), .plain "*" ⟨3⟩ (some .multiply),
    .plain "long" ⟨3⟩ (some .convert)]
  vars := #[]

def sumEnv : Env :=
  .start sumSymbols (.plain "main" ⟨0⟩) .default ⟨[]⟩

/-- `-100 / 7`, in eight bits -/
def quotient : Expr := .binary ⟨2⟩ ⟨2⟩ (.literal ⟨2⟩ (.signed (-100))) (.literal ⟨2⟩ (.signed 7))

/-- `-1 < 1 && !false` -/
def ordered : Expr :=
  .conjunction ⟨1⟩ (.binary ⟨1⟩ ⟨1⟩ (.literal ⟨2⟩ (.signed (-1))) (.literal ⟨2⟩ (.signed 1)))
    (.unary ⟨1⟩ ⟨0⟩ (.literal ⟨1⟩ (.bool false)))

/-- `long(-100 / 7) * long(-1 < 1 && !false)` -/
def product : Expr := .binary ⟨3⟩ ⟨3⟩ (.conversion ⟨3⟩ ⟨4⟩ quotient) (.conversion ⟨3⟩ ⟨4⟩ ordered)

theorem byte_typed {value : Int64} (least : -128 ≤ value.toInt) (largest : value.toInt ≤ 127) :
    sumSymbols.Typed (.literal ⟨2⟩ (.signed value)) (.integer .w8) :=
  .literal rfl ⟨_, rfl, _, rfl, least, largest⟩

theorem product_typed : sumSymbols.Typed product (.integer .w64) := by
  have quotient : sumSymbols.Typed quotient (.integer .w8) :=
    .binary rfl ⟨_, rfl, rfl⟩ (byte_typed (by decide) (by decide))
      (byte_typed (by decide) (by decide)) rfl
  have ordered : sumSymbols.Typed ordered .bool :=
    .conjunction rfl
      (.binary rfl ⟨_, rfl, rfl⟩ (byte_typed (by decide) (by decide))
        (byte_typed (by decide) (by decide)) rfl)
      (.unary rfl ⟨_, rfl, rfl⟩ (.literal rfl rfl) rfl)
  exact .binary rfl ⟨_, rfl, rfl⟩ (.conversion rfl ⟨_, rfl, rfl⟩ quotient nofun)
    (.conversion rfl ⟨_, rfl, rfl⟩ ordered nofun) rfl

theorem product_calculated : product.fold sumSymbols = .ok (.int (-14)) ∧
    Computes sumSymbols sumEnv .empty product (.integer .w64) (-14) := by
  have folds : product.fold sumSymbols = .ok (.int (-14)) := by decide +kernel
  exact ⟨folds, fold_sound product_typed folds (show sumEnv.symbols = sumSymbols from rfl) .empty⟩

/-- A byte with its top bit set, at 64 bits. -/
theorem byte_widened : Numeric.signed.Holds .w8 (-100) ∧
    ∃ o t added, convert (.reg ⟨0⟩) ⟨2⟩ ⟨3⟩ sumEnv .empty = .ok o t ∧
      t.draft.body = State.empty.draft.body ++ added ∧
      ∃ word : Word, word.width = .w64 ∧ (word.bits.toNat : Int) = 2 ^ 64 - 100 ∧
        word.read .signed = -100 ∧
        ∀ registers : Registers, (Operand.reg ⟨0⟩).word? registers = some (.ofInt .w8 (-100)) →
          ∃ m, Reaches added t.draft.registers ⟨0, registers⟩ m ∧ m.place = added.size ∧
            o.word? m.registers = some word := by
  have fits : Numeric.signed.Holds .w8 (-100) := ⟨by decide, by decide⟩
  obtain ⟨o, t, added, run, body, word, width, bits, kept, runs⟩ :=
    convert_keeps_residue (.reg ⟨0⟩) .empty
      (show sumEnv.symbols.typeKind ⟨2⟩ = .ok (.integer .w8) from rfl)
      (show sumEnv.symbols.typeKind ⟨3⟩ = .ok (.integer .w64) from rfl) rfl rfl fits nofun
  exact ⟨fits, o, t, added, run, body, word, width, bits.trans (by decide),
    kept ⟨by decide, by decide⟩ nofun, runs⟩

end Example
end Calculator
end FlatCode
