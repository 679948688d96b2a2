import FlatCode.Proofs.Convention
import FlatCode.Proofs.Folding.Sound
import FlatCode.Proofs.Typing.Reference

/-! What operators give. An operator hands its first operand on as it is, or writes a register whose
type is told by the types of the tree. -/
namespace FlatCode
open Code Symbols Ast

def Code.Ty.brief : Ty → Ty
  | .ptr ty => .ptr ty.brief
  | .struct (some name) _ => .named name
  | ty => ty

def Code.Ty.isPtr : Ty → Bool
  | .ptr _ => true
  | _ => false

theorem Code.Ty.isPtr_brief (ty : Ty) : ty.brief.isPtr = ty.isPtr := by
  unfold brief
  split <;> rfl

namespace Draft
variable {d d' : Draft} {x : Operand} {a b ty : Ty}

/-- A class and the struct of its name count as one type. -/
def HasType (d : Draft) (x : Operand) (ty : Ty) : Prop :=
  (d.operandType? x).map Ty.brief = some ty.brief

/-- The operand has the type, or is the null pointer where an address is asked for. -/
def Fits (d : Draft) (x : Operand) (ty : Ty) : Prop :=
  d.operandType? x = some ty ∨ x = .imm .null ∧ ty.isPtr

theorem Fits.later (h : d.Fits x ty) (later : d.Later d') : d'.Fits x ty :=
  h.imp_left later.operandType?

theorem Fits.hasType_iff (h : d.Fits x a) :
    (x = .imm .null ∨ d.HasType x b) ↔ (x = .imm .null ∨ a.brief = b.brief) := by
  refine or_congr_right' fun notNull => ?_
  rw [HasType, h.resolve_right fun null => notNull null.1, Option.map_some, Option.some_inj]

theorem Fits.hasType_plain (h : d.Fits x a) (plain : b.isPtr = false) :
    d.HasType x b ↔ a.brief = b.brief := by
  rcases h with typed | ⟨rfl, address⟩
  · rw [HasType, typed, Option.map_some, Option.some_inj]
  · refine iff_of_false nofun fun same => ?_
    rw [← b.isPtr_brief, ← same, a.isPtr_brief, address] at plain
    cases plain

end Draft

def Operator.isArithmetic (op : Operator) : Bool :=
  op.binary?.isSome || op = .negate || op = .complement

theorem Operator.isComparison_of_predicate {op : Operator} {predicate : Predicate}
    (h : op.predicate? = some predicate) : op.isComparison := by
  cases op <;> first | rfl | cases h

namespace Symbols.SymbolTable

def Idle (table : SymbolTable) (source target : TypeId) : Prop :=
  ∃ s t k k' c, table.plainType source = .ok s ∧ table.plainType target = .ok t ∧
    table.typeKind s = .ok k ∧ table.typeKind t = .ok k' ∧ (k' = .bool → k = .bool) ∧
    table.codeType s = .ok c ∧ table.codeType t = .ok c

/-- The type of the register that an operator writes, where its first operand has the type `source`
and its value the type `ty`. -/
inductive Writes (table : SymbolTable) (op : Operator) (source ty : TypeId) : Ty → Prop
  | converted {plain : TypeId} {c : Ty} (h : op = .convert) (busy : ¬ table.Idle source ty)
    (target : table.plainType ty = .ok plain) (code : table.codeType plain = .ok c) :
    Writes table op source ty c
  | truth (h : op = .logicalNot ∨ op.isComparison) : Writes table op source ty .bool
  | number {c : Ty} (h : op.isArithmetic) (code : table.codeType ty = .ok c) :
    Writes table op source ty c

end Symbols.SymbolTable

namespace Lower
variable {env : Env} {s t u : State} {table : SymbolTable} {op : Operator} {source ty : TypeId}
  {kind : TypeKind} {c : Ty} {x y : Operand} {operands : List Operand}

/-- What an operator gives for some operands. -/
inductive Applied (table : SymbolTable) (op : Operator) (source ty : TypeId) (t : State) :
    List Operand → Operand → Prop
  | handed {x : Operand} {rest : List Operand}
    (h : op = .assign ∨ op = .unaryPlus ∨ op = .convert ∧ table.Idle source ty) :
    Applied table op source ty t (x :: rest) x
  | written {operands : List Operand} {x : Operand} {c : Ty} (h : table.Writes op source ty c)
    (typed : t.draft.operandType? x = some c) : Applied table op source ty t operands x

theorem put_applied {i : Register → Instr} (h : env.symbols.Writes op source ty c) :
    Ensures (fun x t => Applied env.symbols op source ty t operands x) ((do
      let r ← Draft.newRegister c
      emit (i r)
      return .reg r : LowerM Operand) env s) := by
  refine (put_run c i).mono ?_
  rintro _ _ ⟨rfl, rfl⟩
  exact .written h (s.put_type c i)

theorem conversion_keep {represent : TypeId → Ty → Prop} {k : TypeKind} {a b : Scalar} {c d : Ty}
    (first : scalar? k = some a) (second : scalar? kind = some b) (keep : conversion a b = .keep)
    (hc : table.Represents represent k c) (hd : table.Represents represent kind d) : c = d := by
  have integer {k : TypeKind} {signed : Bool} {w : IntWidth} {c : Ty}
      (h : scalar? k = some (.integer signed w)) (r : table.Represents represent k c) :
      c = .int w := by
    cases r <;> cases h <;> rfl
  cases a <;> cases b <;> simp only [conversion, reduceCtorEq] at keep
  rename_i _ v _ w
  rw [integer first hc, integer second hd]
  cases v <;> cases w <;> first | rfl | cases keep

theorem convert_applied (x : Operand) (source ty : TypeId) :
    Ensures (fun y t => Applied env.symbols .convert source ty t [x] y)
      (convert x source ty env s) := by
  refine Ends.asked fun src plainSource => Ends.asked fun dst plainTarget => ?_
  refine Ends.asked fun sourceKind hs => Ends.asked fun targetKind ht => ?_
  split
  · rename_i tested
    have busy : ¬ env.symbols.Idle source ty := by
      rintro ⟨_, _, _, _, _, plain, plain', known, known', truth, -⟩
      cases plainSource.symm.trans plain
      cases plainTarget.symm.trans plain'
      cases hs.symm.trans known
      cases ht.symm.trans known'
      exact tested.2 (truth tested.1)
    refine Ends.asked fun c code => ?_
    cases Imm.zero? c with
    | none => exact Ends.fail trivial
    | some zero =>
      refine put_applied (.converted rfl busy plainTarget ?_)
      exact SymbolTable.codeType_iff.2 ⟨_, ht, tested.1 ▸ .bool⟩
  · rename_i untested
    refine Ends.asked fun c code => Ends.asked fun c' code' => ?_
    split
    · rename_i same
      refine Ends.ret (.handed
        (.inr (.inr ⟨rfl, src, dst, _, _, c, plainSource, plainTarget, hs, ht,
        fun truth => ?_, same ▸ code', code⟩)))
      simpa [truth] using untested
    · rename_i differs
      have busy : ¬ env.symbols.Idle source ty := by
        rintro ⟨_, _, _, _, d, plain, plain', -, -, -, first, second⟩
        cases plainSource.symm.trans plain
        cases plainTarget.symm.trans plain'
        cases code.symm.trans second
        cases code'.symm.trans first
        exact differs rfl
      cases first : scalar? sourceKind with
      | none => exact Ends.fail trivial
      | some a =>
        cases second : scalar? targetKind with
        | none => exact Ends.fail trivial
        | some b =>
          dsimp only
          cases how : conversion a b with
          | keep =>
            obtain ⟨k, known, r⟩ := SymbolTable.codeType_iff.1 code
            obtain ⟨k', known', r'⟩ := SymbolTable.codeType_iff.1 code'
            cases hs.symm.trans known'
            cases ht.symm.trans known
            exact absurd (conversion_keep first second how r' r) differs
          | cast kind =>
            exact put_applied (.converted rfl busy plainTarget code)
          | impossible => exact Ends.fail trivial

def Hands (op : Operator) (source ty : TypeId) (operands : List Operand)
    (m : LowerM (Option Operand)) : Prop :=
  ∀ env s, Ensures (fun r t => ∀ x, r = some x → Applied env.symbols op source ty t operands x)
    (m env s)

namespace Hands

theorem fail (e : Error) : Hands op source ty operands (throw e) := fun _ _ => Ends.fail trivial

theorem none (m : LowerM Unit) : Hands op source ty operands (do m; return none) :=
  fun _ _ => (Ends.any _).seq fun _ _ _ => Ends.ret nofun

theorem some {m : LowerM Operand}
    (h : ∀ env s,
      Ensures (fun x t => Applied env.symbols op source ty t operands x) (m env s)) :
    Hands op source ty operands (do return .some (← m)) := by
  intro env s
  refine (h env s).seq fun x u applied => Ends.ret ?_
  rintro _ ⟨⟩
  exact applied

theorem unary (h : op.isArithmetic) (how : UnaryOp) (x : Operand) :
    Hands op source ty [x] (do return .some (← emitUnary how (← codeType ty) x)) := by
  rw [← bind_assoc]
  exact .some fun env s => Ends.asked fun c code => put_applied (.number h code)

end Hands

theorem emitElement_applied (h : op = .add ∨ op = .subtract) (base index : Operand) (env : Env)
    (s : State) : Ensures (fun x t => Applied env.symbols op source ty t operands x)
      (emitElement op ty base index env s) := by
  unfold emitElement
  dsimp only
  have number : op.isArithmetic := by rcases h with rfl | rfl <;> rfl
  split
  · refine Ends.look (Ends.known (t := s.put _ (.unary .negate · index)) rfl ?_)
    exact Ends.asked fun c code => .written (.number number code) Array.getElem?_push_size
  · exact Ends.asked fun c code => put_applied (.number number code)

theorem emitOperator_hands (op : Operator) (source : TypeId) (kind : TypeKind) (ty : TypeId)
    (operands : List Operand) :
    Hands op source ty operands (emitOperator op source kind ty operands) := by
  unfold emitOperator
  dsimp only
  split
  · exact .none _
  · exact .none _
  · rintro env s _ ⟨⟩
    exact .handed (.inl rfl)
  · rintro env s _ ⟨⟩
    exact .handed (.inr (.inl rfl))
  · exact .unary rfl .negate _
  · exact .unary rfl .complement _
  · exact .some fun env s => put_applied (.truth (.inl rfl))
  · exact .some fun env s => convert_applied _ _ _
  · split
    · rename_i moved
      exact .some (emitElement_applied moved.1 _ _)
    · split
      · rename_i compares
        have comparison := Operator.isComparison_of_predicate compares
        exact .some fun env s => put_applied (.truth (.inr comparison))
      · rename_i calculates
        have number : op.isArithmetic := by simp [Operator.isArithmetic, calculates]
        exact .some fun env s => Ends.asked fun c code => put_applied (.number number code)
      · exact .fail _
  · exact .fail _

end Lower
end FlatCode
