import FlatCode.Proofs.Wire.Spelling

/-! Programs are read as they are written. What has been read from some text opens no more brackets
when it is written than the text did, but for lists that may be left out: the fields of classes and
the locals of functions, which stand far from the limit. -/
namespace FlatCode

namespace Wire
open Symbols Ast List

section Nesting

variable {write : α → Json} {n : Nat} {v : Json}

/-- What is read with `n` brackets can be written with `n` brackets. -/
def Nests (D : Decoder α) (write : α → Json) (n : Nat) : Prop :=
  ∀ v a, D n v = some a → (write a).depth ≤ n

theorem exists_of_mapM {decode : Json → Option α} {vs : List Json} {as : List α}
    (h : vs.mapM decode = some as) : ∀ a ∈ as, ∃ v, decode v = some a := by
  induction vs generalizing as with
  | nil =>
    cases h
    simp
  | cons v vs ih =>
    simp only [mapM_cons, Option.bind_eq_bind, Option.bind_eq_some_iff] at h
    obtain ⟨b, hb, bs, hbs, same⟩ := h
    cases same
    exact forall_mem_cons.2 ⟨⟨v, hb⟩, ih hbs⟩

theorem exprs_eq_map (es : List Expr) : Encode.exprs es = es.map Encode.expr := by
  induction es with
  | nil => rfl
  | cons e es ih => simp [Encode.exprs, ih]

theorem stmts_eq_map (ss : List Stmt) : Encode.stmts ss = ss.map Encode.stmt := by
  induction ss with
  | nil => rfl
  | cons s ss ih => simp [Encode.stmts, ih]

theorem depth_literal (l : Literal) : (Encode.literal l).depth ≤ 1 := by
  cases l <;> simp [Encode.literal]

theorem clauses_eq_map (cs : List Clause) : Encode.clauses cs = cs.map Encode.clause := by
  induction cs with
  | nil => rfl
  | cons c cs ih =>
    cases c
    rw [Encode.clauses, ih]
    rfl

theorem elements_nest {decode : Decoder α} (h : Nests decode write n) {vs : List Json} {as : List α}
    (read : vs.mapM (decode n) = some as) :
    (Json.array (as.map write)).depth ≤ n + 1 := by
  rw [Json.depth_array, Nat.succ_le_succ_iff, Json.elementDepth_le]
  refine forall_mem_map.2 fun a ha => ?_
  obtain ⟨v, hv⟩ := exists_of_mapM read a ha
  exact h v a hv

theorem list_nests {D : Decoder (List α)} {decode : Decoder α} (h : ∀ m < n, Nests decode write m)
    (reads : ∀ n v, D n v = listOf decode n v := by intro n v; cases n <;> cases v <;> rfl) :
    Nests D (Encode.listOf write) n := by
  intro v as read
  rw [reads] at read
  unfold listOf at read
  split at read
  · exact elements_nest (h _ (by omega)) read
  · cases read

theorem variantOf_cases {plain : String → Option α} {withContent : Nat → String → Json → Option α}
    {a : α} (read : variantOf plain withContent n v = some a) :
    (∃ name, plain name = some a) ∨
      ∃ m name content, n = m + 1 ∧ withContent m name content = some a := by
  unfold variantOf at read
  split at read
  · exact .inl ⟨_, read⟩
  · rcases Option.or_eq_some_iff.1 read with full | ⟨-, null⟩
    · exact .inr ⟨_, _, _, rfl, full⟩
    · split at null
      · exact .inl ⟨_, null⟩
      · cases null
  · cases read

theorem literal_nests (n : Nat) : Nests literal Encode.literal n := by
  intro v l read
  rcases variantOf_cases read with ⟨name, plain⟩ | ⟨m, _, _, rfl, -⟩
  · split at plain <;> cases plain
    simp [Encode.literal]
  · exact Nat.le_trans (depth_literal l) (by omega)

theorem exprs_nests (h : ∀ m < n, Nests expr Encode.expr m) :
    Nests exprs (fun es => .array (Encode.exprs es)) n := by
  simp only [exprs_eq_map]
  exact list_nests h

@[simp] theorem depth_typed (ty : TypeId) (name : String) (content : Json) :
    (Encode.typed ty name content).depth = content.depth + 2 := by
  simp [Encode.typed]

theorem exprFields_nests (ty : TypeId) (name : String) (h : ∀ m < n, Nests expr Encode.expr m)
    {e : Expr} (read : exprFields ty name n v = some e) : (Encode.expr e).depth ≤ n + 2 := by
  unfold exprFields at read
  split at read
  · rename_i m
    have one := h m (by omega)
    have list := exprs_nests fun k (hk : k < m) => h k (by omega)
    split at read
    case h_9 => cases read
    all_goals
      simp only [Json.Record.required, Json.Record.defaulted, Option.bind_eq_bind,
        Option.bind_eq_some_iff, Option.some.injEq] at read
    case h_1 =>
      obtain ⟨_, -, object, ⟨_, -, ho⟩, _, -, rfl⟩ := read
      simpa [Encode.expr] using one _ _ ho
    case h_2 | h_3 =>
      obtain ⟨_, -, _, -, operand, ⟨_, -, ho⟩, rfl⟩ := read
      simpa [Encode.expr] using one _ _ ho
    case h_4 =>
      obtain ⟨_, -, _, -, lhs, ⟨_, -, hl⟩, rhs, ⟨_, -, hr⟩, rfl⟩ := read
      simpa [Encode.expr] using And.intro (one _ _ hl) (one _ _ hr)
    case h_5 =>
      obtain ⟨_, -, _, -, arguments, ⟨_, -, ha⟩, _, -, rfl⟩ := read
      simpa [Encode.expr] using list _ _ ha
    case h_6 | h_7 =>
      obtain ⟨_, -, lhs, ⟨_, -, hl⟩, rhs, ⟨_, -, hr⟩, rfl⟩ := read
      simpa [Encode.expr] using And.intro (one _ _ hl) (one _ _ hr)
    case h_8 =>
      obtain ⟨_, -, _, -, _, -, arguments, ⟨_, -, ha⟩, _, -, rfl⟩ := read
      simpa [Encode.expr] using list _ _ ha
  · cases read

theorem expr_nests (n : Nat) : Nests expr Encode.expr n := by
  induction n using Nat.strongRecOn with
  | _ n ih =>
    intro v e read
    obtain _ | _ | m := n
    · cases read
    · cases read
    · rw [expr] at read
      simp only [Option.bind_eq_bind, Option.bind_eq_some_iff] at read
      obtain ⟨r, -, ty, -, ⟨name, content⟩, -, w, -, read⟩ := read
      split at read
      case h_6 => exact exprFields_nests ty _ (fun k hk => ih k (by omega)) read
      all_goals obtain ⟨part, hp, rfl⟩ := Option.map_eq_some_iff.1 read
      case h_1 => simpa [Encode.expr] using literal_nests m _ part hp
      case h_2 | h_3 => simp [Encode.expr]
      case h_4 | h_5 => simpa [Encode.expr] using ih m (by omega) _ part hp

theorem clauseKind_nests (n : Nat) : Nests clauseKind Encode.clauseKind n := by
  intro v k read
  rcases variantOf_cases read with ⟨name, plain⟩ | ⟨m, name, content, rfl, full⟩
  · split at plain <;> cases plain
    simp [Encode.clauseKind]
  · split at full
    · obtain ⟨values, list, rfl⟩ := Option.map_eq_some_iff.1 full
      rw [Encode.clauseKind, depth_variant, Nat.succ_le_succ_iff]
      exact (list_nests fun k _ => literal_nests k) _ _ list
    · cases full

theorem decodeOptional_nests {D : Decoder α} (h : Nests D write n) {o : Option α}
    (read : Json.Record.decodeOptional (D n) v = some o) :
    (Json.optional write o).depth ≤ n := by
  unfold Json.Record.decodeOptional at read
  split at read
  · cases read
    simp [Json.optional]
  · obtain ⟨a, ha, rfl⟩ := Option.map_eq_some_iff.1 read
    exact h _ a ha

theorem depth_plainStmt {name : String} {s : Stmt} (h : plainStmt name = some s) :
    (Encode.stmt s).depth = 0 := by
  unfold plainStmt at h
  split at h <;> cases h <;> rfl

theorem stmts_nests (h : ∀ m < n, Nests stmt Encode.stmt m) :
    Nests stmts (fun ss => .array (Encode.stmts ss)) n := by
  simp only [stmts_eq_map]
  exact list_nests h

theorem clause_nests (h : ∀ m < n, Nests stmt Encode.stmt m) : Nests clause Encode.clause n := by
  intro v c read
  unfold clause at read
  split at read
  · rename_i m
    simp only [Json.Record.required, Option.bind_eq_bind, Option.bind_eq_some_iff,
      Option.some.injEq] at read
    obtain ⟨_, -, kind, ⟨_, -, hk⟩, body, ⟨_, -, hb⟩, rfl⟩ := read
    have list := stmts_nests fun k (hk : k < m) => h k (by omega)
    simpa [Encode.clause, Clause.kind, Clause.body] using
      And.intro (clauseKind_nests m _ _ hk) (list _ _ hb)
  · cases read

theorem clauses_nests (h : ∀ m < n, Nests stmt Encode.stmt m) :
    Nests clauses (fun cs => .array (Encode.clauses cs)) n := by
  simp only [clauses_eq_map]
  exact list_nests fun m hm => clause_nests fun k hk => h k (by omega)

theorem nullable_nests {D : Decoder α} (h : Nests D write n) {r : Json.Record} {name : String}
    {o : Option α} (read : r.nullable name (D n) = some o) :
    (Json.optional write o).depth ≤ n := by
  unfold Json.Record.nullable at read
  split at read
  · split at read <;> cases read
    simp [Json.optional]
  · exact decodeOptional_nests h read

theorem optionalStmt_eq (o : Option Stmt) :
    Encode.optionalStmt o = Json.optional Encode.stmt o := by
  cases o <;> rfl

theorem stmtFields_nests (name : String) (h : ∀ m < n, Nests stmt Encode.stmt m) {s : Stmt}
    (read : stmtFields name n v = some s) :
    (Encode.stmt s).depth ≤ n + 1 := by
  unfold stmtFields at read
  split at read
  · rename_i m
    have one := h m (by omega)
    have list := stmts_nests fun k (hk : k < m) => h k (by omega)
    have args := exprs_nests fun k (_ : k < m) => expr_nests k
    split at read
    case h_11 => cases read
    all_goals
      simp only [Json.Record.required, Option.bind_eq_bind, Option.bind_eq_some_iff,
        Option.some.injEq] at read
    · obtain ⟨_, -, _, -, _, -, arguments, ⟨_, -, ha⟩, rfl⟩ := read
      simpa [Encode.stmt] using args _ _ ha
    · obtain ⟨_, -, target, ⟨_, -, ht⟩, value, ⟨_, -, hv⟩, rfl⟩ := read
      simpa [Encode.stmt] using And.intro (expr_nests m _ _ ht) (expr_nests m _ _ hv)
    · obtain ⟨_, -, condition, ⟨_, -, hc⟩, then_, ⟨_, -, ht⟩, else_, he, rfl⟩ := read
      simpa [Encode.stmt, optionalStmt_eq] using
        And.intro (expr_nests m _ _ hc) (And.intro (one _ _ ht) (nullable_nests one he))
    · obtain ⟨_, -, condition, ⟨_, -, hc⟩, body, ⟨_, -, hb⟩, rfl⟩ := read
      simpa [Encode.stmt] using And.intro (expr_nests m _ _ hc) (one _ _ hb)
    · obtain ⟨_, -, body, ⟨_, -, hb⟩, condition, ⟨_, -, hc⟩, rfl⟩ := read
      simpa [Encode.stmt] using And.intro (one _ _ hb) (expr_nests m _ _ hc)
    · obtain ⟨_, -, init, hi, condition, hc, increment, hn, body, ⟨_, -, hb⟩, rfl⟩ := read
      have header := And.intro (nullable_nests (expr_nests m) hc) (nullable_nests (expr_nests m) hn)
      simpa [Encode.stmt, optionalStmt_eq, and_assoc] using
        And.intro (nullable_nests one hi) (And.intro header (one _ _ hb))
    · obtain ⟨_, -, condition, ⟨_, -, hc⟩, cs, ⟨_, -, hs⟩, rfl⟩ := read
      have all := clauses_nests fun k (hk : k < m) => h k (by omega)
      simpa [Encode.stmt] using And.intro (expr_nests m _ _ hc) (all _ _ hs)
    · obtain ⟨_, -, label, -, statement, ⟨_, -, hs⟩, rfl⟩ := read
      simpa [Encode.stmt] using one _ _ hs
    · obtain ⟨_, -, object, ⟨_, -, ho⟩, _, -, rfl⟩ := read
      simpa [Encode.stmt] using expr_nests m _ _ ho
    · obtain ⟨_, -, body, ⟨_, -, hb⟩, handler, ⟨_, -, hh⟩, rfl⟩ := read
      simpa [Encode.stmt, -Json.depth_array] using
        And.intro (list _ _ hb) (list _ _ hh)
  · cases read

theorem stmt_nests (n : Nat) : Nests stmt Encode.stmt n := by
  induction n using Nat.strongRecOn with
  | _ n ih =>
    intro v s read
    rw [stmt] at read
    split at read
    · cases read
    · rw [depth_plainStmt read]
      exact Nat.zero_le n
    · split at read
      · cases read
      · rename_i m
        split at read
        case h_7 =>
          split at read
          · rw [depth_plainStmt read]
            exact Nat.zero_le _
          · exact stmtFields_nests _ (fun k hk => ih k (by omega)) read
        all_goals obtain ⟨part, hp, rfl⟩ := Option.map_eq_some_iff.1 read
        case h_1 => simpa [Encode.stmt] using stmts_nests (fun k hk => ih k (by omega)) _ _ hp
        case h_2 | h_6 => simpa [Encode.stmt] using expr_nests m _ _ hp
        case h_3 => simpa [Encode.stmt] using decodeOptional_nests (expr_nests m) hp
        case h_4 => simp [Encode.stmt]
        case h_5 => simpa [Encode.stmt] using literal_nests m _ _ hp

theorem function_nests (n : Nat) : Nests function Encode.function n := by
  intro v f read
  unfold function recordOf at read
  split at read
  · rename_i m
    simp only [Json.Record.required, Option.bind_eq_bind, Option.bind_eq_some_iff,
      Option.some.injEq] at read
    obtain ⟨_, -, _, -, parameters, -, locals, -, body, ⟨_, -, hb⟩, _, -, _, -, rfl⟩ := read
    have list := stmts_nests (fun k _ => stmt_nests k) _ _ hb
    have flat := elementDepth_flat depth_variableId
    simp only [Json.depth_array] at list
    simp [Encode.function, flat]
    omega
  · cases read

theorem depth_typeKind (k : TypeKind) : (Encode.typeKind k).depth ≤ 3 := by
  cases k with
  | classType c =>
    simp [Encode.typeKind, Encode.classInfo, elementDepth_flat depth_typeId,
      depth_optional depth_typeId, depth_optional depth_functionId]
  | _ => simp [Encode.typeKind]

theorem depth_functionSymbol (f : FunctionSymbol) : (Encode.functionSymbol f).depth ≤ 3 := by
  simp [Encode.functionSymbol, depth_optional depth_typeId,
    depth_optional (fun op => Json.depth_ofText _), depth_optional (fun slot => Json.depth_ofNat _)]

theorem depth_symbolTable (s : SymbolTable) : (Encode.symbolTable s).depth ≤ 5 := by
  have types : Json.elementDepth (s.types.toList.map Encode.typeKind) ≤ 3 :=
    Json.elementDepth_le.2 (forall_mem_map.2 fun k _ => depth_typeKind k)
  have functions : Json.elementDepth (s.functions.toList.map Encode.functionSymbol) ≤ 3 :=
    Json.elementDepth_le.2 (forall_mem_map.2 fun f _ => depth_functionSymbol f)
  have vars : Json.elementDepth (s.vars.toList.map Encode.variableSymbol) ≤ 3 :=
    Json.elementDepth_le.2 (forall_mem_map.2 fun v _ => by simp [Encode.variableSymbol])
  simp only [Encode.symbolTable, Json.depth_record, Json.memberDepth, depth_listOf]
  omega

/-- The fields of classes may be left out where no bracket is left for them, but never beyond six
brackets. -/
theorem program_nests (enough : 6 ≤ n) : Nests program Encode.program n := by
  intro v p read
  unfold program recordOf at read
  split at read
  · rename_i m
    simp only [Json.Record.required, Option.bind_eq_bind, Option.bind_eq_some_iff,
      Option.some.injEq] at read
    obtain ⟨_, -, symbols, -, functions, ⟨_, -, hf⟩, _, -, rfl⟩ := read
    have list := (list_nests fun k _ => function_nests k) _ _ hf
    have table := depth_symbolTable symbols
    simp only [Encode.program, Json.depth_record, Json.memberDepth]
    omega
  · cases read

end Nesting

/-- A program is read from the text written for it, with the options it has by default, exactly if
the text opens no more brackets than are allowed and every float in it reads back. Where the program
was itself read from some text, in whatever form, the brackets are never too many. -/
theorem program_reads_back (p : Program) :
    (parseProgram? (Encode.program p).render = some { p with options := .default } ↔
      (Encode.program p).depth ≤ maxBrackets ∧ ∀ x ∈ p.floats, x.ReadsBack) ∧
    ∀ text, parseProgram? text = some p → (∀ x ∈ p.floats, x.ReadsBack) →
      parseProgram? (Encode.program p).render = some { p with options := .default } := by
  have reads : parseProgram? (Encode.program p).render = some { p with options := .default } ↔
      (Encode.program p).depth ≤ maxBrackets ∧ ∀ x ∈ p.floats, x.ReadsBack := by
    rw [parseProgram?, Json.parse?_render (spelled_program p), Option.bind_some]
    exact program_encode p maxBrackets
  refine ⟨reads, fun text read floats => reads.2 ⟨?_, floats⟩⟩
  obtain ⟨v, -, hv⟩ := Option.bind_eq_some_iff.1 read
  exact program_nests (by decide) v p hv

-- Not every number reads back: 918582.6253269023 is read as its upper neighbour.
example : Binary64.ReadsBack ⟨0x3ff8000000000000⟩ ∧ ¬Binary64.ReadsBack ⟨4696137776761592069⟩ := by
  decide +kernel

/-- A program in forms that are never written: records as arrays, unknown names, options, lists left
out, and a name with the content `null`. -/
def looseText : String :=
  "\x7b\"symbols\":[[\"void\"],[[\"main\",0]],[]],\"more\":[1]," ++
  "\"options\":\x7b\"trace_calls\":true\x7d," ++
  "\"functions\":[\x7b\"function\":0,\"parameters\":[],\"body\":[\x7b\"break\":null\x7d," ++
  "\x7b\"goto_case\":\x7b\"float\":15e-1\x7d\x7d]\x7d]\x7d"

theorem looseText_reads_back : ∃ p, parseProgram? looseText = some p ∧
    (∀ x ∈ p.floats, x.ReadsBack) ∧
    parseProgram? (Encode.program p).render = some { p with options := .default } := by
  have floats : (parseProgram? looseText).map (fun p => p.floats.all (decide ·.ReadsBack)) =
      some true := by decide +kernel
  cases read : parseProgram? looseText with
  | none =>
    rw [read] at floats
    cases floats
  | some p =>
    simp only [read, Option.map_some, Option.some.injEq, all_eq_true, decide_eq_true_eq] at floats
    exact ⟨p, rfl, floats, (program_reads_back p).2 looseText read floats⟩

end Wire
end FlatCode
