/-
The three-valued logic of SQL against `eval_expr`.

`sql_value` is what the standard gives for an expression over columns, literals, comparisons,
`AND`, `OR`, `NOT`, `IS [NOT] NULL`, `BETWEEN` and `[NOT] IN`: NULL is the unknown truth value,
`BETWEEN` is a conjunction of two comparisons and `IN` a disjunction of equalities. The code
differs in two ways. `eval_binop` makes `AND` and `OR` strict in NULL, and `NOT`, `BETWEEN` and
`IN` compute with two truth values. So it goes wrong exactly where a NULL operand of `AND` or
`OR` does not make the result NULL, or where one of the others should give NULL.
-/
import Oigrap.Lib.Kleene
import Oigrap.Sql.Expr

namespace Oigrap.Sql

variable {F : Type} (rt : Runtime F)

/-! ## The reference -/

/-- The truth value of a value. SQL has it for Booleans and NULL; for other values it is the
coercion that the engine makes. -/
def truth (v : Value F) : Option Bool := if v.is_null then none else some (is_truthy rt v)

def of_truth : Option Bool → Value F
  | none => .Null
  | some b => .Bool b

def BinOp.is_comparison : BinOp → Bool
  | .Eq | .NotEq | .Lt | .Gt | .LtEq | .GtEq => true
  | _ => false

/-- A comparison of two values that are not NULL. -/
def compares (op : BinOp) (v w : Value F) : Bool :=
  match op with
  | .Eq => v.eq rt w
  | .NotEq => !v.eq rt w
  | .Lt => (v.partial_cmp rt w).any (· == .lt)
  | .Gt => (v.partial_cmp rt w).any (· == .gt)
  | .LtEq => (v.partial_cmp rt w).any (· != .gt)
  | .GtEq => (v.partial_cmp rt w).any (· != .lt)
  | _ => false

def comparison (op : BinOp) (v w : Value F) : Option Bool :=
  if v.is_null || w.is_null then none else some (compares rt op v w)

/-- The value of a column reference: of the constant it stands for, or of the column. -/
def column_value (schema : List ColumnSchema) (row : Row F) (table : Option String)
    (column : String) : Value F :=
  match if table.isNone then pseudo_column (rt.to_lowercase column) else none with
  | some v => v
  | none => ((position rt (.reference table column) schema).bind (row[·]?)).getD .Null

mutual

def sql_value (schema : List ColumnSchema) (row : Row F) : Expr F → Value F
  | .IntLit n => .Int64 n
  | .FloatLit f => .Float64 f
  | .StrLit s => .Text s
  | .BoolLit b => .Bool b
  | .ColumnRef table column => column_value rt schema row table column
  | .UnaryOp .Not e => of_truth (Kleene.not (truth rt (sql_value schema row e)))
  | .BinaryOp .And l r =>
    of_truth (Kleene.and (truth rt (sql_value schema row l)) (truth rt (sql_value schema row r)))
  | .BinaryOp .Or l r =>
    of_truth (Kleene.or (truth rt (sql_value schema row l)) (truth rt (sql_value schema row r)))
  | .BinaryOp op l r => of_truth (comparison rt op (sql_value schema row l) (sql_value schema row r))
  | .IsNull e => .Bool (sql_value schema row e).is_null
  | .IsNotNull e => .Bool (!(sql_value schema row e).is_null)
  | .Between e low high =>
    let v := sql_value schema row e
    of_truth (Kleene.and (comparison rt .GtEq v (sql_value schema row low))
      (comparison rt .LtEq v (sql_value schema row high)))
  | .In e list =>
    let v := sql_value schema row e
    of_truth (Kleene.any ((sql_values schema row list).map (comparison rt .Eq v)))
  | .NotIn e list =>
    let v := sql_value schema row e
    of_truth (Kleene.not (Kleene.any ((sql_values schema row list).map (comparison rt .Eq v))))
  -- outside the fragment below
  | _ => .Null

def sql_values (schema : List ColumnSchema) (row : Row F) : List (Expr F) → List (Value F)
  | [] => []
  | e :: es => sql_value schema row e :: sql_values schema row es

end

/-- The expressions with a reference value: their columns are found in the schema. -/
inductive Logical (schema : List ColumnSchema) : Expr F → Prop where
  | int (n : Int64) : Logical schema (.IntLit n)
  | float (f : F) : Logical schema (.FloatLit f)
  | str (s : String) : Logical schema (.StrLit s)
  | bool (b : Bool) : Logical schema (.BoolLit b)
  | null : Logical schema .Null
  | pseudo (column : String)
      (h : (pseudo_column (F := F) (rt.to_lowercase column)).isSome) :
      Logical schema (.ColumnRef none column)
  | column (table : Option String) (column : String)
      (h : (position rt (.reference table column) schema).isSome) :
      Logical schema (.ColumnRef table column)
  | comparison {op : BinOp} {l r : Expr F} (hop : op.is_comparison)
      (hl : Logical schema l) (hr : Logical schema r) : Logical schema (.BinaryOp op l r)
  | and {l r : Expr F} (hl : Logical schema l) (hr : Logical schema r) :
      Logical schema (.BinaryOp .And l r)
  | or {l r : Expr F} (hl : Logical schema l) (hr : Logical schema r) :
      Logical schema (.BinaryOp .Or l r)
  | not {e : Expr F} (he : Logical schema e) : Logical schema (.UnaryOp .Not e)
  | is_null {e : Expr F} (he : Logical schema e) : Logical schema (.IsNull e)
  | is_not_null {e : Expr F} (he : Logical schema e) : Logical schema (.IsNotNull e)
  | between {e low high : Expr F} (he : Logical schema e) (hlow : Logical schema low)
      (hhigh : Logical schema high) : Logical schema (.Between e low high)
  | in_list {e : Expr F} {list : List (Expr F)} (he : Logical schema e)
      (hlist : ∀ d ∈ list, Logical schema d) : Logical schema (.In e list)
  | not_in_list {e : Expr F} {list : List (Expr F)} (he : Logical schema e)
      (hlist : ∀ d ∈ list, Logical schema d) : Logical schema (.NotIn e list)

/-- Where one operator meets NULL as the code can: `AND` and `OR` with a NULL operand are NULL
themselves, and `NOT`, `BETWEEN` and `IN` are not NULL. -/
def NullSafe (schema : List ColumnSchema) (row : Row F) : Expr F → Prop
  | .BinaryOp .And l r =>
    (sql_value rt schema row l).is_null ∨ (sql_value rt schema row r).is_null →
      (sql_value rt schema row (.BinaryOp .And l r)).is_null
  | .BinaryOp .Or l r =>
    (sql_value rt schema row l).is_null ∨ (sql_value rt schema row r).is_null →
      (sql_value rt schema row (.BinaryOp .Or l r)).is_null
  | .UnaryOp .Not e => ¬ (sql_value rt schema row (.UnaryOp .Not e)).is_null
  | .Between e low high => ¬ (sql_value rt schema row (.Between e low high)).is_null
  | .In e list => ¬ (sql_value rt schema row (.In e list)).is_null
  | .NotIn e list => ¬ (sql_value rt schema row (.NotIn e list)).is_null
  | _ => True

/-- The items of an `IN` list that are looked at: `any` stops at the first one that is equal. -/
def read_until (schema : List ColumnSchema) (row : Row F) (v : Value F) :
    List (Expr F) → List (Expr F)
  | [] => []
  | e :: es => e :: if v.eq rt (sql_value rt schema row e) then [] else read_until schema row v es

/-- The operands whose values the code needs. -/
def evaluated_operands (schema : List ColumnSchema) (row : Row F) : Expr F → List (Expr F)
  | .In e list | .NotIn e list => e :: read_until rt schema row (sql_value rt schema row e) list
  | e => e.operands

mutual

/-- An expression with all that are evaluated below it. -/
def evaluated (schema : List ColumnSchema) (row : Row F) : Expr F → List (Expr F)
  | .UnaryOp op e => .UnaryOp op e :: evaluated schema row e
  | .IsNull e => .IsNull e :: evaluated schema row e
  | .IsNotNull e => .IsNotNull e :: evaluated schema row e
  | .Cast e target => .Cast e target :: evaluated schema row e
  | .BinaryOp op l r => .BinaryOp op l r :: (evaluated schema row l ++ evaluated schema row r)
  | .Between e low high => .Between e low high ::
    (evaluated schema row e ++ evaluated schema row low ++ evaluated schema row high)
  | .In e list => .In e list :: (evaluated schema row e
    ++ evaluated_until schema row (some (sql_value rt schema row e)) list)
  | .NotIn e list => .NotIn e list :: (evaluated schema row e
    ++ evaluated_until schema row (some (sql_value rt schema row e)) list)
  | .FunctionCall name args distinct =>
    .FunctionCall name args distinct :: evaluated_until schema row none args
  | e => [e]

/-- All of a list, or the items up to the first one equal to a value. -/
def evaluated_until (schema : List ColumnSchema) (row : Row F) (v : Option (Value F)) :
    List (Expr F) → List (Expr F)
  | [] => []
  | e :: es => evaluated schema row e ++
    if v.any (·.eq rt (sql_value rt schema row e)) then [] else evaluated_until schema row v es

end

/-! ## One operator -/

section Operators

variable {rt} {schema : List ColumnSchema} {row : Row F}

@[simp] theorem truth_eq_none_iff (v : Value F) : truth rt v = none ↔ v.is_null = true := by
  unfold truth
  split <;> simp_all

@[simp] theorem is_null_of_truth (a : Option Bool) :
    (of_truth a : Value F).is_null = true ↔ a = none := by
  cases a <;> simp [of_truth, Value.is_null]

theorem of_truth_inj {a b : Option Bool} : (of_truth a : Value F) = of_truth b ↔ a = b := by
  cases a <;> cases b <;> simp [of_truth]

variable {op : BinOp}

theorem eval_comparison (hop : op.is_comparison) (l r : Value F) :
    eval_binop rt op l r = .ok (of_truth (comparison rt op l r)) := by
  unfold eval_binop comparison
  split
  · rfl
  · cases op <;> first | rfl | simp [BinOp.is_comparison] at hop

/-- A strict connective: NULL as soon as an operand is. -/
theorem eval_connective {f : Bool → Bool → Bool} {l r : Value F}
    (h : l.is_null = false → r.is_null = false → eval_binop rt op l r = .ok
      (.Bool (f (is_truthy rt l) (is_truthy rt r)))) :
    eval_binop rt op l r = .ok (of_truth (Option.map₂ f (truth rt l) (truth rt r))) := by
  cases hl : l.is_null with
  | true => simp [eval_binop, truth, of_truth, hl]
  | false =>
    cases hr : r.is_null with
    | true => simp [eval_binop, truth, of_truth, hr]
    | false => rw [h hl hr]; simp [truth, of_truth, hl, hr]

theorem eval_and (l r : Value F) : eval_binop rt .And l r =
    .ok (of_truth (Option.map₂ (· && ·) (truth rt l) (truth rt r))) :=
  eval_connective fun hl hr => by simp [eval_binop, hl, hr]

theorem eval_or (l r : Value F) : eval_binop rt .Or l r =
    .ok (of_truth (Option.map₂ (· || ·) (truth rt l) (truth rt r))) :=
  eval_connective fun hl hr => by simp [eval_binop, hl, hr]

theorem compares_completes (op : BinOp) (v w : Value F) :
    Kleene.Completes (comparison rt op v w) (compares rt op v w) := by
  intro b hb
  unfold comparison at hb
  split at hb
  · cases hb
  · exact Option.some.inj hb

theorem truthy_completes (v : Value F) : Kleene.Completes (truth rt v) (is_truthy rt v) := by
  intro b hb
  unfold truth at hb
  split at hb
  · cases hb
  · exact Option.some.inj hb

/-- An operator that computes a Boolean is right where the three-valued result is known. -/
theorem ok_bool_iff {a : Option Bool} {x : Bool} (h : Kleene.Completes a x) :
    (Except.ok (.Bool x) : Result (Value F)) = .ok (of_truth a) ↔ ¬ (of_truth a : Value F).is_null := by
  rw [is_null_of_truth, ← ne_eq, ← h.some_eq_iff, Except.ok.injEq]
  exact of_truth_inj (a := some x)

/-- `eval_expr` gives the reference value. -/
def Agrees (rt : Runtime F) (schema : List ColumnSchema) (row : Row F) (e : Expr F) : Prop :=
  eval_expr rt schema row e = .ok (sql_value rt schema row e)

/-- The search of an `IN` list depends on the items up to the first one that is equal only. -/
theorem any_equal_of_agrees {v : Value F} {es : List (Expr F)}
    (h : ∀ d ∈ read_until rt schema row v es, Agrees rt schema row d) :
    any_equal rt v (eval_exprs rt schema row es)
      = .ok ((sql_values rt schema row es).any (v.eq rt)) := by
  induction es with
  | nil => rfl
  | cons e es ih =>
    obtain ⟨he, hes⟩ := List.forall_mem_cons.mp h
    rw [eval_exprs, he, any_equal, sql_values, List.any_cons]
    cases hv : v.eq rt (sql_value rt schema row e) with
    | true => simp [unwrap_or, Except.map, hv, bind, Except.bind]
    | false =>
      rw [hv] at hes
      rw [ih hes]
      simp [unwrap_or, Except.map, hv, bind, Except.bind]

theorem agrees_column {table : Option String} {column : String} (hrow : row.length = schema.length)
    (h : (position rt (.reference table column) schema).isSome) :
    Agrees rt schema row (.ColumnRef table column) := by
  obtain ⟨idx, hidx⟩ := Option.isSome_iff_exists.mp h
  have hlt : idx < row.length := hrow ▸ (List.findIdx?_eq_some_iff_getElem.mp hidx).1
  simp only [Agrees, eval_expr, sql_value, column_value]
  cases if table.isNone then pseudo_column (rt.to_lowercase column) else none with
  | some v => rfl
  | none => simp [hidx, index, hlt]

theorem eval_binary {l r : Expr F}
    (hops : ∀ d ∈ evaluated_operands rt schema row (.BinaryOp op l r), Agrees rt schema row d) :
    eval_expr rt schema row (.BinaryOp op l r) =
      eval_binop rt op (sql_value rt schema row l) (sql_value rt schema row r) := by
  have hl : Agrees rt schema row l := hops l (by simp [evaluated_operands, Expr.operands])
  have hr : Agrees rt schema row r := hops r (by simp [evaluated_operands, Expr.operands])
  rw [eval_expr, hl, hr]
  rfl

/-- One operator over operands with their reference values gives the reference value exactly
where NULL does not lead it astray. -/
theorem agrees_iff_null_safe {e : Expr F} (h : Logical rt schema e)
    (hrow : row.length = schema.length)
    (hops : ∀ d ∈ evaluated_operands rt schema row e, Agrees rt schema row d) :
    Agrees rt schema row e ↔ NullSafe rt schema row e := by
  cases h with
  | int _ | float _ | str _ | bool _ | null => simp [Agrees, NullSafe, eval_expr, sql_value]
  | pseudo column h =>
    obtain ⟨v, hv⟩ := Option.isSome_iff_exists.mp h
    simp [Agrees, NullSafe, eval_expr, sql_value, column_value, hv]
  | column table column h => simpa [NullSafe] using agrees_column hrow h
  | @comparison op _ _ hop =>
    rw [Agrees, eval_binary hops, eval_comparison hop]
    cases op <;> first | exact absurd hop (by decide) | simp [NullSafe, sql_value]
  | and =>
    rw [Agrees, eval_binary hops, eval_and, sql_value, Except.ok.injEq, of_truth_inj,
      Kleene.map₂_and_eq_iff]
    simp [NullSafe, sql_value]
  | or =>
    rw [Agrees, eval_binary hops, eval_or, sql_value, Except.ok.injEq, of_truth_inj, Kleene.map₂_or_eq_iff]
    simp [NullSafe, sql_value]
  | @not e _ =>
    have he : Agrees rt schema row e := hops e (by simp [evaluated_operands, Expr.operands])
    have hev : eval_expr rt schema row (.UnaryOp .Not e) =
        .ok (.Bool (!is_truthy rt (sql_value rt schema row e))) := by
      rw [eval_expr, he]
      rfl
    rw [Agrees, hev, NullSafe, sql_value]
    exact ok_bool_iff (truthy_completes _).not
  | @is_null e _ | @is_not_null e _ =>
    have he : Agrees rt schema row e := hops e (by simp [evaluated_operands, Expr.operands])
    simp only [Agrees, NullSafe, iff_true, eval_expr, sql_value]
    rw [he]
    rfl
  | @between e low high _ _ _ =>
    have he : Agrees rt schema row e := hops e (by simp [evaluated_operands, Expr.operands])
    have hlow : Agrees rt schema row low := hops low (by simp [evaluated_operands, Expr.operands])
    have hhigh : Agrees rt schema row high := hops high (by simp [evaluated_operands, Expr.operands])
    have hev : eval_expr rt schema row (.Between e low high) =
        .ok (.Bool (compares rt .GtEq (sql_value rt schema row e) (sql_value rt schema row low) &&
          compares rt .LtEq (sql_value rt schema row e) (sql_value rt schema row high))) := by
      rw [eval_expr, he, hlow, hhigh]
      rfl
    rw [Agrees, hev, NullSafe, sql_value]
    exact ok_bool_iff ((compares_completes _ _ _).and (compares_completes _ _ _))
  | @in_list e list _ _ | @not_in_list e list _ _ =>
    have he : Agrees rt schema row e := hops e (by simp [evaluated_operands])
    have hlist := any_equal_of_agrees fun d hd =>
      hops d (by rw [evaluated_operands]; exact List.mem_cons_of_mem _ hd)
    rw [Agrees, NullSafe, sql_value, eval_expr, he]
    simp only [bind, Except.bind, hlist]
    first
    | exact ok_bool_iff (.any (compares_completes _ _) _)
    | exact ok_bool_iff (.not (.any (compares_completes _ _) _))

end Operators

/-! ## Whole expressions -/

theorem Logical.operands {rt : Runtime F} {schema : List ColumnSchema} {e : Expr F}
    (h : Logical rt schema e) : ∀ d ∈ e.operands, Logical rt schema d := by
  cases h with
  | in_list he hlist | not_in_list he hlist => exact List.forall_mem_cons.mpr ⟨he, hlist⟩
  | _ => simp_all [Expr.operands]

theorem read_until_subset (rt : Runtime F) (schema : List ColumnSchema) (row : Row F) (v : Value F)
    (es : List (Expr F)) : read_until rt schema row v es ⊆ es := by
  induction es with
  | nil => exact List.Subset.refl _
  | cons e es ih =>
    refine List.cons_subset_cons e ?_
    split
    · exact List.nil_subset _
    · exact ih

theorem evaluated_operands_subset (rt : Runtime F) (schema : List ColumnSchema) (row : Row F)
    (e : Expr F) : evaluated_operands rt schema row e ⊆ e.operands := by
  cases e with
  | In e list | NotIn e list => exact List.cons_subset_cons e (read_until_subset _ _ _ _ _)
  | _ => exact List.Subset.refl _

theorem evaluated_until_none (rt : Runtime F) (schema : List ColumnSchema) (row : Row F)
    (es : List (Expr F)) :
    evaluated_until rt schema row none es = es.flatMap (evaluated rt schema row) := by
  induction es with
  | nil => rfl
  | cons e es ih => rw [evaluated_until, ih, List.flatMap_cons]; rfl

theorem evaluated_until_some (rt : Runtime F) (schema : List ColumnSchema) (row : Row F)
    (v : Value F) (es : List (Expr F)) : evaluated_until rt schema row (some v) es
      = (read_until rt schema row v es).flatMap (evaluated rt schema row) := by
  induction es with
  | nil => rfl
  | cons e es ih =>
    rw [evaluated_until, read_until, List.flatMap_cons, ih, Option.any_some]
    split <;> rfl

theorem evaluated_eq (rt : Runtime F) (schema : List ColumnSchema) (row : Row F) (e : Expr F) :
    evaluated rt schema row e
      = e :: (evaluated_operands rt schema row e).flatMap (evaluated rt schema row) := by
  cases e <;> simp [evaluated, evaluated_operands, Expr.operands, evaluated_until_none,
    evaluated_until_some]

theorem self_mem_evaluated (rt : Runtime F) (schema : List ColumnSchema) (row : Row F)
    (e : Expr F) : e ∈ evaluated rt schema row e := by
  rw [evaluated_eq]
  exact List.mem_cons_self

/-- `eval_expr` gives an expression and all that it evaluates on the way their three-valued results
exactly when each of these operators meets NULL as the code can. -/
theorem eval_expr_three_valued (schema : List ColumnSchema) (row : Row F) (e : Expr F)
    (h : Logical rt schema e) (hrow : row.length = schema.length) :
    (∀ d ∈ evaluated rt schema row e,
        eval_expr rt schema row d = .ok (sql_value rt schema row d)) ↔
      ∀ d ∈ evaluated rt schema row e, NullSafe rt schema row d := by
  revert h
  induction e using Expr.operand_induction with
  | h e ih =>
    intro h
    have hsub := evaluated_operands_subset rt schema row e
    rw [evaluated_eq, List.forall_mem_cons, List.forall_mem_cons, List.forall_mem_flatMap,
      List.forall_mem_flatMap]
    have hparts : (∀ d ∈ evaluated_operands rt schema row e, ∀ p ∈ evaluated rt schema row d,
        eval_expr rt schema row p = .ok (sql_value rt schema row p)) ↔
        ∀ d ∈ evaluated_operands rt schema row e, ∀ p ∈ evaluated rt schema row d,
          NullSafe rt schema row p :=
      forall₂_congr fun d hd => ih d (hsub hd) (h.operands d (hsub hd))
    rw [← hparts]
    -- with the operands right, the operator itself decides
    exact and_congr_left fun hops =>
      agrees_iff_null_safe h hrow fun d hd => hops d hd d (self_mem_evaluated _ _ _ d)

/-- `x IS NULL AND NOT y IN (1, 2)` over a row with `x` NULL and `y` 3, and `TRUE IN (TRUE, NOT
NULL)`, where the second item is never looked at. -/
theorem eval_expr_three_valued_demo :
    let e : Expr ℚ := .BinaryOp .And (.IsNull (.ColumnRef none "x"))
      (.UnaryOp .Not (.In (.ColumnRef none "y") [.IntLit 1, .IntLit 2]))
    let expected := sql_value demo_runtime [int_column "x", int_column "y"] [.Null, .Int64 3] e
    let stops : Expr ℚ := .In (.BoolLit true) [.BoolLit true, .UnaryOp .Not .Null]
    (eval_expr demo_runtime [int_column "x", int_column "y"] [.Null, .Int64 3] e = .ok expected ∧
      expected = .Bool true) ∧
    eval_expr demo_runtime [] [] stops = .ok (sql_value demo_runtime [] [] stops) := by
  refine ⟨⟨(eval_expr_three_valued demo_runtime [int_column "x", int_column "y"]
    [.Null, .Int64 3] _ ?_ rfl).mpr ?_ _ (self_mem_evaluated _ _ _ _), by decide +kernel⟩,
    (eval_expr_three_valued demo_runtime [] [] _ ?_ rfl).mpr ?_ _ (self_mem_evaluated _ _ _ _)⟩
  · refine .and (.is_null (.column _ _ (by decide +kernel)))
      (.not (.in_list (.column _ _ (by decide +kernel)) fun d hd => ?_))
    obtain rfl | rfl : d = .IntLit 1 ∨ d = .IntLit 2 := by simpa using hd
    · exact .int 1
    · exact .int 2
  · have hne {n : Int64} (hn : n = 1 ∨ n = 2) : (sql_value demo_runtime [int_column "x",
        int_column "y"] [.Null, .Int64 3] (.ColumnRef none "y")).eq demo_runtime (sql_value
          demo_runtime [int_column "x", int_column "y"] [.Null, .Int64 3] (.IntLit n)) = false := by
      rcases hn with rfl | rfl <;> decide +kernel
    simp only [evaluated, evaluated_until, Option.any_some, hne (.inl rfl), hne (.inr rfl), Bool.false_eq_true, if_false,
      List.cons_append, List.nil_append, List.append_nil, List.forall_mem_cons, List.not_mem_nil, false_implies, implies_true]
    simp only [NullSafe]
    decide +kernel
  · refine .in_list (.bool true) fun d hd => ?_
    obtain rfl | rfl : d = .BoolLit true ∨ d = .UnaryOp .Not .Null := by simpa using hd
    · exact .bool true
    · exact .not .null
  · have heq : (sql_value demo_runtime [] [] (.BoolLit true)).eq demo_runtime
        (sql_value demo_runtime [] [] (.BoolLit true)) = true := by
      decide +kernel
    simp only [evaluated, evaluated_until, Option.any_some, heq, if_true,
      List.cons_append, List.nil_append, List.append_nil, List.forall_mem_cons, List.not_mem_nil, false_implies, implies_true]
    simp only [NullSafe]
    decide +kernel

/-- `TRUE OR NULL` and `FALSE AND NULL` come out as NULL, and `NOT NULL`, `1 NOT IN (2, NULL)`
and `NULL BETWEEN NULL AND NULL` as true. -/
theorem null_logic_lost :
    let got := eval_expr demo_runtime [] []
    let expected := sql_value demo_runtime [] []
    (got (.BinaryOp .Or (.BoolLit true) .Null) = .ok .Null ∧
      expected (.BinaryOp .Or (.BoolLit true) .Null) = .Bool true) ∧
    (got (.BinaryOp .And (.BoolLit false) .Null) = .ok .Null ∧
      expected (.BinaryOp .And (.BoolLit false) .Null) = .Bool false) ∧
    (got (.UnaryOp .Not .Null) = .ok (.Bool true) ∧ expected (.UnaryOp .Not .Null) = .Null) ∧
    (got (.NotIn (.IntLit 1) [.IntLit 2, .Null]) = .ok (.Bool true) ∧
      expected (.NotIn (.IntLit 1) [.IntLit 2, .Null]) = .Null) ∧
    (got (.Between .Null .Null .Null) = .ok (.Bool true) ∧
      expected (.Between .Null .Null .Null) = .Null) := by
  decide +kernel

end Oigrap.Sql
