/-
Expressions and their evaluation against a row: `eval_expr` and `eval_function` of
`crates/sql/src/executor.rs`.

An expression reads the row only where it names a column, and it finds the column by its name
in the schema. `eval_expr_congr` says so: two schemas with two rows give the same result when
each name the expression looks up is found, or missed, in both with the same value.
-/
import Oigrap.Sql.Value

namespace Oigrap.Sql

inductive Expr (F : Type) where
  | IntLit (n : Int64)
  | FloatLit (f : F)
  | StrLit (s : String)
  | BoolLit (b : Bool)
  | Null
  | ColumnRef (table : Option String) (column : String)
  | Star
  | BinaryOp (op : BinOp) (left right : Expr F)
  | UnaryOp (op : UnOp) (expr : Expr F)
  | IsNull (expr : Expr F)
  | IsNotNull (expr : Expr F)
  | Between (expr low high : Expr F)
  | In (expr : Expr F) (list : List (Expr F))
  | NotIn (expr : Expr F) (list : List (Expr F))
  | FunctionCall (name : String) (args : List (Expr F)) (distinct : Bool)
  | WindowFunc (name : String) (args partition_by : List (Expr F))
      (order_by : List (Expr F × Bool))
  | Cast (expr : Expr F) (target : DataType)

variable {F : Type} (rt : Runtime F)

/-! ## Columns by name -/

/-- `name.ends_with(&format!(".{}", column))`. -/
def ends_with_column (name column : String) : Bool :=
  ("." ++ column).toList.isSuffixOf name.toList

/-- What `position` is asked for: the closure of a column reference, the one by which the join
code finds a key, and the one of a window function. -/
inductive Lookup where
  | reference (table : Option String) (column : String)
  | key (column : String)
  | window (name : String)
  deriving DecidableEq, Repr

def Lookup.hits : Lookup → String → Bool
  | .reference (some t) column, name =>
    rt.to_lowercase name == rt.to_lowercase t ++ "." ++ rt.to_lowercase column ||
      rt.to_lowercase name == rt.to_lowercase column
  | .reference none column, name | .key column, name =>
    rt.to_lowercase name == rt.to_lowercase column ||
      ends_with_column (rt.to_lowercase name) (rt.to_lowercase column)
  | .window f, name => name == f ++ "()"

/-- `schema.iter().position(..)`. -/
def position (lk : Lookup) (schema : List ColumnSchema) : Option ℕ :=
  schema.findIdx? fun c => lk.hits rt c.name

/-- The entry of the row at the position found. -/
def read (schema : List ColumnSchema) (row : Row F) (lk : Lookup) : Option (Option (Value F)) :=
  (position rt lk schema).map fun idx => row[idx]?

/-- `row[idx]`. -/
def index (row : Row F) (idx : ℕ) : Result (Value F) :=
  match row[idx]? with
  | some v => .ok v
  | none => .error .panic

/-- The names that stand for a constant when they are written without a table. -/
def pseudo_column : String → Option (Value F)
  | "current_schema" => some (.Text "public")
  | "current_user" => some (.Text "postgres")
  | "current_database" => some (.Text "postgres")
  | _ => none

/-! ## Functions -/

/-- The edges out of `node`: the distance of the target if one of them leads to it, or else
the queue and the visited nodes with the new neighbours. -/
def visit (node dist target : Int64) : List (Int64 × Int64) → List (Int64 × Int64) →
    List Int64 → Int64 ⊕ (List (Int64 × Int64) × List Int64)
  | [], queue, visited => .inr (queue, visited)
  | (src, dst) :: edges, queue, visited =>
    if src ≠ node then visit node dist target edges queue visited
    else if dst = target then .inl (dist + 1)
    else if dst ∈ visited then visit node dist target edges queue visited
    else visit node dist target edges (queue ++ [(dst, dist + 1)]) (dst :: visited)

/-- The breadth-first search. Every node enters the queue once, so the number of edges and one
more bounds the iterations. -/
def bfs (edges : List (Int64 × Int64)) (target : Int64) : ℕ → List (Int64 × Int64) →
    List Int64 → Value F
  | _, [], _ | 0, _, _ => .Null
  | fuel + 1, (node, dist) :: queue, visited =>
    match visit node dist target edges queue visited with
    | .inl d => .Int64 d
    | .inr (queue, visited) => bfs edges target fuel queue visited

/-- `match eval_expr(arg)? { Value::Int64(n) => n, other => return Err(..) }`. -/
def int_arg (fn arg : String) (v : Result (Value F)) : Result Int64 := do
  match ← v with
  | .Int64 n => .ok n
  | other => execution (fn ++ ": " ++ arg ++ " must be integer, got " ++ rt.fmt_debug other)

def text_arg (fn arg : String) (v : Result (Value F)) : Result String := do
  match ← v with
  | .Text s => .ok (rt.to_lowercase s)
  | other => execution (fn ++ ": " ++ arg ++ " must be text, got " ++ rt.fmt_debug other)

/-- The loop of `COALESCE`. -/
def coalesce : List (Result (Value F)) → Result (Value F)
  | [] => .ok .Null
  | a :: args => do
    let v ← a
    if v.is_null then coalesce args else .ok v

/-- `if let Some(Value::Text(s)) = args.first()... { .. } else { Ok(Value::Null) }`. -/
def on_text (f : String → Value F) : List (Result (Value F)) → Result (Value F)
  | [] => .ok .Null
  | a :: _ => do
    match ← a with
    | .Text s => .ok (f s)
    | _ => .ok .Null

/-- `QUOTE_IDENT` and `QUOTE_LITERAL`: other values than texts pass. -/
def quoted (f : String → String) : List (Result (Value F)) → Result (Value F)
  | [] => .ok .Null
  | a :: _ => do
    match ← a with
    | .Text s => .ok (.Text (f s))
    | other => .ok other

/-- The arguments come with their values; a function looks at those it evaluates, in its own
order, so that an argument it does not evaluate cannot fail. -/
def eval_function (name : String) (args : List (Result (Value F))) : Result (Value F) :=
  match name with
  | "COALESCE" => coalesce args
  | "UPPER" => on_text (fun s => .Text (rt.to_uppercase s)) args
  | "LOWER" => on_text (fun s => .Text (rt.to_lowercase s)) args
  | "LENGTH" => on_text (fun s => .Int64 (Int64.ofNat s.utf8ByteSize)) args
  | "DEPTH" => .ok (.Int64 rt.depth)
  | "OIGRAP_SHORTEST_PATH" =>
    match args with
    | a₀ :: a₁ :: a₂ :: a₃ :: a₄ :: _ => do
      let source ← int_arg rt "oigrap_shortest_path" "source_id" a₀
      let target ← int_arg rt "oigrap_shortest_path" "target_id" a₁
      let edge_table ← text_arg rt "oigrap_shortest_path" "edge_table" a₂
      let from_col ← text_arg rt "oigrap_shortest_path" "from_col" a₃
      let to_col ← text_arg rt "oigrap_shortest_path" "to_col" a₄
      let edges := rt.edges (edge_table ++ "/" ++ from_col ++ "/" ++ to_col)
      if source = target then .ok (.Int64 0)
      else .ok (bfs edges target (edges.length + 1) [(source, 0)] [source])
    | _ => execution ("oigrap_shortest_path requires 5 arguments: source_id, target_id, " ++
        "edge_table, from_col, to_col")
  | "ARRAY_AGG" | "STRING_AGG" => .ok .Null
  | "VERSION" | "PG_CATALOG.VERSION" => .ok (.Text "PostgreSQL 14.0 (oigrap 0.1.0)")
  | "CURRENT_DATABASE" | "CURRENT_CATALOG" => .ok (.Text "postgres")
  | "CURRENT_SCHEMA" | "CURRENT_SCHEMAS" => .ok (.Text "public")
  | "CURRENT_USER" | "SESSION_USER" | "USER" => .ok (.Text "postgres")
  | "PG_BACKEND_PID" => .ok (.Int64 1)
  | "PG_POSTMASTER_START_TIME" | "NOW" | "CLOCK_TIMESTAMP" | "TRANSACTION_TIMESTAMP"
  | "STATEMENT_TIMESTAMP" => .ok (.Text "2024-01-01 00:00:00+00")
  | "PG_ENCODING_TO_CHAR" => .ok (.Text "UTF8")
  | "PG_GET_USERBYID" => .ok (.Text "postgres")
  | "FORMAT_TYPE" | "PG_CATALOG.FORMAT_TYPE" => .ok (.Text "text")
  | "OBJ_DESCRIPTION" | "COL_DESCRIPTION" | "SHOBJ_DESCRIPTION" => .ok .Null
  | "PG_TABLE_IS_VISIBLE" | "PG_TYPE_IS_VISIBLE" => .ok (.Bool true)
  | "PG_RELATION_SIZE" | "PG_TOTAL_RELATION_SIZE" | "PG_DATABASE_SIZE" => .ok (.Int64 0)
  | "QUOTE_IDENT" => quoted (fun s => "\"" ++ s ++ "\"") args
  | "QUOTE_LITERAL" => quoted (fun s => "'" ++ s.replace "'" "''" ++ "'") args
  | "PG_CATALOG.PG_GET_EXPR" | "PG_GET_EXPR" => .ok .Null
  | "OIGRAP_PAGERANK" =>
    match args with
    | a₀ :: a₁ :: a₂ :: a₃ :: _ => do
      let node_id ← int_arg rt "oigrap_pagerank" "node_id" a₀
      let edge_table ← text_arg rt "oigrap_pagerank" "edge_table" a₁
      let from_col ← text_arg rt "oigrap_pagerank" "from_col" a₂
      let to_col ← text_arg rt "oigrap_pagerank" "to_col" a₃
      .ok ((rt.pagerank (edge_table ++ "/" ++ from_col ++ "/" ++ to_col) node_id).elim
        .Null .Float64)
    | _ => execution
        "oigrap_pagerank requires 4 arguments: node_id, edge_table, from_col, to_col"
  | _ => execution ("unknown function '" ++ name ++ "'")

/-! ## Evaluation -/

/-- `list.iter().any(|e| eval_expr(e).map(|rv| v == rv).unwrap_or(false))`. -/
def any_equal (v : Value F) : List (Result (Value F)) → Result Bool
  | [] => .ok false
  | e :: list => do
    let hit ← unwrap_or (e.map fun rv => v.eq rt rv) false
    if hit then .ok true else any_equal v list

def negate : Value F → Result (Value F)
  | .Int64 n => (i64 rt (-n.toInt)).map .Int64
  | .Float64 f => .ok (.Float64 (rt.neg f))
  | other => execution ("cannot negate " ++ rt.fmt_debug other)

mutual

def eval_expr (schema : List ColumnSchema) (row : Row F) : Expr F → Result (Value F)
  | .IntLit n => .ok (.Int64 n)
  | .FloatLit f => .ok (.Float64 f)
  | .StrLit s => .ok (.Text s)
  | .BoolLit b => .ok (.Bool b)
  | .Null => .ok .Null
  | .ColumnRef table column =>
    match if table.isNone then pseudo_column (rt.to_lowercase column) else none with
    | some v => .ok v
    | none =>
      match position rt (.reference table column) schema with
      | some idx => index row idx
      | none => semantic ("unknown column '" ++ column ++ "'")
  | .UnaryOp .Neg e => do
    let v ← eval_expr schema row e
    negate rt v
  | .UnaryOp .Not e => do
    let v ← eval_expr schema row e
    .ok (.Bool (!is_truthy rt v))
  | .BinaryOp op l r => do
    let lv ← eval_expr schema row l
    let rv ← eval_expr schema row r
    eval_binop rt op lv rv
  | .IsNull e => do
    let v ← eval_expr schema row e
    .ok (.Bool v.is_null)
  | .IsNotNull e => do
    let v ← eval_expr schema row e
    .ok (.Bool (!v.is_null))
  | .Between e low high => do
    let v ← eval_expr schema row e
    let lo ← eval_expr schema row low
    let hi ← eval_expr schema row high
    .ok (.Bool ((v.partial_cmp rt lo).any (· != .lt) && (v.partial_cmp rt hi).any (· != .gt)))
  | .In e list => do
    let v ← eval_expr schema row e
    let found ← any_equal rt v (eval_exprs schema row list)
    .ok (.Bool found)
  | .NotIn e list => do
    let v ← eval_expr schema row e
    let found ← any_equal rt v (eval_exprs schema row list)
    .ok (.Bool (!found))
  | .FunctionCall name args _ => eval_function rt name (eval_exprs schema row args)
  | .WindowFunc name _ _ _ =>
    match position rt (.window name) schema with
    | some idx => .ok (row[idx]?.getD .Null)
    | none => .ok .Null
  | .Cast e target => do
    let v ← eval_expr schema row e
    -- `map_err(|e| SqlError::Execution(e.to_string()))`
    match v.coerce_to rt target with
    | .error (.Err (.Semantic msg)) => execution ("semantic error: " ++ msg)
    | other => other
  | .Star => execution "unsupported expression: Star"

def eval_exprs (schema : List ColumnSchema) (row : Row F) :
    List (Expr F) → List (Result (Value F))
  | [] => []
  | e :: es => eval_expr schema row e :: eval_exprs schema row es

end

/-! ## What an expression reads -/

mutual

/-- The names an expression looks up in the schema. -/
def Expr.lookups : Expr F → List Lookup
  | .ColumnRef table column => [.reference table column]
  | .UnaryOp _ e | .IsNull e | .IsNotNull e | .Cast e _ => e.lookups
  | .BinaryOp _ l r => l.lookups ++ r.lookups
  | .Between e low high => e.lookups ++ low.lookups ++ high.lookups
  | .In e list | .NotIn e list => e.lookups ++ lookups_all list
  | .FunctionCall _ args _ => lookups_all args
  | .WindowFunc name _ _ _ => [.window name]
  | .IntLit _ | .FloatLit _ | .StrLit _ | .BoolLit _ | .Null | .Star => []

def Expr.lookups_all : List (Expr F) → List Lookup
  | [] => []
  | e :: es => e.lookups ++ lookups_all es

end

section Congr

variable {rt} {schema schema' : List ColumnSchema} {row row' : Row F}

/-- Two positions that read the same entry are both found or both missed. -/
theorem read_cases {lk : Lookup} (h : read rt schema row lk = read rt schema' row' lk) :
    (position rt lk schema = none ∧ position rt lk schema' = none) ∨
    ∃ i i', position rt lk schema = some i ∧ position rt lk schema' = some i' ∧
      row[i]? = row'[i']? := by
  unfold read at h
  cases hp : position rt lk schema with
  | none =>
    cases hq : position rt lk schema' with
    | none => exact .inl ⟨rfl, rfl⟩
    | some i' => simp [hp, hq] at h
  | some i =>
    cases hq : position rt lk schema' with
    | none => simp [hp, hq] at h
    | some i' => exact .inr ⟨i, i', rfl, rfl, by simpa [hp, hq] using h⟩

theorem column_congr {table : Option String} {column : String}
    (h : read rt schema row (.reference table column) =
      read rt schema' row' (.reference table column)) :
    eval_expr rt schema row (.ColumnRef table column) =
      eval_expr rt schema' row' (.ColumnRef table column) := by
  simp only [eval_expr]
  obtain ⟨hp, hq⟩ | ⟨i, i', hp, hq, hrow⟩ := read_cases h
  · rw [hp, hq]
  · simp only [hp, hq, index, hrow]

theorem window_congr {name : String} {args partition_by : List (Expr F)}
    {order_by : List (Expr F × Bool)}
    (h : read rt schema row (.window name) = read rt schema' row' (.window name)) :
    eval_expr rt schema row (.WindowFunc name args partition_by order_by) =
      eval_expr rt schema' row' (.WindowFunc name args partition_by order_by) := by
  simp only [eval_expr]
  obtain ⟨hp, hq⟩ | ⟨i, i', hp, hq, hrow⟩ := read_cases h
  · rw [hp, hq]
  · simp only [hp, hq, hrow]

mutual

/-- The value of an expression depends on what its lookups read and on nothing else of the
schema and the row. -/
theorem eval_expr_congr : ∀ e : Expr F,
    (∀ lk ∈ e.lookups, read rt schema row lk = read rt schema' row' lk) →
    eval_expr rt schema row e = eval_expr rt schema' row' e
  | .IntLit _, _ | .FloatLit _, _ | .StrLit _, _ | .BoolLit _, _ | .Null, _ | .Star, _ => by
    simp only [eval_expr]
  | .ColumnRef table column, h => column_congr (h _ (by simp [Expr.lookups]))
  | .WindowFunc name _ _ _, h => window_congr (h _ (by simp [Expr.lookups]))
  | .UnaryOp .Neg e, h | .UnaryOp .Not e, h | .IsNull e, h | .IsNotNull e, h | .Cast e _, h => by
    simp only [Expr.lookups] at h
    simp only [eval_expr, eval_expr_congr e h]
  | .BinaryOp _ l r, h => by
    simp only [Expr.lookups, List.mem_append] at h
    simp only [eval_expr, eval_expr_congr l fun lk hl => h lk (.inl hl),
      eval_expr_congr r fun lk hr => h lk (.inr hr)]
  | .Between e low high, h => by
    simp only [Expr.lookups, List.mem_append] at h
    simp only [eval_expr, eval_expr_congr e fun lk hl => h lk (.inl (.inl hl)),
      eval_expr_congr low fun lk hl => h lk (.inl (.inr hl)),
      eval_expr_congr high fun lk hl => h lk (.inr hl)]
  | .In e list, h | .NotIn e list, h => by
    simp only [Expr.lookups, List.mem_append] at h
    simp only [eval_expr, eval_expr_congr e fun lk hl => h lk (.inl hl),
      eval_exprs_congr list fun lk hl => h lk (.inr hl)]
  | .FunctionCall _ args _, h => by
    simp only [Expr.lookups] at h
    simp only [eval_expr, eval_exprs_congr args h]

theorem eval_exprs_congr : ∀ es : List (Expr F),
    (∀ lk ∈ Expr.lookups_all es, read rt schema row lk = read rt schema' row' lk) →
    eval_exprs rt schema row es = eval_exprs rt schema' row' es
  | [], _ => rfl
  | e :: es, h => by
    simp only [Expr.lookups_all, List.mem_append] at h
    simp only [eval_exprs, eval_expr_congr e fun lk hl => h lk (.inl hl),
      eval_exprs_congr es fun lk hl => h lk (.inr hl)]

end

end Congr

/-! ## The expressions an expression is made of -/

/-- The expressions `eval_expr` may evaluate on the way to the value of one. -/
def Expr.operands : Expr F → List (Expr F)
  | .UnaryOp _ e | .IsNull e | .IsNotNull e | .Cast e _ => [e]
  | .BinaryOp _ l r => [l, r]
  | .Between e low high => [e, low, high]
  | .In e list | .NotIn e list => e :: list
  | .FunctionCall _ args _ => args
  | .ColumnRef _ _ | .WindowFunc _ _ _ _ | .IntLit _ | .FloatLit _ | .StrLit _ | .BoolLit _
  | .Null | .Star => []

section

variable {P : Expr F → Prop} (h : ∀ e, (∀ d ∈ e.operands, P d) → P e)

include h

mutual

/-- Induction over expressions: what holds of an expression when it holds of its operands
holds of every expression. -/
theorem Expr.operand_induction : ∀ e : Expr F, P e
  | .IntLit _ | .FloatLit _ | .StrLit _ | .BoolLit _ | .Null | .Star | .ColumnRef _ _
  | .WindowFunc _ _ _ _ => h _ (by simp [Expr.operands])
  | .UnaryOp _ e | .IsNull e | .IsNotNull e | .Cast e _ => by
    have he := Expr.operand_induction e
    exact h _ (by simpa [Expr.operands] using he)
  | .BinaryOp _ l r => by
    have hl := Expr.operand_induction l
    have hr := Expr.operand_induction r
    exact h _ (by simpa [Expr.operands] using ⟨hl, hr⟩)
  | .Between e low high => by
    have he := Expr.operand_induction e
    have hlow := Expr.operand_induction low
    have hhigh := Expr.operand_induction high
    exact h _ (by simpa [Expr.operands] using ⟨he, hlow, hhigh⟩)
  | .In e list | .NotIn e list => by
    have he := Expr.operand_induction e
    have hlist := Expr.operands_induction list
    exact h _ (by simpa [Expr.operands] using ⟨he, hlist⟩)
  | .FunctionCall _ args _ => h _ (Expr.operands_induction args)

theorem Expr.operands_induction : ∀ es : List (Expr F), ∀ d ∈ es, P d
  | [] => by simp
  | e :: es => List.forall_mem_cons.mpr
    ⟨Expr.operand_induction e, Expr.operands_induction es⟩

end

end

end Oigrap.Sql
