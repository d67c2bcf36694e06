/-
Aggregation: `eval_aggregate`, `eval_agg_expr` and `apply_group_by` of
`crates/sql/src/executor.rs`.

The groups of `apply_group_by` are those of the grouping library, with two rows matching when
the values of their `GROUP BY` expressions are equal. `float_text` is how `f64` is printed.
-/
import Mathlib.Data.List.ReduceOption
import Oigrap.Lib.Grouping
import Oigrap.Sql.Ast

namespace Oigrap.Sql

open Grouping

variable {F : Type} (rt : Runtime F) (float_text : F → String)

/-- `eval_expr(..).unwrap_or(Value::Null)`. -/
def eval_or_null (schema : List ColumnSchema) (row : Row F) (expr : Expr F) : Result (Value F) :=
  unwrap_or (eval_expr rt schema row expr) .Null

/-! ## Aggregate functions -/

def is_aggregate (name : String) : Bool :=
  rt.to_uppercase name ∈ ["COUNT", "SUM", "AVG", "MIN", "MAX", "ARRAY_AGG", "STRING_AGG"]

/-- The values of `COUNT(DISTINCT ..)`: the first of each, without NULL. -/
def distinct_values (seen : List (Value F)) : List (Value F) → List (Value F)
  | [] => seen
  | v :: vs =>
    if !v.is_null && !(seen.any fun w => w.eq rt v) then distinct_values (seen ++ [v]) vs
    else distinct_values seen vs

/-- The loop of `SUM`: the sums of the integers and of the floats so far. -/
def sum_values : List (Value F) → Option Int64 → Option F → Result (Option Int64 × Option F)
  | [], int, float => .ok (int, float)
  | .Int64 n :: vs, int, float => do
    let sum ← i64 rt ((int.getD 0).toInt + n.toInt)
    sum_values vs (some sum) float
  | .Float64 f :: vs, int, float => sum_values vs int (some (rt.add (float.getD rt.zero) f))
  | _ :: vs, int, float => sum_values vs int float

def agg_sum (values : List (Value F)) : Result (Value F) := do
  match ← sum_values rt values none none with
  | (none, none) => .ok .Null
  | (int, some float) => .ok (.Float64 (rt.add float (rt.of_i64 (int.getD 0))))
  | (some int, none) => .ok (.Int64 int)

/-- The loop of `AVG`: the sum and the count so far. -/
def avg_values : List (Value F) → F → ℕ → F × ℕ
  | [], sum, count => (sum, count)
  | .Int64 n :: vs, sum, count => avg_values vs (rt.add sum (rt.of_i64 n)) (count + 1)
  | .Float64 f :: vs, sum, count => avg_values vs (rt.add sum f) (count + 1)
  | _ :: vs, sum, count => avg_values vs sum count

def agg_avg (values : List (Value F)) : Value F :=
  let (sum, count) := avg_values rt values rt.zero 0
  if count = 0 then .Null else .Float64 (rt.div sum (rt.of_usize count))

/-- `MIN` and `MAX`: a value replaces the current one when it is strictly on the side
`better`. -/
def agg_best (better : Ordering) : List (Value F) → Option (Value F) → Value F
  | [], best => best.getD .Null
  | v :: vs, best =>
    if v.is_null then agg_best better vs best
    else match best with
      | none => agg_best better vs (some v)
      | some cur =>
        agg_best better vs (some (if v.partial_cmp rt cur = some better then v else cur))

def array_text : Value F → String
  | .Null => "null"
  | .Int64 n => toString n.toInt
  | .Float64 f => float_text f
  | .Bool b => if b then "true" else "false"
  | .Text s => "\"" ++ String.ofList (s.toList.flatMap fun c => if c = '"' then ['\\', '"'] else [c]) ++ "\""

def text_of : Value F → Option String
  | .Text s => some s
  | _ => none

/-- `eval_expr(..).ok()`: a panic is not an `Err`. -/
def ok_of (x : Result (Value F)) : Result (Option (Value F)) :=
  match x with
  | .ok v => .ok (some v)
  | .error (.Err _) => .ok none
  | .error .panic => .error .panic

/-- The delimiter of `STRING_AGG`: its second argument on the first row. -/
def delimiter (args : List (Expr F)) (schema : List ColumnSchema) (rows : List (Row F)) :
    Result String :=
  match args[1]?, rows.head? with
  | some e, some row => do
    let v ← ok_of (eval_expr rt schema row e)
    .ok ((v.bind text_of).getD ",")
  | _, _ => .ok ","

def eval_aggregate (name : String) (args : List (Expr F)) (distinct : Bool)
    (schema : List ColumnSchema) (rows : List (Row F)) : Result (Value F) :=
  let values (expr : Expr F) := rows.mapM fun row => eval_or_null rt schema row expr
  match rt.to_uppercase name, args with
  | "COUNT", [] | "COUNT", .Star :: _ => .ok (.Int64 (Int64.ofNat rows.length))
  | "COUNT", expr :: _ => do
    let vs ← values expr
    let counted := if distinct then distinct_values rt [] vs else vs.filter (! ·.is_null)
    .ok (.Int64 (Int64.ofNat counted.length))
  | "SUM", [] | "AVG", [] | "MIN", [] | "MAX", [] | "ARRAY_AGG", [] | "STRING_AGG", [] => .ok .Null
  | "SUM", expr :: _ => do agg_sum rt (← values expr)
  | "AVG", expr :: _ => do .ok (agg_avg rt (← values expr))
  | "MIN", expr :: _ => do .ok (agg_best rt .lt (← values expr) none)
  | "MAX", expr :: _ => do .ok (agg_best rt .gt (← values expr) none)
  | "ARRAY_AGG", expr :: _ => do
    let vs ← values expr
    .ok (.Text ("[" ++ ",".intercalate (vs.map (array_text float_text)) ++ "]"))
  | "STRING_AGG", expr :: _ => do
    let delim ← delimiter rt args schema rows
    let vs ← rows.mapM fun row => ok_of (eval_expr rt schema row expr)
    .ok (.Text (delim.intercalate (vs.filterMap fun v => v.bind text_of)))
  | _, _ => execution ("unknown aggregate function '" ++ name ++ "'")

/-! ## Expressions over a group -/

/-- Aggregates see all rows of the group, everything else its first row. -/
def eval_agg_expr (schema : List ColumnSchema) (group_rows : List (Row F)) :
    Expr F → Result (Value F)
  | .FunctionCall name args distinct =>
    if is_aggregate rt name then eval_aggregate rt float_text name args distinct schema group_rows
    else eval_function rt name (eval_exprs rt schema (group_rows.headD []) args)
  | .BinaryOp op left right => do
    let lv ← eval_agg_expr schema group_rows left
    let rv ← eval_agg_expr schema group_rows right
    eval_binop rt op lv rv
  | other => eval_expr rt schema (group_rows.headD []) other

def eval_agg_column (schema : List ColumnSchema) (group_rows : List (Row F)) :
    SelectColumn F → Result (Value F)
  | .Star => .ok .Null
  | .Expr expr _ => eval_agg_expr rt float_text schema group_rows expr

def expr_has_aggregate : Expr F → Bool
  | .FunctionCall name _ _ => is_aggregate rt name
  | .BinaryOp _ left right => expr_has_aggregate left || expr_has_aggregate right
  | _ => false

def has_aggregates (cols : List (SelectColumn F)) : Bool :=
  cols.any fun
    | .Expr expr _ => expr_has_aggregate rt expr
    | .Star => false

def agg_col_name (idx : ℕ) : SelectColumn F → String
  | .Expr _ (some a) => a
  | .Expr (.ColumnRef _ column) none => column
  | .Expr (.FunctionCall name args _) none =>
    let arg_str := match args.head? with
      | some .Star | none => "*"
      | some (.ColumnRef _ column) => column
      | _ => "?"
    rt.to_lowercase name ++ "(" ++ arg_str ++ ")"
  | .Expr _ none => "?column" ++ toString idx ++ "?"
  | .Star => "*"

/-! ## `apply_group_by` -/

/-- A row with the values of its `GROUP BY` expressions. -/
abbrev Keyed (F : Type) := List (Value F) × Row F

/-- `k == &key`. -/
def same_group_key (a b : Keyed F) : Bool :=
  a.1.length == b.1.length && (a.1.zip b.1).all fun p => p.1.eq rt p.2

variable (group_by : List (Expr F)) (select_cols : List (SelectColumn F))

def keyed_rows (schema : List ColumnSchema) (rows : List (Row F)) :
    Result (List (Keyed F)) :=
  rows.mapM fun row => do
    let key ← group_by.mapM (eval_or_null rt schema row)
    .ok (key, row)

/-- The rows of each group. Without `GROUP BY` all rows are one group, also when there are
none. -/
def group_rows (schema : List ColumnSchema) (rows : List (Row F)) :
    Result (List (List (Row F))) :=
  if group_by.isEmpty then .ok [rows]
  else do
    let keyed ← keyed_rows rt group_by schema rows
    .ok ((group (same_group_key rt) keyed).map fun g => g.1.2 :: g.2.map Prod.snd)

/-- The output row of a group, unless `HAVING` drops it. -/
def group_result (having : Option (Expr F)) (schema : List ColumnSchema) (rows : List (Row F))
    : Result (Option (Row F)) := do
  let result_row ← select_cols.mapM (eval_agg_column rt float_text schema rows)
  match having with
  | none => .ok (some result_row)
  | some having_expr =>
    let synthetic_schema := select_cols.mapIdx fun i sc => ⟨agg_col_name rt i sc, .Text, true, false⟩
    let v ← unwrap_or ((eval_expr rt synthetic_schema result_row having_expr).map (is_truthy rt)) false
    .ok (if v then some result_row else none)

def apply_group_by (having : Option (Expr F)) (schema : List ColumnSchema) (rows : List (Row F)) :
    Result (List String × List (Row F)) := do
  let groups ← group_rows rt group_by schema rows
  let results ← groups.mapM (group_result rt float_text select_cols having schema)
  .ok (select_cols.mapIdx (agg_col_name rt), results.reduceOption)

end Oigrap.Sql
