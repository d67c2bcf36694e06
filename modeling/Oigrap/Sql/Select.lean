/-
A `SELECT` from one table: the stages of `exec_select_with_cte` of
`crates/sql/src/executor.rs`.

A table is what a `SELECT` can get out of it: the rows of the sequential scan, those of the
columnar copy, and what its indexes give for a query they answer. The stages follow the
source: the vector index and the GIN index answer a query on their own, the columnar copy
answers aggregate queries on its own, and every other query filters, orders, limits and only
then groups. `grouped_rows` is the order in which SQL does it.

`slice::sort_by` is a parameter with its contract: a stable sort where the comparison is a
total order, and nothing is known where it is not. The window functions are a parameter too.
-/
import Oigrap.Sql.Aggregate

namespace Oigrap.Sql

open Grouping

/-! ## `sort_by` -/

/-- A comparison that orders the elements of `l`. -/
structure Orders {α : Type} (c : α → α → Ordering) (l : List α) : Prop where
  swap : ∀ a ∈ l, ∀ b ∈ l, c b a = (c a b).swap
  trans : ∀ a ∈ l, ∀ b ∈ l, ∀ d ∈ l, c a b ≠ .gt → c b d ≠ .gt → c a d ≠ .gt

theorem Orders.preorderOn {α : Type} {c : α → α → Ordering} {l : List α} (h : Orders c l) :
    PreorderOn (fun a b => c a b ≠ .gt) l where
  total a ha b hb := by
    rw [h.swap a ha b hb]
    cases c a b <;> simp
  trans := h.trans

structure SortBy (α : Type) where
  sort_by : (α → α → Result Ordering) → List α → Result (List α)
  stable : ∀ (cmp : α → α → Result Ordering) (c : α → α → Ordering) (l : List α),
    (∀ a ∈ l, ∀ b ∈ l, cmp a b = .ok (c a b)) → Orders c l →
    sort_by cmp l = .ok (l.insertionSort fun a b => c a b ≠ .gt)

/-- A sort that keeps the contract. -/
def insertion_sort_by (α : Type) : SortBy α where
  sort_by cmp l := .ok (l.insertionSort fun a b => (cmp a b).toOption.getD .eq ≠ .gt)
  stable cmp c l hcmp horders := by
    have hsort := horders.preorderOn.filterMap_insertionSort (β := α) some
      (r := fun a b => (cmp a b).toOption.getD .eq ≠ .gt) fun a ha b hb x hx y hy => by
        cases hx
        cases hy
        simp [hcmp a ha b hb, Except.toOption]
    rw [List.filterMap_some, List.filterMap_some] at hsort
    rw [hsort]

/-! ## The table and the query -/

/-- What a `SELECT` gets out of a table. The three indexes give rows for the queries they
answer; a lookup by primary key gives rows that the later stages still filter. -/
structure TableView (F : Type) where
  schema : List ColumnSchema
  scan : Result (List (Row F))
  columnar : Option (List (Row F))
  vector_index : SelectBody F → Option (List (Row F))
  gin_index : SelectBody F → Option (List (Row F))
  pk_lookup : SelectBody F → Option (Result (List (Row F)))

variable {F : Type} (rt : Runtime F) (float_text : F → String) (std : SortBy (Row F))
  (windows : List (SelectColumn F) → List ColumnSchema → List (Row F) →
    List ColumnSchema × List (Row F))

def eval_literal (expr_text : Expr F → String) : Expr F → Result (Value F)
  | .IntLit n => .ok (.Int64 n)
  | .FloatLit f => .ok (.Float64 f)
  | .StrLit s => .ok (.Text s)
  | .BoolLit b => .ok (.Bool b)
  | .Null => .ok .Null
  | .UnaryOp .Neg expr => do
    let v ← eval_literal expr_text expr
    negate rt v
  | other => execution ("expected literal, got " ++ expr_text other)

/-- `n as usize`. -/
def as_usize (n : Int64) : ℕ := (n.toInt % 2 ^ 64).toNat

/-- The number of a `LIMIT` or an `OFFSET`; anything but an integer is as if it were absent. -/
def limit_count (expr : Option (Expr F)) : Result (Option ℕ) :=
  match expr with
  | none => .ok none
  | some e => do
    match ← ok_of (eval_literal rt (fun _ => "") e) with
    | some (.Int64 n) => .ok (some (as_usize n))
    | _ => .ok none

variable (sel : SelectBody F) (schema : List ColumnSchema) (rows : List (Row F))
  (items : List (OrderByItem F))

/-- The query aggregates. -/
def aggregates : Bool := !sel.group_by.isEmpty || has_aggregates rt sel.columns

/-! ## Stages -/

def passes_where (row : Row F) : Result Bool :=
  match sel.where_clause with
  | none => .ok true
  | some expr => unwrap_or ((eval_expr rt schema row expr).map (is_truthy rt)) false

def filter_rows :
    Result (List (Row F)) :=
  keep (passes_where rt sel schema) rows

/-- The comparison of `ORDER BY`: a later item decides where the earlier ones are equal, and
values that cannot be compared count as equal. -/
def order_cmp (schema : List ColumnSchema) : List (OrderByItem F) → Row F → Row F → Result Ordering
  | [], _, _ => .ok .eq
  | item :: items, a, b => do
    let va ← eval_or_null rt schema a item.expr
    let vb ← eval_or_null rt schema b item.expr
    let cmp := (va.partial_cmp rt vb).getD .eq
    let cmp := if item.asc then cmp else cmp.swap
    if cmp ≠ .eq then .ok cmp else order_cmp schema items a b

def order_rows :
    Result (List (Row F)) :=
  if sel.order_by.isEmpty then .ok rows
  else std.sort_by (order_cmp rt schema sel.order_by) rows

/-- `skip(offset)` and `take(limit)`. -/
def cut {α : Type} (offset limit : Option ℕ) (rows : List α) : List α :=
  let skipped := rows.drop (offset.getD 0)
  match limit with
  | none => skipped
  | some n => skipped.take n

def limit_rows {α : Type} (rows : List α) : Result (List α) := do
  let offset ← limit_count rt sel.offset
  let limit ← limit_count rt sel.limit
  .ok (cut offset limit rows)

/-- The columns of the answer and its rows, for an index that answers on its own. -/
def project (columns : List (SelectColumn F)) (schema : List ColumnSchema) (rows : List (Row F)) :
    Result (List String × List (Row F)) := do
  let names := columns.flatMap fun
    | .Star => schema.map (·.name)
    | .Expr (.ColumnRef _ column) none => [column]
    | .Expr _ none => ["?column?"]
    | .Expr _ (some a) => [a]
  let projected ← rows.mapM fun row => do
    let parts ← columns.mapM fun
      | .Star => schema.zipIdx.mapM fun c => index row c.2
      | .Expr expr _ => do .ok [← eval_expr rt schema row expr]
    .ok parts.flatten
  .ok (names, projected)

/-- `exec_select_with_cte` on a table, up to the tag of the answer. -/
def exec_select (t : TableView F) (sel : SelectBody F) : Result (List String × List (Row F)) :=
  match t.vector_index sel with
  | some rows => project rt sel.columns t.schema rows
  | none =>
    match t.columnar, aggregates rt sel with
    | some col_rows, true => do
      let filtered ← filter_rows rt sel t.schema col_rows
      apply_group_by rt float_text sel.group_by sel.columns sel.having t.schema filtered
    | _, _ =>
      match t.gin_index sel with
      | some rows => project rt sel.columns t.schema rows
      | none => do
        let source_rows ← (t.pk_lookup sel).getD t.scan
        let filtered ← filter_rows rt sel t.schema source_rows
        let ordered ← order_rows rt std sel t.schema filtered
        let limited ← limit_rows rt sel ordered
        if aggregates rt sel then
          apply_group_by rt float_text sel.group_by sel.columns sel.having t.schema limited
        else
          let (schema, limited) := windows sel.columns t.schema limited
          project rt sel.columns schema limited

/-! ## The order of SQL -/

/-- The comparison of `ORDER BY` on rows where no evaluation panics. -/
def order_of (a b : Row F) : Ordering :=
  (order_cmp rt schema items a b).toOption.getD .eq

/-- `a` may stand before `b`. -/
def OrderLe (a b : Row F) : Prop :=
  order_of rt schema items a b ≠ .gt

instance (schema : List ColumnSchema) (items : List (OrderByItem F)) :
    DecidableRel (OrderLe rt schema items) := fun _ _ => instDecidableNot

/-- The rows that qualify for the query. -/
def qualifying (source_rows : Result (List (Row F))) :
    Result (List (Row F)) := do
  filter_rows rt sel schema (← source_rows)

/-- The result row of a group with the first row of the group, unless `HAVING` drops it. -/
def group_entry :
    Result (Option (Row F × Row F)) := do
  let r ← group_result rt float_text sel.columns sel.having schema rows
  .ok (r.map fun r => (rows.headD [], r))

def group_entries :
    Result (List (Row F × Row F)) := do
  let groups ← group_rows rt sel.group_by schema rows
  let entries ← groups.mapM (group_entry rt float_text sel schema)
  .ok entries.reduceOption

/-- The result rows in the order of `ORDER BY`. -/
def order_entries (entries : List (Row F × Row F)) : List (Row F × Row F) :=
  entries.insertionSort fun e e' => OrderLe rt schema items e.1 e'.1

/-- Filter, group and aggregate, and only then order the result rows, skip and limit. -/
def grouped_answer (t : TableView F) (sel : SelectBody F) : Result (List (Row F)) := do
  let rows ← qualifying rt sel t.schema t.scan
  let entries ← group_entries rt float_text sel t.schema rows
  let ordered := order_entries rt t.schema sel.order_by entries
  limit_rows rt sel (ordered.map Prod.snd)

end Oigrap.Sql
