/-
Joins: the join helpers of `crates/sql/src/executor.rs` and the partitioning of `spill.rs`.

A spill file gives back the rows written to it. A hash map from texts to rows is a function
that is empty where the map has no entry.
-/
import Mathlib.Logic.Function.Basic
import Oigrap.Sql.Expr

namespace Oigrap.Sql

inductive JoinKind where
  | Inner | Left | Right | Full | Cross
  deriving DecidableEq, Repr

inductive JoinCondition (F : Type) where
  | On (expr : Expr F)
  | Using (cols : List String)

mutual

inductive TableRef (F : Type) where
  | mk (name : String) (as_name : Option String) (join : Option (JoinClause F))

inductive JoinClause (F : Type) where
  | mk (kind : JoinKind) (right : TableRef F) (condition : JoinCondition F)

end

/-- One entry of the flattened `FROM` clause: `(name, alias, join_kind, condition)`. -/
structure Step (F : Type) where
  name : String
  as_name : Option String
  kind : Option JoinKind
  condition : Option (JoinCondition F)

variable {F : Type} (rt : Runtime F)

mutual

def flatten_join_node : Option (JoinClause F) → List (Step F)
  | none => []
  | some jc => jc.flatten

def JoinClause.flatten : JoinClause F → List (Step F)
  | .mk kind right condition => right.flatten kind condition

/-- A table on the right of a join, and the joins chained to it. -/
def TableRef.flatten (kind : JoinKind) (condition : JoinCondition F) : TableRef F → List (Step F)
  | .mk name as_name join =>
    ⟨name, as_name, some kind, some condition⟩ :: flatten_join_node join

end

def flatten_join_tree : List (TableRef F) → List (Step F)
  | [] => []
  | .mk name as_name join :: rest =>
    ⟨name, as_name, none, none⟩ :: (flatten_join_node join ++ flatten_join_tree rest)

def qualify_schema (schema : List ColumnSchema) (table_qualifier : String) :
    List ColumnSchema :=
  schema.map fun col => { col with name := table_qualifier ++ "." ++ col.name }

/-! ## Loops that may panic -/

section Loops

variable {α β : Type}

/-- The elements that pass, in order. -/
def keep (f : α → Result Bool) : List α → Result (List α)
  | [] => .ok []
  | x :: xs => do
    let pass ← f x
    let rest ← keep f xs
    .ok (if pass then x :: rest else rest)

/-- What a loop pushes, one element after the other. -/
def collect (f : α → Result (List β)) : List α → Result (List β)
  | [] => .ok []
  | x :: xs => do
    let out ← f x
    let rest ← collect f xs
    .ok (out ++ rest)

/-- `iter().any(..)`, which stops at the first hit. -/
def any_match (f : α → Result Bool) : List α → Result Bool
  | [] => .ok false
  | x :: xs => do
    let pass ← f x
    if pass then .ok true else any_match f xs

end Loops

/-! ## Conditions -/

/-- `t.c`, or `c` for a reference without a table. -/
def key_text : Option String → String → String
  | some t, c => t ++ "." ++ c
  | none, c => c

def extract_eq_cols : JoinCondition F → Option (String × String)
  | .On (.BinaryOp .Eq (.ColumnRef lt lc) (.ColumnRef rt' rc)) =>
    some (key_text lt lc, key_text rt' rc)
  | _ => none

def swap_condition : JoinCondition F → JoinCondition F
  | .On (.BinaryOp .Eq left right) => .On (.BinaryOp .Eq right left)
  | other => other

def using_match (left_schema : List ColumnSchema) (left_row : Row F)
    (right_schema : List ColumnSchema) (right_row : Row F) : List String → Result Bool
  | [] => .ok true
  | col :: cols =>
    match position rt (.key col) left_schema, position rt (.key col) right_schema with
    | some l, some r => do
      let a ← index left_row l
      let b ← index right_row r
      if a.eq rt b then using_match left_schema left_row right_schema right_row cols
      else .ok false
    | _, _ => .ok false

variable (left_schema : List ColumnSchema) (left_rows : List (Row F))

/-- Whether a pair of rows meets the condition; an `ON` that fails counts as false. -/
def passes (right_schema combined_schema : List ColumnSchema) (condition : JoinCondition F)
    (left_row right_row : Row F) : Result Bool :=
  match condition with
  | .On expr =>
    unwrap_or ((eval_expr rt combined_schema (left_row ++ right_row) expr).map (is_truthy rt))
      false
  | .Using cols => using_match rt left_schema left_row right_schema right_row cols

/-! ## The join algorithms -/

def nested_loop_join (right_schema : List ColumnSchema) (right_rows : List (Row F))
    (combined_schema : List ColumnSchema) (condition : JoinCondition F) (is_outer : Bool)
    (null_right : Row F) : Result (List (Row F)) :=
  collect (fun left_row => do
    let matched ← keep
      (passes rt left_schema right_schema combined_schema condition left_row) right_rows
    .ok (if is_outer && matched.isEmpty then [left_row ++ null_right]
      else matched.map (left_row ++ ·))) left_rows

/-- `format!("{:?}", &row[col])`. -/
def debug_key (row : Row F) (col : ℕ) : Result String := do
  let v ← index row col
  .ok (rt.fmt_debug v)

/-- `hash.entry(key).or_default().push(row.clone())` for every row. -/
def build_hash (col : ℕ) : List (Row F) → (String → List (Row F)) → Result (String → List (Row F))
  | [], hash => .ok hash
  | row :: rows, hash => do
    let key ← debug_key rt row col
    build_hash col rows (Function.update hash key (hash key ++ [row]))

def hash_join (left_col : ℕ) (right_rows : List (Row F)) (right_col : ℕ)
    : Result (List (Row F)) := do
  let hash ← build_hash rt right_col right_rows fun _ => []
  collect (fun left_row => do
    let key ← debug_key rt left_row left_col
    .ok ((hash key).map (left_row ++ ·))) left_rows

/-- FNV-1a, 64 bits. -/
def hash_str (s : String) : UInt64 :=
  s.toUTF8.toList.foldl (fun h b => (h ^^^ b.toUInt64) * 1099511628211) 14695981039346656037

def partition_rows (key_col k : ℕ) : List (Row F) → List (List (Row F)) →
    Result (List (List (Row F)))
  | [], writers => .ok writers
  | row :: rows, writers => do
    let key ← debug_key rt row key_col
    partition_rows key_col k rows
      (writers.modify ((hash_str key).toNat % k) (· ++ [row]))

def HASH_JOIN_SPILL_THRESHOLD : ℕ := 100000

def partition_hash_join (left_key_col : ℕ) (right_rows : List (Row F)) (right_key_col : ℕ)
    : Result (List (Row F)) := do
  let k := min (max (right_rows.length / HASH_JOIN_SPILL_THRESHOLD + 1) 2) 256
  let left_files ← partition_rows rt left_key_col k left_rows (List.replicate k [])
  let right_files ← partition_rows rt right_key_col k right_rows (List.replicate k [])
  collect (fun files : List (Row F) × List (Row F) =>
    if files.2.isEmpty then .ok []
    else hash_join rt files.1 left_key_col files.2 right_key_col) (left_files.zip right_files)

def apply_join (right_schema : List ColumnSchema) (right_rows : List (Row F)) (kind : JoinKind)
    (condition : JoinCondition F) : Result (List ColumnSchema × List (Row F)) := do
  let combined_schema := left_schema ++ right_schema
  let null_right : Row F := right_schema.map fun _ => .Null
  let null_left : Row F := left_schema.map fun _ => .Null
  let inner := nested_loop_join rt left_schema left_rows right_schema right_rows combined_schema
    condition false null_right
  let outer := nested_loop_join rt left_schema left_rows right_schema right_rows combined_schema
    condition true null_right
  let result ← match kind with
    | .Cross => .ok (left_rows.flatMap fun left_row => right_rows.map (left_row ++ ·))
    | .Inner =>
      match extract_eq_cols condition with
      | some (left_col, right_col) =>
        match position rt (.key left_col) left_schema, position rt (.key right_col) right_schema
        with
        | some li, some ri =>
          if right_rows.length > HASH_JOIN_SPILL_THRESHOLD then
            partition_hash_join rt left_rows li right_rows ri
          else hash_join rt left_rows li right_rows ri
        | _, _ => inner
      | none => inner
    | .Left => outer
    | .Right => do
      -- The sides are swapped, and the columns moved back afterwards.
      let swapped ← nested_loop_join rt right_schema right_rows left_schema left_rows
        (right_schema ++ left_schema) (swap_condition condition) true null_left
      .ok (swapped.map fun row =>
        row.drop right_schema.length ++ row.take right_schema.length)
    | .Full => do
      let matched ← outer
      let unmatched ← keep (fun right_row => do
        let has_match ← any_match
          (fun left_row => passes rt left_schema right_schema combined_schema condition
            left_row right_row) left_rows
        .ok (!has_match)) right_rows
      .ok (matched ++ unmatched.map (null_left ++ ·))
  .ok (combined_schema, result)

end Oigrap.Sql
