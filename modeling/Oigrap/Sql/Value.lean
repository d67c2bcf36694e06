/-
Values and errors of the SQL engine: `crates/sql/src/value.rs`, `error.rs`, `catalog.rs`, and
the operators on values of `executor.rs`.

`f64` is a type parameter `F`. Its arithmetic, the case mapping of strings, the `Debug` text
of a value, the JSON and vector operators and the thread-local caches of the graph functions
come in through a `Runtime`; nothing is assumed about them. A panic is kept apart from an
`Err`: the executor turns an `Err` of a join condition into `false`, and a panic into nothing.
-/
import Mathlib.Data.Int.Basic
import Oigrap.Storage.Page

namespace Oigrap.Sql

open Oigrap.Storage (StorageError)

/-! ## Errors -/

/-- `SqlError`. A parse error keeps its position. -/
inductive SqlError where
  | Parse (line col : ℕ) (message : String)
  | Semantic (message : String)
  | Execution (message : String)
  | Storage (e : StorageError)
  deriving DecidableEq, Repr

inductive Fault where
  | Err (e : SqlError)
  | panic
  deriving DecidableEq, Repr

abbrev Result (α : Type) := Except Fault α

/-- `Err(SqlError::Execution(msg))`. -/
def execution {α : Type} (msg : String) : Result α := .error (.Err (.Execution msg))

def semantic {α : Type} (msg : String) : Result α := .error (.Err (.Semantic msg))

/-- `Result::unwrap_or`: a default for an `Err`, not for a panic. -/
def unwrap_or {α : Type} (x : Result α) (default : α) : Result α :=
  match x with
  | .error (.Err _) => .ok default
  | other => other

/-! ## Types -/

inductive DataType where
  | Boolean
  | Int16 | Int32 | Int64
  | Float32 | Float64
  | Text
  | Varchar (n : ℕ)
  | Char (n : ℕ)
  | Bytea
  | Timestamp | Date | Time
  | Json | Jsonb
  | Vector (n : ℕ)
  deriving DecidableEq, Repr

/-- The derived `Debug` text. -/
def DataType.debug : DataType → String
  | .Boolean => "Boolean"
  | .Int16 => "Int16"
  | .Int32 => "Int32"
  | .Int64 => "Int64"
  | .Float32 => "Float32"
  | .Float64 => "Float64"
  | .Text => "Text"
  | .Varchar n => "Varchar(" ++ toString n ++ ")"
  | .Char n => "Char(" ++ toString n ++ ")"
  | .Bytea => "Bytea"
  | .Timestamp => "Timestamp"
  | .Date => "Date"
  | .Time => "Time"
  | .Json => "Json"
  | .Jsonb => "Jsonb"
  | .Vector n => "Vector(" ++ toString n ++ ")"

inductive SqlType where
  | Boolean
  | Int64
  | Float64
  | Text
  deriving DecidableEq, Repr

structure ColumnSchema where
  name : String
  sql_type : SqlType
  nullable : Bool
  primary_key : Bool
  deriving DecidableEq, Repr

/-! ## Values -/

inductive Value (F : Type) where
  | Null
  | Bool (b : Bool)
  | Int64 (n : Int64)
  | Float64 (f : F)
  | Text (s : String)
  deriving DecidableEq, Repr

abbrev Row (F : Type) := List (Value F)

inductive BinOp where
  | Add | Sub | Mul | Div | Mod
  | Eq | NotEq | Lt | Gt | LtEq | GtEq
  | And | Or
  | Like | NotLike
  | Concat
  | JsonGet | JsonGetText | JsonContains | JsonKeyExists | JsonMerge | JsonPath
  | VectorDist
  deriving DecidableEq, Repr

inductive UnOp where
  | Neg
  | Not
  deriving DecidableEq, Repr

/-- What the executor takes from elsewhere. `json_binop` is the part of `eval_binop` that
parses JSON or vector texts, on operands that are not NULL; `overflow_checks` is the build
setting that decides between a panic and wrapping; `depth`, `edges` and `pagerank` are the
thread-local `CTE_DEPTH`, `EDGE_CACHE` and `PAGERANK_CACHE`. -/
structure Runtime (F : Type) where
  overflow_checks : Bool
  of_i64 : Int64 → F
  of_usize : ℕ → F
  zero : F
  one : F
  tenth : F
  max_value : F
  add : F → F → F
  sub : F → F → F
  mul : F → F → F
  div : F → F → F
  rem : F → F → F
  neg : F → F
  max : F → F → F
  partial_cmp : F → F → Option Ordering
  eq : F → F → Bool
  lt : F → F → Bool
  to_lowercase : String → String
  to_uppercase : String → String
  fmt_debug : Value F → String
  json_binop : BinOp → Value F → Value F → Result (Value F)
  depth : Int64
  edges : String → List (Int64 × Int64)
  pagerank : String → Int64 → Option F

variable {F : Type} (rt : Runtime F)

def Value.is_null (v : Value F) :=
  match v with
  | .Null => true
  | _ => false

def Value.type_name : Value F → String
  | .Null => "null"
  | .Bool _ => "boolean"
  | .Int64 _ => "int64"
  | .Float64 _ => "float64"
  | .Text _ => "text"

def Value.coerce_to : Value F → DataType → Result (Value F)
  | .Null, _ => .ok .Null
  | .Int64 n, .Int64 | .Int64 n, .Int32 | .Int64 n, .Int16 => .ok (.Int64 n)
  | .Int64 n, .Float64 | .Int64 n, .Float32 => .ok (.Float64 (rt.of_i64 n))
  | .Float64 f, .Float64 | .Float64 f, .Float32 => .ok (.Float64 f)
  | .Bool b, .Boolean => .ok (.Bool b)
  | .Text s, .Text | .Text s, .Varchar _ | .Text s, .Char _ => .ok (.Text s)
  | v, target => semantic ("cannot coerce " ++ v.type_name ++ " to " ++ target.debug)

/-- The derived `PartialEq`: no conversion between integers and floats. -/
def Value.eq (v w : Value F) :=
  match v, w with
  | .Null, .Null => true
  | .Bool a, .Bool b => a == b
  | .Int64 a, .Int64 b => a == b
  | .Float64 a, .Float64 b => rt.eq a b
  | .Text a, .Text b => a == b
  | _, _ => false

def Value.partial_cmp : Value F → Value F → Option Ordering
  | .Null, .Null => some .eq
  | .Null, _ | _, .Null => none
  | .Int64 a, .Int64 b => some (compare a.toInt b.toInt)
  | .Float64 a, .Float64 b => rt.partial_cmp a b
  | .Int64 a, .Float64 b => rt.partial_cmp (rt.of_i64 a) b
  | .Float64 a, .Int64 b => rt.partial_cmp a (rt.of_i64 b)
  | .Text a, .Text b => some (compare a b)
  | .Bool a, .Bool b => some (compare a b)
  | _, _ => none

def is_truthy : Value F → Bool
  | .Bool b => b
  | .Null => false
  | .Int64 n => n != 0
  | .Float64 f => !rt.eq f rt.zero
  | .Text s => !s.isEmpty

/-! ## Operators -/

/-- The result of `+`, `-`, `*` or a negation on `i64`. -/
def i64 (n : ℤ) : Result Int64 :=
  if -2 ^ 63 ≤ n ∧ n < 2 ^ 63 then .ok (Int64.ofInt n)
  else if rt.overflow_checks then .error .panic
  else .ok (Int64.ofInt n)

/-- `a / b` or `a % b` on `i64`: a zero divisor and `i64::MIN` by `-1` panic in every build. -/
def i64_div (op : ℤ → ℤ → ℤ) (a b : Int64) : Result Int64 :=
  if b = 0 ∨ (a = Int64.minValue ∧ b = -1) then .error .panic
  else .ok (Int64.ofInt (op a.toInt b.toInt))

def numeric_binop (l r : Value F) (int_op : Int64 → Int64 → Result Int64)
    (float_op : F → F → F) : Result (Value F) :=
  match l, r with
  | .Int64 a, .Int64 b => (int_op a b).map .Int64
  | .Float64 a, .Float64 b => .ok (.Float64 (float_op a b))
  | .Int64 a, .Float64 b => .ok (.Float64 (float_op (rt.of_i64 a) b))
  | .Float64 a, .Int64 b => .ok (.Float64 (float_op a (rt.of_i64 b)))
  | l, r => execution ("arithmetic on " ++ rt.fmt_debug l ++ " and " ++ rt.fmt_debug r)

/-- The first row of the table of `like_match`: the empty text against each start of the
pattern. -/
def like_first (left : Bool) : List Char → List Bool
  | [] => [left]
  | q :: qs => left :: like_first (q = '%' && left) qs

/-- The row for one more character `c`, from the row above. -/
def like_next (c : Char) (left : Bool) : List Bool → List Char → List Bool
  | diag :: up :: above, q :: qs =>
    left :: like_next c
      (if q = '%' then up || left else if q = '_' || q = c then diag else false) (up :: above) qs
  | _, _ => [left]

def like_match (s pattern : String) : Bool :=
  (s.toList.foldl (fun dp c => like_next c false dp pattern.toList)
    (like_first true pattern.toList)).getLastD false

def eval_binop (op : BinOp) (l r : Value F) : Result (Value F) :=
  if l.is_null || r.is_null then .ok .Null
  else match op with
  | .Add => numeric_binop rt l r (fun a b => i64 rt (a.toInt + b.toInt)) rt.add
  | .Sub => numeric_binop rt l r (fun a b => i64 rt (a.toInt - b.toInt)) rt.sub
  | .Mul => numeric_binop rt l r (fun a b => i64 rt (a.toInt * b.toInt)) rt.mul
  | .Div =>
    match l, r with
    | .Int64 a, .Int64 b =>
      if b = 0 then execution "division by zero" else (i64_div Int.tdiv a b).map .Int64
    | _, _ => numeric_binop rt l r (i64_div Int.tdiv) rt.div
  | .Mod => numeric_binop rt l r (i64_div Int.tmod) rt.rem
  | .Eq => .ok (.Bool (l.eq rt r))
  | .NotEq => .ok (.Bool (!l.eq rt r))
  | .Lt => .ok (.Bool ((l.partial_cmp rt r).any (· == .lt)))
  | .Gt => .ok (.Bool ((l.partial_cmp rt r).any (· == .gt)))
  | .LtEq => .ok (.Bool ((l.partial_cmp rt r).any (· != .gt)))
  | .GtEq => .ok (.Bool ((l.partial_cmp rt r).any (· != .lt)))
  | .And => .ok (.Bool (is_truthy rt l && is_truthy rt r))
  | .Or => .ok (.Bool (is_truthy rt l || is_truthy rt r))
  | .Concat =>
    match l, r with
    | .Text a, .Text b => .ok (.Text (a ++ b))
    | _, _ => execution "|| requires text operands"
  | .Like | .NotLike =>
    match l, r with
    | .Text s, .Text pat =>
      .ok (.Bool (if op = .Like then like_match s pat else !like_match s pat))
    | _, _ => execution "LIKE requires text operands"
  | op => rt.json_binop op l r

/-! ## A runtime to evaluate with -/

/-- `f64` by rational numbers, which agree with it on small numbers. -/
def demo_runtime : Runtime ℚ where
  overflow_checks := true
  of_i64 n := n.toInt
  of_usize n := n
  zero := 0
  one := 1
  tenth := 1 / 10
  max_value := 2 ^ 1024 - 2 ^ 971
  add := (· + ·)
  sub := (· - ·)
  mul := (· * ·)
  div := (· / ·)
  rem a b := a - b * (a / b).floor
  neg := (- ·)
  max := max
  partial_cmp a b := some (compare a b)
  eq a b := a = b
  lt a b := a < b
  to_lowercase := String.toLower
  to_uppercase := String.toUpper
  fmt_debug
    | .Null => "Null"
    | .Bool b => "Bool(" ++ toString b ++ ")"
    | .Int64 n => "Int64(" ++ toString n.toInt ++ ")"
    | .Float64 f => "Float64(" ++ toString f ++ ")"
    | .Text s => "Text(\"" ++ s ++ "\")"
  json_binop _ _ _ := execution "not a JSON text"
  depth := 0
  edges _ := []
  pagerank _ _ := none

def int_column (name : String) : ColumnSchema := ⟨name, .Int64, true, false⟩

end Oigrap.Sql
