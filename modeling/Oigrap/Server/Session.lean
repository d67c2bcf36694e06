/-
`crates/server/src/session.rs`: values on the wire, and parameters put into a query.

`substitute_params` walks over the bytes of the query and pushes each one as a character of
its own. Whether the value of a parameter is quoted depends on what it looks like.
-/
import Oigrap.Lib.Cursor
import Oigrap.Lib.Strings
import Oigrap.Sql.Lexer

namespace Oigrap.Server

open Oigrap.Sql (Value parse_i64 is_f64 is_digit digits_value)

variable {F : Type}

structure QueryResult (F : Type) where
  columns : List Text
  rows : List (List (Value F))
  rows_affected : ℕ
  tag : Text

structure PreparedStmt where
  name : Text
  query : Text
  param_types : List ℕ

structure Portal (F : Type) where
  stmt : PreparedStmt
  params : List (Option (List UInt8))
  param_formats : List ℤ
  result_formats : List ℤ
  result : Option (QueryResult F)
  cursor : ℕ

/-- What the server takes from the standard library and the engine: case mapping, how floats
are printed, replacement of malformed UTF-8, and `DbHandle::execute`, which may panic. -/
structure Env (Db F : Type) where
  to_uppercase : Text → Text
  to_lowercase : Text → Text
  is_nan : F → Bool
  is_infinite : F → Bool
  is_positive : F → Bool
  display : F → Text
  from_utf8_lossy : List UInt8 → Text
  execute : Db → Text → Option (Except Text (QueryResult F)) × Db

variable {Db : Type} (env : Env Db F)

/-! ## Values -/

def value_type_oid : Value F → ℕ
  | .Bool _ => 16
  | .Int64 _ => 20
  | .Float64 _ => 701
  | .Text _ => 25
  | .Null => 25

/-- The text of a value, and whether it is NULL. -/
def encode_value_text : Value F → Text × Bool
  | .Null => ([], true)
  | .Bool b => (if b then ['t'] else ['f'], false)
  | .Int64 n => ((toString n.toInt).toList, false)
  | .Float64 f =>
    if env.is_nan f then ("NaN".toList, false)
    else if env.is_infinite f then
      ((if env.is_positive f then "Infinity" else "-Infinity").toList, false)
    else (env.display f, false)
  | .Text s => (s.toList, false)

/-! ## Parameters -/

/-- Values that are put into the query as they are. -/
def looks_literal (s : Text) : Bool :=
  (parse_i64 s).isSome || is_f64 s ||
    (String.ofList s ∈ ["t", "f", "true", "false"] : Bool)

/-- `s` with every quote doubled, in quotes. -/
def quoted (s : Text) : Text :=
  '\'' :: (s.flatMap (fun c => if c = '\'' then ['\'', '\''] else [c]) ++ ['\''])

/-- The text that takes the place of a parameter. -/
def literal_text (param : Option (List UInt8)) (fmt : ℤ) : Text :=
  match param with
  | none => "NULL".toList
  | some bytes =>
    if fmt = 1 then
      if bytes.length = 8 then (toString ((Cursor.be_nat bytes : ℤ).bmod (2 ^ 64))).toList
      else "NULL".toList
    else
      let s := env.from_utf8_lossy bytes
      if looks_literal s then s else quoted s

/-- `str::parse::<usize>` on digits. -/
def parse_usize (digits : Text) : Option ℕ :=
  if digits ≠ [] ∧ digits_value digits < 2 ^ 64 then some (digits_value digits) else none

/-- The number of the placeholder whose `$` is followed by `rest`, when it names a
parameter, and the bytes of its number. -/
def placeholder (count : ℕ) (rest : List UInt8) : Option (ℕ × ℕ) :=
  let digits := rest.takeWhile Sql.Lexer.is_digit_byte
  (parse_usize (digits.map Char.ofUInt8)).bind fun idx =>
    if 1 ≤ idx ∧ idx ≤ count then some (idx, digits.length) else none

/-- The loop of `substitute_params` over the bytes that are left; `skip` of them belong to a
placeholder already replaced. -/
def substitute_from (params : List (Option (List UInt8))) (formats : List ℤ) :
    ℕ → List UInt8 → Text
  | _, [] => []
  | skip + 1, _ :: rest => substitute_from params formats skip rest
  | 0, b :: rest =>
    match (if Char.ofUInt8 b = '$' then placeholder params.length rest else none) with
    | some (idx, len) =>
      literal_text env (params.getD (idx - 1) none) (formats.getD (idx - 1) 0) ++
        substitute_from params formats len rest
    | none => Char.ofUInt8 b :: substitute_from params formats 0 rest

def substitute_params (sql : Text) (params : List (Option (List UInt8))) (formats : List ℤ) :
    Text :=
  if params = [] then sql else substitute_from env params formats 0 (into_bytes sql)

end Oigrap.Server
