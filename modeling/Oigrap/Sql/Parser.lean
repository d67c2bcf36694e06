/-
`crates/sql/src/parser.rs`: from tokens to a statement.

The state of the parser is the list of tokens that are left. A parser of expressions takes the
parser for the expressions inside as an argument, with the binding power, and `parse_expr` ties
the knot. `depth` bounds how deep the calls nest and how often a loop runs; when it is used up
the parser panics, as the source does when its stack is used up.

`debug` is the derived `Debug` text of a token, `to_uppercase` that of `str`.
-/
import Oigrap.Lib.Parsing
import Oigrap.Sql.Ast
import Oigrap.Sql.Lexer

namespace Oigrap.Sql

/-- Two texts that differ only in the case of ASCII letters. -/
def eq_ignore_ascii_case (s t : String) : Bool :=
  s.toList.map Char.toLower == t.toList.map Char.toLower

namespace Parser

open Parsing

structure Texts (F : Type) where
  debug : Token F → String
  to_uppercase : String → String

abbrev Parser (F : Type) := Parsing.Parser (Token F) Fault

variable {F : Type} [DecidableEq F] (texts : Texts F) {α : Type}

/-! ## Token stream helpers -/

def peek : Parser F (Token F) := Parsing.peek .EOF

def advance : Parser F (Token F) := Parsing.advance .EOF

def err (msg : String) : Parser F α := throw (.Err (.Parse 0 0 msg))

def expect (expected : Token F) : Parser F Unit := do
  if ← skip .EOF expected then return ()
  else err ("expected " ++ texts.debug expected ++ ", got " ++ texts.debug (← peek))

def keyword_as_ident : Token F → Option String
  | .Text => some "text"
  | .Row => some "row"
  | _ => none

/-- The name that a token stands for where a name is expected. -/
def ident_of : Token F → Option String
  | .Ident s | .QuotedIdent s => some s
  | tok => keyword_as_ident tok

def expect_ident : Parser F String := do
  let tok ← advance
  match ident_of tok with
  | some s => return s
  | none => err ("expected identifier, got " ++ texts.debug tok)

/-- `expect_ident().unwrap_or(..)`: the token is consumed also when it is not a name. -/
def expect_ident_or (default : String) : Parser F String := do
  let tok ← advance
  return (ident_of tok).getD default

/-- `matches!(tok, Token::Ident(s) if s.eq_ignore_ascii_case(word))`. -/
def is_word (word : String) : Token F → Bool
  | .Ident s => eq_ignore_ascii_case s word
  | _ => false

def is_ident : Token F → Bool
  | .Ident _ => true
  | _ => false

/-- `p` and the loop `while self.peek() == &Token::Comma`. -/
def comma_separated (depth : ℕ) (p : Parser F α) : Parser F (List α) :=
  separated .EOF .Comma .panic p depth

def parse_ident_list (depth : ℕ) : Parser F (List String) := comma_separated depth (expect_ident texts)

/-- What `p` reads, in parentheses. -/
def parenthesized (p : Parser F α) : Parser F α := do
  expect texts .LeftParen
  let x ← p
  expect texts .RightParen
  return x

/-! ## Expressions -/

/-- The binding powers. -/
def infix_bp : Token F → ℕ × ℕ
  | .Or => (10, 11)
  | .And => (20, 21)
  | .Not => (22, 22)
  | .Is | .Between | .In => (30, 30)
  | .Like | .Contains | .QuestionMark | .HashArrow => (30, 31)
  | .Eq | .NotEq => (40, 41)
  | .Lt | .Gt | .LtEq | .GtEq => (50, 51)
  | .Concat => (55, 56)
  | .Plus | .Minus | .Arrow | .DoubleArrow | .VectorDist => (60, 61)
  | .Star | .Slash | .Percent => (70, 71)
  | .Caret => (80, 79)
  | _ => (0, 0)

def tok_to_binop : Token F → Option BinOp
  | .Plus => some .Add
  | .Minus => some .Sub
  | .Star => some .Mul
  | .Slash => some .Div
  | .Percent => some .Mod
  | .Eq => some .Eq
  | .NotEq => some .NotEq
  | .Lt => some .Lt
  | .Gt => some .Gt
  | .LtEq => some .LtEq
  | .GtEq => some .GtEq
  | .And => some .And
  | .Or => some .Or
  | .Like => some .Like
  | .Concat => some .Concat
  | .Arrow => some .JsonGet
  | .DoubleArrow => some .JsonGetText
  | .Contains => some .JsonContains
  | .QuestionMark => some .JsonKeyExists
  | .HashArrow => some .JsonPath
  | .VectorDist => some .VectorDist
  | _ => none

def parse_usize : Parser F ℕ := do
  match ← advance with
  | .IntLiteral n =>
    if 0 ≤ n.toInt then return n.toInt.toNat
    else err ("expected positive integer, got " ++ texts.debug (.IntLiteral n))
  | other => err ("expected positive integer, got " ++ texts.debug other)

/-- The length of a `VARCHAR` or `CHAR`. -/
def optional_length (default : ℕ) : Parser F ℕ := do
  if ← skip .EOF .LeftParen then
    let n ← parse_usize texts
    expect texts .RightParen
    return n
  else return default

def parse_data_type : Parser F DataType := do
  match ← advance with
  | .Bool | .Boolean => return .Boolean
  | .Smallint => return .Int16
  | .Int | .Integer => return .Int32
  | .Bigint => return .Int64
  | .Float => return .Float32
  | .Double => do
    let _ ← skip .EOF .Precision
    return .Float64
  | .Text => return .Text
  | .Varchar => do return .Varchar (← optional_length texts 65535)
  | .Char => do return .Char (← optional_length texts 1)
  | .Bytea => return .Bytea
  | .Timestamp => return .Timestamp
  | .Date => return .Date
  | .Time => return .Time
  | .Json => return .Json
  | .Jsonb => return .Jsonb
  | .Vector => do return .Vector (← parenthesized texts (parse_usize texts))
  | other => err ("expected data type, got " ++ texts.debug other)

section

variable (depth : ℕ) (parse_expr : ℕ → Parser F (Expr F))

def parse_expr_list : Parser F (List (Expr F)) := comma_separated depth (parse_expr 0)

def parse_order_item : Parser F (OrderByItem F) := do
  let expr ← parse_expr 0
  let desc ← skip .EOF .Desc
  if desc then return ⟨expr, false, false⟩
  else
    let _ ← skip .EOF .Asc
    return ⟨expr, true, false⟩

def parse_order_by : Parser F (List (OrderByItem F)) := comma_separated depth (parse_order_item parse_expr)

def parse_arg_list : Parser F (List (Expr F)) := do
  let tok ← peek
  if tok = .RightParen then return []
  else if tok = .Star then
    let _ ← advance
    return [.Star]
  else parse_expr_list depth parse_expr

/-- The arguments of a call, with the closing parenthesis. -/
def parse_args : Parser F (List (Expr F)) := do
  let args ← parse_arg_list depth parse_expr
  expect texts .RightParen
  return args

/-- The functions that may have an `OVER` clause. -/
def is_window_function (uname : String) : Bool :=
  uname ∈ ["ROW_NUMBER", "RANK", "LAG", "LEAD"]

def parse_partition_by : Parser F (List (Expr F)) := do
  if is_word "PARTITION" (← peek) then
    let _ ← advance
    expect texts .By
    parse_expr_list depth parse_expr
  else return []

def parse_window_order : Parser F (List (Expr F × Bool)) := do
  if ← skip .EOF .Order then
    expect texts .By
    let items ← parse_order_by depth parse_expr
    return items.map fun item => (item.expr, !item.asc)
  else return []

/-- What stands behind `OVER`. -/
def parse_window (uname : String) (args : List (Expr F)) : Parser F (Expr F) := do
  expect texts .LeftParen
  let partition_by ← parse_partition_by texts depth parse_expr
  let order_by ← parse_window_order texts depth parse_expr
  expect texts .RightParen
  return .WindowFunc uname args partition_by order_by

/-- What stands behind a name. -/
def parse_name (name : String) : Parser F (Expr F) := do
  if ← skip .EOF .Dot then
    let col ← expect_ident texts
    if ← skip .EOF .LeftParen then
      let args ← parse_args texts depth parse_expr
      return .FunctionCall (texts.to_uppercase name ++ "." ++ texts.to_uppercase col) args false
    else return .ColumnRef (some name) col
  else if ← skip .EOF .LeftParen then
    let args ← parse_args texts depth parse_expr
    let uname := texts.to_uppercase name
    if is_window_function uname && is_word "OVER" (← peek) then
      let _ ← advance
      parse_window texts depth parse_expr uname args
    else return .FunctionCall uname args false
  else return .ColumnRef none name

def parse_prefix_from : Token F → Parser F (Expr F)
  | .IntLiteral n => return .IntLit n
  | .FloatLiteral f => return .FloatLit f
  | .StringLiteral s => return .StrLit s
  | .True => return .BoolLit true
  | .False => return .BoolLit false
  | .Null => return .Null
  | .Star => return .Star
  | .Minus => do return .UnaryOp .Neg (← parse_expr 70)
  | .Not => do return .UnaryOp .Not (← parse_expr 25)
  | .LeftParen => do
    let e ← parse_expr 0
    expect texts .RightParen
    return e
  | .Ident name | .QuotedIdent name => parse_name texts depth parse_expr name
  | .Cast => do
    expect texts .LeftParen
    let e ← parse_expr 0
    expect texts .As
    let target ← parse_data_type texts
    expect texts .RightParen
    return .Cast e target
  | other => err ("unexpected token in expression: " ++ texts.debug other)

def parse_head : Parser F (Expr F) := do
  parse_prefix_from texts depth parse_expr (← advance)

/-- What stands behind an operator, with `left` before it. A token that binds but is no
operator here (`^`, and `NOT` in front of anything but `IN`) gives nothing, and the loop ends
although the token has been consumed. -/
def parse_operator (right_bp : ℕ) (left : Expr F) : Token F → Parser F (Option (Expr F))
  | .Is => do
    let negate ← skip .EOF .Not
    expect texts .Null
    return some (if negate then .IsNotNull left else .IsNull left)
  | .Between => do
    let low ← parse_expr 21
    expect texts .And
    let high ← parse_expr 21
    return some (.Between left low high)
  | .In => do
    let list ← parenthesized texts (parse_expr_list depth parse_expr)
    return some (.In left list)
  | .Not => do
    if ← skip .EOF .In then
      let list ← parenthesized texts (parse_expr_list depth parse_expr)
      return some (.NotIn left list)
    else return none
  | op_tok =>
    match tok_to_binop op_tok with
    | some op => do
      let right ← parse_expr right_bp
      return some (.BinaryOp op left right)
    | none => return none

/-- The loop of `parse_expr`. -/
def infix_loop (min_bp : ℕ) : ℕ → Expr F → Parser F (Expr F)
  | 0, _ => throw .panic
  | n + 1, left => do
    let (left_bp, right_bp) := infix_bp (← peek)
    if left_bp = 0 ∨ left_bp < min_bp then return left
    else
      match ← parse_operator texts depth parse_expr right_bp left (← advance) with
      | some left => infix_loop min_bp n left
      | none => return left

end

def parse_expr : ℕ → ℕ → Parser F (Expr F)
  | 0, _ => throw .panic
  | depth + 1, min_bp => do
    let left ← parse_head texts depth (parse_expr depth)
    infix_loop texts depth (parse_expr depth) min_bp depth left

/-! ## `SELECT` -/

section

variable (depth : ℕ)

/-- `AS name`, or a bare name if `bare` allows the token. -/
def parse_alias (bare : Token F → Bool) : Parser F (Option String) := do
  if ← skip .EOF .As then some <$> expect_ident texts
  else if bare (← peek) then some <$> expect_ident texts
  else return none

def parse_select_column : Parser F (SelectColumn F) := do
  if ← skip .EOF .Star then return .Star
  else
    let expr ← parse_expr texts depth 0
    let as_name ← parse_alias texts is_ident
    return .Expr expr as_name

def parse_select_columns : Parser F (List (SelectColumn F)) :=
  comma_separated depth (parse_select_column texts depth)

/-- The words of a join, up to and with `JOIN`; none if there is no join. -/
def parse_join_kind : Parser F (Option JoinKind) := do
  match ← peek with
  | .Join => do
    let _ ← advance
    return some .Inner
  | .Inner => do
    let _ ← advance
    expect texts .Join
    return some .Inner
  | .Left => do
    let _ ← advance
    let _ ← skip .EOF .Outer
    expect texts .Join
    return some .Left
  | .Right => do
    let _ ← advance
    let _ ← skip .EOF .Outer
    expect texts .Join
    return some .Right
  | .Full => do
    let _ ← advance
    let _ ← skip .EOF .Outer
    expect texts .Join
    return some .Full
  | .Cross => do
    let _ ← advance
    expect texts .Join
    return some .Cross
  | _ => return none

def parse_join_condition (kind : JoinKind) : Parser F (JoinCondition F) := do
  if ← skip .EOF .On then
    return .On (← parse_expr texts depth 0)
  else if is_word "USING" (← peek) then
    let _ ← advance
    return .Using (← parenthesized texts (parse_ident_list texts depth))
  else if kind = .Cross then return .On (.BoolLit true)
  else err "expected ON or USING after JOIN"

/-- The right side of a join cannot have a quoted name as its bare alias, nor a schema. -/
def parse_optional_join : ℕ → Parser F (Option (JoinClause F))
  | 0 => throw .panic
  | n + 1 => do
    match ← parse_join_kind texts with
    | none => return none
    | some kind => do
      let right_name ← expect_ident texts
      let right_alias ← parse_alias texts is_ident
      let condition ← parse_join_condition texts depth kind
      let nested_join ← parse_optional_join n
      return some (.mk kind (.mk right_name right_alias nested_join) condition)

/-- A table name, with or without its schema. -/
def parse_table_name : Parser F String := do
  let first ← expect_ident texts
  if ← skip .EOF .Dot then
    let table ← expect_ident texts
    return first ++ "." ++ table
  else return first

def parse_table_ref : Parser F (TableRef F) := do
  let name ← parse_table_name texts
  let as_name ← parse_alias texts fun tok => is_ident tok || tok matches .QuotedIdent _
  let join ← parse_optional_join texts depth depth
  return .mk name as_name join

def parse_table_refs : Parser F (List (TableRef F)) :=
  comma_separated depth (parse_table_ref texts depth)

/-- The list behind a keyword, or the empty list. -/
def clause (kw : Token F) (p : Parser F (List α)) : Parser F (List α) := do
  return (← optional .EOF kw p).getD []

/-- `DISTINCT` or `ALL`. -/
def parse_distinct : Parser F Bool := do
  if ← skip .EOF .Distinct then return true
  else
    let _ ← skip .EOF .All
    return false

/-- A `SELECT` behind its `WITH` clause. -/
def parse_select_body : Parser F (SelectBody F) := do
  expect texts .Select
  let distinct ← parse_distinct
  let columns ← parse_select_columns texts depth
  let table_refs ← clause .From (parse_table_refs texts depth)
  let where_clause ← optional .EOF .Where (parse_expr texts depth 0)
  let group_by ← clause .Group do
    expect texts .By
    parse_expr_list depth (parse_expr texts depth)
  let having ← optional .EOF .Having (parse_expr texts depth 0)
  let order_by ← clause .Order do
    expect texts .By
    parse_order_by depth (parse_expr texts depth)
  let limit ← optional .EOF .Limit (parse_expr texts depth 0)
  let offset ← optional .EOF .Offset (parse_expr texts depth 0)
  return ⟨distinct, columns, table_refs, where_clause, group_by, having, order_by, limit, offset⟩

def parse_cte (parse_select : Parser F (SelectStmt F)) : Parser F (CteClause F) := do
  let recursive ← skip .EOF .Recursive
  let name ← expect_ident texts
  expect texts .As
  expect texts .LeftParen
  let left ← parse_select
  let union_body ← optional .EOF .Union do
    let all ← skip .EOF .All
    let right ← parse_select
    return (all, right)
  expect texts .RightParen
  return .mk name recursive left union_body

end

def parse_select : ℕ → Parser F (SelectStmt F)
  | 0 => throw .panic
  | depth + 1 => do
    let with_clauses ← clause .With (comma_separated depth (parse_cte texts (parse_select depth)))
    let body ← parse_select_body texts (depth + 1)
    return .mk with_clauses body

/-! ## The other statements -/

section

variable (depth : ℕ)

def parse_value_row : Parser F (List (Expr F)) :=
  parenthesized texts (parse_expr_list depth (parse_expr texts depth))

def parse_insert : Parser F (Statement F) := do
  expect texts .Insert
  expect texts .Into
  let table ← expect_ident texts
  let columns ← clause .LeftParen do
    let cols ← parse_ident_list texts depth
    expect texts .RightParen
    return cols
  expect texts .Values
  let rows ← comma_separated depth (parse_value_row texts depth)
  return .Insert ⟨table, columns, .Values rows⟩

def parse_assignment : Parser F (String × Expr F) := do
  let col ← expect_ident texts
  expect texts .Eq
  let val ← parse_expr texts depth 0
  return (col, val)

def parse_update : Parser F (Statement F) := do
  expect texts .Update
  let table ← expect_ident texts
  let as_name ← optional .EOF .As (expect_ident texts)
  expect texts .Set
  let assignments ← comma_separated depth (parse_assignment texts depth)
  let where_clause ← optional .EOF .Where (parse_expr texts depth 0)
  return .Update ⟨table, as_name, assignments, where_clause⟩

def parse_delete : Parser F (Statement F) := do
  expect texts .Delete
  expect texts .From
  let table ← expect_ident texts
  let as_name ← optional .EOF .As (expect_ident texts)
  let where_clause ← optional .EOF .Where (parse_expr texts depth 0)
  return .Delete ⟨table, as_name, where_clause⟩

/-- The loop of `parse_column_def` over the options of a column. -/
def parse_column_options : ℕ → ColumnDef F → Parser F (ColumnDef F)
  | 0, _ => throw .panic
  | n + 1, c => do
    match ← peek with
    | .Not => do
      let _ ← advance
      expect texts .Null
      parse_column_options n { c with nullable := false }
    | .Null => do
      let _ ← advance
      parse_column_options n { c with nullable := true }
    | .Primary => do
      let _ ← advance
      expect texts .Key
      parse_column_options n { c with primary_key := true, nullable := false }
    | .Unique => do
      let _ ← advance
      parse_column_options n { c with unique := true }
    | .Default => do
      let _ ← advance
      let e ← parse_expr texts depth 0
      parse_column_options n { c with default := some e }
    | _ => return c

def parse_column_def : Parser F (ColumnDef F) := do
  let name ← expect_ident texts
  let data_type ← parse_data_type texts
  parse_column_options texts depth depth ⟨name, data_type, true, none, false, false⟩

/-- An entry of a `CREATE TABLE`: a constraint or a column. -/
def parse_table_entry : Parser F (TableConstraint F ⊕ ColumnDef F) := do
  if ← skip .EOF .Primary then
    expect texts .Key
    return .inl (.PrimaryKey (← parenthesized texts (parse_ident_list texts depth)))
  else if ← skip .EOF .Unique then
    return .inl (.Unique (← parenthesized texts (parse_ident_list texts depth)))
  else return .inr (← parse_column_def texts depth)

def parse_storage : Parser F StorageLayout := do
  if ← skip .EOF .Storage then
    if ← skip .EOF .Columnar then return .Columnar
    else
      let _ ← skip .EOF .Row
      return .Row
  else return .Row

/-- `VECTOR` or `GIN` has been read. -/
def parse_index (word : String) : Parser F (String × String) := do
  let tok ← peek
  if tok = .Index then
    let _ ← advance
    expect texts .On
    let table ← expect_ident texts
    let column ← parenthesized texts (expect_ident texts)
    return (table, column)
  else err ("expected INDEX after " ++ word ++ ", got " ++ texts.debug tok)

/-- The entries give the columns and the constraints; a column that is marked as the primary
key adds a constraint behind them. -/
def create_table (table : String) (if_not_exists : Bool)
    (entries : List (TableConstraint F ⊕ ColumnDef F)) (storage : StorageLayout) : CreateTableStmt F :=
  let columns := entries.filterMap Sum.getRight?
  let marked := (columns.filter (·.primary_key)).map fun c => TableConstraint.PrimaryKey [c.name]
  ⟨table, if_not_exists, columns, entries.filterMap Sum.getLeft? ++ marked, storage⟩

def parse_if_not_exists : Parser F Bool := do
  if ← skip .EOF .If then
    expect texts .Not
    expect texts .Exists
    return true
  else return false

def parse_create_table : Parser F (Statement F) := do
  expect texts .Table
  let if_not_exists ← parse_if_not_exists texts
  let table ← expect_ident texts
  let entries ← parenthesized texts (comma_separated depth (parse_table_entry texts depth))
  let storage ← parse_storage
  return .CreateTable (create_table table if_not_exists entries storage)

def parse_create : Parser F (Statement F) := do
  expect texts .Create
  if ← skip .EOF .Vector then
    let (table, column) ← parse_index texts "VECTOR"
    return .CreateVectorIndex table column
  else if is_word "GIN" (← peek) then
    let _ ← advance
    let (table, column) ← parse_index texts "GIN"
    return .CreateGinIndex table column
  else parse_create_table texts depth

def parse_if_exists : Parser F Bool := do
  if ← skip .EOF .If then
    expect texts .Exists
    return true
  else return false

def parse_drop : Parser F (Statement F) := do
  expect texts .Drop
  expect texts .Table
  let if_exists ← parse_if_exists texts
  let table ← expect_ident texts
  return .DropTable ⟨table, if_exists⟩

end

/-! ## Session variables -/

/-- The text of a value in `SET`; any other token is consumed without one. -/
def set_value : Token F → String
  | .StringLiteral s | .Ident s => s
  | .IntLiteral n => toString n.toInt
  | _ => ""

/-- `if matches!(self.peek(), ..) { self.advance(); }`. -/
def skip_if (c : Token F → Bool) : Parser F Unit := do
  if c (← peek) then
    let _ ← advance
    return ()
  else return ()

/-- What stands behind `SET`: `[LOCAL | SESSION] name [= | TO] value`. -/
def parse_set : Parser F (Statement F) := do
  skip_if fun tok => is_word "LOCAL" tok || is_word "SESSION" tok
  let name ← expect_ident_or ""
  skip_if fun tok => tok = .Eq || is_word "TO" tok
  let value ← advance
  return .SetVar name (set_value value)

/-- The tokens up to the end of the statement are dropped. -/
def skip_statement : Parser F Unit := fun ts =>
  .ok ((), ts.dropWhile fun tok => tok ≠ .EOF ∧ tok ≠ .Semicolon)

/-! ## Statements -/

def parse_statement : ℕ → Parser F (Statement F)
  | 0 => throw .panic
  | depth + 1 => do
    match ← peek with
    | .Select | .With => do return .Select (← parse_select texts depth)
    | .Insert => parse_insert texts depth
    | .Update => parse_update texts depth
    | .Delete => parse_delete texts depth
    | .Create => parse_create texts depth
    | .Drop => parse_drop texts
    | .Begin | .Transaction => do
      let _ ← advance
      return .Begin
    | .Commit => do
      let _ ← advance
      return .Commit
    | .Rollback => do
      let _ ← advance
      return .Rollback
    | .Explain => do
      let _ ← advance
      return .Explain (← parse_statement depth)
    | .Analyze => do
      let _ ← advance
      return .Analyze (← expect_ident texts)
    | .Vacuum => do
      let _ ← advance
      return .Vacuum (← expect_ident texts)
    | .Set => do
      let _ ← advance
      parse_set
    | .Ident s =>
      if eq_ignore_ascii_case s "SHOW" then do
        let _ ← advance
        return .ShowVar (← expect_ident_or "search_path")
      else if eq_ignore_ascii_case s "DISCARD" || eq_ignore_ascii_case s "DEALLOCATE" then do
        skip_statement
        return .SetVar "discard" ""
      else err ("unexpected token " ++ texts.debug (.Ident s))
    | other => err ("unexpected token " ++ texts.debug other)

/-- `Parser::parse` on the tokens of the text: the statement, and an optional semicolon. The
tokens that are left are not looked at. -/
def parse_tokens (depth : ℕ) (tokens : List (Token F)) : Result (Statement F) := do
  let (stmt, rest) ← parse_statement texts depth tokens
  let _ ← skip .EOF .Semicolon rest
  return stmt

end Parser

end Oigrap.Sql
