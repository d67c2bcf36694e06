/-
`crates/sql/src/ast.rs`: statements.

Expressions and table references are with the code that evaluates them. A `SelectStmt` is
its `WITH` clauses and the rest, `SelectBody`, which is not recursive.
-/
import Oigrap.Sql.Join

namespace Oigrap.Sql

inductive SelectColumn (F : Type) where
  | Star
  | Expr (expr : Expr F) (as_name : Option String)

structure OrderByItem (F : Type) where
  expr : Expr F
  asc : Bool
  nulls_first : Bool

structure SelectBody (F : Type) where
  distinct : Bool
  columns : List (SelectColumn F)
  table_refs : List (TableRef F)
  where_clause : Option (Expr F)
  group_by : List (Expr F)
  having : Option (Expr F)
  order_by : List (OrderByItem F)
  limit : Option (Expr F)
  offset : Option (Expr F)

mutual

inductive SelectStmt (F : Type) where
  | mk (with_clauses : List (CteClause F)) (body : SelectBody F)

/-- `union_body` holds the flag and the right side; its left side is `query`. -/
inductive CteClause (F : Type) where
  | mk (name : String) (recursive : Bool) (query : SelectStmt F)
      (union_body : Option (Bool × SelectStmt F))

end

inductive InsertSource (F : Type) where
  | Values (rows : List (List (Expr F)))
  | Select (query : SelectStmt F)

structure InsertStmt (F : Type) where
  table : String
  columns : List String
  source : InsertSource F

structure UpdateStmt (F : Type) where
  table : String
  as_name : Option String
  assignments : List (String × Expr F)
  where_clause : Option (Expr F)

structure DeleteStmt (F : Type) where
  table : String
  as_name : Option String
  where_clause : Option (Expr F)

structure ColumnDef (F : Type) where
  name : String
  data_type : DataType
  nullable : Bool
  default : Option (Expr F)
  primary_key : Bool
  unique : Bool

inductive TableConstraint (F : Type) where
  | PrimaryKey (columns : List String)
  | Unique (columns : List String)
  | Check (expr : Expr F)

inductive StorageLayout where
  | Row
  | Columnar
  deriving DecidableEq

structure CreateTableStmt (F : Type) where
  table : String
  if_not_exists : Bool
  columns : List (ColumnDef F)
  constraints : List (TableConstraint F)
  storage : StorageLayout

structure DropTableStmt where
  table : String
  if_exists : Bool
  deriving DecidableEq

inductive Statement (F : Type) where
  | Select (s : SelectStmt F)
  | Insert (s : InsertStmt F)
  | Update (s : UpdateStmt F)
  | Delete (s : DeleteStmt F)
  | CreateTable (s : CreateTableStmt F)
  | DropTable (s : DropTableStmt)
  | Begin
  | Commit
  | Rollback
  | Explain (inner : Statement F)
  | Analyze (table : String)
  | CreateVectorIndex (table column : String)
  | CreateGinIndex (table column : String)
  | Vacuum (table : String)
  | SetVar (name value : String)
  | ShowVar (name : String)

end Oigrap.Sql
