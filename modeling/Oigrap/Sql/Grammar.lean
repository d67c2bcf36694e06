/-
The statements as a grammar: which statement a list of tokens stands for.

Every token of a phrase has a place in a production. The grammar says nothing about how the
parser decides. It is ambiguous where SQL has precedences, since it is asked only whether all
tokens are accounted for. A few productions are as narrow as the parser: a select column and the
arguments of a call do not begin with a `*` unless it is all there is, `USING` needs an alias
before it since it could be one, `NOT NULL` does not follow a `DEFAULT`, where `NOT` is taken for
an operator, and a variable in `SET` is not called like a scope.
-/
import Oigrap.Sql.Parser

namespace Oigrap.Sql.Grammar

open Parsing Parsing.Phrase Oigrap.Sql.Parser

variable {F : Type} (texts : Texts F)

/-- The tokens of a value of type `α`. -/
abbrev Production (F α : Type) := Phrase (Token F) α

def ident : Production F String := one ident_of

/-- A production between parentheses. -/
def parens {α : Type} (G : Production F α) : Production F α := do
  token .LeftParen
  let x ← G
  token .RightParen
  return x

/-- Names that an expression can begin with. -/
def name_of : Token F → Option String
  | .Ident s | .QuotedIdent s => some s
  | _ => none

/-! ## Types -/

/-- Types of one token. -/
def simple_type : Token F → Option DataType
  | .Bool | .Boolean => some .Boolean
  | .Smallint => some .Int16
  | .Int | .Integer => some .Int32
  | .Bigint => some .Int64
  | .Float => some .Float32
  | .Double => some .Float64
  | .Text => some .Text
  | .Varchar => some (.Varchar 65535)
  | .Char => some (.Char 1)
  | .Bytea => some .Bytea
  | .Timestamp => some .Timestamp
  | .Date => some .Date
  | .Time => some .Time
  | .Json => some .Json
  | .Jsonb => some .Jsonb
  | _ => none

/-- Types with a length. -/
def sized_type : Token F → Option (ℕ → DataType)
  | .Varchar => some .Varchar
  | .Char => some .Char
  | .Vector => some .Vector
  | _ => none

inductive TypeName : DataType → List (Token F) → Prop
  | simple {tok : Token F} {ty : DataType} : simple_type tok = some ty → TypeName ty [tok]
  | double_precision : TypeName .Float64 [.Double, .Precision]
  | sized {tok : Token F} {ty : ℕ → DataType} {n : Int64} : sized_type tok = some ty → 0 ≤ n.toInt →
    TypeName (ty n.toInt.toNat) [tok, .LeftParen, .IntLiteral n, .RightParen]

/-! ## Expressions -/

section

variable (G : Production F (Expr F))

inductive Args : List (Expr F) → List (Token F) → Prop
  | none : Args [] []
  | star : Args [.Star] [.Star]
  | list {es : List (Expr F)} {ts : List (Token F)} : sep .Comma G es ts → ts.head? ≠ some .Star →
    Args es ts

inductive OrderItem : OrderByItem F → List (Token F) → Prop
  | bare {e : Expr F} {ts : List (Token F)} : G e ts → OrderItem ⟨e, true, false⟩ ts
  | asc {e : Expr F} {ts : List (Token F)} : G e ts → OrderItem ⟨e, true, false⟩ (ts ++ [.Asc])
  | desc {e : Expr F} {ts : List (Token F)} : G e ts → OrderItem ⟨e, false, false⟩ (ts ++ [.Desc])

inductive PartitionBy : List (Expr F) → List (Token F) → Prop
  | none : PartitionBy [] []
  | some {tok : Token F} {es : List (Expr F)} {ts : List (Token F)} : is_word "PARTITION" tok →
    sep .Comma G es ts → PartitionBy es (tok :: .By :: ts)

inductive WindowOrder : List (Expr F × Bool) → List (Token F) → Prop
  | none : WindowOrder [] []
  | some {items : List (OrderByItem F)} {ts : List (Token F)} : sep .Comma (OrderItem G) items ts →
    WindowOrder (items.map fun item => (item.expr, !item.asc)) (.Order :: .By :: ts)

/-- Expressions that no operator splits. -/
inductive Atom : Expr F → List (Token F) → Prop
  | int (n : Int64) : Atom (.IntLit n) [.IntLiteral n]
  | float (f : F) : Atom (.FloatLit f) [.FloatLiteral f]
  | str (s : String) : Atom (.StrLit s) [.StringLiteral s]
  | true_ : Atom (.BoolLit true) [.True]
  | false_ : Atom (.BoolLit false) [.False]
  | null : Atom .Null [.Null]
  | star : Atom .Star [.Star]
  | paren {e : Expr F} {ts : List (Token F)} : G e ts → Atom e (.LeftParen :: ts ++ [.RightParen])
  | column {tok : Token F} {name : String} : name_of tok = some name →
    Atom (.ColumnRef none name) [tok]
  | qualified {tok tok' : Token F} {table name : String} : name_of tok = some table →
    ident_of tok' = some name → Atom (.ColumnRef (some table) name) [tok, .Dot, tok']
  | call {tok : Token F} {name : String} {args : List (Expr F)} {ts : List (Token F)} :
    name_of tok = some name → Args G args ts →
    Atom (.FunctionCall (texts.to_uppercase name) args false) (tok :: .LeftParen :: ts ++ [.RightParen])
  | qualified_call {tok tok' : Token F} {space name : String} {args : List (Expr F)}
    {ts : List (Token F)} : name_of tok = some space → ident_of tok' = some name → Args G args ts →
    Atom (.FunctionCall (texts.to_uppercase space ++ "." ++ texts.to_uppercase name) args false)
      (tok :: .Dot :: tok' :: .LeftParen :: ts ++ [.RightParen])
  | window {tok tok' : Token F} {name : String} {args partition_by : List (Expr F)}
    {order_by : List (Expr F × Bool)} {ts us vs : List (Token F)} : name_of tok = some name →
    is_window_function (texts.to_uppercase name) → Args G args ts → is_word "OVER" tok' →
    PartitionBy G partition_by us → WindowOrder G order_by vs →
    Atom (.WindowFunc (texts.to_uppercase name) args partition_by order_by)
      (tok :: .LeftParen :: ts ++ .RightParen :: tok' :: .LeftParen :: us ++ vs ++ [.RightParen])
  | cast {e : Expr F} {target : DataType} {ts us : List (Token F)} : G e ts → TypeName target us →
    Atom (.Cast e target) (.Cast :: .LeftParen :: ts ++ .As :: us ++ [.RightParen])

end

inductive Expression : Expr F → List (Token F) → Prop
  | atom {e : Expr F} {ts : List (Token F)} : Atom texts Expression e ts → Expression e ts
  | neg {e : Expr F} {ts : List (Token F)} : Expression e ts →
    Expression (.UnaryOp .Neg e) (.Minus :: ts)
  | not {e : Expr F} {ts : List (Token F)} : Expression e ts →
    Expression (.UnaryOp .Not e) (.Not :: ts)
  | binary {tok : Token F} {op : BinOp} {l r : Expr F} {ts us : List (Token F)} :
    tok_to_binop tok = some op → Expression l ts → Expression r us →
    Expression (.BinaryOp op l r) (ts ++ tok :: us)
  | is_null {e : Expr F} {ts : List (Token F)} : Expression e ts →
    Expression (.IsNull e) (ts ++ [.Is, .Null])
  | is_not_null {e : Expr F} {ts : List (Token F)} : Expression e ts →
    Expression (.IsNotNull e) (ts ++ [.Is, .Not, .Null])
  | between {e low high : Expr F} {ts us vs : List (Token F)} : Expression e ts →
    Expression low us → Expression high vs →
    Expression (.Between e low high) (ts ++ .Between :: us ++ .And :: vs)
  | in_list {e : Expr F} {es : List (Expr F)} {ts us : List (Token F)} : Expression e ts →
    sep .Comma Expression es us →
    Expression (.In e es) (ts ++ .In :: .LeftParen :: us ++ [.RightParen])
  | not_in {e : Expr F} {es : List (Expr F)} {ts us : List (Token F)} : Expression e ts →
    sep .Comma Expression es us →
    Expression (.NotIn e es) (ts ++ .Not :: .In :: .LeftParen :: us ++ [.RightParen])

/-! ## `SELECT` -/

def expressions : Production F (List (Expr F)) := sep .Comma (Expression texts)

/-- `AS name`, or a bare name of the tokens in `bare`. -/
inductive Alias (bare : Token F → Bool) : Option String → List (Token F) → Prop
  | none : Alias bare none []
  | as_name {tok : Token F} {s : String} : ident_of tok = some s → Alias bare (some s) [.As, tok]
  | bare {tok : Token F} {s : String} : bare tok → ident_of tok = some s → Alias bare (some s) [tok]

inductive Column : SelectColumn F → List (Token F) → Prop
  | star : Column .Star [.Star]
  | expr {e : Expr F} {a : Option String} {ts us : List (Token F)} : Expression texts e ts →
    ts.head? ≠ some .Star → Alias is_ident a us → Column (.Expr e a) (ts ++ us)

inductive JoinWords : JoinKind → List (Token F) → Prop
  | join : JoinWords .Inner [.Join]
  | inner : JoinWords .Inner [.Inner, .Join]
  | left : JoinWords .Left [.Left, .Join]
  | left_outer : JoinWords .Left [.Left, .Outer, .Join]
  | right : JoinWords .Right [.Right, .Join]
  | right_outer : JoinWords .Right [.Right, .Outer, .Join]
  | full : JoinWords .Full [.Full, .Join]
  | full_outer : JoinWords .Full [.Full, .Outer, .Join]
  | cross : JoinWords .Cross [.Cross, .Join]

/-- The condition of a join; a cross join may have none. -/
inductive JoinOn (kind : JoinKind) (as_name : Option String) : JoinCondition F → List (Token F) → Prop
  | on {e : Expr F} {ts : List (Token F)} : Expression texts e ts → JoinOn kind as_name (.On e) (.On :: ts)
  | using_cols {tok : Token F} {cols : List String} {ts : List (Token F)} : as_name ≠ none →
    is_word "USING" tok → parens (sep .Comma ident) cols ts →
    JoinOn kind as_name (.Using cols) (tok :: ts)
  | none : kind = .Cross → JoinOn kind as_name (.On (.BoolLit true)) []

inductive Joins : Option (JoinClause F) → List (Token F) → Prop
  | none : Joins none []
  | join {kind : JoinKind} {tok : Token F} {name : String} {a : Option String}
    {condition : JoinCondition F} {nested : Option (JoinClause F)} {ts us vs ws : List (Token F)} :
    JoinWords kind ts → ident_of tok = some name → Alias is_ident a us →
    JoinOn texts kind a condition vs → Joins nested ws →
    Joins (some (.mk kind (.mk name a nested) condition)) (ts ++ tok :: us ++ vs ++ ws)

/-- Aliases of the first table of a `FROM` entry may be quoted. -/
def is_name (tok : Token F) : Bool := is_ident tok || tok matches .QuotedIdent _

inductive Table : TableRef F → List (Token F) → Prop
  | bare {tok : Token F} {name : String} {a : Option String} {join : Option (JoinClause F)}
    {ts us : List (Token F)} : ident_of tok = some name → Alias is_name a ts → Joins texts join us →
    Table (.mk name a join) (tok :: ts ++ us)
  | qualified {tok tok' : Token F} {space name : String} {a : Option String}
    {join : Option (JoinClause F)} {ts us : List (Token F)} : ident_of tok = some space →
    ident_of tok' = some name → Alias is_name a ts → Joins texts join us →
    Table (.mk (space ++ "." ++ name) a join) (tok :: .Dot :: tok' :: ts ++ us)

/-- The list behind a keyword, or the empty list. -/
def list_clause {α : Type} (kw : Token F) (G : Production F (List α)) : Production F (List α) := do
  let xs ← opt kw G
  return xs.getD []

inductive Distinct : Bool → List (Token F) → Prop
  | none : Distinct false []
  | all : Distinct false [.All]
  | distinct : Distinct true [.Distinct]

def select_body : Production F (SelectBody F) := do
  token .Select
  let distinct ← Distinct
  let columns ← sep .Comma (Column texts)
  let table_refs ← list_clause .From (sep .Comma (Table texts))
  let where_clause ← opt .Where (Expression texts)
  let group_by ← list_clause .Group do
    token .By
    expressions texts
  let having ← opt .Having (Expression texts)
  let order_by ← list_clause .Order do
    token .By
    sep .Comma (OrderItem (Expression texts))
  let limit ← opt .Limit (Expression texts)
  let offset ← opt .Offset (Expression texts)
  return ⟨distinct, columns, table_refs, where_clause, group_by, having, order_by, limit, offset⟩

section

variable (S : Production F (SelectStmt F))

inductive Union : Option (Bool × SelectStmt F) → List (Token F) → Prop
  | none : Union none []
  | some {all : Bool} {right : SelectStmt F} {ts us : List (Token F)} : word .All all ts → S right us →
    Union (some (all, right)) (.Union :: ts ++ us)

inductive Cte : CteClause F → List (Token F) → Prop
  | mk {recursive : Bool} {tok : Token F} {name : String} {query : SelectStmt F}
    {union_body : Option (Bool × SelectStmt F)} {ts us vs : List (Token F)} :
    word .Recursive recursive ts → ident_of tok = some name → S query us → Union S union_body vs →
    Cte (.mk name recursive query union_body)
      (ts ++ tok :: .As :: .LeftParen :: us ++ vs ++ [.RightParen])

inductive With : List (CteClause F) → List (Token F) → Prop
  | none : With [] []
  | some {ctes : List (CteClause F)} {ts : List (Token F)} : sep .Comma (Cte S) ctes ts →
    With ctes (.With :: ts)

end

inductive Select : SelectStmt F → List (Token F) → Prop
  | mk {ctes : List (CteClause F)} {body : SelectBody F} {ts us : List (Token F)} :
    With Select ctes ts → select_body texts body us → Select (.mk ctes body) (ts ++ us)

/-! ## The other statements -/

def insert_stmt : Production F (Statement F) := do
  token .Insert
  token .Into
  let table ← ident
  let columns ← list_clause .LeftParen do
    let cols ← sep .Comma ident
    token .RightParen
    return cols
  token .Values
  let rows ← sep .Comma (parens (expressions texts))
  return .Insert ⟨table, columns, .Values rows⟩

def assignment : Production F (String × Expr F) := do
  let col ← ident
  token .Eq
  let val ← Expression texts
  return (col, val)

def update_stmt : Production F (Statement F) := do
  token .Update
  let table ← ident
  let as_name ← opt .As ident
  token .Set
  let assignments ← sep .Comma (assignment texts)
  let where_clause ← opt .Where (Expression texts)
  return .Update ⟨table, as_name, assignments, where_clause⟩

def delete_stmt : Production F (Statement F) := do
  token .Delete
  token .From
  let table ← ident
  let as_name ← opt .As ident
  let where_clause ← opt .Where (Expression texts)
  return .Delete ⟨table, as_name, where_clause⟩

/-- The options of a column, from those before to those behind. -/
inductive ColumnOptions : ColumnDef F → ColumnDef F → List (Token F) → Prop
  | none {c : ColumnDef F} : ColumnOptions c c []
  | not_null {c d : ColumnDef F} {ts : List (Token F)} :
    ColumnOptions { c with nullable := false } d ts → ColumnOptions c d (.Not :: .Null :: ts)
  | null {c d : ColumnDef F} {ts : List (Token F)} :
    ColumnOptions { c with nullable := true } d ts → ColumnOptions c d (.Null :: ts)
  | primary_key {c d : ColumnDef F} {ts : List (Token F)} :
    ColumnOptions { c with primary_key := true, nullable := false } d ts →
    ColumnOptions c d (.Primary :: .Key :: ts)
  | unique {c d : ColumnDef F} {ts : List (Token F)} :
    ColumnOptions { c with unique := true } d ts → ColumnOptions c d (.Unique :: ts)
  | default {c d : ColumnDef F} {e : Expr F} {ts us : List (Token F)} : Expression texts e ts →
    us.head? ≠ some .Not → ColumnOptions { c with default := some e } d us →
    ColumnOptions c d (.Default :: ts ++ us)

inductive TableEntry : TableConstraint F ⊕ ColumnDef F → List (Token F) → Prop
  | primary_key {cols : List String} {ts : List (Token F)} : parens (sep .Comma ident) cols ts →
    TableEntry (.inl (.PrimaryKey cols)) (.Primary :: .Key :: ts)
  | unique {cols : List String} {ts : List (Token F)} : parens (sep .Comma ident) cols ts →
    TableEntry (.inl (.Unique cols)) (.Unique :: ts)
  | column {tok : Token F} {name : String} {ty : DataType} {c : ColumnDef F} {ts us : List (Token F)} :
    ident_of tok = some name → TypeName ty ts →
    ColumnOptions texts ⟨name, ty, true, none, false, false⟩ c us →
    TableEntry (.inr c) (tok :: ts ++ us)

inductive Storage : StorageLayout → List (Token F) → Prop
  | none : Storage .Row []
  | bare : Storage .Row [.Storage]
  | row : Storage .Row [.Storage, .Row]
  | columnar : Storage .Columnar [.Storage, .Columnar]

/-- `IF NOT EXISTS` and `IF EXISTS`. -/
def words (ws : List (Token F)) : Production F Bool := fun b ts => b = false ∧ ts = [] ∨ b = true ∧ ts = ws

def create_table_stmt : Production F (Statement F) := do
  token .Create
  token .Table
  let if_not_exists ← words [.If, .Not, .Exists]
  let table ← ident
  let entries ← parens (sep .Comma (TableEntry texts))
  let storage ← Storage
  return .CreateTable (create_table table if_not_exists entries storage)

/-- `INDEX ON table (column)`. -/
def index_on : Production F (String × String) := do
  token .Index
  token .On
  let table ← ident
  let column ← parens ident
  return (table, column)

def drop_stmt : Production F (Statement F) := do
  token .Drop
  token .Table
  let if_exists ← words [.If, .Exists]
  let table ← ident
  return .DropTable ⟨table, if_exists⟩

/-- Tokens that do not end a statement. -/
def inner (tok : Token F) : Prop := tok ≠ .EOF ∧ tok ≠ .Semicolon

/-- `[= | TO] value`, behind the name of a variable. The value may be missing. -/
inductive SetTail : String → List (Token F) → Prop
  | none : SetTail "" []
  | link_only {tok : Token F} : tok = .Eq ∨ is_word "TO" tok → SetTail "" [tok]
  | value {tok : Token F} : ¬ (tok = .Eq ∨ is_word "TO" tok) → inner tok →
    SetTail (set_value tok) [tok]
  | link_value {tok tok' : Token F} : tok = .Eq ∨ is_word "TO" tok → inner tok' →
    SetTail (set_value tok') [tok, tok']

/-- `LOCAL` and `SESSION`. -/
def is_scope (tok : Token F) : Prop := is_word "LOCAL" tok ∨ is_word "SESSION" tok

/-- **The statements.** -/
inductive Stmt : Statement F → List (Token F) → Prop
  | select {s : SelectStmt F} {ts : List (Token F)} : Select texts s ts → Stmt (.Select s) ts
  | insert {s : Statement F} {ts : List (Token F)} : insert_stmt texts s ts → Stmt s ts
  | update {s : Statement F} {ts : List (Token F)} : update_stmt texts s ts → Stmt s ts
  | delete {s : Statement F} {ts : List (Token F)} : delete_stmt texts s ts → Stmt s ts
  | create_table {s : Statement F} {ts : List (Token F)} : create_table_stmt texts s ts → Stmt s ts
  | create_vector_index {table column : String} {ts : List (Token F)} : index_on (table, column) ts →
    Stmt (.CreateVectorIndex table column) (.Create :: .Vector :: ts)
  | create_gin_index {tok : Token F} {table column : String} {ts : List (Token F)} :
    is_word "GIN" tok → index_on (table, column) ts →
    Stmt (.CreateGinIndex table column) (.Create :: tok :: ts)
  | drop {s : Statement F} {ts : List (Token F)} : drop_stmt s ts → Stmt s ts
  | begin : Stmt .Begin [.Begin]
  | transaction : Stmt .Begin [.Transaction]
  | commit : Stmt .Commit [.Commit]
  | rollback : Stmt .Rollback [.Rollback]
  | explain {s : Statement F} {ts : List (Token F)} : Stmt s ts → Stmt (.Explain s) (.Explain :: ts)
  | analyze {tok : Token F} {table : String} : ident_of tok = some table →
    Stmt (.Analyze table) [.Analyze, tok]
  | vacuum {tok : Token F} {table : String} : ident_of tok = some table →
    Stmt (.Vacuum table) [.Vacuum, tok]
  | set {tok : Token F} {name value : String} {ts : List (Token F)} : ¬ is_scope tok →
    ident_of tok = some name → SetTail value ts → Stmt (.SetVar name value) (.Set :: tok :: ts)
  | set_scope {tok tok' : Token F} {name value : String} {ts : List (Token F)} : is_scope tok →
    ident_of tok' = some name → SetTail value ts → Stmt (.SetVar name value) (.Set :: tok :: tok' :: ts)
  | show_default {tok : Token F} : is_word "SHOW" tok → Stmt (.ShowVar "search_path") [tok]
  | show_name {tok tok' : Token F} {name : String} : is_word "SHOW" tok → ident_of tok' = some name →
    Stmt (.ShowVar name) [tok, tok']
  | discard {tok : Token F} {ts : List (Token F)} : is_word "DISCARD" tok ∨ is_word "DEALLOCATE" tok →
    (∀ t ∈ ts, inner t) → Stmt (.SetVar "discard" "") (tok :: ts)

/-- What may stand behind a statement: a semicolon and the end. -/
inductive Ending : List (Token F) → Prop
  | none : Ending []
  | eof : Ending [.EOF]
  | semicolon : Ending [.Semicolon]
  | semicolon_eof : Ending [.Semicolon, .EOF]

/-- All tokens up to an optional semicolon and the end are part of the statement. -/
def Accounts (stmt : Statement F) (tokens : List (Token F)) : Prop :=
  ∃ body ending, tokens = body ++ ending ∧ Stmt texts stmt body ∧ Ending ending

/-- The tokens are those of a statement. -/
def Sentence (tokens : List (Token F)) : Prop := ∃ stmt, Accounts texts stmt tokens

end Oigrap.Sql.Grammar
