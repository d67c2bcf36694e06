/-
`crates/server/src/connection.rs`: the message loop of a connection.

A handler takes the connection and gives back the connection after it and what happened, in
order: messages sent to the client, statements taken up by a simple query, texts run by the
engine and portals created. A panic ends the connection: there is then no connection after
the handler, but still what happened before. Writing to the client is taken to succeed;
start-up and authentication come before the loop.
-/
import Mathlib.Logic.Function.Basic
import Oigrap.Server.Proto
import Oigrap.Server.Session

namespace Oigrap.Server

open Function List

inductive BackendMsg where
  | ErrorResponse (severity code message : Text)
  | ParseComplete
  | BindComplete
  | CloseComplete
  | NoData
  | PortalSuspended
  | EmptyQueryResponse
  | RowDescription (columns : List (Text × ℕ))
  | DataRow (values : List (Text × Bool))
  | CommandComplete (tag : Text)
  | ReadyForQuery (status : Char)
  | ParameterDescription (types : List ℕ)
  deriving DecidableEq

inductive Event where
  | sent (m : BackendMsg)
  /-- A simple query takes up its next statement. -/
  | statement (sql : Text)
  /-- The engine runs a text. -/
  | executed (sql : Text)
  | portal_created (name : Text)
  deriving DecidableEq

structure Connection (Db F : Type) where
  db : Db
  prepared : Text → Option PreparedStmt
  portals : Text → Option (Portal F)
  tx_status : Char

namespace Connection

variable {Db F : Type} (env : Env Db F)

/-- The connection afterwards, if the handler returns, and what happened. -/
abbrev Handled (Db F : Type) := Option (Connection Db F) × List Event

/-! ## Utilities -/

/-- The SQLSTATE of an error, from its text. The severity is `ERROR` throughout. -/
def sqlstate_for_error (msg : Text) : String :=
  let lower := env.to_lowercase msg
  if contains lower "does not exist" || contains lower "no such table" then "42P01"
  else if contains lower "already exists" then "42P07"
  else if contains lower "syntax error" || contains lower "parse error" then "42601"
  else if contains lower "column" && contains lower "unknown" then "42703"
  else "XX000"

def error_response (code : String) (msg : Text) : Event :=
  .sent (.ErrorResponse "ERROR".toList code.toList msg)

def engine_error (msg : Text) : Event := error_response (sqlstate_for_error env msg) msg

def columns_with_oids (result : QueryResult F) : List (Text × ℕ) :=
  result.columns.mapIdx fun i name =>
    (name, ((result.rows.head?.bind (·[i]?)).map value_type_oid).getD 25)

def data_row (row : List (Sql.Value F)) : Event := .sent (.DataRow (row.map (encode_value_text env)))

def command_complete (tag : Text) : Event := .sent (.CommandComplete tag)

def send_query_result (result : QueryResult F) : List Event :=
  (if result.columns = [] then []
    else .sent (.RowDescription (columns_with_oids result)) :: result.rows.map (data_row env)) ++
  [command_complete (if result.tag = [] then "OK".toList else result.tag)]

def does_not_exist (what : String) (name : Text) : Text :=
  what.toList ++ " \"".toList ++ name ++ "\" does not exist".toList

/-! ## PREPARE and EXECUTE as statements -/

/-- The step of `split_sql_args` at one character. -/
def split_arg (args : List Text × Text × Bool) (ch : Char) : List Text × Text × Bool :=
  let (done, current, in_string) := args
  if ch = '\'' then (done, current ++ [ch], !in_string)
  else if ch = ',' ∧ !in_string then (done ++ [trim current], [], in_string)
  else (done, current ++ [ch], in_string)

def split_sql_args (s : Text) : List Text :=
  let (done, current, _) := s.foldl split_arg ([], [], false)
  if trim current = [] then done else done ++ [trim current]

/-- The name and the query of `PREPARE name [(types)] AS query`. The outer `none` is a panic:
the offset of `AS` is one of the text in upper case. -/
def parse_prepare (sql : Text) : Option (Option (Text × Text)) :=
  match split_at_byte (trim sql) 8 with
  | none => some none
  | some (_, tail) =>
    let rest := trim tail
    match find (env.to_uppercase rest) " AS " with
    | none => some none
    | some as_pos =>
      (split_at_byte rest as_pos).bind fun (name_part, _) =>
        (split_at_byte rest (as_pos + 4)).map fun (_, query) =>
          let name_part := trim name_part
          some (trim ((before ['('] name_part).getD name_part), trim query)

variable (c : Connection Db F) (portal : Text)

/-- The query that `EXECUTE name [(args)]` runs, or the text of the error. -/
def execute_query (sql : Text) : Except Text Text :=
  match split_at_byte (trim sql) 8 with
  | none => .error "invalid EXECUTE".toList
  | some (_, tail) =>
    let rest := trim tail
    let args := (before ['('] rest).map fun name => rest.drop name.length
    let name := ((before ['('] rest).map trim).getD rest
    match c.prepared name with
    | none => .error (does_not_exist "prepared statement" name)
    | some stmt =>
      match args with
      | none => .ok stmt.query
      | some args =>
        let inner := ((trim args).dropWhile (· = '(')).rdropWhile (· = ')')
        let params := (split_sql_args inner).map fun s => some (into_bytes s)
        .ok (substitute_params env stmt.query params (replicate params.length 0))

/-! ## Simple queries -/

/-- A text is run by the engine; an error puts the connection into the failed status. -/
def run_statement (sql : Text) : Handled Db F :=
  match env.execute c.db sql with
  | (none, _) => (none, [.executed sql])
  | (some (.ok result), db) => (some { c with db }, .executed sql :: send_query_result env result)
  | (some (.error msg), db) =>
    (some { c with db, tx_status := 'E' }, [.executed sql, engine_error env msg])

/-- One statement of a simple query: the session commands are answered here. -/
def handle_statement (sql : Text) : Handled Db F :=
  let upper := env.to_uppercase (trim sql)
  if starts_with upper "SET " then (some c, [command_complete "SET".toList])
  else if starts_with upper "SHOW " then
    (some c, [.sent (.RowDescription [("value".toList, 25)]), command_complete "SHOW".toList])
  else if starts_with upper "DEALLOCATE" then (some c, [command_complete "DEALLOCATE".toList])
  else if starts_with upper "DISCARD" then (some c, [command_complete "DISCARD".toList])
  else if starts_with upper "PREPARE " then
    match parse_prepare env sql with
    | none => (none, [])
    | some (some (name, query)) =>
      (some { c with prepared := update c.prepared name (some ⟨name, query, []⟩) },
        [command_complete "PREPARE".toList])
    | some none => (some c, [error_response "42601" "invalid PREPARE syntax".toList])
  else if starts_with upper "EXECUTE " then
    match execute_query env c sql with
    | .ok query => run_statement env c query
    | .error msg => (some { c with tx_status := 'E' }, [engine_error env msg])
  else run_statement env c sql

/-- The loop over the statements, each taken up in turn. -/
def handle_statements (c : Connection Db F) : List Text → Handled Db F
  | [] => (some c, [])
  | sql :: stmts =>
    match handle_statement env c sql with
    | (none, events) => (none, .statement sql :: events)
    | (some c', events) =>
      let (c'', events') := handle_statements c' stmts
      (c'', .statement sql :: (events ++ events'))

/-- Pieces of a text, trimmed, without the empty ones. -/
def pieces (parts : List Text) : List Text := (parts.map trim).filter (· ≠ [])

/-- `sql.split(';').map(trim).filter(non-empty)`. -/
def split_statements (sql : Text) : List Text := pieces (sql.splitOnP (· = ';'))

def handle_simple_query (sql : Text) : Handled Db F :=
  let sql := trim sql
  if sql = [] then
    (some c, [.sent .EmptyQueryResponse, .sent (.ReadyForQuery c.tx_status)])
  else
    match handle_statements env c (split_statements sql) with
    | (none, events) => (none, events)
    | (some c', events) =>
      (some { c' with tx_status := if c'.tx_status = 'E' then 'I' else c'.tx_status },
        events ++ [.sent (.ReadyForQuery c'.tx_status)])

/-! ## Extended queries -/

def handle_parse (name query : Text) (param_types : List ℕ) : Handled Db F :=
  (some { c with prepared := update c.prepared name (some ⟨name, query, param_types⟩) },
    [.sent .ParseComplete])

def handle_bind (statement : Text) (param_formats : List ℤ) (params : List (Option (List UInt8)))
    (result_formats : List ℤ) : Handled Db F :=
  match c.prepared statement with
  | none => (some c, [error_response "26000" (does_not_exist "prepared statement" statement)])
  | some stmt =>
    let p := ⟨stmt, params, param_formats, result_formats, none, 0⟩
    (some { c with portals := update c.portals portal (some p) },
      [.portal_created portal, .sent .BindComplete])

/-- `query.trim().to_uppercase().starts_with(word)`. -/
def query_starts (query : Text) (word : String) : Bool :=
  starts_with (env.to_uppercase (trim query)) word

/-- A `SELECT` is run to learn its columns. -/
def describe_query (query sql : Text) : Handled Db F :=
  if query_starts env query "SELECT" then
    match env.execute c.db sql with
    | (none, _) => (none, [.executed sql])
    | (some (.ok result), db) =>
      (some { c with db }, [.executed sql,
        .sent (if result.columns = [] then .NoData else .RowDescription (columns_with_oids result))])
    | (some (.error _), db) => (some { c with db }, [.executed sql, .sent .NoData])
  else (some c, [.sent .NoData])

def handle_describe (kind : UInt8) (name : Text) : Handled Db F :=
  if Char.ofUInt8 kind = 'S' then
    match c.prepared name with
    | none => (some c, [error_response "26000" (does_not_exist "prepared statement" name)])
    | some stmt =>
      let (c', events) := describe_query env c stmt.query (substitute_params env stmt.query [] [])
      (c', .sent (.ParameterDescription stmt.param_types) :: events)
  else
    match c.portals name with
    | none => (some c, [error_response "34000" (does_not_exist "portal" name)])
    | some p =>
      describe_query env c p.stmt.query (substitute_params env p.stmt.query p.params p.param_formats)

/-- Rows of a portal from its cursor on, `max_rows` of them unless that is zero. -/
def send_rows (p : Portal F) (result : QueryResult F) (max_rows : ℕ) : Handled Db F :=
  let total := result.rows.length
  let limit := if max_rows = 0 then total else max_rows
  let stop := min (p.cursor + limit) total
  let rows := (result.rows.drop p.cursor).take (stop - p.cursor)
  let p' := { p with result := some result, cursor := stop }
  (some { c with portals := update c.portals portal (some p') },
    (if result.columns ≠ [] ∧ p.cursor = 0 then [.sent (.RowDescription (columns_with_oids result))]
      else []) ++ rows.map (data_row env) ++
    [if stop < total then .sent .PortalSuspended else command_complete result.tag])

def handle_execute (max_rows : ℕ) : Handled Db F :=
  match c.portals portal with
  | none => (some c, [error_response "34000" (does_not_exist "portal" portal)])
  | some p =>
    match p.result with
    | some result => send_rows env c portal p result max_rows
    | none =>
      let sql := substitute_params env p.stmt.query p.params p.param_formats
      if query_starts env sql "SET " then
        send_rows env c portal { p with cursor := 0 } ⟨[], [], 0, "SET".toList⟩ max_rows
      else
        match env.execute c.db sql with
        | (none, _) => (none, [.executed sql])
        | (some (.error msg), db) => (some { c with db }, [.executed sql, engine_error env msg])
        | (some (.ok result), db) =>
          let (c', events) := send_rows env { c with db } portal { p with cursor := 0 } result max_rows
          (c', .executed sql :: events)

def handle_close (kind : UInt8) (name : Text) : Handled Db F :=
  (some (if Char.ofUInt8 kind = 'S' then
      { c with prepared := update c.prepared name none }
    else { c with portals := update c.portals name none }), [.sent .CloseComplete])

/-! ## The main loop -/

/-- One round of the loop, for a message other than `Terminate`. -/
def handle : FrontendMsg → Handled Db F
  | .Query sql => handle_simple_query env c sql
  | .Parse name query param_types => handle_parse c name query param_types
  | .Bind portal statement param_formats params result_formats =>
    handle_bind c portal statement param_formats params result_formats
  | .Execute portal max_rows => handle_execute env c portal max_rows
  | .Describe kind name => handle_describe env c kind name
  | .Sync => (some c, [.sent (.ReadyForQuery c.tx_status)])
  | .Flush => (some c, [])
  | .Close kind name => handle_close c kind name
  | .Terminate | .CopyData _ | .CopyDone | .CopyFail _ | .PasswordMessage _ => (some c, [])

/-- The loop over a sequence of messages: what each of them caused. It ends with the first
`Terminate`, and with a panic. -/
def run (c : Connection Db F) : List FrontendMsg → List (FrontendMsg × List Event)
  | [] => []
  | .Terminate :: _ => []
  | msg :: msgs =>
    match handle env c msg with
    | (none, events) => [(msg, events)]
    | (some c', events) => (msg, events) :: run c' msgs

/-! ## A connection to try things on -/

/-- An engine that answers every text with an empty result. -/
def idle : Env Unit Unit where
  to_uppercase s := s.map Char.toUpper
  to_lowercase s := s.map Char.toLower
  is_nan _ := false
  is_infinite _ := false
  is_positive _ := true
  display _ := []
  from_utf8_lossy bytes := bytes.map Char.ofUInt8
  execute db _ := (some (.ok ⟨[], [], 0, []⟩), db)

def fresh : Connection Unit Unit := ⟨(), fun _ => none, fun _ => none, 'I'⟩

end Connection

end Oigrap.Server
