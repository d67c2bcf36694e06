/-
`crates/sql/src/lexer.rs`: from the text of a statement to its tokens.

The lexer works on bytes and reads each byte as a character of its own. Its state is what is
left of the input, with the line and column that error messages show; only `advance` keeps
these two up to date. A position behind the end of the input, which an unterminated block
comment leaves, is an empty rest.

`f64` is a type parameter, and `f64_value` gives the value of a number text. What
`str::parse` accepts is spelled out, since the lexer and the server decide by it.
-/
import Oigrap.Lib.Utf8
import Oigrap.Sql.Value

namespace Oigrap.Sql

inductive Token (F : Type) where
  | Select | From | Where | Join | On | As
  | Group | Order | By | Having
  | Insert | Into | Values
  | Update | Set
  | Delete
  | Create | Table | Drop | Alter | Index
  | And | Or | Not | In | Is | Null | Like | Between | Exists
  | Inner | Left | Right | Full | Cross | Outer
  | Asc | Desc | Limit | Offset | Distinct | All
  | True | False
  | With | Recursive | Union | Intersect | Except
  | Case | When | Then | Else | End
  | Cast | Primary | Key | Unique | References | Default | Check
  | If
  | Begin | Commit | Rollback | Transaction
  | Vacuum | Analyze | Explain
  | Int | Bigint | Integer | Smallint | Float | Double | Precision
  | Bool | Boolean | Text | Varchar | Char | Bytea
  | Timestamp | Date | Time
  | Json | Jsonb
  | Vector
  | Storage | Columnar | Row
  | IntLiteral (n : Int64)
  | FloatLiteral (f : F)
  | StringLiteral (s : String)
  | Ident (s : String)
  | QuotedIdent (s : String)
  | Plus | Minus | Star | Slash | Percent | Caret
  | Eq | NotEq | Lt | Gt | LtEq | GtEq
  | Arrow | DoubleArrow | VectorDist | Contains | ContainedBy
  | DoubleColon | Concat | QuestionMark | HashArrow
  | Dot | Comma | Semicolon | Colon
  | LeftParen | RightParen
  | LeftBracket | RightBracket
  | EOF
  deriving DecidableEq, Repr

/-! ## Numbers -/

def is_digit (c : Char) : Bool := '0' ≤ c && c ≤ '9'

def digits_value (s : Oigrap.Text) : ℕ := s.foldl (fun n c => 10 * n + (c.toNat - '0'.toNat)) 0

/-- An optional sign: whether it is a minus, and what follows. -/
def strip_sign : Oigrap.Text → Bool × Oigrap.Text
  | '-' :: s => (true, s)
  | '+' :: s => (false, s)
  | s => (false, s)

/-- `str::parse::<i64>`. -/
def parse_i64 (s : Oigrap.Text) : Option Int64 :=
  let (negative, digits) := strip_sign s
  if digits = [] ∨ ¬ digits.all is_digit then none
  else
    let n : ℤ := if negative then -(digits_value digits) else digits_value digits
    if -2 ^ 63 ≤ n ∧ n < 2 ^ 63 then some (Int64.ofInt n) else none

/-- `Exp` of the grammar of `f64::from_str`, or nothing. -/
def is_exponent : Oigrap.Text → Bool
  | [] => true
  | c :: s =>
    let digits := (strip_sign s).2
    (c = 'e' || c = 'E') && !digits.isEmpty && digits.all is_digit

/-- Digits with at most one point and at least one digit, then an exponent or nothing. -/
def is_number (s : Oigrap.Text) : Bool :=
  let whole := s.takeWhile is_digit
  match s.dropWhile is_digit with
  | '.' :: rest =>
    (!whole.isEmpty || !(rest.takeWhile is_digit).isEmpty) && is_exponent (rest.dropWhile is_digit)
  | rest => !whole.isEmpty && is_exponent rest

/-- Whether `str::parse::<f64>` accepts a text. -/
def is_f64 (s : Oigrap.Text) : Bool :=
  let body := (strip_sign s).2
  is_number body ||
    (String.ofList (body.map Char.toLower) ∈ ["inf", "infinity", "nan"] : Bool)

/-! ## The state -/

structure Lexer where
  input : List UInt8
  line : ℕ
  col : ℕ
  deriving DecidableEq, Repr

namespace Lexer

open Char (ofUInt8)

def new (input : List UInt8) : Lexer := ⟨input, 1, 1⟩

variable {F : Type} (f64_value : Oigrap.Text → F)

/-- What a scan returns, with the state it leaves; an error leaves a state too. -/
abbrev Scan (F : Type) := Result (Token F) × Lexer

def peek (l : Lexer) : Option Char := l.input.head?.map ofUInt8

def peek2 (l : Lexer) : Option Char := l.input[1]?.map ofUInt8

/-- The position behind one byte. -/
def advance (l : Lexer) : Lexer :=
  match l.input with
  | [] => l
  | b :: rest =>
    if ofUInt8 b = '\n' then ⟨rest, l.line + 1, 1⟩ else ⟨rest, l.line, l.col + 1⟩

def err (l : Lexer) (message : String) : Result (Token F) :=
  .error (.Err (.Parse l.line l.col message))

/-! ## White space and comments -/

def is_ascii_whitespace (b : UInt8) : Bool :=
  ofUInt8 b ∈ [' ', '\t', '\n', '\x0c', '\r']

def skip_whitespace_from : List UInt8 → ℕ → ℕ → Lexer
  | [], line, col => ⟨[], line, col⟩
  | b :: rest, line, col =>
    if is_ascii_whitespace b then
      if ofUInt8 b = '\n' then skip_whitespace_from rest (line + 1) 1
      else skip_whitespace_from rest line (col + 1)
    else ⟨b :: rest, line, col⟩

def skip_whitespace (l : Lexer) : Lexer := skip_whitespace_from l.input l.line l.col

/-- What is left behind the next `*/`. -/
def skip_block : List UInt8 → List UInt8
  | a :: b :: rest =>
    if ofUInt8 a = '*' ∧ ofUInt8 b = '/' then rest else skip_block (b :: rest)
  | _ => []

/-- The loop of `skip_whitespace_and_comments`. -/
def skip_loop : ℕ → Lexer → Lexer
  | 0, l => l
  | fuel + 1, l =>
    let l := l.skip_whitespace
    if l.peek = some '-' ∧ l.peek2 = some '-' then
      skip_loop fuel { l with input := l.input.dropWhile (fun b => ofUInt8 b ≠ '\n') }
    else if l.peek = some '/' ∧ l.peek2 = some '*' then
      skip_loop fuel { l with input := skip_block (l.input.drop 2) }
    else l

/-- Each round of the loop but the last consumes at least two bytes. -/
def skip_whitespace_and_comments (l : Lexer) : Lexer := skip_loop (l.input.length + 1) l

/-! ## Words -/

/-- The words `keyword_or_ident` knows, in upper case. -/
def keywords : List (String × Token F) :=
  [("SELECT", .Select), ("FROM", .From), ("WHERE", .Where),
   ("JOIN", .Join), ("ON", .On), ("AS", .As),
   ("GROUP", .Group), ("ORDER", .Order), ("BY", .By),
   ("HAVING", .Having), ("INSERT", .Insert), ("INTO", .Into),
   ("VALUES", .Values), ("UPDATE", .Update), ("SET", .Set),
   ("DELETE", .Delete), ("CREATE", .Create), ("TABLE", .Table),
   ("DROP", .Drop), ("ALTER", .Alter), ("INDEX", .Index),
   ("AND", .And), ("OR", .Or), ("NOT", .Not),
   ("IN", .In), ("IS", .Is), ("NULL", .Null),
   ("LIKE", .Like), ("BETWEEN", .Between), ("EXISTS", .Exists),
   ("INNER", .Inner), ("LEFT", .Left), ("RIGHT", .Right),
   ("FULL", .Full), ("CROSS", .Cross), ("OUTER", .Outer),
   ("ASC", .Asc), ("DESC", .Desc), ("LIMIT", .Limit),
   ("OFFSET", .Offset), ("DISTINCT", .Distinct), ("ALL", .All),
   ("TRUE", .True), ("FALSE", .False), ("WITH", .With),
   ("RECURSIVE", .Recursive), ("UNION", .Union), ("INTERSECT", .Intersect),
   ("EXCEPT", .Except), ("CASE", .Case), ("WHEN", .When),
   ("THEN", .Then), ("ELSE", .Else), ("END", .End),
   ("CAST", .Cast), ("PRIMARY", .Primary), ("KEY", .Key),
   ("UNIQUE", .Unique), ("REFERENCES", .References), ("DEFAULT", .Default),
   ("CHECK", .Check), ("IF", .If), ("BEGIN", .Begin),
   ("COMMIT", .Commit), ("ROLLBACK", .Rollback), ("TRANSACTION", .Transaction),
   ("VACUUM", .Vacuum), ("ANALYZE", .Analyze), ("EXPLAIN", .Explain),
   ("INT", .Int), ("BIGINT", .Bigint), ("INTEGER", .Integer),
   ("SMALLINT", .Smallint), ("FLOAT", .Float), ("DOUBLE", .Double),
   ("PRECISION", .Precision), ("BOOL", .Bool), ("BOOLEAN", .Boolean),
   ("TEXT", .Text), ("VARCHAR", .Varchar), ("CHAR", .Char),
   ("BYTEA", .Bytea), ("TIMESTAMP", .Timestamp), ("DATE", .Date),
   ("TIME", .Time), ("JSON", .Json), ("JSONB", .Jsonb),
   ("VECTOR", .Vector), ("STORAGE", .Storage), ("COLUMNAR", .Columnar),
   ("ROW", .Row)]

/-- Keywords are compared in upper case. A word is made of bytes that are alphanumeric as
characters of their own; no character beyond ASCII with such bytes has an ASCII letter as
its upper case, so the mapping of ASCII letters decides. -/
def keyword_or_ident (word : Oigrap.Text) : Token F :=
  match keywords.find? (fun k => k.1.toList = word.map Char.toUpper) with
  | some (_, token) => token
  | none => .Ident (String.ofList word)

/-- `char::is_alphanumeric` on the characters up to `U+00FF`. -/
def is_alphanumeric (b : UInt8) : Bool :=
  (ofUInt8 b).isAlphanum || b.toNat ∈ [0xaa, 0xb2, 0xb3, 0xb5, 0xb9, 0xba, 0xbc, 0xbd, 0xbe] ||
    (0xc0 ≤ b.toNat && b.toNat ≠ 0xd7 && b.toNat ≠ 0xf7)

def is_word_byte (b : UInt8) : Bool := is_alphanumeric b || ofUInt8 b = '_'

/-- The bytes of the word are unwrapped as UTF-8, which panics where they cut a character. -/
def scan_ident (l : Lexer) : Scan F :=
  let l' := { l with input := l.input.dropWhile is_word_byte }
  match from_utf8 (l.input.takeWhile is_word_byte) with
  | some word => (.ok (keyword_or_ident word), l')
  | none => (.error .panic, l')

/-! ## Numbers -/

def is_digit_byte (b : UInt8) : Bool := is_digit (ofUInt8 b)

/-- The digits in front of the input, and the rest. -/
def take_digits (input : List UInt8) : List UInt8 × List UInt8 := input.span is_digit_byte

/-- The point and the digits behind it, if a point is next. -/
def take_fraction (input : List UInt8) : List UInt8 × List UInt8 :=
  match input with
  | b :: rest =>
    if ofUInt8 b = '.' then ((b :: (take_digits rest).1), (take_digits rest).2)
    else ([], b :: rest)
  | [] => ([], [])

/-- A sign, if one is next. -/
def take_sign (input : List UInt8) : List UInt8 × List UInt8 :=
  match input with
  | b :: rest =>
    if ofUInt8 b = '+' ∨ ofUInt8 b = '-' then ([b], rest) else ([], b :: rest)
  | [] => ([], [])

/-- The exponent, if an `e` is next. -/
def take_exponent (input : List UInt8) : List UInt8 × List UInt8 :=
  match input with
  | b :: rest =>
    if ofUInt8 b = 'e' ∨ ofUInt8 b = 'E' then
      let (sign, rest) := take_sign rest
      let (digits, rest) := take_digits rest
      (b :: (sign ++ digits), rest)
    else ([], b :: rest)
  | [] => ([], [])

def scan_number (l : Lexer) : Scan F :=
  let (whole, rest) := take_digits l.input
  let (fraction, rest) := take_fraction rest
  let (exponent, rest) := take_exponent rest
  let s := (whole ++ fraction ++ exponent).map ofUInt8
  let is_float := fraction ≠ [] ∨ exponent ≠ []
  let l' := { l with input := rest }
  if is_float then
    if is_f64 s then (.ok (.FloatLiteral (f64_value s)), l')
    else (l.err ("invalid float: " ++ String.ofList s), l')
  else match parse_i64 s with
  | some n => (.ok (.IntLiteral n), l')
  | none => (l.err ("invalid integer: " ++ String.ofList s), l')

/-! ## Quoted texts -/

/-- The loop of `scan_string`, with the characters pushed so far. A doubled quote is one. -/
def scan_string_from : List UInt8 → ℕ → ℕ → Oigrap.Text → Scan F
  | [], line, col, _ => (err ⟨[], line, col⟩ "unterminated string", ⟨[], line, col⟩)
  | b :: rest, line, col, s =>
    if ofUInt8 b = '\'' then
      match rest with
      | b' :: rest' =>
        if ofUInt8 b' = '\'' then scan_string_from rest' line (col + 2) (s ++ ['\''])
        else (.ok (.StringLiteral (String.ofList s)), ⟨b' :: rest', line, col + 1⟩)
      | [] => (.ok (.StringLiteral (String.ofList s)), ⟨[], line, col + 1⟩)
    else if ofUInt8 b = '\n' then scan_string_from rest (line + 1) 1 (s ++ ['\n'])
    else scan_string_from rest line (col + 1) (s ++ [ofUInt8 b])

def scan_string (l : Lexer) : Scan F := scan_string_from (l.input.drop 1) l.line l.col []

def scan_quoted_ident_from : List UInt8 → ℕ → ℕ → Oigrap.Text → Scan F
  | [], line, col, _ => (err ⟨[], line, col⟩ "unterminated quoted identifier", ⟨[], line, col⟩)
  | b :: rest, line, col, s =>
    if ofUInt8 b = '"' then (.ok (.QuotedIdent (String.ofList s)), ⟨rest, line, col + 1⟩)
    else if ofUInt8 b = '\n' then scan_quoted_ident_from rest (line + 1) 1 (s ++ ['\n'])
    else scan_quoted_ident_from rest line (col + 1) (s ++ [ofUInt8 b])

def scan_quoted_ident (l : Lexer) : Scan F :=
  scan_quoted_ident_from (l.input.drop 1) l.line l.col []

/-! ## Operators -/

/-- One more byte if it is `c`, and the token for that case; else `other`, where we are. -/
def if_peek (l : Lexer) (c : Char) (token : Token F) (other : Result (Token F)) : Scan F :=
  if l.peek = some c then (.ok token, l.advance) else (other, l)

/-- `first` is the byte already consumed and `l` the state behind it. -/
def scan_operator_after (first : Char) (l : Lexer) : Scan F :=
  match first with
  | '+' => (.ok .Plus, l)
  | '*' => (.ok .Star, l)
  | '%' => (.ok .Percent, l)
  | '^' => (.ok .Caret, l)
  | ',' => (.ok .Comma, l)
  | ';' => (.ok .Semicolon, l)
  | '(' => (.ok .LeftParen, l)
  | ')' => (.ok .RightParen, l)
  | '[' => (.ok .LeftBracket, l)
  | ']' => (.ok .RightBracket, l)
  | '.' => (.ok .Dot, l)
  | '=' => (.ok .Eq, l)
  | '!' => l.if_peek '=' .NotEq (l.err "expected '=' after '!'")
  | '<' =>
    if l.peek = some '=' then (.ok .LtEq, l.advance)
    else if l.peek = some '>' then (.ok .NotEq, l.advance)
    else if l.peek = some '-' ∧ l.peek2 = some '>' then (.ok .VectorDist, l.advance.advance)
    else l.if_peek '@' .ContainedBy (.ok .Lt)
  | '>' => l.if_peek '=' .GtEq (.ok .Gt)
  | '-' =>
    if l.peek = some '>' ∧ l.peek2 = some '>' then (.ok .DoubleArrow, l.advance.advance)
    else l.if_peek '>' .Arrow (.ok .Minus)
  | '/' => (.ok .Slash, l)
  | ':' => l.if_peek ':' .DoubleColon (.ok .Colon)
  | '|' => l.if_peek '|' .Concat (l.err "unexpected '|'")
  | '@' => l.if_peek '>' .Contains (l.err "expected '>' after '@'")
  | '?' => (.ok .QuestionMark, l)
  | '#' => l.if_peek '>' .HashArrow (l.err "expected '>' after '#'")
  | other => (l.err ("unexpected character '" ++ String.ofList [other] ++ "'"), l)

/-! ## Tokens -/

/-- `next_token` behind white space and comments. -/
def scan_token (l : Lexer) : Scan F :=
  match l.peek with
  | none => (.ok .EOF, l)
  | some ch =>
    if ch.isAlpha || ch = '_' then l.scan_ident
    else if is_digit ch then l.scan_number f64_value
    else if ch = '\'' then l.scan_string
    else if ch = '"' then l.scan_quoted_ident
    else scan_operator_after ch l.advance

def next_token (l : Lexer) : Scan F := l.skip_whitespace_and_comments.scan_token f64_value

/-- The loop of `tokenize`; every token but the last takes at least one byte. -/
def tokenize_loop : ℕ → Lexer → Result (List (Token F))
  | 0, _ => .ok []
  | fuel + 1, l =>
    match l.next_token f64_value with
    | (.error e, _) => .error e
    | (.ok .EOF, _) => .ok [.EOF]
    | (.ok token, l') => (tokenize_loop fuel l').map (token :: ·)

def tokenize (input : List UInt8) : Result (List (Token F)) :=
  tokenize_loop f64_value (input.length + 1) (new input)

/-! ## Progress -/

theorem length_skip_whitespace_from (input : List UInt8) (line col : ℕ) :
    (skip_whitespace_from input line col).input.length ≤ input.length := by
  induction input generalizing line col with
  | nil => exact le_rfl
  | cons b rest ih =>
    unfold skip_whitespace_from
    split
    · split <;> exact (ih _ _).trans (Nat.le_succ _)
    · exact le_rfl

end Lexer

end Oigrap.Sql
