/-
What `substitute_params` makes of the tokens of a query.

The lexer has no token for `$n`, so a query with placeholders is read by `read_pieces`: the
lexer, with a placeholder where it begins outside of literals and comments. The tokens the
query stands for are those of its pieces, each placeholder filled with a literal.

`substitute_params` works on the text. It keeps to the tokens where its replacement stays
inside one piece: no placeholder inside a literal, values that are written as literals, and
no lexeme that runs on into its neighbour. `safe` collects these conditions.
-/
import Oigrap.Server.Session
import Oigrap.Sql.LexerSpec

namespace Oigrap.Server

open Oigrap.Sql (Token Result parse_i64 is_f64 is_digit strip_sign)
open Oigrap.Sql.Lexer

variable {F : Type} (f64_value : Text → F)

/-! ## Reading a query with placeholders -/

/-- The placeholder at the front of a text, with the number of its digits. -/
def placeholder_at (count : ℕ) : List UInt8 → Option (ℕ × ℕ)
  | [] => none
  | b :: rest => if Char.ofUInt8 b = '$' then placeholder count rest else none

/-- Whether a placeholder begins among the first `n` bytes. -/
def holds_placeholder (count : ℕ) : ℕ → List UInt8 → Bool
  | 0, _ => false
  | _ + 1, [] => false
  | n + 1, b :: rest => (placeholder_at count (b :: rest)).isSome || holds_placeholder count n rest

/-- Where the reader stands: in code, in a line comment or in a block comment. -/
inductive Mode where
  | code | line | block
  deriving DecidableEq, Repr

/-- A piece of a query. A byte of white space or of a comment is `blank`; a lexeme comes with
its text and whether a placeholder begins inside of it. -/
inductive Piece (F : Type) where
  | blank (b : UInt8)
  | in_line (idx : ℕ)
  | in_block (idx : ℕ)
  | lexeme (text : List UInt8) (token : Token F) (holds : Bool)
  | value (idx : ℕ)
  deriving DecidableEq, Repr

/-- The next piece of a text `b :: rest`, with the mode and the text behind it. -/
def read_piece (count : ℕ) (mode : Mode) (b : UInt8) (rest : List UInt8) :
    Result (Piece F × Mode × List UInt8) :=
  let found := placeholder_at count (b :: rest)
  let next := rest.head?.map Char.ofUInt8
  match mode with
  | .line =>
    if Char.ofUInt8 b = '\n' then .ok (.blank b, .code, rest)
    else match found with
    | some (idx, len) => .ok (.in_line idx, .line, rest.drop len)
    | none => .ok (.blank b, .line, rest)
  | .block =>
    if Char.ofUInt8 b = '*' ∧ next = some '/' then .ok (.blank b, .code, rest.drop 1)
    else match found with
    | some (idx, len) => .ok (.in_block idx, .block, rest.drop len)
    | none => .ok (.blank b, .block, rest)
  | .code =>
    if is_ascii_whitespace b then .ok (.blank b, .code, rest)
    else if Char.ofUInt8 b = '-' ∧ next = some '-' then .ok (.blank b, .line, rest.drop 1)
    else if Char.ofUInt8 b = '/' ∧ next = some '*' then .ok (.blank b, .block, rest.drop 1)
    else match found with
    | some (idx, len) => .ok (.value idx, .code, rest.drop len)
    | none =>
      match scan_token f64_value ⟨b :: rest, 1, 1⟩ with
      | (.error e, _) => .error e
      | (.ok token, l) =>
        let len := (b :: rest).length - l.input.length
        .ok (.lexeme ((b :: rest).take len) token (holds_placeholder count len (b :: rest)), .code, l.input)

/-- The pieces of a text; every piece takes at least one byte. -/
def read_pieces (count : ℕ) : ℕ → Mode → List UInt8 → Result (List (Piece F))
  | _, _, [] => .ok []
  | 0, _, _ :: _ => .ok []
  | fuel + 1, mode, b :: rest =>
    match read_piece f64_value count mode b rest with
    | .error e => .error e
    | .ok (piece, mode, rest) => (read_pieces count fuel mode rest).map (piece :: ·)

/-- The pieces of a query for `count` parameters. -/
def pieces (count : ℕ) (sql : Text) : Result (List (Piece F)) :=
  read_pieces f64_value count (into_bytes sql).length .code (into_bytes sql)

/-! ## The tokens a query stands for -/

/-- A number token for a text without sign. -/
def IsNumber (s : Text) (t : Token F) : Prop :=
  (∃ n, parse_i64 s = some n ∧ t = .IntLiteral n) ∨ (is_f64 s ∧ t = .FloatLiteral (f64_value s))

/-- The tokens of one literal that denotes a value: NULL, a number with an optional sign, or
a string. -/
inductive Denotes : Option Text → List (Token F) → Prop
  | null : Denotes none [.Null]
  | string (s : Text) : Denotes (some s) [.StringLiteral (String.ofList s)]
  | number {s : Text} {t : Token F} (h : IsNumber f64_value s t) : Denotes (some s) [t]
  | plus {s : Text} {t : Token F} (h : IsNumber f64_value s t) : Denotes (some ('+' :: s)) [.Plus, t]
  | minus {s : Text} {t : Token F} (h : IsNumber f64_value s t) : Denotes (some ('-' :: s)) [.Minus, t]

variable (values : List (Option Text))

/-- The value of a parameter, counted from one. -/
def value_of (idx : ℕ) : Option Text := values.getD (idx - 1) none

/-- The tokens of a query whose placeholders are filled; every other token is its own. -/
inductive Filled (values : List (Option Text)) : List (Piece F) → List (Token F) → Prop
  | nil : Filled values [] [.EOF]
  | blank {ps ts} (b : UInt8) (h : Filled values ps ts) : Filled values (.blank b :: ps) ts
  | in_line {ps ts} (idx : ℕ) (h : Filled values ps ts) : Filled values (.in_line idx :: ps) ts
  | in_block {ps ts} (idx : ℕ) (h : Filled values ps ts) : Filled values (.in_block idx :: ps) ts
  | lexeme {ps ts} (text : List UInt8) (t : Token F) (holds : Bool) (h : Filled values ps ts) :
      Filled values (.lexeme text t holds :: ps) (t :: ts)
  | value {ps ts lits} {idx : ℕ} (hlit : Denotes f64_value (value_of values idx) lits)
      (h : Filled values ps ts) : Filled values (.value idx :: ps) (lits ++ ts)

/-! ## Where the replacement stays in its place -/

/-- A value that looks like a literal and is read as a number. -/
def is_numeral (s : Text) : Bool :=
  let body := (strip_sign s).2
  body.head?.any is_digit && (!body.all is_digit || (parse_i64 body).isSome)

/-- A value that is written as a literal the lexer can read back. -/
def writable : Option Text → Bool
  | none => true
  | some s => if looks_literal s then is_numeral s else s.all (·.toNat < 0x80)

/-- The first byte of a value in the query. -/
def value_start : Option Text → List UInt8
  | none => into_bytes ['N']
  | some s => if looks_literal s then into_bytes (s.take 1) else into_bytes ['\'']

/-- The lexeme a value ends with, or its first byte where that decides. -/
def value_end : Option Text → List UInt8
  | none => into_bytes "NULL".toList
  | some s => if looks_literal s then into_bytes (strip_sign s).2 else into_bytes ['\'']

/-- What the lexer may read on from a piece. -/
def last_lexeme : Piece F → List UInt8
  | .lexeme text _ _ => text
  | .value idx => value_end (value_of values idx)
  | _ => []

/-- How the pieces begin. -/
def first_bytes : List (Piece F) → List UInt8
  | .blank b :: _ => [b]
  | .lexeme text _ _ :: _ => text
  | .value idx :: _ => value_start (value_of values idx)
  | _ => []

/-- The condition on a piece alone. Without parameters the text is not touched. -/
def piece_safe : Piece F → Bool
  | .blank _ => true
  | .in_line idx => (value_of values idx).all fun s => '\n' ∉ s
  | .in_block idx => (value_of values idx).all fun s => !contains s "*/"
  | .lexeme text _ holds => !holds && (values.isEmpty || text.all (·.toNat < 0x80))
  | .value idx => writable (value_of values idx)

def safe (values : List (Option Text)) : List (Piece F) → Bool
  | [] => true
  | p :: ps =>
    piece_safe values p && !goes_on (last_lexeme values p) (first_bytes values ps) && safe values ps

end Oigrap.Server
