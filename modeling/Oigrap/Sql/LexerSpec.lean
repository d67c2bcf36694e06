/-
What the lexer makes of a text, piece by piece.

`Lexes input tokens` says that the loop of `tokenize` turns `input` into `tokens`, from any
line and column. It is built up from the back: a byte of white space, a comment or a lexeme
in front of a text that lexes. A lexeme stays the token it is as long as the lexer does not
go on reading behind it; `goes_on` says when it does.
-/
import Mathlib
import Oigrap.Sql.Lexer

namespace Oigrap.Sql.Lexer

open List
open Char (ofUInt8)

variable {F : Type} (f64_value : Oigrap.Text → F)

/-! ## White space and comments -/

/-- The input of a state whose first byte is neither white space nor part of a comment start. -/
def NoGap (input : List UInt8) : Prop :=
  (∀ b, input.head? = some b → is_ascii_whitespace b = false) ∧
    ¬ (input.head?.map ofUInt8 = some '-' ∧ input[1]?.map ofUInt8 = some '-') ∧
    ¬ (input.head?.map ofUInt8 = some '/' ∧ input[1]?.map ofUInt8 = some '*')

variable {l : Lexer} {b : UInt8} {text : List UInt8} {t : Token F} {l' : Lexer}

theorem skip_whitespace_of_noGap (h : NoGap l.input) : l.skip_whitespace = l := by
  obtain ⟨input, line, col⟩ := l
  cases input with
  | nil => rfl
  | cons b rest =>
    have hb := h.1 b rfl
    rw [skip_whitespace, skip_whitespace_from, if_neg (by simp [hb])]

theorem skip_loop_of_noGap (h : NoGap l.input) (n : ℕ) : skip_loop n l = l := by
  cases n with
  | zero => rfl
  | succ n =>
    have hline : ¬ (l.peek = some '-' ∧ l.peek2 = some '-') := h.2.1
    have hblock : ¬ (l.peek = some '/' ∧ l.peek2 = some '*') := h.2.2
    rw [skip_loop, skip_whitespace_of_noGap h, if_neg hline, if_neg hblock]

/-- What is left behind a line comment. -/
def line_end (input : List UInt8) : List UInt8 := input.dropWhile (fun b => ofUInt8 b ≠ '\n')

theorem line_end_cons (h : ofUInt8 b ≠ '\n') (rest : List UInt8) :
    line_end (b :: rest) = line_end rest := dropWhile_cons_of_pos (by simp [h])

theorem length_line_end (input : List UInt8) : (line_end input).length ≤ input.length :=
  (dropWhile_sublist _).length_le

theorem length_skip_block (input : List UInt8) : (skip_block input).length ≤ input.length := by
  induction input with
  | nil => exact le_rfl
  | cons a rest ih =>
    cases rest with
    | nil => exact Nat.zero_le _
    | cons b rest =>
      rw [skip_block]
      split
      · simp only [length_cons]; omega
      · exact ih.trans (Nat.le_succ _)

/-- More rounds than there are bytes change nothing. -/
theorem skip_loop_fuel {n m : ℕ} (hn : l.input.length < n) (hm : l.input.length < m) :
    skip_loop n l = skip_loop m l := by
  induction n generalizing m l with
  | zero => omega
  | succ n ih =>
    obtain ⟨m, rfl⟩ : ∃ k, m = k + 1 := ⟨m - 1, by omega⟩
    have hskip : l.skip_whitespace.input.length ≤ l.input.length :=
      length_skip_whitespace_from l.input l.line l.col
    rw [skip_loop, skip_loop]
    generalize l.skip_whitespace = l' at hskip ⊢
    obtain ⟨input, line, col⟩ := l'
    -- a comment takes its two opening bytes at least
    cases input with
    | nil => simp [peek]
    | cons b rest =>
      simp only [length_cons] at hskip
      split
      · rename_i hdash
        have hb : ofUInt8 b = '-' := by simpa [peek] using hdash.1
        have hend : (line_end (b :: rest)).length ≤ rest.length := by
          rw [line_end_cons (by simp [hb])]
          exact length_line_end rest
        exact ih (lt_of_le_of_lt hend (by omega)) (lt_of_le_of_lt hend (by omega))
      · split
        · have := length_skip_block ((b :: rest).drop 2)
          simp only [length_drop, length_cons] at this
          exact ih (by simp only; omega) (by simp only; omega)
        · rfl

theorem skip_blank (h : is_ascii_whitespace b = true) (rest : List UInt8) (line col : ℕ) :
    ∃ line' col', skip_whitespace_and_comments ⟨b :: rest, line, col⟩ =
      skip_whitespace_and_comments ⟨rest, line', col'⟩ := by
  have hskip : ∃ line' col', skip_whitespace ⟨b :: rest, line, col⟩ =
      skip_whitespace ⟨rest, line', col'⟩ := by
    by_cases hb : ofUInt8 b = '\n'
    · exact ⟨line + 1, 1, by simp [skip_whitespace, skip_whitespace_from, h, hb]⟩
    · exact ⟨line, col + 1, by simp [skip_whitespace, skip_whitespace_from, h, hb]⟩
  obtain ⟨line', col', hskip⟩ := hskip
  refine ⟨line', col', ?_⟩
  have hmore : skip_loop (rest.length + 2) ⟨rest, line', col'⟩ =
      skip_loop (rest.length + 1) ⟨rest, line', col'⟩ := skip_loop_fuel (by simp) (by simp)
  calc skip_whitespace_and_comments ⟨b :: rest, line, col⟩
      = skip_loop (rest.length + 2) ⟨b :: rest, line, col⟩ := rfl
    _ = skip_loop (rest.length + 2) ⟨rest, line', col'⟩ := by rw [skip_loop, hskip, ← skip_loop]
    _ = skip_whitespace_and_comments ⟨rest, line', col'⟩ := hmore

variable {a : UInt8}

theorem skip_whitespace_dash {line col : ℕ} (h : ofUInt8 a = '-' ∨ ofUInt8 a = '/') :
    skip_whitespace ⟨a :: rest, line, col⟩ = ⟨a :: rest, line, col⟩ := by
  obtain h | h := h <;> simp [skip_whitespace, skip_whitespace_from, is_ascii_whitespace, h]

theorem skip_line_comment (ha : ofUInt8 a = '-') (hb : ofUInt8 b = '-') (rest : List UInt8)
    (line col : ℕ) : skip_whitespace_and_comments ⟨a :: b :: rest, line, col⟩ =
      skip_whitespace_and_comments ⟨line_end rest, line, col⟩ := by
  have hend : (a :: b :: rest).dropWhile (fun b => ofUInt8 b ≠ '\n') = line_end rest := by
    rw [← line_end, line_end_cons (by simp [ha]), line_end_cons (by simp [hb])]
  have hlen := length_line_end rest
  rw [skip_whitespace_and_comments, skip_loop, skip_whitespace_dash (.inl ha),
    if_pos ⟨by simp [peek, ha], by simp [peek2, hb]⟩, skip_whitespace_and_comments]
  simp only [hend, length_cons]
  exact skip_loop_fuel (by simp only; omega) (by simp)

theorem skip_block_comment (ha : ofUInt8 a = '/') (hb : ofUInt8 b = '*') (rest : List UInt8)
    (line col : ℕ) : skip_whitespace_and_comments ⟨a :: b :: rest, line, col⟩ =
      skip_whitespace_and_comments ⟨skip_block rest, line, col⟩ := by
  have hlen := length_skip_block rest
  rw [skip_whitespace_and_comments, skip_loop, skip_whitespace_dash (.inr ha),
    if_neg (by simp [peek, ha]), if_pos ⟨by simp [peek, ha], by simp [peek2, hb]⟩, skip_whitespace_and_comments]
  simp only [length_cons, drop_succ_cons, drop_zero]
  exact skip_loop_fuel (by simp only; omega) (by simp)

/-! ## Texts that lex -/

/-- The loop of `tokenize` makes `tokens` of `input`, wherever it stands. -/
def Lexes (input : List UInt8) (tokens : List (Token F)) : Prop :=
  ∀ fuel line col, input.length < fuel → tokenize_loop f64_value fuel ⟨input, line, col⟩ = .ok tokens

variable {f64_value} {input rest : List UInt8} {tokens : List (Token F)}

theorem Lexes.tokenize (h : Lexes f64_value input tokens) :
    Lexer.tokenize f64_value input = .ok tokens := h _ _ _ (Nat.lt_succ_self _)

theorem Lexes.nil : Lexes f64_value [] [.EOF] := by
  intro fuel line col hfuel
  obtain ⟨fuel, rfl⟩ : ∃ k, fuel = k + 1 := ⟨fuel - 1, by omega⟩
  rfl

/-- What is skipped in front of a token does not show. -/
theorem Lexes.skip
    (hskip : ∀ line col, ∃ line' col', skip_whitespace_and_comments ⟨input, line, col⟩ =
      skip_whitespace_and_comments ⟨rest, line', col'⟩)
    (hlen : rest.length ≤ input.length) (h : Lexes f64_value rest tokens) :
    Lexes f64_value input tokens := by
  intro fuel line col hfuel
  obtain ⟨fuel, rfl⟩ : ∃ k, fuel = k + 1 := ⟨fuel - 1, by omega⟩
  obtain ⟨line', col', hskip⟩ := hskip line col
  rw [← h (fuel + 1) line' col' (by omega), tokenize_loop, tokenize_loop, next_token, next_token, hskip]

theorem Lexes.blank (hb : is_ascii_whitespace b = true) (h : Lexes f64_value rest tokens) :
    Lexes f64_value (b :: rest) tokens :=
  h.skip (skip_blank hb rest) (Nat.le_succ _)

theorem Lexes.line_comment (ha : ofUInt8 a = '-') (hb : ofUInt8 b = '-')
    (h : Lexes f64_value (line_end rest) tokens) : Lexes f64_value (a :: b :: rest) tokens := by
  refine h.skip (fun line col => ⟨line, col, skip_line_comment ha hb rest line col⟩) ?_
  have := length_line_end rest
  simp only [length_cons]
  omega

theorem Lexes.block_comment (ha : ofUInt8 a = '/') (hb : ofUInt8 b = '*')
    (h : Lexes f64_value (skip_block rest) tokens) : Lexes f64_value (a :: b :: rest) tokens := by
  refine h.skip (fun line col => ⟨line, col, skip_block_comment ha hb rest line col⟩) ?_
  have := length_skip_block rest
  simp only [length_cons]
  omega

theorem Lexes.token (hne : text ≠ []) (ht : t ≠ .EOF) (hgap : NoGap (text ++ rest))
    (hscan : ∀ line col, ∃ l', scan_token f64_value ⟨text ++ rest, line, col⟩ = (.ok t, l')
      ∧ l'.input = rest)
    (h : Lexes f64_value rest tokens) : Lexes f64_value (text ++ rest) (t :: tokens) := by
  intro fuel line col hfuel
  obtain ⟨fuel, rfl⟩ : ∃ k, fuel = k + 1 := ⟨fuel - 1, by omega⟩
  obtain ⟨⟨_, line', col'⟩, hscan, rfl⟩ := hscan line col
  have hpos := length_pos_of_ne_nil hne
  rw [length_append] at hfuel
  rw [tokenize_loop, next_token, skip_whitespace_and_comments,
    skip_loop_of_noGap (l := ⟨_, line, col⟩) hgap, hscan]
  have hrest := h fuel line' col' (by omega)
  cases t <;> first | exact absurd rfl ht | simp only [hrest, Except.map]

/-! ## When a lexeme goes on -/

/-- Whether the lexer reads `b` as part of the number `text` in front of it. -/
def number_goes_on (text : List UInt8) (b : UInt8) : Bool :=
  is_digit_byte b ||
  (ofUInt8 b = '.' && text.all is_digit_byte) ||
  ((ofUInt8 b = 'e' || ofUInt8 b = 'E') && text.all fun d => is_digit_byte d || ofUInt8 d = '.') ||
  ((ofUInt8 b = '+' || ofUInt8 b = '-') &&
    text.getLast?.any fun d => ofUInt8 d = 'e' || ofUInt8 d = 'E')

/-- Whether `text` and the next two characters begin a longer operator, or a comment. -/
def operator_goes_on (text : Oigrap.Text) (c c' : Option Char) : Bool :=
  if text = ['<'] then
    c = some '=' || c = some '>' || c = some '@' || (c = some '-' && c' = some '>')
  else if text = ['>'] then c = some '='
  else if text = ['-'] then c = some '>' || c = some '-'
  else if text = ['-', '>'] then c = some '>'
  else if text = [':'] then c = some ':'
  else if text = ['/'] then c = some '*'
  else false

/-- Whether the lexer, at the lexeme `text`, reads on into `next`. -/
def goes_on (text next : List UInt8) : Bool :=
  match text.head?.map ofUInt8 with
  | none => false
  | some c =>
    if c.isAlpha || c = '_' then next.head?.any is_word_byte
    else if is_digit c then next.head?.any (number_goes_on text)
    else if c = '\'' then next.head?.map ofUInt8 = some '\''
    else if c = '"' then false
    else operator_goes_on (text.map ofUInt8) (next.head?.map ofUInt8)
      (next[1]?.map ofUInt8)

/-- The second character only matters for the operator `<->`. -/
theorem operator_goes_on_second {text : Oigrap.Text} {c d d' : Option Char}
    (h : operator_goes_on text c d = true) :
    operator_goes_on text c d' = true ∨ (text = ['<'] ∧ c = some '-' ∧ d = some '>') := by
  unfold operator_goes_on at h ⊢
  by_cases htext : text = ['<']
  · simp only [if_pos htext, Bool.or_eq_true, Bool.and_eq_true, decide_eq_true_eq] at h ⊢
    tauto
  · simp only [if_neg htext] at h ⊢
    exact .inl h

/-- The next byte decides, but for that operator. -/
theorem goes_on_of_head {next next' : List UInt8} (hhead : next'.head? = next.head?)
    (h : goes_on text next = true) : goes_on text next' = true ∨ (text.map ofUInt8 = ['<'] ∧
      next.head?.map ofUInt8 = some '-' ∧ next[1]?.map ofUInt8 = some '>') := by
  unfold goes_on at h ⊢
  rw [hhead]
  cases htext : text.head?.map ofUInt8 with
  | none => simp [htext] at h
  | some c =>
    simp only [htext] at h ⊢
    split_ifs at h ⊢
    · exact .inl h
    · exact .inl h
    · exact .inl h
    · exact operator_goes_on_second h

variable (f64_value) in
/-- A text that is read as one token wherever it does not go on. -/
structure Lexeme (text : List UInt8) (t : Token F) : Prop where
  ne_nil : text ≠ []
  not_eof : t ≠ .EOF
  no_gap : ∀ rest, goes_on text rest = false → NoGap (text ++ rest)
  scan : ∀ rest line col, goes_on text rest = false →
    ∃ l', scan_token f64_value ⟨text ++ rest, line, col⟩ = (.ok t, l') ∧ l'.input = rest

theorem Lexes.lexeme (hlex : Lexeme f64_value text t) (hend : goes_on text rest = false)
    (h : Lexes f64_value rest tokens) : Lexes f64_value (text ++ rest) (t :: tokens) :=
  h.token hlex.ne_nil hlex.not_eof (hlex.no_gap rest hend) fun line col => hlex.scan rest line col hend

/-- The characters white space and comments begin with. -/
def gap_chars : List Char := [' ', '\t', '\n', '\x0c', '\r', '-', '/']

section While

variable {p : UInt8 → Bool}

theorem while_append (htext : ∀ d ∈ text, p d) (hrest : rest.head?.any p = false) :
    (text ++ rest).takeWhile p = text ∧ (text ++ rest).dropWhile p = rest := by
  rw [takeWhile_append_of_pos htext, dropWhile_append_of_pos htext]
  cases rest with
  | nil => simp
  | cons b rest =>
    have hb : ¬ p b = true := by simpa using hrest
    rw [takeWhile_cons_of_neg hb, dropWhile_cons_of_neg hb, append_nil]
    exact ⟨rfl, rfl⟩

theorem head_dropWhile (input : List UInt8) : (input.dropWhile p).head?.any p = false := by
  have := head?_dropWhile_not p input
  cases h : (input.dropWhile p).head? <;> simp_all

end While

theorem noGap_cons (h : ofUInt8 b ∉ gap_chars) (rest : List UInt8) : NoGap (b :: rest) := by
  simp only [gap_chars, mem_cons, not_mem_nil, or_false, not_or] at h
  refine ⟨fun b' hb => ?_, ?_, ?_⟩
  · obtain rfl : b = b' := by simpa using hb
    simp [is_ascii_whitespace, h]
  · simp [h]
  · simp [h]

/-! ### Words -/

theorem keyword_or_ident_ne_eof (word : Oigrap.Text) : (keyword_or_ident word : Token F) ≠ .EOF := by
  have hkey : ∀ k ∈ (keywords : List (String × Token F)), k.2 ≠ .EOF := by simp [keywords]
  unfold keyword_or_ident
  split
  · rename_i hfind
    exact hkey _ (mem_of_find?_eq_some hfind)
  · nofun

theorem goes_on_word (h : (ofUInt8 b).isAlpha || ofUInt8 b = '_')
    (text next : List UInt8) : goes_on (b :: text) next = next.head?.any is_word_byte := by
  simp only [goes_on, head?_cons, Option.map_some, h, if_true]

theorem Lexeme.word {word : Oigrap.Text}
    (hstart : (ofUInt8 b).isAlpha || ofUInt8 b = '_')
    (hword : ∀ d ∈ b :: text, is_word_byte d) (hutf : from_utf8 (b :: text) = some word) :
    Lexeme f64_value (b :: text) (keyword_or_ident word) where
  ne_nil := nofun
  not_eof := keyword_or_ident_ne_eof word
  no_gap rest _ := by
    have hgap : ∀ c ∈ gap_chars, (c.isAlpha || c = '_') = false :=
      all_iff_forall_prop.mp (by decide)
    exact noGap_cons (fun hb => by simp [hgap _ hb] at hstart) _
  scan rest line col hend := by
    rw [goes_on_word hstart] at hend
    obtain ⟨htake, hdrop⟩ := while_append hword hend
    refine ⟨⟨rest, line, col⟩, ?_, rfl⟩
    simp only [scan_token, peek, cons_append, head?_cons, Option.map_some, hstart, if_true]
    rw [scan_ident]
    simp only [← cons_append, htake, hdrop, hutf]

/-! ### Numbers -/

/-- The parts of a number as `scan_number` takes them. -/
structure Numeral (whole fraction exponent : List UInt8) : Prop where
  whole_ne : whole ≠ []
  whole_digits : ∀ d ∈ whole, is_digit_byte d
  fraction_form : fraction = [] ∨ ∃ p ds, fraction = p :: ds ∧ ofUInt8 p = '.' ∧
    ∀ d ∈ ds, is_digit_byte d
  exponent_form : exponent = [] ∨ ∃ e sign ds, exponent = e :: (sign ++ ds) ∧
    (ofUInt8 e = 'e' ∨ ofUInt8 e = 'E') ∧
    (sign = [] ∨ ∃ s, sign = [s] ∧ (ofUInt8 s = '+' ∨ ofUInt8 s = '-')) ∧
    ∀ d ∈ ds, is_digit_byte d

/-- The letter before an exponent. -/
abbrev IsE (b : UInt8) : Prop := ofUInt8 b = 'e' ∨ ofUInt8 b = 'E'

abbrev IsSign (b : UInt8) : Prop := ofUInt8 b = '+' ∨ ofUInt8 b = '-'

theorem not_digit_of_e {e : UInt8} (he : IsE e) : is_digit_byte e = false ∧ ofUInt8 e ≠ '.' := by
  obtain he | he := he <;> simp [is_digit_byte, is_digit, he]

theorem take_digits_eq (input : List UInt8) :
    take_digits input = (input.takeWhile is_digit_byte, input.dropWhile is_digit_byte) :=
  List.span_eq_takeWhile_dropWhile _ input

theorem take_digits_append {ds rest : List UInt8} (hds : ∀ d ∈ ds, is_digit_byte d)
    (hrest : rest.head?.any is_digit_byte = false) : take_digits (ds ++ rest) = (ds, rest) := by
  obtain ⟨htake, hdrop⟩ := while_append hds hrest
  rw [take_digits_eq, htake, hdrop]

theorem take_sign_of_ne {rest : List UInt8} (h : ¬ IsSign b) :
    take_sign (b :: rest) = ([], b :: rest) := by
  rw [take_sign, if_neg h]

variable {whole fraction exponent : List UInt8}

theorem not_digit_of_end {text : List UInt8} (hend : rest.head?.any (number_goes_on text) = false) :
    rest.head?.any is_digit_byte = false := by
  cases rest with
  | nil => rfl
  | cons b rest =>
    simp only [head?_cons, Option.any_some, number_goes_on, Bool.or_eq_false_iff] at hend
    simpa using hend.1.1.1

section

variable (h : Numeral whole fraction exponent)
include h

section

variable (hend : rest.head?.any (number_goes_on (whole ++ fraction ++ exponent)) = false)
include hend

theorem Numeral.take_whole :
    take_digits (whole ++ (fraction ++ (exponent ++ rest))) = (whole, fraction ++ (exponent ++ rest)) := by
  refine take_digits_append h.whole_digits ?_
  obtain rfl | ⟨p, ds, rfl, hp, -⟩ := h.fraction_form
  · obtain rfl | ⟨e, sign, ds, rfl, he, -⟩ := h.exponent_form
    · exact not_digit_of_end hend
    · simp [(not_digit_of_e he).1]
  · simp [is_digit_byte, is_digit, hp]

theorem Numeral.take_point :
    take_fraction (fraction ++ (exponent ++ rest)) = (fraction, exponent ++ rest) := by
  obtain rfl | ⟨p, ds, rfl, hp, hds⟩ := h.fraction_form
  · obtain rfl | ⟨e, sign, ds, rfl, he, -⟩ := h.exponent_form
    · cases rest with
      | nil => rfl
      | cons b rest =>
        have hb : ofUInt8 b ≠ '.' := by
          intro hb
          have hall : whole.all is_digit_byte = true := all_eq_true.2 h.whole_digits
          simp [number_goes_on, hb, hall] at hend
        simp [take_fraction, hb]
    · simp [take_fraction, (not_digit_of_e he).2]
  · have hrest : (exponent ++ rest).head?.any is_digit_byte = false := by
      obtain rfl | ⟨e, sign, es, rfl, he, -⟩ := h.exponent_form
      · exact not_digit_of_end hend
      · simp [(not_digit_of_e he).1]
    simp only [cons_append, take_fraction, hp, if_true, take_digits_append hds hrest]

theorem Numeral.take_power :
    take_exponent (exponent ++ rest) = (exponent, rest) := by
  obtain rfl | ⟨e, sign, ds, rfl, he, hsign, hds⟩ := h.exponent_form
  · cases rest with
    | nil => rfl
    | cons b rest =>
      have hall : (whole ++ fraction ++ []).all (fun d => is_digit_byte d || ofUInt8 d = '.') = true := by
        obtain rfl | ⟨p, ds, rfl, hp, hds⟩ := h.fraction_form
        · simpa using fun d hd => .inl (h.whole_digits d hd)
        · simp only [append_nil, all_append, all_cons, hp, Bool.and_eq_true, all_eq_true]
          exact ⟨fun d hd => by simp [h.whole_digits d hd], by simp, fun d hd => by simp [hds d hd]⟩
      have hb : ¬ IsE b := by
        intro hb
        simp only [head?_cons, Option.any_some, number_goes_on, hall, Bool.or_eq_false_iff] at hend
        obtain hb | hb := hb <;> simp [hb] at hend
      rw [nil_append, take_exponent, if_neg hb]
  · have hdigit := not_digit_of_end hend
    have htake : take_sign (sign ++ ds ++ rest) = (sign, ds ++ rest) := by
      obtain rfl | ⟨s, rfl, hs⟩ := hsign
      · cases ds with
        | nil =>
          cases rest with
          | nil => rfl
          | cons b rest =>
            -- a bare `e` would take a sign
            refine take_sign_of_ne fun hb => ?_
            have hlast : (whole ++ fraction ++ [e]).getLast?.any
                (fun d => ofUInt8 d = 'e' || ofUInt8 d = 'E') = true := by
              simpa using he
            simp only [nil_append, head?_cons, Option.any_some, number_goes_on, hlast,
              Bool.or_eq_false_iff] at hend
            obtain hb | hb := hb <;> simp [hb] at hend
        | cons d ds =>
          refine take_sign_of_ne fun hd => ?_
          have hdig := hds d mem_cons_self
          obtain hd | hd := hd <;> simp [is_digit_byte, is_digit, hd] at hdig
      · simp [take_sign, hs]
    rw [cons_append, take_exponent, if_pos he, htake]
    simp only [take_digits_append hds hdigit]

end

end

variable (f64_value) in
/-- The token `scan_number` makes of the parts of a number. -/
def IsNumberToken (whole fraction exponent : List UInt8) (t : Token F) : Prop :=
  let s := (whole ++ fraction ++ exponent).map ofUInt8
  if fraction ≠ [] ∨ exponent ≠ [] then is_f64 s ∧ t = .FloatLiteral (f64_value s)
  else ∃ n, parse_i64 s = some n ∧ t = .IntLiteral n

section

theorem IsNumberToken.ne_eof (h : IsNumberToken f64_value whole fraction exponent t) : t ≠ .EOF := by
  unfold IsNumberToken at h
  split at h
  · rw [h.2]; nofun
  · obtain ⟨n, -, rfl⟩ := h; nofun

theorem not_alpha_of_digit {c : Char} (h : is_digit c) : (c.isAlpha || c = '_') = false := by
  simp only [is_digit, Bool.and_eq_true, decide_eq_true_eq, Char.le_def, UInt32.le_iff_toNat_le] at h
  simp only [Char.isAlpha, Char.isUpper, Char.isLower, Bool.or_eq_false_iff, ge_iff_le,
    UInt32.le_iff_toNat_le]
  refine ⟨by simp_all; omega, ?_⟩
  simp only [decide_eq_false_iff_not]
  rintro rfl
  simp at h

theorem goes_on_number {b : UInt8} (h : is_digit_byte b) (text next : List UInt8) :
    goes_on (b :: text) next = next.head?.any (number_goes_on (b :: text)) := by
  have hdigit : is_digit (ofUInt8 b) := h
  simp only [goes_on, head?_cons, Option.map_some, not_alpha_of_digit hdigit, hdigit, if_true,
    Bool.false_eq_true, if_false]

theorem scan_token_number {b : UInt8} (h : is_digit_byte b) (rest : List UInt8) (line col : ℕ) :
    scan_token f64_value ⟨b :: rest, line, col⟩ = scan_number f64_value ⟨b :: rest, line, col⟩ := by
  have hdigit : is_digit (ofUInt8 b) := h
  simp only [scan_token, peek, head?_cons, Option.map_some, not_alpha_of_digit hdigit, hdigit,
    if_true, Bool.false_eq_true, if_false]

theorem scan_number_of_parts (line col : ℕ) {rest₁ rest₂ rest₃ : List UInt8}
    (h₁ : take_digits input = (whole, rest₁)) (h₂ : take_fraction rest₁ = (fraction, rest₂))
    (h₃ : take_exponent rest₂ = (exponent, rest₃)) {l' : Lexer} :
    scan_number f64_value ⟨input, line, col⟩ = (.ok t, l') ↔
      IsNumberToken f64_value whole fraction exponent t ∧ l' = ⟨rest₃, line, col⟩ := by
  rw [scan_number, h₁]
  simp only [h₂, h₃, IsNumberToken]
  split
  · split <;> rename_i hf
    · simp only [Prod.mk.injEq, Except.ok.injEq, hf, true_and]
      exact and_congr eq_comm eq_comm
    · simp [err, hf, -map_append, -append_assoc]
  · split <;> rename_i hn
    · simp only [Prod.mk.injEq, Except.ok.injEq, hn, Option.some.injEq, exists_eq_left']
      exact and_congr eq_comm eq_comm
    · simp [err, hn, -map_append, -append_assoc]

theorem Lexeme.number (h : Numeral whole fraction exponent)
    (ht : IsNumberToken f64_value whole fraction exponent t) :
    Lexeme f64_value (whole ++ fraction ++ exponent) t := by
  obtain ⟨b, whole', rfl⟩ := exists_cons_of_ne_nil h.whole_ne
  have hb : is_digit_byte b := h.whole_digits b mem_cons_self
  have hgoes : ∀ next, goes_on (b :: whole' ++ fraction ++ exponent) next =
      next.head?.any (number_goes_on (b :: whole' ++ fraction ++ exponent)) :=
    fun next => goes_on_number hb (whole' ++ fraction ++ exponent) next
  refine ⟨nofun, ht.ne_eof, fun rest _ => ?_, fun rest line col hend => ?_⟩
  · have hgap : ∀ c ∈ gap_chars, is_digit c = false :=
      all_iff_forall_prop.mp (by decide)
    exact noGap_cons (fun hc => by simp [is_digit_byte, hgap _ hc] at hb) _
  · rw [hgoes] at hend
    refine ⟨⟨rest, line, col⟩, ?_, rfl⟩
    have hscan := (scan_number_of_parts line col (h.take_whole hend) (h.take_point hend)
      (h.take_power hend)).2 ⟨ht, rfl⟩
    rw [cons_append, cons_append, cons_append, scan_token_number hb]
    simpa using hscan

theorem take_digits_spec (h : take_digits input = (text, rest)) : input = text ++ rest ∧
      (∀ d ∈ text, is_digit_byte d) ∧ rest.head?.any is_digit_byte = false := by
  rw [take_digits_eq] at h
  cases h
  exact ⟨takeWhile_append_dropWhile.symm, fun d hd => mem_takeWhile_imp hd,
    head_dropWhile input⟩

theorem take_fraction_spec (h : take_fraction input = (text, rest)) : input = text ++ rest ∧
      (text = [] ∧ rest.head?.map ofUInt8 ≠ some '.' ∨
       (∃ p ds, text = p :: ds ∧ ofUInt8 p = '.' ∧ ∀ d ∈ ds, is_digit_byte d) ∧
        rest.head?.any is_digit_byte = false) := by
  cases input with
  | nil =>
    cases h
    exact ⟨rfl, .inl ⟨rfl, nofun⟩⟩
  | cons b input =>
    obtain ⟨hrest, hds, hhead⟩ := take_digits_spec (Eq.refl (take_digits input))
    rw [take_fraction] at h
    split_ifs at h with hb <;> cases h
    · exact ⟨congrArg (b :: ·) hrest, .inr ⟨⟨b, _, rfl, hb, hds⟩, hhead⟩⟩
    · exact ⟨rfl, .inl ⟨rfl, by simpa using hb⟩⟩

theorem take_sign_spec (h : take_sign input = (text, rest)) : input = text ++ rest ∧
      (text = [] ∧ (∀ b, rest.head? = some b → ¬ IsSign b) ∨ ∃ s, text = [s] ∧ IsSign s) := by
  cases input with
  | nil =>
    cases h
    exact ⟨rfl, .inl ⟨rfl, nofun⟩⟩
  | cons b input =>
    rw [take_sign] at h
    split_ifs at h with hb <;> cases h
    · exact ⟨rfl, .inr ⟨b, rfl, hb⟩⟩
    · exact ⟨rfl, .inl ⟨rfl, by rintro d ⟨⟩; exact hb⟩⟩

theorem take_exponent_spec (h : take_exponent input = (text, rest)) : input = text ++ rest ∧
      (text = [] ∧ (∀ b, rest.head? = some b → ¬ IsE b) ∨
       ∃ e sign ds, text = e :: (sign ++ ds) ∧ IsE e ∧
        (sign = [] ∧ (ds = [] → ∀ b, rest.head? = some b → ¬ IsSign b) ∨ ∃ s, sign = [s] ∧ IsSign s) ∧
        (∀ d ∈ ds, is_digit_byte d) ∧ rest.head?.any is_digit_byte = false) := by
  cases input with
  | nil =>
    cases h
    exact ⟨rfl, .inl ⟨rfl, nofun⟩⟩
  | cons b input =>
    obtain ⟨⟨sign, rest₁⟩, hp₁⟩ : ∃ p, take_sign input = p := ⟨_, rfl⟩
    obtain ⟨⟨ds, rest₂⟩, hp₂⟩ : ∃ p, take_digits rest₁ = p := ⟨_, rfl⟩
    obtain ⟨rfl, hsign⟩ := take_sign_spec hp₁
    obtain ⟨rfl, hds, hhead⟩ := take_digits_spec hp₂
    simp only [take_exponent, hp₁, hp₂] at h
    split_ifs at h with hb <;> cases h
    · refine ⟨by simp, .inr ⟨b, sign, ds, rfl, hb, ?_, hds, hhead⟩⟩
      exact hsign.imp_left fun ⟨hnil, hne⟩ => ⟨hnil, fun hd b' hb' => hne b' (by rwa [hd])⟩
    · exact ⟨rfl, .inl ⟨rfl, by rintro d ⟨⟩; exact hb⟩⟩

theorem not_e_of_digit {d : UInt8} (h : is_digit_byte d) : ¬ IsE d := fun he => by
  simp [(not_digit_of_e he).1] at h

/-- A numeral without an exponent, in front of a byte that is none of its kind. -/
theorem number_goes_on_of_plain {b : UInt8} (h : Numeral whole fraction [])
    (hdigit : is_digit_byte b = false) (hpoint : fraction = [] → ofUInt8 b ≠ '.')
    (he : ¬ IsE b) : number_goes_on (whole ++ fraction ++ []) b = false := by
  simp only [number_goes_on, Bool.or_eq_false_iff, Bool.and_eq_false_iff, append_nil]
  refine ⟨⟨⟨hdigit, ?_⟩, .inl (by simpa using he)⟩, .inr ?_⟩
  · obtain rfl | ⟨p, ds, rfl, hp, -⟩ := h.fraction_form
    · exact .inl (by simpa using hpoint rfl)
    · exact .inr (by simp [is_digit_byte, is_digit, hp])
  · rw [Option.any_eq_false]
    intro d hd
    have hmem := mem_of_getLast? hd
    have hnot : ¬ IsE d := by
      obtain hw | hf := mem_append.1 hmem
      · exact not_e_of_digit (h.whole_digits d hw)
      · obtain rfl | ⟨p, ds, rfl, hp, hds⟩ := h.fraction_form
        · simp at hf
        · obtain rfl | hf := mem_cons.1 hf
          · simp [hp]
          · exact not_e_of_digit (hds d hf)
    simpa using hnot

/-- A numeral with an exponent, in front of a byte that is not part of it. -/
theorem number_goes_on_of_power {b e : UInt8} {sign ds : List UInt8} (text : List UInt8)
    (he : IsE e) (hsign : sign = [] ∧ (ds = [] → ¬ IsSign b) ∨ ∃ s, sign = [s] ∧ IsSign s)
    (hds : ∀ d ∈ ds, is_digit_byte d) (hdigit : is_digit_byte b = false) :
    number_goes_on (text ++ e :: (sign ++ ds)) b = false := by
  obtain ⟨hed, hep⟩ := not_digit_of_e he
  simp only [number_goes_on, Bool.or_eq_false_iff, Bool.and_eq_false_iff]
  refine ⟨⟨⟨hdigit, .inr (by simp [hed])⟩, .inr (by simp [hed, hep])⟩, ?_⟩
  cases ds using reverseRecOn with
  | nil =>
    obtain ⟨rfl, hb⟩ | ⟨s, rfl, hs⟩ := hsign
    · exact .inl (by simpa using hb rfl)
    · refine .inr ?_
      obtain hs | hs := hs <;> simp [hs]
  | append_singleton ds d =>
    have hd := not_e_of_digit (hds d (by simp))
    refine .inr ?_
    rw [← append_assoc, ← cons_append, ← append_assoc, getLast?_concat]
    simpa using hd

/-- A number that was scanned is a numeral, and it does not go on. -/
theorem numeral_of_scan {b : UInt8} {line col : ℕ} {l' : Lexer} (hb : is_digit_byte b)
    (h : scan_number f64_value ⟨b :: input, line, col⟩ = (.ok t, l')) :
    ∃ whole fraction exponent, b :: input = whole ++ fraction ++ exponent ++ l'.input ∧
      Numeral whole fraction exponent ∧ IsNumberToken f64_value whole fraction exponent t ∧
      l'.input.head?.any (number_goes_on (whole ++ fraction ++ exponent)) = false := by
  obtain ⟨⟨whole, rest₁⟩, hp₁⟩ : ∃ p, take_digits (b :: input) = p := ⟨_, rfl⟩
  obtain ⟨⟨fraction, rest₂⟩, hp₂⟩ : ∃ p, take_fraction rest₁ = p := ⟨_, rfl⟩
  obtain ⟨⟨exponent, rest₃⟩, hp₃⟩ : ∃ p, take_exponent rest₂ = p := ⟨_, rfl⟩
  obtain ⟨ht, rfl⟩ := (scan_number_of_parts line col hp₁ hp₂ hp₃).1 h
  obtain ⟨h₁, hwhole, hdigit⟩ := take_digits_spec hp₁
  obtain ⟨h₂, hfraction⟩ := take_fraction_spec hp₂
  obtain ⟨h₃, hexponent⟩ := take_exponent_spec hp₃
  have hne : whole ≠ [] := by
    have : whole = (b :: input).takeWhile is_digit_byte := by
      rw [take_digits_eq] at hp₁
      exact (congrArg Prod.fst hp₁).symm
    rw [this, takeWhile_cons_of_pos hb]
    nofun
  have hnum : Numeral whole fraction exponent := by
    refine ⟨hne, hwhole, hfraction.imp And.left And.left, hexponent.imp And.left ?_⟩
    rintro ⟨e, sign, ds, hform, he, hsign, hds, -⟩
    exact ⟨e, sign, ds, hform, he, hsign.imp And.left id, hds⟩
  refine ⟨whole, fraction, exponent, ?_, hnum, ht, ?_⟩
  · rw [append_assoc, ← h₃, append_assoc, ← h₂, ← h₁]
  · cases rest₃ with
    | nil => rfl
    | cons d rest =>
      rw [head?_cons, Option.any_some]
      obtain ⟨rfl, hexp⟩ | ⟨e, sign, ds, rfl, he, hsign, hds, hhead⟩ := hexponent
      · obtain rfl : rest₂ = d :: rest := h₃
        refine number_goes_on_of_plain hnum ?_ ?_ (hexp d rfl)
        · obtain ⟨rfl, -⟩ | ⟨-, hd⟩ := hfraction
          · obtain rfl : rest₁ = d :: rest := h₂
            simpa using hdigit
          · simpa using hd
        · intro hnil
          obtain ⟨-, hd⟩ | ⟨⟨p, ds, hp, -⟩, -⟩ := hfraction
          · simpa using hd
          · rw [hnil] at hp
            nomatch hp
      · exact number_goes_on_of_power _ he
          (hsign.imp (fun hs => ⟨hs.1, fun hd => hs.2 hd d rfl⟩) id) hds (by simpa using hhead)

end

/-! ### Quoted texts -/

theorem goes_on_quote (h : ofUInt8 b = '\'') (text next : List UInt8) :
    goes_on (b :: text) next = (next.head?.map ofUInt8 = some '\'' : Bool) := by
  simp [goes_on, h, is_digit]

theorem goes_on_double_quote (h : ofUInt8 b = '"') (text next : List UInt8) :
    goes_on (b :: text) next = false := by
  simp [goes_on, h, is_digit]

theorem scan_string_from_end (hb : ofUInt8 b = '\'') {rest : List UInt8}
    (hrest : rest.head?.map ofUInt8 ≠ some '\'') (line col : ℕ) (s : Oigrap.Text) :
    scan_string_from (b :: rest) line col s =
      ((.ok (.StringLiteral (String.ofList s)) : Result (Token F)), ⟨rest, line, col + 1⟩) := by
  cases rest with
  | nil => rw [scan_string_from, if_pos hb]
  | cons d rest => rw [scan_string_from, if_pos hb, if_neg (by simpa using hrest)]

theorem scan_string_from_cons (hb : ofUInt8 b ≠ '\'') (rest : List UInt8) (line col : ℕ)
    (s : Oigrap.Text) : (scan_string_from (b :: rest) line col s : Scan F) =
      if ofUInt8 b = '\n' then scan_string_from rest (line + 1) 1 (s ++ ['\n'])
      else scan_string_from rest line (col + 1) (s ++ [ofUInt8 b]) := by
  cases rest <;> simp only [scan_string_from, if_neg hb]

/-- A scan that stops within `input` used a text of its own, whatever follows it with `P`. -/
def Splits (scan : List UInt8 → ℕ → ℕ → Scan F) (P : List UInt8 → Prop) (t : Token F)
    (input next : List UInt8) : Prop :=
  t ≠ .EOF ∧ P next ∧ ∃ text, input = text ++ next ∧ ∀ rest line col, P rest →
    ∃ l', scan (text ++ rest) line col = (.ok t, l') ∧ l'.input = rest

theorem Splits.step {scan scan' : List UInt8 → ℕ → ℕ → Scan F} {P : List UInt8 → Prop}
    {input next : List UInt8} (h : Splits scan' P t input next) (front : List UInt8)
    (hscan : ∀ rest line col, ∃ line' col', scan (front ++ rest) line col = scan' rest line' col') :
    Splits scan P t (front ++ input) next := by
  obtain ⟨ht, hnext, text, rfl, htext⟩ := h
  refine ⟨ht, hnext, front ++ text, (append_assoc _ _ _).symm, fun rest line col hrest => ?_⟩
  obtain ⟨line', col', heq⟩ := hscan (text ++ rest) line col
  rw [append_assoc, heq]
  exact htext rest line' col' hrest

/-- A string literal ends at a quote that is not doubled, and what follows does not matter. -/
theorem scan_string_from_split {line col : ℕ} {s : Oigrap.Text}
    (h : scan_string_from input line col s = (.ok t, l')) :
    Splits (scan_string_from · · · s) (·.head?.map ofUInt8 ≠ some '\'') t input l'.input := by
  fun_induction scan_string_from input line col s with
  | case1 => simp [err] at h
  | case2 b line col s hb b' rest' hb' ih =>
    exact (ih h).step [b, b'] fun rest line col => ⟨_, _, by simp [scan_string_from, hb, hb']; rfl⟩
  | case3 b line col s hb b' rest' hb' =>
    cases h
    exact ⟨nofun, by simpa using hb', [b], rfl, fun rest line col hrest =>
      ⟨_, scan_string_from_end hb hrest line col s, rfl⟩⟩
  | case4 b line col s hb =>
    cases h
    exact ⟨nofun, by simp, [b], rfl, fun rest line col hrest =>
      ⟨_, scan_string_from_end hb hrest line col s, rfl⟩⟩
  | case5 b rest' line col s hb hn ih =>
    exact (ih h).step [b] fun rest line col =>
      ⟨_, _, (scan_string_from_cons hb rest line col s).trans (if_pos hn)⟩
  | case6 b rest' line col s hb hn ih =>
    exact (ih h).step [b] fun rest line col =>
      ⟨_, _, (scan_string_from_cons hb rest line col s).trans (if_neg hn)⟩

theorem scan_quoted_ident_from_split {line col : ℕ} {s : Oigrap.Text}
    (h : scan_quoted_ident_from input line col s = (.ok t, l')) :
    Splits (scan_quoted_ident_from · · · s) (fun _ => True) t input l'.input := by
  fun_induction scan_quoted_ident_from input line col s with
  | case1 => simp [err] at h
  | case2 b rest' line col s hb =>
    cases h
    refine ⟨nofun, trivial, [b], rfl, fun rest line col _ => ⟨⟨rest, line, col + 1⟩, if_pos hb, rfl⟩⟩
  | case3 b rest' line col s hb hn ih =>
    exact (ih h).step [b] fun rest line col => ⟨_, _, (if_neg hb).trans (if_pos hn)⟩
  | case4 b rest' line col s hb hn ih =>
    exact (ih h).step [b] fun rest line col => ⟨_, _, (if_neg hb).trans (if_neg hn)⟩

/-! ### Operators -/

theorem if_peek_ok {c : Char} {token : Token F} {other : Result (Token F)}
    (h : l.if_peek c token other = (.ok t, l')) :
    (l.peek = some c ∧ t = token ∧ l' = l.advance) ∨ (l.peek ≠ some c ∧ other = .ok t ∧ l' = l) := by
  unfold if_peek at h
  split at h <;> simp_all

theorem advance_input (d : UInt8) (rest : List UInt8) (line col : ℕ) :
    (advance ⟨d :: rest, line, col⟩).input = rest := by
  unfold advance
  split <;> simp_all
  split <;> simp_all

theorem advance_cons (d : UInt8) (rest : List UInt8) (line col : ℕ) :
    ∃ line' col', advance ⟨d :: rest, line, col⟩ = ⟨rest, line', col'⟩ :=
  ⟨_, _, congrArg (fun i => Lexer.mk i _ _) (advance_input d rest line col)⟩

theorem exists_of_peek {c : Char} (h : l.peek = some c) :
    ∃ d rest, l.input = d :: rest ∧ ofUInt8 d = c := by
  obtain ⟨_ | ⟨d, rest⟩, line, col⟩ := l
  · nomatch h
  · exact ⟨d, rest, rfl, by simpa [peek] using h⟩

theorem peek_advance {c : Char} (h : l.peek = some c) : l.advance.peek = l.peek2 := by
  obtain ⟨input, line, col⟩ := l
  obtain ⟨d, rest, rfl, -⟩ := exists_of_peek h
  rw [peek, advance_input]
  cases rest <;> rfl

section

variable {first : Char}

/-- What is known of an operator that has been read: `text` is the part behind its first
character, `left` the state it leaves. -/
def OperatorRead (first : Char) (t : Token F) (l left : Lexer) : Prop :=
  t ≠ .EOF ∧ ∃ text, l.input = text ++ left.input ∧
    operator_goes_on (first :: text.map ofUInt8) left.peek left.peek2 = false ∧
    ∀ rest line col, operator_goes_on (first :: text.map ofUInt8) (peek ⟨rest, line, col⟩)
        (peek2 ⟨rest, line, col⟩) = false →
        ∃ l', scan_operator_after first ⟨text ++ rest, line, col⟩ = (.ok t, l') ∧ l'.input = rest

theorem OperatorRead.one {l : Lexer} (ht : t ≠ .EOF)
    (hend : operator_goes_on [first] l.peek l.peek2 = false)
    (h : ∀ l₂ : Lexer, operator_goes_on [first] l₂.peek l₂.peek2 = false →
      scan_operator_after first l₂ = (.ok t, l₂)) : OperatorRead first t l l :=
  ⟨ht, [], rfl, hend, fun _ _ _ hrest => ⟨_, h _ hrest, rfl⟩⟩

theorem OperatorRead.two {l : Lexer} {c : Char} (ht : t ≠ .EOF) (hpeek : l.peek = some c)
    (hend : operator_goes_on [first, c] l.advance.peek l.advance.peek2 = false)
    (h : ∀ l₂ : Lexer, l₂.peek = some c →
      operator_goes_on [first, c] l₂.advance.peek l₂.advance.peek2 = false →
      scan_operator_after first l₂ = (.ok t, l₂.advance)) : OperatorRead first t l l.advance := by
  obtain ⟨input, line, col⟩ := l
  obtain ⟨d, rest, rfl, rfl⟩ := exists_of_peek hpeek
  refine ⟨ht, [d], by rw [advance_input]; rfl, hend, fun rest line col hrest => ?_⟩
  have hadv := advance_input d rest line col
  refine ⟨_, h ⟨d :: rest, line, col⟩ rfl ?_, hadv⟩
  rwa [peek, peek2, hadv]

theorem OperatorRead.three {l : Lexer} {c c' : Char} (ht : t ≠ .EOF) (hpeek : l.peek = some c)
    (hpeek2 : l.peek2 = some c') (hend : ∀ d d', operator_goes_on [first, c, c'] d d' = false)
    (h : ∀ l₂ : Lexer, l₂.peek = some c → l₂.peek2 = some c' →
      scan_operator_after first l₂ = (.ok t, l₂.advance.advance)) :
    OperatorRead first t l l.advance.advance := by
  obtain ⟨input, line, col⟩ := l
  obtain ⟨d, _ | ⟨d', rest⟩, rfl, rfl⟩ := exists_of_peek hpeek
  · nomatch hpeek2
  · obtain rfl : ofUInt8 d' = c' := by simpa [peek2] using hpeek2
    have htwo : ∀ rest line col, (advance (advance ⟨d :: d' :: rest, line, col⟩)).input = rest := by
      intro rest line col
      obtain ⟨line', col', heq⟩ := advance_cons d (d' :: rest) line col
      rw [heq, advance_input]
    exact ⟨ht, [d, d'], by rw [htwo]; rfl, hend _ _, fun rest line col _ =>
      ⟨_, h ⟨d :: d' :: rest, line, col⟩ rfl rfl, htwo rest line col⟩⟩

theorem operatorRead_of_scan {l l' : Lexer} (h : scan_operator_after first l = (.ok t, l'))
    (hdash : first = '-' → l.peek ≠ some '-') (hslash : first = '/' → l.peek ≠ some '*') :
    OperatorRead first t l l' := by
  have hsimple : ∀ {t' : Token F}, ((.ok t', l) : Scan F) = (.ok t, l') → t' ≠ .EOF →
      operator_goes_on [first] l.peek l.peek2 = false →
      (∀ l₂ : Lexer, scan_operator_after first l₂ = (.ok t', l₂)) → OperatorRead first t l l' := by
    rintro t' ⟨⟩ ht hend hscan
    exact .one ht hend fun l₂ _ => hscan l₂
  unfold scan_operator_after at h
  split at h
  case h_1 | h_2 | h_3 | h_4 | h_5 | h_6 | h_7 | h_8 | h_9 | h_10 | h_11 | h_12 | h_21 =>
    exact hsimple h nofun (by simp [operator_goes_on]) fun _ => rfl
  case h_17 => exact hsimple h nofun (by simp [operator_goes_on, hslash]) fun _ => rfl
  case h_13 | h_19 | h_20 | h_22 =>
    -- operators without a shorter form
    obtain ⟨hpeek, rfl, rfl⟩ | ⟨-, herr, -⟩ := if_peek_ok h
    · exact .two nofun hpeek (by simp [operator_goes_on]) fun l₂ h₂ _ => by
        rw [scan_operator_after, if_peek, if_pos h₂]
    · simp [err] at herr
  case h_15 | h_18 =>
    obtain ⟨hpeek, rfl, rfl⟩ | ⟨hpeek, hok, rfl⟩ := if_peek_ok h
    · exact .two nofun hpeek (by simp [operator_goes_on]) fun l₂ h₂ _ => by
        rw [scan_operator_after, if_peek, if_pos h₂]
    · cases hok
      refine .one nofun (by simp [operator_goes_on, hpeek]) fun l₂ h₂ => ?_
      rw [scan_operator_after, if_peek, if_neg (by simpa [operator_goes_on] using h₂)]
  case h_14 =>
    split at h
    case isTrue hpeek =>
      cases h
      exact .two nofun hpeek (by simp [operator_goes_on]) fun l₂ h₂ _ => by
        rw [scan_operator_after, if_pos h₂]
    case isFalse hne =>
      split at h
      case isTrue hpeek =>
        cases h
        exact .two nofun hpeek (by simp [operator_goes_on]) fun l₂ h₂ _ => by
          rw [scan_operator_after, if_neg (by simp [h₂]), if_pos h₂]
      case isFalse hne₂ =>
        split at h
        case isTrue hpeek =>
          cases h
          exact .three nofun hpeek.1 hpeek.2 (by simp [operator_goes_on]) fun l₂ h₂ h₂' => by
            rw [scan_operator_after, if_neg (by simp [h₂]), if_neg (by simp [h₂]), if_pos ⟨h₂, h₂'⟩]
        case isFalse hne₃ =>
          obtain ⟨hpeek, rfl, rfl⟩ | ⟨hpeek, hok, rfl⟩ := if_peek_ok h
          · exact .two nofun hpeek (by simp [operator_goes_on]) fun l₂ h₂ _ => by
              rw [scan_operator_after, if_neg (by simp [h₂]), if_neg (by simp [h₂]),
                if_neg (by simp [h₂]), if_peek, if_pos h₂]
          · cases hok
            refine .one nofun ?_ fun l₂ h₂ => ?_
            · simpa [operator_goes_on, hne, hne₂, hpeek] using fun h₁ h₁' => hne₃ ⟨h₁, h₁'⟩
            · obtain ⟨⟨⟨ha, hb⟩, hc⟩, hd⟩ : ((l₂.peek ≠ some '=' ∧ l₂.peek ≠ some '>') ∧
                  l₂.peek ≠ some '@') ∧ (l₂.peek = some '-' → l₂.peek2 ≠ some '>') := by
                simpa [operator_goes_on] using h₂
              rw [scan_operator_after, if_neg ha, if_neg hb, if_neg (fun hx => hd hx.1 hx.2),
                if_peek, if_neg hc]
  case h_16 =>
    split at h
    case isTrue hpeek =>
      cases h
      exact .three nofun hpeek.1 hpeek.2 (by simp [operator_goes_on]) fun l₂ h₂ h₂' => by
        rw [scan_operator_after, if_pos ⟨h₂, h₂'⟩]
    case isFalse hne =>
      obtain ⟨hpeek, rfl, rfl⟩ | ⟨hpeek, hok, rfl⟩ := if_peek_ok h
      · refine .two nofun hpeek ?_ fun l₂ h₂ h₂' => ?_
        · rw [peek_advance hpeek]
          simpa [operator_goes_on] using fun h₁ => hne ⟨hpeek, h₁⟩
        · rw [peek_advance h₂] at h₂'
          have hend : l₂.peek2 ≠ some '>' := by simpa [operator_goes_on] using h₂'
          rw [scan_operator_after, if_neg (fun hx => hend hx.2), if_peek, if_pos h₂]
      · cases hok
        refine .one nofun (by simp [operator_goes_on, hpeek, hdash]) fun l₂ h₂ => ?_
        have hend : l₂.peek ≠ some '>' := by
          have : l₂.peek ≠ some '>' ∧ l₂.peek ≠ some '-' := by simpa [operator_goes_on] using h₂
          exact this.1
        rw [scan_operator_after, if_neg (fun hx => hend hx.1), if_peek, if_neg hend]
  case h_23 => simp [err] at h

end

theorem goes_on_operator {next : List UInt8}
    (hword : ¬ ((ofUInt8 b).isAlpha || ofUInt8 b = '_') = true)
    (hdigit : ¬ is_digit (ofUInt8 b) = true) (hquote : ofUInt8 b ≠ '\'')
    (hdouble : ofUInt8 b ≠ '"') :
    goes_on (b :: text) next = operator_goes_on (ofUInt8 b :: text.map ofUInt8)
      (next.head?.map ofUInt8) (next[1]?.map ofUInt8) := by
  simp only [goes_on, head?_cons, Option.map_some, if_neg hword, if_neg hdigit, if_neg hquote,
    if_neg hdouble, map_cons]

/-! ### Any token -/

theorem scan_ident_ok (h : l.scan_ident = (.ok t, l')) :
    ∃ word, from_utf8 (l.input.takeWhile is_word_byte) = some word ∧ t = keyword_or_ident word ∧
      l' = { l with input := l.input.dropWhile is_word_byte } := by
  unfold scan_ident at h
  split at h
  · rename_i word hutf
    cases h
    exact ⟨word, hutf, rfl, rfl⟩
  · simp at h

theorem second_eq_peek (b : UInt8) (l : Lexer) : (b :: l.input)[1]?.map ofUInt8 = l.peek := by
  rw [getElem?_cons_succ, ← head?_eq_getElem?]
  rfl

/-- What `next_token` reads behind white space and comments is a lexeme. -/
theorem lexeme_of_scan {line col : ℕ} (hgap : NoGap (b :: input))
    (h : scan_token f64_value ⟨b :: input, line, col⟩ = (.ok t, l')) :
    ∃ text, b :: input = text ++ l'.input ∧ Lexeme f64_value text t ∧ goes_on text l'.input = false := by
  have hscan : ∀ rest line col, scan_token f64_value ⟨b :: rest, line, col⟩ =
      if (ofUInt8 b).isAlpha || ofUInt8 b = '_' then scan_ident ⟨b :: rest, line, col⟩
      else if is_digit (ofUInt8 b) then scan_number f64_value ⟨b :: rest, line, col⟩
      else if ofUInt8 b = '\'' then scan_string ⟨b :: rest, line, col⟩
      else if ofUInt8 b = '"' then scan_quoted_ident ⟨b :: rest, line, col⟩
      else scan_operator_after (ofUInt8 b) (advance ⟨b :: rest, line, col⟩) := fun _ _ _ => rfl
  have hstart : ∀ rest, ofUInt8 b ∉ gap_chars → NoGap (b :: rest) := fun rest hb => noGap_cons hb rest
  rw [hscan] at h
  split_ifs at h with hword hdigit hquote hdouble
  · obtain ⟨word, hutf, rfl, rfl⟩ := scan_ident_ok h
    have hb : is_word_byte b := by
      simp only [is_word_byte, is_alphanumeric, Char.isAlphanum]
      simp only [Bool.or_eq_true] at hword ⊢
      tauto
    refine ⟨(b :: input).takeWhile is_word_byte, takeWhile_append_dropWhile.symm, ?_, ?_⟩
    · rw [takeWhile_cons_of_pos hb] at hutf ⊢
      refine .word hword (fun d hd => ?_) hutf
      rw [← takeWhile_cons_of_pos hb] at hd
      exact mem_takeWhile_imp hd
    · rw [takeWhile_cons_of_pos hb, goes_on_word hword]
      exact head_dropWhile _
  · obtain ⟨whole, fraction, exponent, hin, hnum, ht, hend⟩ := numeral_of_scan hdigit h
    refine ⟨_, hin, .number hnum ht, ?_⟩
    obtain ⟨d, whole', rfl⟩ := exists_cons_of_ne_nil hnum.whole_ne
    obtain rfl : b = d := (cons.inj hin).1
    rwa [cons_append, cons_append, goes_on_number hdigit]
  · obtain ⟨ht, hl, text, hin, htext⟩ := scan_string_from_split h
    refine ⟨b :: text, congrArg (b :: ·) hin, ⟨nofun, ht, ?_, ?_⟩, ?_⟩
    · exact fun rest _ => hstart _ (by rw [hquote]; decide)
    · intro rest line col hend
      rw [cons_append, hscan, if_neg hword, if_neg hdigit, if_pos hquote]
      rw [goes_on_quote hquote] at hend
      exact htext rest line col (by simpa using hend)
    · rw [goes_on_quote hquote]
      simpa using hl
  · obtain ⟨ht, -, text, hin, htext⟩ := scan_quoted_ident_from_split h
    refine ⟨b :: text, congrArg (b :: ·) hin, ⟨nofun, ht, ?_, ?_⟩, goes_on_double_quote hdouble _ _⟩
    · exact fun rest _ => hstart _ (by rw [hdouble]; decide)
    · intro rest line col _
      rw [cons_append, hscan, if_neg hword, if_neg hdigit, if_neg hquote, if_pos hdouble]
      exact htext rest line col trivial
  · obtain ⟨line', col', heq⟩ := advance_cons b input line col
    rw [heq] at h
    obtain ⟨ht, text, hin, hend, htext⟩ := operatorRead_of_scan h
      (fun hc hp => hgap.2.1 ⟨by simp [hc], (second_eq_peek b _).trans hp⟩)
      (fun hc hp => hgap.2.2 ⟨by simp [hc], (second_eq_peek b _).trans hp⟩)
    have hgoes : ∀ next, goes_on (b :: text) next = _ := fun next =>
      goes_on_operator hword hdigit hquote hdouble
    refine ⟨b :: text, congrArg (b :: ·) hin, ⟨nofun, ht, ?_, ?_⟩, (hgoes _).trans hend⟩
    · intro rest hrest
      rw [hgoes] at hrest
      -- the second byte is the operator's own, or what it must not go on with
      cases text with
      | nil =>
        have hnext : rest.head?.map ofUInt8 = _ := (second_eq_peek b ⟨rest, line, col⟩).symm
        refine ⟨fun d hd => hgap.1 d hd, fun hc => ?_, fun hc => ?_⟩
        · have hb : ofUInt8 b = '-' := by simpa using hc.1
          simp [operator_goes_on, hb, hnext.trans hc.2] at hrest
        · have hb : ofUInt8 b = '/' := by simpa using hc.1
          simp [operator_goes_on, hb, hnext.trans hc.2] at hrest
      | cons d text =>
        rw [show input = d :: (text ++ l'.input) from hin] at hgap
        exact ⟨fun d hd => hgap.1 d hd, hgap.2.1, hgap.2.2⟩
    · intro rest line col hrest
      obtain ⟨line', col', heq⟩ := advance_cons b (text ++ rest) line col
      rw [cons_append, hscan, if_neg hword, if_neg hdigit, if_neg hquote, if_neg hdouble, heq]
      exact htext rest line' col' ((hgoes rest).symm.trans hrest)
end Oigrap.Sql.Lexer
