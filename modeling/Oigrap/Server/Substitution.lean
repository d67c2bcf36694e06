/-
Where `substitute_params` keeps to the tokens of the query.

The induction follows `read_pieces`. Every step shows what the lexer makes of the replaced
text of one piece, in front of the replaced text of the others; the lexer's own rules come
from `Lexes`.
-/
import Oigrap.Server.Placeholders

namespace Oigrap.Server

open Oigrap.Sql (Token Result parse_i64 is_f64 is_number is_exponent is_digit strip_sign)
open Bool (and_eq_true and_eq_true_iff or_eq_true)
open Oigrap.Sql.Lexer List
open Char (ofUInt8)

/-! ## Values in the query -/

/-- The text that takes the place of a value in text format. -/
def spelled : Option Text → Text
  | none => "NULL".toList
  | some s => if looks_literal s then s else quoted s

theorem literal_text_eq {Db F : Type} {env : Env Db F}
    (hlossy : ∀ s, env.from_utf8_lossy (into_bytes s) = s) (v : Option Text) {fmt : ℤ} (hfmt : fmt ≠ 1) :
    literal_text env (v.map into_bytes) fmt = spelled v := by
  cases v with
  | none => rfl
  | some s => simp only [literal_text, Option.map_some, if_neg hfmt, hlossy, spelled]

/-- The characters of numbers and of the words that stand for numbers and truth values. -/
def is_literal_char (c : Char) : Bool := c.isAlphanum || c = '+' || c = '-' || c = '.'

variable {c : Char} {s : Text}

theorem literal_char_of_digit (h : is_digit c) : is_literal_char c := by
  have : c.isDigit := h
  simp [is_literal_char, Char.isAlphanum, this]

theorem strip_sign_cases (s : Text) :
    s = (strip_sign s).2 ∨ s = '+' :: (strip_sign s).2 ∨ s = '-' :: (strip_sign s).2 := by
  unfold strip_sign
  split <;> simp

theorem mem_strip_sign (h : c ∈ s) : c = '+' ∨ c = '-' ∨ c ∈ (strip_sign s).2 := by
  obtain hs | hs | hs := strip_sign_cases s <;> rw [hs] at h
  · exact .inr (.inr h)
  · exact (mem_cons.1 h).imp id .inr
  · exact .inr (mem_cons.1 h)

theorem literal_chars_of_exponent (h : is_exponent s) : ∀ c ∈ s, is_literal_char c := by
  cases s with
  | nil => nofun
  | cons e s =>
    simp only [is_exponent, and_eq_true, or_eq_true, decide_eq_true_eq, all_eq_true] at h
    intro c hc
    obtain rfl | hc := mem_cons.1 hc
    · obtain rfl | rfl := h.1.1 <;> decide
    · obtain rfl | rfl | hc := mem_strip_sign hc
      · decide
      · decide
      · exact literal_char_of_digit (h.2 c hc)

theorem literal_chars_of_number (h : is_number s) : ∀ c ∈ s, is_literal_char c := by
  intro c hc
  rw [← takeWhile_append_dropWhile (p := is_digit) (l := s)] at hc
  obtain hc | hc := mem_append.1 hc
  · exact literal_char_of_digit (mem_takeWhile_imp hc)
  · unfold is_number at h
    split at h
    · rename_i rest hdrop
      rw [hdrop] at hc
      obtain rfl | hc := mem_cons.1 hc
      · decide
      · rw [← takeWhile_append_dropWhile (p := is_digit) (l := rest)] at hc
        obtain hc | hc := mem_append.1 hc
        · exact literal_char_of_digit (mem_takeWhile_imp hc)
        · exact literal_chars_of_exponent (and_eq_true_iff.1 h).2 c hc
    · exact literal_chars_of_exponent (and_eq_true_iff.1 h).2 c hc

theorem isAlpha_of_toLower (h : c.toLower.isAlpha) : c.isAlpha := by
  unfold Char.toLower at h
  split_ifs at h with hc
  · simp only [Char.isAlpha, Char.isUpper, or_eq_true]
    left
    simpa using hc
  · exact h

theorem alpha_of_word (h : String.ofList (s.map Char.toLower) ∈ ["inf", "infinity", "nan"]) :
    ∀ c ∈ s, c.isAlpha := by
  have hwords : ∀ w ∈ ["inf", "infinity", "nan"], w.toList.all Char.isAlpha := by decide
  intro c hc
  refine isAlpha_of_toLower (all_eq_true.mp (hwords _ h) c.toLower ?_)
  rw [String.toList_ofList]
  exact mem_map_of_mem hc

theorem literal_chars_of_body (h : ∀ c ∈ (strip_sign s).2, is_literal_char c) :
    ∀ c ∈ s, is_literal_char c := by
  intro c hc
  obtain rfl | rfl | hc := mem_strip_sign hc
  · decide
  · decide
  · exact h c hc

theorem literal_chars (h : looks_literal s) : ∀ c ∈ s, is_literal_char c := by
  simp only [looks_literal, or_eq_true, decide_eq_true_eq] at h
  obtain (hint | hfloat) | hword := h
  · refine literal_chars_of_body fun c hc => literal_char_of_digit ?_
    simp only [parse_i64] at hint
    split at hint
    · simp at hint
    · rename_i hdigits
      simp only [not_or, not_not, all_eq_true] at hdigits
      exact hdigits.2 c hc
  · simp only [is_f64, or_eq_true, decide_eq_true_eq] at hfloat
    exact literal_chars_of_body fun c hc =>
      hfloat.elim (fun h => literal_chars_of_number h c hc) (fun h => by
        simp [is_literal_char, Char.isAlphanum, alpha_of_word h c hc])
  · have hwords : ∀ w ∈ ["t", "f", "true", "false"], w.toList.all is_literal_char := by decide
    intro c hc
    exact all_eq_true.mp (hwords _ hword) c (by rwa [String.toList_ofList])

theorem ascii_of_literal_char (h : is_literal_char c) : c.toNat < 0x80 := by
  simp only [is_literal_char, Char.isAlphanum, Char.isAlpha, Char.isUpper, Char.isLower, Char.isDigit,
    or_eq_true, and_eq_true, decide_eq_true_eq, UInt32.le_iff_toNat_le] at h
  obtain ((((h | h) | h) | rfl) | rfl) | rfl := h
  all_goals first | exact lt_of_le_of_lt h.2 (by decide) | decide

theorem into_bytes_ne_nil (h : s ≠ []) : into_bytes s ≠ [] := by
  obtain ⟨c, s, rfl⟩ := exists_cons_of_ne_nil h
  rw [into_bytes_cons]
  exact append_ne_nil_of_left_ne_nil String.utf8EncodeChar_ne_nil _

theorem spelled_ne_nil (v : Option Text) : into_bytes (spelled v) ≠ [] := by
  apply into_bytes_ne_nil
  cases v with
  | none => nofun
  | some s =>
    rw [spelled]
    split
    · rintro rfl
      contradiction
    · nofun

theorem head_spelled (v : Option Text) : (into_bytes (spelled v)).head? = (value_start v).head? := by
  have hone : ∀ s : Text, (into_bytes s).head? = (into_bytes (s.take 1)).head? := by
    intro s
    cases s with
    | nil => rfl
    | cons c s =>
      rw [take_succ_cons, take_zero, into_bytes_cons, into_bytes_cons,
        head?_append_of_ne_nil _ String.utf8EncodeChar_ne_nil, into_bytes_nil, append_nil]
  cases v with
  | none => rfl
  | some s =>
    rw [spelled, value_start]
    split
    · exact hone s
    · exact hone (quoted s)

/-! ### In comments -/

theorem line_end_append {x : List UInt8} (h : ∀ b ∈ x, ofUInt8 b ≠ '\n') (y : List UInt8) :
    line_end (x ++ y) = line_end y := dropWhile_append_of_pos fun b hb => by simp [h b hb]

theorem mem_of_mem_quoted (h : c ∈ quoted s) : c = '\'' ∨ c ∈ s := by
  rw [quoted] at h
  obtain rfl | h := mem_cons.1 h
  · exact .inl rfl
  · obtain h | h := mem_append.1 h
    · obtain ⟨d, hd, hc⟩ := mem_flatMap.1 h
      split at hc
      · exact .inl (by simpa using hc)
      · obtain rfl : c = d := by simpa using hc
        exact .inr hd
    · exact .inl (mem_singleton.1 h)

variable {b : UInt8}

/-- A byte of an encoded text that is an ASCII character is a character of the text. -/
theorem mem_of_byte (hb : b ∈ into_bytes s) (hc : ofUInt8 b = c) (hascii : c.toNat < 0x80) :
    c ∈ s := by
  rw [← hc] at hascii ⊢
  exact mem_of_mem_into_bytes hb (by rwa [← toNat_ofUInt8])

theorem spelled_cases (v : Option Text) :
    (∀ c ∈ spelled v, is_literal_char c) ∨ ∃ s, v = some s ∧ spelled v = quoted s := by
  cases v with
  | none => exact .inl (all_iff_forall_prop.mp (by decide))
  | some s =>
    rw [spelled]
    split_ifs with hlit
    · exact .inl (literal_chars hlit)
    · exact .inr ⟨s, rfl, rfl⟩

theorem line_end_spelled {v : Option Text} (h : v.all (fun s => '\n' ∉ s) = true) (y : List UInt8) :
    line_end (into_bytes (spelled v) ++ y) = line_end y := by
  refine line_end_append (fun b hb hnl => ?_) y
  have hmem := mem_of_byte hb hnl (by decide)
  obtain hlit | ⟨s, rfl, hq⟩ := spelled_cases v
  · exact absurd (hlit _ hmem) (by decide)
  · rw [hq] at hmem
    exact (mem_of_mem_quoted hmem).elim (by decide) (by simpa using h)

theorem skip_block_cons {y : List UInt8}
    (h : ¬ (ofUInt8 b = '*' ∧ y.head?.map ofUInt8 = some '/')) :
    skip_block (b :: y) = skip_block y := by
  cases y with
  | nil => rfl
  | cons d y => rw [skip_block, if_neg (by simpa using h)]

theorem skip_block_append {x : List UInt8} (h : ∀ b ∈ x, ofUInt8 b ≠ '*') (y : List UInt8) :
    skip_block (x ++ y) = skip_block y := by
  induction x with
  | nil => rfl
  | cons b x ih =>
    obtain ⟨hb, hx⟩ := forall_mem_cons.1 h
    rw [cons_append, skip_block_cons (fun hc => hb hc.1), ih hx]

/-- A byte of an encoded character that is an ASCII character is that character. -/
theorem char_of_mem_encode {d : Char} (hb : b ∈ String.utf8EncodeChar c) (hd : ofUInt8 b = d)
    (hascii : d.toNat < 0x80) : c = d :=
  (mem_singleton.1 (mem_of_byte (s := [c]) (by simpa [into_bytes] using hb) hd hascii)).symm

/-- The text behind the opening quote. -/
def escaped (s : Text) : Text :=
  s.flatMap (fun c => if c = '\'' then ['\'', '\''] else [c]) ++ ['\'']

theorem quoted_eq (s : Text) : quoted s = '\'' :: escaped s := rfl

theorem into_bytes_quoted (s : Text) : into_bytes (quoted s) = 39 :: into_bytes (escaped s) := by
  rw [quoted_eq, into_bytes_cons]
  rfl

theorem escaped_cons (c : Char) (s : Text) :
    escaped (c :: s) = (if c = '\'' then ['\'', '\''] else [c]) ++ escaped s := by
  rw [escaped, flatMap_cons, append_assoc]
  rfl

theorem contains_cons (h : contains (c :: s) "*/" = false) :
    ¬ (c = '*' ∧ s.head? = some '/') ∧ contains s "*/" = false := by
  rw [contains, before] at h
  split_ifs at h with hprefix
  · simp at h
  · refine ⟨?_, by simpa [contains] using h⟩
    rintro ⟨rfl, hs⟩
    cases s with
    | nil => simp at hs
    | cons d s =>
      obtain rfl : d = '/' := by simpa using hs
      exact hprefix (by simp)

/-- A slash can only come from a slash. -/
theorem head_escaped (h : s.head? ≠ some '/') (y : List UInt8) :
    (into_bytes (escaped s) ++ y).head?.map ofUInt8 ≠ some '/' := by
  cases s with
  | nil => rw [escaped, flatMap_nil, nil_append, show into_bytes ['\''] = [39] by decide]; simp; decide
  | cons d s =>
    rw [escaped_cons]
    split
    · rw [into_bytes_append, show into_bytes ['\'', '\''] = [39, 39] by decide]
      simp
      decide
    · rw [into_bytes_append, into_bytes_cons, into_bytes_nil, append_nil, append_assoc,
        head?_append_of_ne_nil _ String.utf8EncodeChar_ne_nil]
      intro hslash
      obtain ⟨b, hb, hbslash⟩ := Option.map_eq_some_iff.1 hslash
      refine h ?_
      rw [char_of_mem_encode (mem_of_mem_head? hb) hbslash (by decide)]
      rfl

/-- No `*` of the value stands in front of a `/`. -/
theorem skip_block_escaped (h : contains s "*/" = false) (y : List UInt8) :
    skip_block (into_bytes (escaped s) ++ y) = skip_block y := by
  induction s with
  | nil => exact skip_block_append (x := into_bytes ['\'']) (all_iff_forall_prop.mp (by decide)) y
  | cons c s ih =>
    obtain ⟨hstart, hs⟩ := contains_cons h
    rw [escaped_cons, into_bytes_append, append_assoc]
    split
    · rw [skip_block_append (all_iff_forall_prop.mp (by decide)), ih hs]
    · rw [into_bytes_cons, into_bytes_nil, append_nil]
      by_cases hc : c = '*'
      · subst hc
        rw [show String.utf8EncodeChar '*' = [42] by decide, cons_append, nil_append,
          skip_block_cons (fun hc => head_escaped (fun hd => hstart ⟨rfl, hd⟩) y hc.2), ih hs]
      · rw [skip_block_append (fun b hb hstar => hc (char_of_mem_encode hb hstar (by decide))), ih hs]

theorem skip_block_spelled {v : Option Text} (h : v.all (fun s => !contains s "*/") = true)
    (y : List UInt8) : skip_block (into_bytes (spelled v) ++ y) = skip_block y := by
  obtain hlit | ⟨s, rfl, hq⟩ := spelled_cases v
  · refine skip_block_append (fun b hb hstar => ?_) y
    exact absurd (hlit _ (mem_of_byte hb hstar (by decide))) (by decide)
  · have hs : contains s "*/" = false := by simpa using h
    rw [hq, into_bytes_quoted, cons_append, skip_block_cons (fun hc => absurd hc.1 (by decide)),
      skip_block_escaped hs]

variable {F : Type} {rest : List UInt8}

/-! ### As literals -/

section

variable (f64_value : Text → F)

theorem null_lexeme : Lexeme f64_value (into_bytes "NULL".toList) .Null := by
  have hfind : (keywords : List (String × Token F)).find?
      (fun k => k.1.toList = "NULL".toList.map Char.toUpper) = some ("NULL", .Null) := by simp [keywords]
  have hkey : (keyword_or_ident "NULL".toList : Token F) = .Null := by rw [keyword_or_ident, hfind]
  have hword : Lexeme f64_value [78, 85, 76, 76] (keyword_or_ident "NULL".toList) :=
    .word (by decide) (all_iff_forall_prop.mp (by decide)) (from_utf8_into_bytes "NULL".toList)
  rwa [hkey] at hword

theorem lexeme_of_scan_all {b : UInt8} {t : Token F} {l : Sql.Lexer} (hgap : NoGap [b])
    (h : scan_token f64_value ⟨[b], 1, 1⟩ = (.ok t, l)) (hl : l.input = []) : Lexeme f64_value [b] t := by
  obtain ⟨text, hin, hlex, -⟩ := lexeme_of_scan hgap h
  rw [hl, append_nil] at hin
  rwa [hin]

theorem plus_lexeme : Lexeme f64_value (into_bytes ['+']) .Plus :=
  lexeme_of_scan_all f64_value (noGap_cons (by decide) _) rfl rfl

theorem minus_lexeme : Lexeme f64_value (into_bytes ['-']) .Minus :=
  lexeme_of_scan_all f64_value (b := 45) ⟨by simp; decide, by decide, by decide⟩ rfl rfl

variable {s : Text}

theorem char_mem_of_ascii (h : ∀ c ∈ s, c.toNat < 0x80) {b : UInt8} (hb : b ∈ into_bytes s) :
    ofUInt8 b ∈ s := by
  have := mem_map_of_mem (f := ofUInt8) hb
  rwa [map_into_bytes h] at this

theorem digit_bytes (h : ∀ c ∈ s, is_digit c) : ∀ b ∈ into_bytes s, is_digit_byte b :=
  fun _ hb => h _ (char_mem_of_ascii (fun c hc => ascii_of_literal_char
    (literal_char_of_digit (h c hc))) hb)

theorem exponent_bytes (h : is_exponent s) :
    into_bytes s = [] ∨ ∃ e sign ds, into_bytes s = e :: (sign ++ ds) ∧
      IsE e ∧ (sign = [] ∨ ∃ b, sign = [b] ∧ IsSign b) ∧ ∀ d ∈ ds, is_digit_byte d := by
  cases s with
  | nil => exact .inl rfl
  | cons e s =>
    simp only [is_exponent, and_eq_true, or_eq_true, decide_eq_true_eq, all_eq_true] at h
    have hds := digit_bytes h.2
    have he : ∃ b, String.utf8EncodeChar e = [b] ∧ IsE b := by
      obtain rfl | rfl := h.1.1
      · exact ⟨101, by decide, by decide⟩
      · exact ⟨69, by decide, by decide⟩
    obtain ⟨b, hb, hbe⟩ := he
    right
    obtain hs | hs | hs := strip_sign_cases s
    · exact ⟨b, [], into_bytes (strip_sign s).2, by rw [into_bytes_cons, hb, ← hs]; rfl, hbe, .inl rfl, hds⟩
    · refine ⟨b, [43], into_bytes (strip_sign s).2, ?_, hbe, .inr ⟨43, rfl, by decide⟩, hds⟩
      rw [into_bytes_cons, hb]
      conv_lhs => rw [hs, into_bytes_cons]
      rfl
    · refine ⟨b, [45], into_bytes (strip_sign s).2, ?_, hbe, .inr ⟨45, rfl, by decide⟩, hds⟩
      rw [into_bytes_cons, hb]
      conv_lhs => rw [hs, into_bytes_cons]
      rfl

theorem numeral_of_number (hdigit : s.head?.any is_digit = true) (h : is_number s) :
    ∃ whole fraction exponent, into_bytes s = whole ++ fraction ++ exponent ∧
      Numeral whole fraction exponent ∧ (fraction = [] → exponent = [] → s.all is_digit) := by
  have hwhole : s.takeWhile is_digit ≠ [] := by
    cases s with
    | nil => simp at hdigit
    | cons c s =>
      rw [takeWhile_cons_of_pos (by simpa using hdigit)]
      nofun
  have hdigits : ∀ c ∈ s.takeWhile is_digit, is_digit c := fun c hc => mem_takeWhile_imp hc
  have hsplit := takeWhile_append_dropWhile (p := is_digit) (l := s)
  unfold is_number at h
  split at h
  · rename_i rest hdrop
    have hrest := takeWhile_append_dropWhile (p := is_digit) (l := rest)
    have hexp := exponent_bytes (and_eq_true_iff.1 h).2
    refine ⟨into_bytes (s.takeWhile is_digit), into_bytes ('.' :: rest.takeWhile is_digit),
      into_bytes (rest.dropWhile is_digit), ?_, ⟨into_bytes_ne_nil hwhole, digit_bytes hdigits,
        .inr ?_, hexp⟩, ?_⟩
    · rw [← into_bytes_append, ← into_bytes_append, append_assoc, cons_append, hrest, ← hdrop, hsplit]
    · exact ⟨46, _, rfl, by decide, digit_bytes fun c hc => mem_takeWhile_imp hc⟩
    · intro hf
      exact absurd hf (into_bytes_ne_nil nofun)
  · have hexp := exponent_bytes (and_eq_true_iff.1 h).2
    refine ⟨into_bytes (s.takeWhile is_digit), [], into_bytes (s.dropWhile is_digit), ?_,
      ⟨into_bytes_ne_nil hwhole, digit_bytes hdigits, .inl rfl, hexp⟩, fun _ he => ?_⟩
    · rw [append_nil, ← into_bytes_append, hsplit]
    · have hnil : s.dropWhile is_digit = [] := by
        by_contra hne
        exact into_bytes_ne_nil hne he
      rw [← hsplit, hnil, append_nil]
      exact all_eq_true.2 hdigits

/-- A value that looks like a literal and begins with a digit behind its sign is a number. -/
theorem number_of_looks_literal (h : looks_literal s)
    (hdigit : (strip_sign s).2.head?.any is_digit = true) :
    is_number (strip_sign s).2 ∨ (strip_sign s).2.all is_digit := by
  simp only [looks_literal, or_eq_true, decide_eq_true_eq] at h
  obtain (hint | hfloat) | hword := h
  · simp only [parse_i64] at hint
    split at hint
    · simp at hint
    · rename_i hdigits
      simp only [not_or, not_not] at hdigits
      exact .inr hdigits.2
  · simp only [is_f64, or_eq_true, decide_eq_true_eq] at hfloat
    refine .inl (hfloat.resolve_right fun hw => ?_)
    cases hbody : (strip_sign s).2 with
    | nil => simp [hbody] at hdigit
    | cons c body =>
      have halpha := alpha_of_word hw c (by rw [hbody]; exact mem_cons_self)
      have hc := not_alpha_of_digit (c := c) (by simpa [hbody] using hdigit)
      simp [halpha] at hc
  · have hwords : ∀ w ∈ ["t", "f", "true", "false"], (strip_sign w.toList).2.head?.any is_digit = false := by
      decide
    have := hwords _ hword
    rw [String.toList_ofList] at this
    rw [this] at hdigit
    contradiction

theorem strip_sign_of_digit (h : s.head?.any is_digit = true) : strip_sign s = (false, s) := by
  unfold strip_sign
  split
  · exact absurd h (by simp [is_digit])
  · exact absurd h (by simp [is_digit])
  · rfl

theorem number_lexeme (hlit : looks_literal s) (hnum : is_numeral s) :
    ∃ t, IsNumber f64_value (strip_sign s).2 t ∧ Lexeme f64_value (into_bytes (strip_sign s).2) t := by
  simp only [is_numeral, and_eq_true, or_eq_true, Bool.not_eq_true'] at hnum
  obtain ⟨hdigit, hrange⟩ := hnum
  have hform := number_of_looks_literal hlit hdigit
  generalize (strip_sign s).2 = body at hdigit hrange hform ⊢
  by_cases hall : body.all is_digit = true
  · obtain ⟨n, hn⟩ := Option.isSome_iff_exists.1 (hrange.resolve_left (by simp [hall]))
    have hdigits : ∀ c ∈ body, is_digit c := all_eq_true.1 hall
    have hne : body ≠ [] := by rintro rfl; simp at hdigit
    refine ⟨.IntLiteral n, .inl ⟨n, hn, rfl⟩, ?_⟩
    have hnumeral : Numeral (into_bytes body) [] [] :=
      ⟨into_bytes_ne_nil hne, digit_bytes hdigits, .inl rfl, .inl rfl⟩
    have htoken : IsNumberToken f64_value (into_bytes body) [] [] (.IntLiteral n) := by
      have hmap : (into_bytes body).map ofUInt8 = body :=
        map_into_bytes fun c hc => ascii_of_literal_char (literal_char_of_digit (hdigits c hc))
      simp [IsNumberToken, hmap, hn]
    simpa using Lexeme.number hnumeral htoken
  · have hnumber := hform.resolve_right hall
    obtain ⟨whole, fraction, exponent, hbytes, hnumeral, hplain⟩ := numeral_of_number hdigit hnumber
    refine ⟨.FloatLiteral (f64_value body), .inr ⟨?_, rfl⟩, ?_⟩
    · rw [is_f64, strip_sign_of_digit hdigit, hnumber]
      rfl
    · rw [hbytes]
      refine .number hnumeral ?_
      have hmap : (whole ++ fraction ++ exponent).map ofUInt8 = body := by
        rw [← hbytes]
        exact map_into_bytes fun c hc => ascii_of_literal_char (literal_chars_of_number hnumber c hc)
      rw [IsNumberToken, if_pos]
      · rw [hmap]
        exact ⟨by rw [is_f64, strip_sign_of_digit hdigit, hnumber]; rfl, rfl⟩
      · by_contra hnone
        simp only [not_or, not_not] at hnone
        exact hall (hplain hnone.1 hnone.2)

theorem scan_escaped (hascii : ∀ c ∈ s, c.toNat < 0x80) {rest : List UInt8}
    (hrest : rest.head?.map ofUInt8 ≠ some '\'') (line col : ℕ) (acc : Text) :
    ∃ l, (scan_string_from (into_bytes (escaped s) ++ rest) line col acc : Scan F) =
      (.ok (.StringLiteral (String.ofList (acc ++ s))), l) ∧ l.input = rest := by
  induction s generalizing line col acc with
  | nil =>
    have hend := scan_string_from_end (F := F) (b := 39) (by decide) hrest line col acc
    exact ⟨_, by rw [append_nil]; exact hend, rfl⟩
  | cons c s ih =>
    obtain ⟨hc, hs⟩ := forall_mem_cons.1 hascii
    rw [escaped_cons, into_bytes_append, append_assoc]
    split_ifs with hquote
    · subst hquote
      obtain ⟨l, hscan, hl⟩ := ih hs line (col + 2) (acc ++ ['\''])
      refine ⟨l, ?_, hl⟩
      rw [show into_bytes ['\'', '\''] = [39, 39] by decide, cons_append, cons_append,
        scan_string_from, if_pos (by decide), if_pos (by decide), nil_append, hscan, append_assoc]
      rfl
    · rw [into_bytes_cons, encode_of_ascii hc, into_bytes_nil, append_nil, cons_append,
        nil_append, scan_string_from_cons (by rw [ofUInt8_toUInt8 hc]; exact hquote), ofUInt8_toUInt8 hc]
      split_ifs with hnl
      · subst hnl
        obtain ⟨l, hscan, hl⟩ := ih hs (line + 1) 1 (acc ++ ['\n'])
        exact ⟨l, by rw [hscan, append_assoc]; rfl, hl⟩
      · obtain ⟨l, hscan, hl⟩ := ih hs line (col + 1) (acc ++ [c])
        exact ⟨l, by rw [hscan, append_assoc]; rfl, hl⟩

theorem string_lexeme (hascii : ∀ c ∈ s, c.toNat < 0x80) :
    Lexeme f64_value (into_bytes (quoted s)) (.StringLiteral (String.ofList s)) := by
  rw [into_bytes_quoted]
  refine ⟨nofun, nofun, fun rest _ => noGap_cons (by decide) _, fun rest line col hend => ?_⟩
  rw [goes_on_quote (by decide)] at hend
  exact scan_escaped hascii (by simpa using hend) line col []

variable {f64_value} {tokens : List (Token F)}

/-- A value that can be written is read as one literal in front of what it does not run into. -/
theorem lexes_value {v : Option Text} (hw : writable v) (hend : goes_on (value_end v) rest = false)
    (h : Lexes f64_value rest tokens) :
    ∃ lits, Denotes f64_value v lits ∧ Lexes f64_value (into_bytes (spelled v) ++ rest)
      (lits ++ tokens) := by
  cases v with
  | none => exact ⟨_, .null, h.lexeme (null_lexeme f64_value) hend⟩
  | some s =>
    simp only [writable, value_end, spelled] at hw hend ⊢
    split at hw
    case isFalse hlit =>
      rw [if_neg hlit] at hend ⊢
      refine ⟨_, .string s, h.lexeme (string_lexeme f64_value (by simpa using hw)) ?_⟩
      rw [into_bytes_quoted, goes_on_quote (by decide)]
      rwa [show into_bytes ['\''] = [39] by decide, goes_on_quote (by decide)] at hend
    case isTrue hlit =>
      rw [if_pos hlit] at hend ⊢
      obtain ⟨t, ht, hlex⟩ := number_lexeme f64_value hlit hw
      have hdigit : (strip_sign s).2.head?.any is_digit = true := by
        simp only [is_numeral, and_eq_true] at hw
        exact hw.1
      have hbody := h.lexeme hlex hend
      obtain hs | hs | hs := strip_sign_cases s
      · rw [← hs] at ht hbody
        exact ⟨_, .number ht, hbody⟩
      · generalize (strip_sign s).2 = body at hs ht hbody
        subst hs
        refine ⟨[.Plus, t], .plus ht, ?_⟩
        have hplus : goes_on (into_bytes ['+']) (into_bytes body ++ rest) = false := by
          rw [show into_bytes ['+'] = [43] by decide,
            goes_on_operator (by decide) (by decide) (by decide) (by decide)]
          rfl
        rw [into_bytes_cons, append_assoc]
        exact hbody.lexeme (plus_lexeme f64_value) hplus
      · generalize (strip_sign s).2 = body at hs ht hbody hdigit
        subst hs
        refine ⟨[.Minus, t], .minus ht, ?_⟩
        have hminus : goes_on (into_bytes ['-']) (into_bytes body ++ rest) = false := by
          cases body with
          | nil => simp at hdigit
          | cons c body =>
            have hc : is_digit c := by simpa using hdigit
            have hascii := ascii_of_literal_char (literal_char_of_digit hc)
            have hne : c ≠ '>' ∧ c ≠ '-' := by
              refine ⟨?_, ?_⟩ <;> (rintro rfl; revert hc; decide)
            rw [show into_bytes ['-'] = [45] by decide,
              goes_on_operator (by decide) (by decide) (by decide) (by decide), into_bytes_cons,
              encode_of_ascii hascii]
            simp only [cons_append, head?_cons, Option.map_some, ofUInt8_toUInt8 hascii]
            simp [operator_goes_on, hne, show ofUInt8 45 = '-' by decide]
        rw [into_bytes_cons, append_assoc]
        exact hbody.lexeme (minus_lexeme f64_value) hminus

end

/-! ## The replaced text -/

/-- A text `out input` for every `input`: placeholders are replaced by their values, and the
bytes between them are kept, but for bytes beyond ASCII when there are parameters. -/
structure Rendering (values : List (Option Text)) (enc : UInt8 → List UInt8)
    (out : List UInt8 → List UInt8) : Prop where
  nil : out [] = []
  byte : ∀ {b rest}, placeholder_at values.length (b :: rest) = none →
    out (b :: rest) = enc b ++ out rest
  value : ∀ {b rest idx len}, placeholder_at values.length (b :: rest) = some (idx, len) →
    out (b :: rest) = into_bytes (spelled (value_of values idx)) ++ out (rest.drop len)
  kept : ∀ b : UInt8, values = [] ∨ b.toNat < 0x80 → enc b = [b]
  high : ∀ b : UInt8, 0x80 ≤ b.toNat → enc b ≠ [] ∧ ∀ d ∈ enc b, 0x80 ≤ d.toNat

variable {out : List UInt8 → List UInt8} {values : List (Option Text)} {enc : UInt8 → List UInt8}

namespace Rendering

theorem placeholder_at_of_ne (h : ofUInt8 b ≠ '$') (count : ℕ) (rest : List UInt8) :
    placeholder_at count (b :: rest) = none := if_neg h

section

variable (h : Rendering values enc out)
include h

theorem ascii {c : Char} (hb : ofUInt8 b = c)
    (hc : c.toNat < 0x80) (hne : c ≠ '$') (rest : List UInt8) :
    out (b :: rest) = b :: out rest := by
  rw [h.byte (placeholder_at_of_ne (by rw [hb]; exact hne) _ _), h.kept b (.inr ?_)]
  · rfl
  · rwa [← toNat_ofUInt8, hb]

/-- A byte of the replaced text that is an ASCII character is that byte of the text. -/
theorem char_of_mem_enc {d : UInt8} {c : Char} (hd : d ∈ enc b)
    (hc : ofUInt8 d = c) (hascii : c.toNat < 0x80) : ofUInt8 b = c := by
  by_cases hb : b.toNat < 0x80
  · rw [h.kept b (.inr hb), mem_singleton] at hd
    rw [← hd, hc]
  · have := (h.high b (Nat.le_of_not_lt hb)).2 d hd
    rw [← toNat_ofUInt8, hc] at this
    omega

theorem enc_ne_nil (b : UInt8) : enc b ≠ [] := by
  by_cases hb : b.toNat < 0x80
  · rw [h.kept b (.inr hb)]; nofun
  · exact (h.high b (Nat.le_of_not_lt hb)).1

/-- A character no value begins with comes from the text. -/
theorem head_out {c : Char} (hascii : c.toNat < 0x80)
    (hvalue : ∀ v, (into_bytes (spelled v)).head?.map ofUInt8 ≠ some c)
    (hout : (out rest).head?.map ofUInt8 = some c) : rest.head?.map ofUInt8 = some c := by
  cases rest with
  | nil => rw [h.nil] at hout; nomatch hout
  | cons b rest =>
    cases hfound : placeholder_at values.length (b :: rest) with
    | none =>
      rw [h.byte hfound, head?_append_of_ne_nil _ (h.enc_ne_nil b)] at hout
      obtain ⟨d, hd, hdc⟩ := Option.map_eq_some_iff.1 hout
      rw [head?_cons, Option.map_some, h.char_of_mem_enc (mem_of_mem_head? hd) hdc hascii]
    | some found =>
      obtain ⟨idx, len⟩ := found
      rw [h.value hfound, head?_append_of_ne_nil _ (spelled_ne_nil _)] at hout
      exact absurd hout (hvalue _)

/-- A piece of text without placeholders is kept. -/
theorem take_drop {n : ℕ} {input : List UInt8}
    (hnone : holds_placeholder values.length n input = false)
    (hkept : ∀ b ∈ input.take n, enc b = [b]) : out input = input.take n ++ out (input.drop n) := by
  induction n generalizing input with
  | zero => rfl
  | succ n ih =>
    cases input with
    | nil => rfl
    | cons b rest =>
      simp only [holds_placeholder, Bool.or_eq_false_iff] at hnone
      rw [take_succ_cons, forall_mem_cons] at hkept
      have hfound : placeholder_at values.length (b :: rest) = none := by simpa using hnone.1
      rw [h.byte hfound, hkept.1, ih hnone.2 hkept.2]
      rfl

end

end Rendering

variable {rest rest' : List UInt8}

/-! ## The pieces of a text -/

section

variable {f64_value : Text → F} {count : ℕ} {p : Piece F} {mode' : Mode}

/-- What a piece of code can be. -/
inductive CodePiece (f64_value : Text → F) (count : ℕ) (b : UInt8) (rest : List UInt8) :
    Piece F → Mode → List UInt8 → Prop
  | white (h : is_ascii_whitespace b = true) : CodePiece f64_value count b rest (.blank b) .code rest
  | line {d rest'} (hb : ofUInt8 b = '-') (hd : ofUInt8 d = '-') (hrest : rest = d :: rest') :
      CodePiece f64_value count b rest (.blank b) .line rest'
  | block {d rest'} (hb : ofUInt8 b = '/') (hd : ofUInt8 d = '*') (hrest : rest = d :: rest') :
      CodePiece f64_value count b rest (.blank b) .block rest'
  | value {idx len} (h : placeholder_at count (b :: rest) = some (idx, len)) :
      CodePiece f64_value count b rest (.value idx) .code (rest.drop len)
  | lexeme {text rest'} {t : Token F} (htext : b :: rest = text ++ rest')
      (hlex : Lexeme f64_value text t) (hend : goes_on text rest' = false) :
      CodePiece f64_value count b rest
        (.lexeme text t (holds_placeholder count text.length (b :: rest))) .code rest'

theorem exists_of_head {c : Char} (h : rest.head?.map ofUInt8 = some c) :
    ∃ d, rest = d :: rest.drop 1 ∧ ofUInt8 d = c := by
  cases rest with
  | nil => nomatch h
  | cons d rest => exact ⟨d, rfl, by simpa using h⟩

theorem codePiece_of_read (h : read_piece f64_value count .code b rest = .ok (p, mode', rest')) :
    CodePiece f64_value count b rest p mode' rest' := by
  simp only [read_piece] at h
  split_ifs at h with hwhite hline hblock
  · cases h
    exact .white hwhite
  · cases h
    obtain ⟨d, hrest, hd⟩ := exists_of_head hline.2
    exact .line hline.1 hd (by simpa using hrest)
  · cases h
    obtain ⟨d, hrest, hd⟩ := exists_of_head hblock.2
    exact .block hblock.1 hd (by simpa using hrest)
  · split at h
    · rename_i idx len hfound
      cases h
      exact .value hfound
    · split at h
      · nomatch h
      · rename_i t l hscan
        cases h
        have hsecond : (b :: rest)[1]?.map ofUInt8 = rest.head?.map ofUInt8 :=
          second_eq_peek b ⟨rest, 1, 1⟩
        have hgap : NoGap (b :: rest) := by
          refine ⟨fun d hd => ?_, fun hc => hline ?_, fun hc => hblock ?_⟩
          · obtain rfl : b = d := by simpa using hd
            simpa using hwhite
          all_goals exact ⟨by simpa using hc.1, hsecond.symm.trans hc.2⟩
        obtain ⟨text, htext, hlex, hend⟩ := lexeme_of_scan hgap hscan
        have hlen : (b :: rest).length - l.input.length = text.length := by
          rw [htext, length_append, Nat.add_sub_cancel]
        have htake : (b :: rest).take text.length = text := by
          rw [htext, take_left]
        rw [hlen, htake]
        exact .lexeme htext hlex hend

theorem length_of_codePiece (h : CodePiece f64_value count b rest p mode' rest') :
    rest'.length ≤ rest.length := by
  cases h with
  | white => exact le_rfl
  | line hb hd hrest | block hb hd hrest => rw [hrest]; exact Nat.le_succ _
  | value => exact (drop_sublist _ _).length_le
  | lexeme htext hlex =>
    have hlen := congrArg List.length htext
    have hpos := length_pos_of_ne_nil hlex.ne_nil
    simp only [length_cons, length_append] at hlen
    omega

theorem length_of_read {mode : Mode}
    (h : read_piece f64_value count mode b rest = .ok (p, mode', rest')) : rest'.length ≤ rest.length := by
  have hdrop : ∀ n, (rest.drop n).length ≤ rest.length := fun n => (drop_sublist _ _).length_le
  have hpiece : ∀ {x}, (.ok x : Sql.Result (Piece F × Mode × List UInt8)) = .ok (p, mode', rest') →
      x.2.2.length ≤ rest.length → rest'.length ≤ rest.length := by
    rintro _ ⟨⟩ hle
    exact hle
  cases mode with
  | code => exact length_of_codePiece (codePiece_of_read h)
  | line =>
    simp only [read_piece] at h
    split_ifs at h
    · exact hpiece h le_rfl
    · split at h
      · exact hpiece h (hdrop _)
      · exact hpiece h le_rfl
  | block =>
    simp only [read_piece] at h
    split_ifs at h
    · exact hpiece h (hdrop 1)
    · split at h
      · exact hpiece h (hdrop _)
      · exact hpiece h le_rfl

end

/-! ## From pieces to tokens -/

section

variable {f64_value : Text → F} {p : Piece F} {ps : List (Piece F)} {mode mode' : Mode}
  {ts : List (Token F)}

theorem read_pieces_cons {count fuel : ℕ} {all : List (Piece F)}
    (h : read_pieces f64_value count (fuel + 1) mode (b :: rest) = .ok all) :
    ∃ p mode' rest' ps, read_piece f64_value count mode b rest = .ok (p, mode', rest') ∧
      read_pieces f64_value count fuel mode' rest' = .ok ps ∧ all = p :: ps := by
  rw [read_pieces] at h
  split at h
  · nomatch h
  · rename_i p mode' rest' hpiece
    cases hread : read_pieces f64_value count fuel mode' rest' with
    | error e => rw [hread] at h; nomatch h
    | ok ps =>
      rw [hread] at h
      exact ⟨p, mode', rest', ps, hpiece, hread, (Except.ok.inj h).symm⟩

theorem safe_cons (h : safe values (p :: ps) = true) :
    piece_safe values p = true ∧ goes_on (last_lexeme values p) (first_bytes values ps) = false ∧
      safe values ps = true := by
  simpa [safe, and_assoc] using h

theorem not_dollar_of_whitespace (h : is_ascii_whitespace b = true) :
    b.toNat < 0x80 ∧ ofUInt8 b ≠ '$' := by
  have hall : ∀ c ∈ [' ', '\t', '\n', '\x0c', '\r'], c.toNat < 0x80 ∧ c ≠ '$' :=
    all_iff_forall_prop.mp (by decide)
  have hmem : ofUInt8 b ∈ [' ', '\t', '\n', '\x0c', '\r'] := by
    simpa only [is_ascii_whitespace, decide_eq_true_eq] using h
  exact hall _ hmem

namespace Rendering

variable (h : Rendering values enc out)
include h

theorem white (hb : is_ascii_whitespace b = true) (rest : List UInt8) :
    out (b :: rest) = b :: out rest := by
  obtain ⟨hlt, hne⟩ := not_dollar_of_whitespace hb
  exact h.ascii rfl hlt hne rest

/-- A lexeme that is safe is kept. -/
theorem lexeme {text : List UInt8} {t : Token F} (htext : b :: rest = text ++ rest')
    (hsafe : piece_safe values (.lexeme text t (holds_placeholder values.length text.length
      (b :: rest))) = true) :
    out (b :: rest) = text ++ out rest' := by
  simp only [piece_safe, and_eq_true, or_eq_true, Bool.not_eq_true', List.isEmpty_iff,
    all_eq_true, decide_eq_true_eq] at hsafe
  have hkept := h.take_drop hsafe.1 (fun d hd => h.kept d ?_)
  · rwa [htext, take_left, drop_left, ← htext] at hkept
  · rw [htext, take_left] at hd
    exact hsafe.2.imp_right fun hall => hall d hd

theorem head_first {fuel : ℕ} {input : List UInt8}
    (hread : read_pieces f64_value values.length fuel .code input = .ok ps)
    (hfuel : input.length ≤ fuel) (hsafe : safe values ps = true) :
    (out input).head? = (first_bytes values ps).head? := by
  cases input with
  | nil =>
    obtain rfl : [] = ps := by simpa [read_pieces] using hread
    rw [h.nil]
    rfl
  | cons b rest =>
    obtain ⟨fuel, rfl⟩ : ∃ k, fuel = k + 1 := ⟨fuel - 1, by simp only [length_cons] at hfuel; omega⟩
    obtain ⟨p, mode', rest', ps, hpiece, -, rfl⟩ := read_pieces_cons hread
    obtain ⟨hp, -, -⟩ := safe_cons hsafe
    cases codePiece_of_read hpiece with
    | white hb => rw [h.white hb]; rfl
    | line hb | block hb => rw [h.ascii hb (by decide) (by decide)]; rfl
    | value hfound =>
      rw [h.value hfound, head?_append_of_ne_nil _ (spelled_ne_nil _), head_spelled]
      rfl
    | lexeme htext hlex =>
      rw [h.lexeme htext hp, head?_append_of_ne_nil _ hlex.ne_nil]
      rfl

end Rendering

variable {v : Option Text}

/-- What a value begins with: a quote, or a character of numbers and words. -/
theorem head_spelled_char {c : Char} (h : (into_bytes (spelled v)).head?.map ofUInt8 = some c) :
    c = '\'' ∨ is_literal_char c := by
  obtain hlit | ⟨s, rfl, hq⟩ := spelled_cases v
  · rw [← head?_map, map_into_bytes fun d hd => ascii_of_literal_char (hlit d hd)] at h
    exact .inr (hlit c (mem_of_mem_head? h))
  · rw [hq, into_bytes_quoted] at h
    exact .inl (Option.some.inj h).symm

theorem head_spelled_ne {c : Char} (hquote : c ≠ '\'') (hlit : ¬ is_literal_char c) (v : Option Text) :
    (into_bytes (spelled v)).head?.map ofUInt8 ≠ some c := fun h =>
  (head_spelled_char h).elim hquote hlit

/-- A value that begins with a minus goes on with a character of numbers and words. -/
theorem second_spelled {y : List UInt8} (h : (into_bytes (spelled v)).head?.map ofUInt8 = some '-') :
    (into_bytes (spelled v) ++ y)[1]?.map ofUInt8 ≠ some '>' := by
  cases v with
  | none => exact absurd h (by decide)
  | some s =>
    rw [spelled] at h ⊢
    split at h
    case isFalse hlit =>
      rw [into_bytes_quoted] at h
      exact absurd h (by simp; decide)
    case isTrue hlit =>
      rw [if_pos hlit]
      have hascii := fun d hd => ascii_of_literal_char (literal_chars hlit d hd)
      rw [← head?_map, map_into_bytes hascii] at h
      obtain ⟨rest, rfl⟩ : ∃ rest, s = '-' :: rest := by
        cases s with
        | nil => nomatch h
        | cons c rest => exact ⟨rest, by obtain rfl : c = '-' := (by simpa using h); rfl⟩
      cases rest with
      | nil => exact absurd hlit (by decide)
      | cons d rest =>
        have hd := hascii d (by simp)
        rw [into_bytes_cons, into_bytes_cons, encode_of_ascii hd,
          show String.utf8EncodeChar '-' = [45] by decide]
        simp only [cons_append, nil_append, getElem?_cons_succ, getElem?_cons_zero,
          Option.map_some, ofUInt8_toUInt8 hd]
        intro hgt
        cases hgt
        exact absurd (literal_chars hlit '>' (by simp)) (by decide)

/-- What a value ends with goes on by the next byte alone. -/
theorem goes_on_value_end {next next' : List UInt8} (hhead : next'.head? = next.head?)
    (h : goes_on (value_end v) next' = false) : goes_on (value_end v) next = false := by
  by_contra hgo
  obtain hgo | ⟨htext, -⟩ := goes_on_of_head hhead (by simpa using hgo)
  · simp [h] at hgo
  · cases v with
    | none => exact absurd htext (by decide)
    | some s =>
      rw [value_end] at htext
      split_ifs at htext with hlit
      · have hlits : ∀ c ∈ (strip_sign s).2, is_literal_char c := by
          intro c hc
          refine literal_chars hlit c ?_
          obtain hs | hs | hs := strip_sign_cases s <;> rw [hs] <;> simp [hc]
        rw [map_into_bytes fun c hc => ascii_of_literal_char (hlits c hc)] at htext
        exact absurd (hlits '<' (by simp [htext])) (by decide)
      · exact absurd htext (by decide)

namespace Rendering

/-- A lexeme that is safe does not go on into the replaced text behind it. -/
theorem goes_on_lexeme (h : Rendering values enc out) {fuel : ℕ} {text : List UInt8}
    (hread : read_pieces f64_value values.length fuel .code rest = .ok ps) (hfuel : rest.length ≤ fuel)
    (hsafe : safe values ps = true) (hfirst : goes_on text (first_bytes values ps) = false)
    (hend : goes_on text rest = false) : goes_on text (out rest) = false := by
  by_contra hgo
  obtain hgo | ⟨htext, hdash, hgt⟩ :=
    goes_on_of_head (h.head_first hread hfuel hsafe).symm (by simpa using hgo)
  · simp [hfirst] at hgo
  -- only `<` reads two bytes ahead, and no value begins with `->`
  · cases rest with
    | nil => simp [h.nil] at hdash
    | cons d rest =>
      cases hfound : placeholder_at values.length (d :: rest) with
      | some found =>
        obtain ⟨idx, len⟩ := found
        rw [h.value hfound] at hdash hgt
        rw [head?_append_of_ne_nil _ (spelled_ne_nil _)] at hdash
        exact second_spelled hdash hgt
      | none =>
        have hd : ofUInt8 d = '-' := by
          rw [h.byte hfound, head?_append_of_ne_nil _ (h.enc_ne_nil d)] at hdash
          obtain ⟨e, he, hec⟩ := Option.map_eq_some_iff.1 hdash
          exact h.char_of_mem_enc (mem_of_mem_head? he) hec (by decide)
        rw [h.ascii hd (by decide) (by decide), getElem?_cons_succ, ← head?_eq_getElem?] at hgt
        have hrest : rest.head?.map ofUInt8 = some '>' :=
          h.head_out (by decide) (head_spelled_ne (by decide) (by decide)) hgt
        have hsecond : (d :: rest)[1]?.map ofUInt8 = some '>' :=
          (second_eq_peek d ⟨rest, 1, 1⟩).trans hrest
        obtain ⟨x, rfl, hx⟩ := map_eq_singleton_iff.1 htext
        rw [goes_on_operator (by simp [hx]) (by simp [hx, is_digit]) (by simp [hx]) (by simp [hx]), hsecond,
          head?_cons, Option.map_some, hd, hx] at hend
        exact absurd hend (by decide)

end Rendering

variable (f64_value) in
/-- `Lexes` from within a comment: behind it. -/
def LexesIn : Mode → List UInt8 → List (Token F) → Prop
  | .code, input, ts => Lexes f64_value input ts
  | .line, input, ts => Lexes f64_value (line_end input) ts
  | .block, input, ts => Lexes f64_value (skip_block input) ts

theorem LexesIn.nil : LexesIn f64_value mode [] [.EOF] := by
  cases mode <;> exact Lexes.nil

namespace Rendering

variable {fuel : ℕ}

section

variable (h : Rendering values enc out) (hfilled : Filled f64_value values ps ts)
  (hlex : LexesIn f64_value mode' (out rest') ts)
include h hfilled hlex

/-- One piece of a line comment. -/
theorem lexes_line
    (hpiece : read_piece f64_value values.length .line b rest = .ok (p, mode', rest'))
    (hsafe : piece_safe values p = true) :
    Filled f64_value values (p :: ps) ts ∧ LexesIn f64_value .line (out (b :: rest)) ts := by
  simp only [read_piece] at hpiece
  split at hpiece
  case isTrue hnl =>
    cases hpiece
    refine ⟨.blank b hfilled, ?_⟩
    rw [LexesIn, h.ascii hnl (by decide) (by decide), line_end, dropWhile_cons_of_neg (by simp [hnl])]
    exact Lexes.blank (by simp [is_ascii_whitespace, hnl]) hlex
  case isFalse hnl =>
    split at hpiece
    · rename_i idx len hfound
      cases hpiece
      refine ⟨.in_line idx hfilled, ?_⟩
      rwa [LexesIn, h.value hfound, line_end_spelled hsafe]
    · rename_i hfound
      cases hpiece
      refine ⟨.blank b hfilled, ?_⟩
      rw [LexesIn, h.byte hfound, line_end_append]
      · exact hlex
      · exact fun d hd hc => hnl (h.char_of_mem_enc hd hc (by decide))

theorem lexes_block
    (hpiece : read_piece f64_value values.length .block b rest = .ok (p, mode', rest'))
    (hsafe : piece_safe values p = true) :
    Filled f64_value values (p :: ps) ts ∧ LexesIn f64_value .block (out (b :: rest)) ts := by
  simp only [read_piece] at hpiece
  split at hpiece
  case isTrue hclose =>
    cases hpiece
    obtain ⟨d, hrest, hd⟩ := exists_of_head hclose.2
    refine ⟨.blank b hfilled, ?_⟩
    rwa [LexesIn, h.ascii hclose.1 (by decide) (by decide), hrest, h.ascii hd (by decide) (by decide),
      skip_block, if_pos ⟨hclose.1, hd⟩]
  case isFalse hclose =>
    split at hpiece
    · rename_i idx len hfound
      cases hpiece
      refine ⟨.in_block idx hfilled, ?_⟩
      rwa [LexesIn, h.value hfound, skip_block_spelled hsafe]
    · rename_i hfound
      cases hpiece
      refine ⟨.blank b hfilled, ?_⟩
      rw [LexesIn]
      by_cases hstar : ofUInt8 b = '*'
      · -- the replaced text does not close the comment where the text does not
        rw [h.ascii hstar (by decide) (by decide), skip_block_cons]
        · exact hlex
        · exact fun hc => hclose
            ⟨hstar, h.head_out (by decide) (head_spelled_ne (by decide) (by decide)) hc.2⟩
      · rw [h.byte hfound, skip_block_append]
        · exact hlex
        · exact fun d hd hc => hstar (h.char_of_mem_enc hd hc (by decide))

theorem lexes_code
    (hpiece : read_piece f64_value values.length .code b rest = .ok (p, mode', rest'))
    (hread : read_pieces f64_value values.length fuel mode' rest' = .ok ps) (hfuel : rest'.length ≤ fuel)
    (hsafe : safe values (p :: ps) = true) :
    ∃ ts', Filled f64_value values (p :: ps) ts' ∧ LexesIn f64_value .code (out (b :: rest)) ts' := by
  obtain ⟨hp, hnext, hps⟩ := safe_cons hsafe
  cases codePiece_of_read hpiece with
  | white hb =>
    refine ⟨ts, .blank b hfilled, ?_⟩
    rw [h.white hb]
    exact Lexes.blank hb hlex
  | line hb hd hrest =>
    refine ⟨ts, .blank b hfilled, ?_⟩
    rw [hrest, h.ascii hb (by decide) (by decide), h.ascii hd (by decide) (by decide)]
    exact Lexes.line_comment hb hd hlex
  | block hb hd hrest =>
    refine ⟨ts, .blank b hfilled, ?_⟩
    rw [hrest, h.ascii hb (by decide) (by decide), h.ascii hd (by decide) (by decide)]
    exact Lexes.block_comment hb hd hlex
  | value hfound =>
    have hend := goes_on_value_end (h.head_first hread hfuel hps).symm hnext
    obtain ⟨lits, hlits, hvalue⟩ := lexes_value hp hend hlex
    refine ⟨lits ++ ts, .value hlits hfilled, ?_⟩
    rwa [h.value hfound]
  | lexeme htext htoken hend =>
    refine ⟨_, .lexeme _ _ _ hfilled, ?_⟩
    rw [h.lexeme htext hp]
    exact Lexes.lexeme htoken (h.goes_on_lexeme hread hfuel hps hnext hend) hlex

omit hfilled hlex in
/-- The lexer makes of the replaced text the tokens of its pieces, with the placeholders
filled. -/
theorem lexes_out {input : List UInt8}
    (hread : read_pieces f64_value values.length fuel mode input = .ok ps)
    (hfuel : input.length ≤ fuel) (hsafe : safe values ps = true) :
    ∃ ts, Filled f64_value values ps ts ∧ LexesIn f64_value mode (out input) ts := by
  induction fuel generalizing mode input ps with
  | zero =>
    obtain rfl := length_eq_zero_iff.1 (Nat.le_zero.1 hfuel)
    obtain rfl : [] = ps := by simpa [read_pieces] using hread
    exact ⟨_, .nil, by rw [h.nil]; exact LexesIn.nil⟩
  | succ fuel ih =>
    cases input with
    | nil =>
      obtain rfl : [] = ps := by simpa [read_pieces] using hread
      exact ⟨_, .nil, by rw [h.nil]; exact LexesIn.nil⟩
    | cons b rest =>
      obtain ⟨p, mode', rest', ps, hpiece, hrest, rfl⟩ := read_pieces_cons hread
      obtain ⟨hp, -, hps⟩ := safe_cons hsafe
      have hlen : rest'.length ≤ fuel := (length_of_read hpiece).trans (Nat.le_of_succ_le_succ hfuel)
      obtain ⟨ts, hfilled, hlex⟩ := ih hrest hlen hps
      cases mode with
      | code => exact h.lexes_code hfilled hlex hpiece hrest hlen hsafe
      | line =>
        exact ⟨ts, h.lexes_line hfilled hlex hpiece hp⟩
      | block =>
        exact ⟨ts, h.lexes_block hfilled hlex hpiece hp⟩

end

end Rendering

end

/-! ## The query with its parameters -/

section

variable {F Db : Type} (env : Env Db F) (f64_value : Text → F)
  (values : List (Option Text))

/-- Parameters in text format. -/
def text_params : List (Option (List UInt8)) :=
  values.map (Option.map into_bytes)

theorem length_text_params : (text_params values).length = values.length :=
  length_map _

theorem getD_text_params (idx : ℕ) :
    (text_params values).getD (idx - 1) none = (value_of values idx).map into_bytes := by
  simp only [text_params, value_of, getD_eq_getElem?_getD, getElem?_map]
  cases values[idx - 1]? <;> rfl

/-- Whether the pieces of a query, if it has any, are safe. -/
def safe_query (sql : Text) : Bool :=
  (pieces f64_value values.length sql).toOption.all (safe values)

/-- The tokens of the query with its parameters are those of the query, with each placeholder
filled by a literal. -/
def KeepsTokens (sql : Text) (values : List (Option Text)) (formats : List ℤ) : Prop :=
  ∀ ps, pieces f64_value values.length sql = .ok ps → ∃ tokens, Filled f64_value values ps tokens ∧
      Sql.Lexer.tokenize f64_value (into_bytes (substitute_params env sql (text_params values) formats)) =
        .ok tokens

theorem placeholder_at_zero (input : List UInt8) : placeholder_at 0 input = none := by
  cases input with
  | nil => rfl
  | cons b rest =>
    rw [placeholder_at]
    split
    · simp only [placeholder, Option.bind_eq_none_iff]
      exact fun idx _ => if_neg (by omega)
    · rfl

theorem rendering_nil : Rendering [] (fun b => [b]) id where
  nil := rfl
  byte _ := rfl
  value h := by simp [placeholder_at_zero] at h
  kept _ _ := rfl
  high b hb := ⟨nofun, by simpa using hb⟩

theorem substitute_from_skip (params : List (Option (List UInt8))) (formats : List ℤ) (n : ℕ)
    (input : List UInt8) :
    substitute_from env params formats n input = substitute_from env params formats 0 (input.drop n) := by
  induction n generalizing input with
  | zero => rfl
  | succ n ih =>
    cases input with
    | nil => rfl
    | cons b rest => rw [substitute_from, ih, drop_succ_cons]

variable {env}

theorem rendering_substitute {values : List (Option Text)} {formats : List ℤ} (hne : values ≠ [])
    (hlossy : ∀ s, env.from_utf8_lossy (into_bytes s) = s) (hformats : ∀ i, formats.getD i 0 ≠ 1) :
    Rendering values (fun b => String.utf8EncodeChar (ofUInt8 b))
      (fun input => into_bytes (substitute_from env (text_params values) formats 0 input)) where
  nil := rfl
  byte {b rest} h := by
    rw [placeholder_at, ← length_text_params] at h
    rw [substitute_from, h]
    rfl
  value {b rest idx len} h := by
    rw [placeholder_at, ← length_text_params] at h
    rw [substitute_from, h]
    simp only
    rw [getD_text_params, literal_text_eq hlossy _ (hformats _), into_bytes_append, substitute_from_skip]
  kept b hb := by
    have hlt : (ofUInt8 b).toNat < 0x80 := hb.resolve_left hne
    rw [encode_of_ascii hlt]
    exact congrArg (fun d => [d]) (UInt8.toNat_inj.1 (by simp [Char.toUInt8, ofUInt8]))
  high b hb :=
    have hle : 0x80 ≤ (ofUInt8 b).toNat := hb
    ⟨String.utf8EncodeChar_ne_nil, fun _ hd => le_of_mem_encode hle hd⟩

/-- **Substitution keeps the tokens.** Where no piece of the query can run into the value put next
to it, the text that is sent lexes to the tokens of the query with the values in their places. -/
theorem substitute_params_tokens (hlossy : ∀ s, env.from_utf8_lossy (into_bytes s) = s)
    {sql : Text} {values : List (Option Text)} {formats : List ℤ} (hformats : ∀ i, formats.getD i 0 ≠ 1)
    (hsafe : safe_query f64_value values sql = true) : KeepsTokens env f64_value sql values formats := by
  intro ps hps
  have hsafe : safe values ps = true := by simpa [safe_query, hps, Except.toOption] using hsafe
  by_cases hne : values = []
  · subst hne
    obtain ⟨tokens, hfilled, hlex⟩ := rendering_nil.lexes_out hps le_rfl hsafe
    exact ⟨tokens, hfilled, Lexes.tokenize hlex⟩
  · obtain ⟨tokens, hfilled, hlex⟩ :=
      (rendering_substitute hne hlossy hformats).lexes_out hps le_rfl hsafe
    refine ⟨tokens, hfilled, ?_⟩
    rw [substitute_params, if_neg (by simpa [text_params] using hne)]
    exact Lexes.tokenize hlex

end

/-- An environment whose `from_utf8_lossy` decodes. -/
def demo_env : Env Unit ℕ where
  to_uppercase := id
  to_lowercase := id
  is_nan _ := false
  is_infinite _ := false
  is_positive _ := true
  display _ := []
  from_utf8_lossy bytes := (from_utf8 bytes).getD []
  execute db _ := (none, db)

theorem substitute_params_tokens_demo :
    KeepsTokens demo_env (fun _ => 0) "SELECT n-$1 FROM t -- $2\nWHERE s=$2 OR s='$'".toList
      [some "5".toList, some "it's".toList] [] :=
  substitute_params_tokens _ (fun s => by rw [demo_env]; simp [from_utf8_into_bytes]) (by simp)
    (by decide +kernel)

/-- A placeholder inside a string literal: the quotes of the value end the literal. -/
theorem placeholder_in_string :
    ¬ KeepsTokens demo_env (fun _ => 0) "SELECT '$1'".toList [some "a".toList] [] := by
  intro h
  have hpieces : pieces (fun _ => (0 : ℕ)) 1 "SELECT '$1'".toList =
      .ok [.lexeme "SELECT".toUTF8.toList .Select false, .blank 32,
        .lexeme "'$1'".toUTF8.toList (.StringLiteral "$1") true] := by decide +kernel
  obtain ⟨tokens, hfilled, htokens⟩ := h _ hpieces
  have hsub : Sql.Lexer.tokenize (fun _ => (0 : ℕ)) (into_bytes (substitute_params demo_env
      "SELECT '$1'".toList (text_params [some "a".toList]) [])) =
      .ok [.Select, .StringLiteral "", .Ident "a", .StringLiteral "", .EOF] := by decide +kernel
  have hkept : tokens = [.Select, .StringLiteral "$1", .EOF] := by
    cases hfilled with
    | lexeme _ _ _ h =>
      cases h with
      | blank _ h =>
        cases h with
        | lexeme _ _ _ h =>
          cases h
          rfl
  rw [hsub, hkept] at htokens
  exact absurd htokens (by decide)

end Oigrap.Server
