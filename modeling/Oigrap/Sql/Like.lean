/-
`LIKE` as a cutting of the text.

`like_match` fills a table: the entry at `(i, j)` says whether the first `i` characters of the
text match the first `j` of the pattern. Read by rows, what a row says of the text so far is
`TableRow`, and one more character of the text turns one such row into the next.
-/
import Oigrap.Sql.Value

namespace Oigrap.Sql

open List

/-- What a character of the pattern stands for. -/
def PatternPiece (q : Char) (t : List Char) : Prop :=
  if q = '%' then True else if q = '_' then ∃ c, t = [c] else t = [q]

/-- The text `s` is cut into consecutive pieces, one for each character of the pattern. -/
def Cuts (s : List Char) : List Char → Prop
  | [] => s = []
  | q :: p => ∃ a b, s = a ++ b ∧ PatternPiece q a ∧ Cuts b p

variable {s pre p : List Char} {q c : Char} {row : List Bool}

theorem cuts_concat : Cuts s (pre ++ [q]) ↔ ∃ a b, s = a ++ b ∧ Cuts a pre ∧ PatternPiece q b := by
  induction pre generalizing s with
  | nil => simp [Cuts]
  | cons q' pre ih =>
    simp only [cons_append, Cuts, ih]
    constructor
    · rintro ⟨a, b, rfl, ha, b, d, rfl, hb, hd⟩
      exact ⟨a ++ b, d, (append_assoc ..).symm, ⟨a, b, rfl, ha, hb⟩, hd⟩
    · rintro ⟨ab, d, rfl, ⟨a, b, rfl, ha, hb⟩, hd⟩
      exact ⟨a, b ++ d, append_assoc .., ha, b, d, rfl, hb, hd⟩

/-- The last piece of a `%` is empty or has the last character. -/
theorem cuts_percent :
    Cuts (s ++ [c]) (pre ++ ['%']) ↔ Cuts s (pre ++ ['%']) ∨ Cuts (s ++ [c]) pre := by
  have hany : ∀ b, PatternPiece '%' b := fun b => by simp [PatternPiece]
  rw [cuts_concat, cuts_concat]
  constructor
  · rintro ⟨a, b, hs, ha, -⟩
    rcases eq_nil_or_concat b with rfl | ⟨b, c', rfl⟩
    · rw [append_nil] at hs
      exact .inr (hs ▸ ha)
    · rw [concat_eq_append, ← append_assoc] at hs
      exact .inl ⟨a, b, (append_inj' hs rfl).1, ha, hany b⟩
  · rintro (⟨a, b, rfl, ha, -⟩ | ha)
    · exact ⟨a, b ++ [c], append_assoc .., ha, hany _⟩
    · exact ⟨s ++ [c], [], (append_nil _).symm, ha, hany _⟩

theorem cuts_single (hq : q ≠ '%') :
    Cuts (s ++ [c]) (pre ++ [q]) ↔ (q = '_' ∨ q = c) ∧ Cuts s pre := by
  have hpiece : ∀ b, PatternPiece q b ↔ ∃ d, b = [d] ∧ (q = '_' ∨ q = d) := by
    intro b
    by_cases hq' : q = '_' <;> simp [PatternPiece, hq, hq']
  rw [cuts_concat]
  constructor
  · rintro ⟨a, b, hs, ha, hb⟩
    obtain ⟨d, rfl, hd⟩ := (hpiece b).mp hb
    obtain ⟨rfl, hc⟩ := append_inj' hs rfl
    rw [singleton_inj.mp hc]
    exact ⟨hd, ha⟩
  · rintro ⟨hd, hs⟩
    exact ⟨s, [c], rfl, hs, (hpiece _).mpr ⟨c, rfl, hd⟩⟩

theorem cuts_empty_concat : Cuts [] (pre ++ [q]) ↔ q = '%' ∧ Cuts [] pre := by
  rw [cuts_concat]
  constructor
  · rintro ⟨a, b, hs, ha, hb⟩
    obtain ⟨rfl, rfl⟩ := append_eq_nil_iff.mp hs.symm
    refine ⟨?_, ha⟩
    by_contra hq
    simp [PatternPiece, hq] at hb
  · rintro ⟨rfl, ha⟩
    exact ⟨[], [], rfl, ha, by simp [PatternPiece]⟩

/-- The row of the text `s`, from the entry of the pattern `pre` on. -/
def TableRow (s : List Char) : List Char → List Char → List Bool → Prop
  | pre, [], row => ∃ b, row = [b] ∧ (b = true ↔ Cuts s pre)
  | pre, q :: qs, row =>
    ∃ b row', row = b :: row' ∧ (b = true ↔ Cuts s pre) ∧ TableRow s (pre ++ [q]) qs row'

theorem TableRow.head (h : TableRow s pre p row) :
    ∃ b row', row = b :: row' ∧ (b = true ↔ Cuts s pre) := by
  cases p with
  | nil => exact h.imp fun b hb => ⟨[], hb⟩
  | cons q p =>
    obtain ⟨b, row', hrow, hb, -⟩ := h
    exact ⟨b, row', hrow, hb⟩

theorem tableRow_first {left : Bool} (h : left = true ↔ Cuts [] pre) :
    TableRow [] pre p (like_first left p) := by
  induction p generalizing pre left with
  | nil => exact ⟨left, rfl, h⟩
  | cons q p ih =>
    refine ⟨left, _, rfl, h, ih ?_⟩
    rw [cuts_empty_concat, Bool.and_eq_true, decide_eq_true_eq, h]

/-- **One more character.** -/
theorem TableRow.next (hrow : TableRow s pre p row) {left : Bool}
    (h : left = true ↔ Cuts (s ++ [c]) pre) :
    TableRow (s ++ [c]) pre p (like_next c left row p) := by
  induction p generalizing pre left row with
  | nil =>
    obtain ⟨b, rfl, -⟩ := hrow
    exact ⟨left, rfl, h⟩
  | cons q p ih =>
    obtain ⟨diag, row', rfl, hdiag, hrow'⟩ := hrow
    obtain ⟨up, above, rfl, hup⟩ := hrow'.head
    refine ⟨left, _, rfl, h, ih hrow' ?_⟩
    by_cases hq : q = '%'
    · subst hq
      rw [if_pos rfl, cuts_percent, Bool.or_eq_true, hup, h]
    · rw [if_neg hq, cuts_single hq, ← hdiag]
      simp

theorem TableRow.getLastD (h : TableRow s pre p row) :
    row.getLastD false = true ↔ Cuts s (pre ++ p) := by
  induction p generalizing pre row with
  | nil =>
    obtain ⟨b, rfl, hb⟩ := h
    rwa [append_nil]
  | cons q p ih =>
    obtain ⟨b, row', rfl, -, hrow'⟩ := h
    obtain ⟨b', row'', rfl, -⟩ := hrow'.head
    have := ih hrow'
    rwa [append_assoc] at this

theorem tableRow_foldl (t : List Char) (h : TableRow s [] p row) :
    TableRow (s ++ t) [] p (t.foldl (fun dp c => like_next c false dp p) row) := by
  induction t generalizing s row with
  | nil => rwa [append_nil]
  | cons c t ih =>
    have hfirst : false = true ↔ Cuts (s ++ [c]) [] := by simp [Cuts]
    have := ih (h.next hfirst)
    rwa [append_assoc] at this

/-- **`LIKE`.** A text matches a pattern exactly if it can be cut into pieces that its characters
stand for. -/
theorem like_match_iff (s pattern : String) :
    like_match s pattern = true ↔ Cuts s.toList pattern.toList := by
  have hfirst : TableRow [] [] pattern.toList (like_first true pattern.toList) :=
    tableRow_first (by simp [Cuts])
  exact (tableRow_foldl s.toList hfirst).getLastD

end Oigrap.Sql
