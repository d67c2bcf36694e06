/-
Functions on text, as the standard library has them.

Offsets into a text count bytes, and a slice at an offset inside a character is a panic;
`split_at_byte` is `none` there.
-/
import Mathlib.Data.List.DropRight
import Mathlib.Data.List.Induction
import Mathlib.Data.List.TakeWhile
import Oigrap.Lib.Utf8

namespace Oigrap

open List

/-- `char::is_whitespace`. -/
def is_whitespace (c : Char) : Bool :=
  let n := c.toNat
  (0x09 ≤ n && n ≤ 0x0d) || n ∈ [0x20, 0x85, 0xa0, 0x1680, 0x2028, 0x2029, 0x202f, 0x205f, 0x3000] ||
    (0x2000 ≤ n && n ≤ 0x200a)

variable (s : Text) (pat : String)

def trim_start : Text := s.dropWhile is_whitespace

def trim_end : Text := s.rdropWhile is_whitespace

def trim : Text := trim_end (trim_start s)

def starts_with : Bool := pat.toList.isPrefixOf s

/-- What stands before the first occurrence of `pat`. -/
def before (pat : Text) : Text → Option Text
  | [] => if pat = [] then some [] else none
  | c :: s => if pat.isPrefixOf (c :: s) then some [] else (before pat s).map (c :: ·)

def contains : Bool := (before pat.toList s).isSome

/-- `str::find`, a byte offset. -/
def find : Option ℕ := (before pat.toList s).map fun p => (into_bytes p).length

/-- `(&s[..k], &s[k..])`. -/
def split_at_byte : Text → ℕ → Option (Text × Text)
  | s, 0 => some ([], s)
  | [], _ + 1 => none
  | c :: s, k + 1 =>
    let n := (String.utf8EncodeChar c).length
    if n ≤ k + 1 then (split_at_byte s (k + 1 - n)).map fun p => (c :: p.1, p.2) else none

/-! ## Trimming -/

section

variable {w : Text} (h : ∀ c ∈ w, is_whitespace c)
include h

theorem trim_append_left (s : Text) : trim (w ++ s) = trim s := by
  rw [trim, trim_start, dropWhile_append_of_pos h]
  rfl

theorem trim_end_append (s : Text) : trim_end (s ++ w) = trim_end s := by
  induction w using reverseRecOn with
  | nil => rw [append_nil]
  | append_singleton w c ih =>
    rw [← append_assoc, trim_end, rdropWhile_concat_pos _ _ _ (h c (by simp))]
    exact ih fun d hd => h d (by simp [hd])

theorem trim_append_right (s : Text) : trim (s ++ w) = trim s := by
  by_cases hs : ∀ c ∈ s, is_whitespace c
  · have hblank : ∀ t : Text, (∀ c ∈ t, is_whitespace c) → trim t = [] := by
      intro t ht
      rw [trim, trim_start, dropWhile_eq_nil_iff.2 ht]
      rfl
    rw [hblank s hs, hblank (s ++ w) fun c hc => (mem_append.1 hc).elim (hs c) (h c)]
  · rw [trim, trim_start, dropWhile_append, if_neg (by simpa using hs)]
    exact trim_end_append h _

end

/-- A text is its trimmed text between white space. -/
theorem trim_split :
    ∃ a b, (∀ c ∈ a, is_whitespace c) ∧ (∀ c ∈ b, is_whitespace c) ∧ s = a ++ (trim s ++ b) := by
  refine ⟨s.takeWhile is_whitespace, (trim_start s).rtakeWhile is_whitespace,
    fun c hc => mem_takeWhile_imp hc, fun c hc => mem_rtakeWhile_imp hc, ?_⟩
  rw [trim, trim_end, rdropWhile_append_rtakeWhile, trim_start, takeWhile_append_dropWhile]

theorem mem_trim {c : Char} {s : Text} (hc : is_whitespace c = false) : c ∈ trim s ↔ c ∈ s := by
  obtain ⟨a, b, ha, hb, hs⟩ := trim_split s
  have hnot : ∀ {t : Text}, (∀ d ∈ t, is_whitespace d) → c ∉ t := fun ht hm => by
    simp [ht c hm] at hc
  constructor
  · intro hm
    rw [hs]
    simp [hm]
  · intro hm
    rw [hs, mem_append, mem_append] at hm
    exact (hm.resolve_left (hnot ha)).resolve_right (hnot hb)

/-! ## Cutting a list -/

section

variable {α β : Type} {p q : α → Bool} {x : α}

theorem splitOnP_cons_of_neg (h : p x = false) (xs : List α) :
    (x :: xs).splitOnP p = (xs.splitOnP p).modifyHead (x :: ·) := by
  rw [splitOnP_cons_eq_if_modifyHead, h]
  rfl

theorem splitOnP_cons_of_pos (h : p x = true) (xs : List α) :
    (x :: xs).splitOnP p = [] :: xs.splitOnP p := by
  rw [splitOnP_cons_eq_if_modifyHead, if_pos h]

theorem splitOnP_congr {xs : List α} (h : ∀ x ∈ xs, p x = q x) : xs.splitOnP p = xs.splitOnP q := by
  induction xs with
  | nil => rfl
  | cons x xs ih =>
    obtain ⟨hx, hxs⟩ := forall_mem_cons.1 h
    rw [splitOnP_cons_eq_if_modifyHead, splitOnP_cons_eq_if_modifyHead, hx, ih hxs]

theorem splitOnP_map (f : β → α) (ys : List β) :
    (ys.map f).splitOnP p = (ys.splitOnP (p ∘ f)).map (List.map f) := by
  induction ys with
  | nil => rfl
  | cons y ys ih =>
    cases hy : p (f y) with
    | true => rw [map_cons, splitOnP_cons_of_pos hy, splitOnP_cons_of_pos (p := p ∘ f) hy, ih]; rfl
    | false =>
      rw [map_cons, splitOnP_cons_of_neg hy, splitOnP_cons_of_neg (p := p ∘ f) hy, ih]
      cases ys.splitOnP (p ∘ f) <;> rfl

theorem not_sep_of_mem_splitOnP {xs piece : List α} (h : piece ∈ xs.splitOnP p) (hx : x ∈ piece) :
    p x = false := by
  induction xs generalizing piece with
  | nil => rw [splitOnP_nil, mem_singleton] at h; simp [h] at hx
  | cons y ys ih =>
    cases hy : p y with
    | true =>
      rw [splitOnP_cons_of_pos hy] at h
      obtain rfl | h := mem_cons.1 h
      · simp at hx
      · exact ih h hx
    | false =>
      rw [splitOnP_cons_of_neg hy] at h
      obtain ⟨first, others, hs⟩ := exists_cons_of_ne_nil (splitOnP_ne_nil p ys)
      rw [hs, modifyHead_cons] at h
      obtain rfl | h := mem_cons.1 h
      · obtain rfl | hx := mem_cons.1 hx
        · exact hy
        · exact ih (hs ▸ mem_cons_self) hx
      · exact ih (hs ▸ mem_cons_of_mem _ h) hx

theorem exists_piece_of_mem {xs : List α} (hx : x ∈ xs) (h : p x = false) :
    ∃ piece ∈ xs.splitOnP p, x ∈ piece := by
  induction xs with
  | nil => simp at hx
  | cons y ys ih =>
    obtain ⟨first, others, hs⟩ := exists_cons_of_ne_nil (splitOnP_ne_nil p ys)
    cases hy : p y with
    | true =>
      obtain rfl | hx := mem_cons.1 hx
      · simp [hy] at h
      · obtain ⟨piece, hp, hxp⟩ := ih hx
        exact ⟨piece, by rw [splitOnP_cons_of_pos hy]; exact mem_cons_of_mem _ hp, hxp⟩
    | false =>
      rw [splitOnP_cons_of_neg hy, hs, modifyHead_cons]
      obtain rfl | hx := mem_cons.1 hx
      · exact ⟨_, mem_cons_self, mem_cons_self⟩
      · obtain ⟨piece, hp, hxp⟩ := ih hx
        rw [hs] at hp
        obtain rfl | hp := mem_cons.1 hp
        · exact ⟨_, mem_cons_self, mem_cons_of_mem _ hxp⟩
        · exact ⟨piece, mem_cons_of_mem _ hp, hxp⟩

theorem splitOnP_append_left {a : List α} (h : ∀ x ∈ a, p x = false) (xs : List α) :
    (a ++ xs).splitOnP p = (xs.splitOnP p).modifyHead (a ++ ·) := by
  induction a with
  | nil =>
    rw [nil_append]
    cases xs.splitOnP p <;> rfl
  | cons x a ih =>
    obtain ⟨hx, ha⟩ := forall_mem_cons.1 h
    rw [cons_append, splitOnP_cons_of_neg hx, ih ha]
    cases xs.splitOnP p <;> rfl

theorem splitOnP_append_right {b : List α} (h : ∀ x ∈ b, p x = false) (xs : List α) :
    ∃ init last, xs.splitOnP p = init ++ [last] ∧ (xs ++ b).splitOnP p = init ++ [last ++ b] := by
  induction xs with
  | nil =>
    have hb := splitOnP_append_left h []
    rw [append_nil, splitOnP_nil] at hb
    exact ⟨[], [], splitOnP_nil, by simpa using hb⟩
  | cons x xs ih =>
    obtain ⟨init, last, hxs, hxb⟩ := ih
    cases hx : p x with
    | true =>
      refine ⟨[] :: init, last, ?_, ?_⟩
      · rw [splitOnP_cons_of_pos hx, hxs]; rfl
      · rw [cons_append, splitOnP_cons_of_pos hx, hxb]; rfl
    | false =>
      rw [cons_append, splitOnP_cons_of_neg hx, splitOnP_cons_of_neg hx, hxs, hxb]
      cases init with
      | nil => exact ⟨[], x :: last, rfl, rfl⟩
      | cons y init => exact ⟨(x :: y) :: init, last, rfl, rfl⟩

end

end Oigrap
