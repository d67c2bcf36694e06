/-
Text and its UTF-8 bytes.

Text is a list of characters; the two functions are the ones the standard library offers
on strings, on lists of bytes.
-/
import Mathlib.Data.List.Basic

namespace Oigrap

open List

abbrev Text := List Char

/-- `str::from_utf8`. -/
def from_utf8 (bytes : List UInt8) : Option Text :=
  (ByteArray.mk bytes.toArray).utf8Decode?.map Array.toList

/-- `String::into_bytes`. -/
def into_bytes (s : Text) : List UInt8 := s.flatMap String.utf8EncodeChar

theorem from_utf8_into_bytes (s : Text) : from_utf8 (into_bytes s) = some s := by
  have henc : ByteArray.mk (into_bytes s).toArray = s.utf8Encode :=
    ByteArray.ext (data_toByteArray).symm
  rw [from_utf8, henc, utf8Decode?_utf8Encode]
  rfl

/-! ## ASCII -/

@[simp] theorem into_bytes_nil : into_bytes [] = [] := rfl

theorem into_bytes_cons (c : Char) (s : Text) :
    into_bytes (c :: s) = String.utf8EncodeChar c ++ into_bytes s := flatMap_cons

theorem into_bytes_append (s t : Text) : into_bytes (s ++ t) = into_bytes s ++ into_bytes t :=
  flatMap_append

theorem encode_of_ascii {c : Char} (h : c.toNat < 0x80) : String.utf8EncodeChar c = [c.toUInt8] := by
  have hv : c.val.toNat ≤ 127 := Nat.le_of_lt_succ h
  rw [String.utf8EncodeChar.eq_def]
  simp only [if_pos hv, Char.toUInt8, cons.injEq, and_true]
  exact UInt8.toNat_inj.1 (UInt8.toNat_ofNat'.trans (UInt32.toNat_toUInt8 _).symm)

/-- Every byte of another character has its high bit set. -/
theorem le_of_mem_encode {c : Char} (h : 0x80 ≤ c.toNat) {b : UInt8}
    (hb : b ∈ String.utf8EncodeChar c) : 0x80 ≤ b.toNat := by
  have hv : ¬ c.val.toNat ≤ 127 := Nat.not_le.2 h
  rw [String.utf8EncodeChar.eq_def] at hb
  simp only [if_neg hv] at hb
  split at hb
  · simp only [mem_cons, not_mem_nil, or_false] at hb
    obtain rfl | rfl := hb <;> simp only [UInt8.toNat_ofNat'] <;> omega
  · split at hb
    · simp only [mem_cons, not_mem_nil, or_false] at hb
      obtain rfl | rfl | rfl := hb <;> simp only [UInt8.toNat_ofNat'] <;> omega
    · simp only [mem_cons, not_mem_nil, or_false] at hb
      obtain rfl | rfl | rfl | rfl := hb <;> simp only [UInt8.toNat_ofNat'] <;> omega

theorem toNat_ofUInt8 (b : UInt8) : (Char.ofUInt8 b).toNat = b.toNat := rfl

theorem ofUInt8_toUInt8 {c : Char} (h : c.toNat < 0x80) : Char.ofUInt8 c.toUInt8 = c := by
  refine Char.toNat_inj.1 ?_
  rw [toNat_ofUInt8]
  have hc : c.val.toNat < 0x80 := h
  simp only [Char.toUInt8, UInt32.toNat_toUInt8, Char.toNat]
  omega

theorem map_into_bytes {s : Text} (h : ∀ c ∈ s, c.toNat < 0x80) :
    (into_bytes s).map Char.ofUInt8 = s := by
  induction s with
  | nil => rfl
  | cons c s ih =>
    obtain ⟨hc, hs⟩ := forall_mem_cons.1 h
    rw [into_bytes_cons, encode_of_ascii hc, cons_append, nil_append, map_cons, ih hs,
      ofUInt8_toUInt8 hc]

theorem mem_of_mem_into_bytes {s : Text} {b : UInt8} (hb : b ∈ into_bytes s) (h : b.toNat < 0x80) :
    Char.ofUInt8 b ∈ s := by
  obtain ⟨c, hc, hbc⟩ := mem_flatMap.1 hb
  by_cases hlt : c.toNat < 0x80
  · rw [encode_of_ascii hlt, mem_singleton] at hbc
    rwa [hbc, ofUInt8_toUInt8 hlt]
  · exact absurd (le_of_mem_encode (Nat.le_of_not_lt hlt) hbc) (Nat.not_le.2 h)

end Oigrap
