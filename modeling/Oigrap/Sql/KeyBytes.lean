/-
The keys of the indexes: `Value::as_key_bytes` of `crates/sql/src/value.rs`.

The B+ tree compares keys as byte strings and never looks at the values. An integer has its
sign bit flipped and its most significant byte first, a text is its UTF-8 form.
-/
import Mathlib.Data.String.Basic
import Oigrap.Lib.Cursor
import Oigrap.Lib.Utf8
import Oigrap.Sql.Value
import Oigrap.Storage.BTree

namespace Oigrap

open Cursor Function List Storage

/-! ## Big-endian numbers -/

theorem be_bytes_succ (w n : ℕ) :
    be_bytes (w + 1) n = UInt8.ofNat (n / 256 ^ w) :: be_bytes w n := by
  induction w generalizing n with
  | zero => simp [be_bytes, ByteMem.le_bytes]
  | succ w ih =>
    have hstep : ∀ w, be_bytes (w + 1) n = be_bytes w (n / 256) ++ [UInt8.ofNat n] :=
      fun w => reverse_cons
    rw [hstep, ih, hstep, cons_append, Nat.div_div_eq_div_mul, Nat.pow_succ']

theorem be_bytes_lt {w x y : ℕ} (h : x % 256 ^ w < y % 256 ^ w) : be_bytes w x < be_bytes w y := by
  induction w with
  | zero => simp [Nat.mod_one] at h
  | succ w ih =>
    rw [Nat.pow_succ, Nat.mod_mul, Nat.mod_mul] at h
    rw [be_bytes_succ, be_bytes_succ, cons_lt_cons_iff, UInt8.lt_iff_toNat_lt, ← UInt8.toNat_inj,
      UInt8.toNat_ofNat', UInt8.toNat_ofNat']
    rcases lt_trichotomy (x / 256 ^ w % 256) (y / 256 ^ w % 256) with hlt | heq | hgt
    · exact .inl hlt
    · refine .inr ⟨heq, ih ?_⟩
      rw [heq] at h
      omega
    · have hy := Nat.mod_lt y (Nat.pow_pos (n := w) (by decide : 0 < 256))
      have hle := Nat.mul_le_mul_left (256 ^ w) hgt
      rw [Nat.mul_succ] at hle
      omega

/-- Flipping the sign bit moves the integers up to the natural numbers. -/
theorem flip_sign (n : Int64) :
    ((n.toUInt64 ^^^ (1 : UInt64) <<< 63).toNat : ℤ) = n.toInt + 2 ^ 63 := by
  have hlt : n.toUInt64.toNat < 2 ^ 64 := n.toUInt64.toNat_lt
  have hint : n.toInt = if 2 * n.toUInt64.toNat < 2 ^ 64 then (n.toUInt64.toNat : ℤ)
      else (n.toUInt64.toNat : ℤ) - 2 ^ 64 := BitVec.toInt_eq_toNat_cond ..
  have hxor : (n.toUInt64 ^^^ (1 : UInt64) <<< 63).toNat = n.toUInt64.toNat ^^^ 2 ^ 63 := rfl
  rw [hint, hxor]
  generalize n.toUInt64.toNat = a at *
  -- the bits below the sign stay
  have hlow : (a ^^^ 2 ^ 63) % 2 ^ 63 = a % 2 ^ 63 := by
    rw [Nat.xor_mod_two_pow, Nat.mod_self, Nat.xor_zero]
  have hhigh : (a ^^^ 2 ^ 63) / 2 ^ 63 = a / 2 ^ 63 ^^^ 1 := by
    rw [Nat.xor_div_two_pow, Nat.div_self (by decide)]
  obtain hsign | hsign : a / 2 ^ 63 = 0 ∨ a / 2 ^ 63 = 1 := by omega
  · rw [hsign, Nat.zero_xor] at hhigh
    omega
  · rw [hsign, Nat.xor_self] at hhigh
    omega

/-! ## UTF-8 -/

/-- The first byte at which two characters differ is in their order. -/
theorem encode_lt {c d : Char} (h : c < d) (s t : List UInt8) :
    String.utf8EncodeChar c ++ s < String.utf8EncodeChar d ++ t := by
  have hlt : c.val.toNat < d.val.toNat := h
  have hvalid : d.val.toNat < 0xd800 ∨ 0xdfff < d.val.toNat ∧ d.val.toNat < 0x110000 := d.valid
  rw [String.utf8EncodeChar.eq_def, String.utf8EncodeChar.eq_def]
  generalize c.val.toNat = v, d.val.toNat = w at *
  -- digits to the base 64, one after the other
  have hdigits : ∀ n : ℕ, n / 4096 = n / 64 / 64 ∧ n / 262144 = n / 64 / 64 / 64 := by omega
  simp only [hdigits]
  split_ifs <;> simp only [cons_append, nil_append, cons_lt_cons_iff, UInt8.lt_iff_toNat_lt,
    ← UInt8.toNat_inj, UInt8.toNat_ofNat'] <;> generalize (s < t) = P <;> omega

theorem into_bytes_lt {s t : Text} (h : s < t) : into_bytes s < into_bytes t := by
  induction h with
  | nil =>
    rw [into_bytes_cons]
    obtain ⟨b, bs, hb⟩ := exists_cons_of_ne_nil String.utf8EncodeChar_ne_nil
    rw [hb]
    exact .nil
  | rel h => exact encode_lt h _ _
  | cons _ ih => exact append_left_lt (α := UInt8) ih

/-! ## Values -/

namespace Sql

variable {F : Type}

def Value.as_key_bytes : Value F → Option (List UInt8)
  | .Int64 n => some (be_bytes 8 (n.toUInt64 ^^^ (1 : UInt64) <<< 63).toNat)
  | .Text s => some (into_bytes s.toList)
  | .Bool b => some [if b then 1 else 0]
  | _ => none

/-- How the tree compares two keys. -/
def key_cmp (k l : Key) : Ordering := if k < l then .lt else if k = l then .eq else .gt

/-- Both values have a key, and the tree compares the keys as the values compare. -/
def KeyOrdered (rt : Runtime F) (v w : Value F) : Prop :=
  ∃ k l : Key, v.as_key_bytes = some k ∧ w.as_key_bytes = some l
    ∧ v.partial_cmp rt w = some (key_cmp k l) ∧ (k = l → v = w)

/-- Values that are compared by `f` and whose keys are in that order. -/
theorem key_ordered {rt : Runtime F} {α β : Type} [LinearOrder β] {mk : α → Value F} {f : α → β}
    {key : α → Key} (hcmp : ∀ x y, (mk x).partial_cmp rt (mk y) = some (compare (f x) (f y)))
    (hkey : ∀ x, (mk x).as_key_bytes = some (key x)) (hf : Injective f)
    (h : ∀ x y, f x < f y → key x < key y) (x y : α) : KeyOrdered rt (mk x) (mk y) := by
  refine ⟨_, _, hkey x, hkey y, ?_⟩
  rw [hcmp, key_cmp]
  rcases lt_trichotomy (f x) (f y) with hlt | heq | hgt
  · have hlt' := h x y hlt
    rw [if_pos hlt', compare_lt_iff_lt.mpr hlt]
    exact ⟨rfl, fun he => absurd he hlt'.ne⟩
  · cases hf heq
    rw [if_neg (lt_irrefl _), if_pos rfl, compare_eq_iff_eq.mpr rfl]
    exact ⟨rfl, fun _ => rfl⟩
  · have hgt' := h y x hgt
    rw [if_neg hgt'.asymm, if_neg hgt'.ne', compare_gt_iff_gt.mpr hgt]
    exact ⟨rfl, fun he => absurd he hgt'.ne'⟩

/-- **The order of the keys is the order of the values.** -/
theorem key_order (rt : Runtime F) :
    (∀ m n, KeyOrdered rt (.Int64 m) (.Int64 n)) ∧ (∀ s t, KeyOrdered rt (.Text s) (.Text t))
      ∧ ∀ b c, KeyOrdered rt (.Bool b) (.Bool c) := by
  refine ⟨key_ordered (fun _ _ => rfl) (fun _ => rfl) (fun _ _ => Int64.toInt_inj.mp) ?_,
    key_ordered (fun _ _ => rfl) (fun _ => rfl) injective_id ?_,
    key_ordered (fun _ _ => rfl) (fun _ => rfl) injective_id (by decide)⟩
  · intro x y hlt
    have hx := flip_sign x
    have hy := flip_sign y
    have hbound := (y.toUInt64 ^^^ (1 : UInt64) <<< 63).toNat_lt
    exact be_bytes_lt (by omega)
  · exact fun s t hlt => into_bytes_lt (String.lt_iff_toList_lt.mp hlt)

end Sql

end Oigrap
