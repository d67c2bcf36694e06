/-
Little-endian integers and byte-addressed memory.

Every on-disk structure of the engine is a run of little-endian integers laid over a
flat array of bytes, so this file settles the two facts all of them use: decoding an
encoded integer gives it back, and a write changes the range it covers and nothing
else. A memory is a total function from addresses to bytes; which addresses exist is
the business of whoever checks bounds, not of this file.
-/
import Mathlib.Algebra.Order.Ring.Nat
import Mathlib.Data.List.GetD
import Mathlib.Tactic.Ring

namespace ByteMem

open List

/-! ## Little-endian integers -/

/-- The `w` low bytes of `n`, least significant first. -/
def le_bytes : ℕ → ℕ → List UInt8
  | 0, _ => []
  | w + 1, n => UInt8.ofNat n :: le_bytes w (n / 256)

/-- The number a little-endian byte string denotes. -/
def le_nat : List UInt8 → ℕ
  | [] => 0
  | b :: bs => b.toNat + 256 * le_nat bs

@[simp] theorem length_le_bytes (w n : ℕ) : (le_bytes w n).length = w := by
  induction w generalizing n with
  | zero => rfl
  | succ w ih => rw [le_bytes, length_cons, ih]

/-- Decoding the `w`-byte encoding keeps the number modulo `256 ^ w`. -/
theorem le_nat_le_bytes (w n : ℕ) : le_nat (le_bytes w n) = n % 256 ^ w := by
  induction w generalizing n with
  | zero => simp [le_bytes, le_nat, Nat.mod_one]
  | succ w ih =>
    have hb : (UInt8.ofNat n).toNat = n % 256 := by simp
    rw [le_bytes, le_nat, ih, hb, Nat.pow_succ, mul_comm (256 ^ w) 256, Nat.mod_mul]

variable {w : ℕ} {m : ℕ → UInt8} {off len : ℕ} {bs : List UInt8} {off' : ℕ}

/-- **The codec round trip.** A number that fits `w` bytes survives them. -/
theorem le_nat_le_bytes_of_lt {n : ℕ} (h : n < 256 ^ w) : le_nat (le_bytes w n) = n := by
  rw [le_nat_le_bytes, Nat.mod_eq_of_lt h]

theorem le_nat_lt (bs : List UInt8) : le_nat bs < 256 ^ bs.length := by
  induction bs with
  | nil => simp [le_nat]
  | cons b bs ih =>
    have hb : b.toNat < 256 := b.toNat_lt
    rw [le_nat, length_cons, Nat.pow_succ]
    omega

/-! ## Slices of byte strings -/

/-- `bs[a..b]`, when it is in range. -/
def slice? (bs : List UInt8) (a b : ℕ) : Option (List UInt8) :=
  if a ≤ b ∧ b ≤ bs.length then some ((bs.drop a).take (b - a)) else none

/-- A slice past the front part of a concatenation is a slice of the rest. -/
theorem slice?_append_right {xs ys : List UInt8} {a b : ℕ} (h : xs.length ≤ a) (hab : a ≤ b) :
    slice? (xs ++ ys) a b = slice? ys (a - xs.length) (b - xs.length) := by
  unfold slice?
  have hdrop : (xs ++ ys).drop a = ys.drop (a - xs.length) := by
    rw [drop_append, drop_eq_nil_of_le h, nil_append]
  have hlen : b - xs.length - (a - xs.length) = b - a := by omega
  rw [hdrop, hlen, length_append]
  by_cases hb : b ≤ xs.length + ys.length
  · rw [if_pos ⟨hab, hb⟩, if_pos ⟨by omega, by omega⟩]
  · rw [if_neg (by omega), if_neg (by omega)]

/-- The front part of a concatenation is the slice of its own length. -/
theorem slice?_append_left (xs ys : List UInt8) : slice? (xs ++ ys) 0 xs.length = some xs := by
  unfold slice?
  rw [if_pos ⟨Nat.zero_le _, by rw [length_append]; omega⟩, drop_zero, Nat.sub_zero, take_left]

theorem slice?_self (xs : List UInt8) : slice? xs 0 xs.length = some xs := by
  have h := slice?_append_left xs []
  rwa [append_nil] at h

/-! ## Memory: reading and writing ranges -/

/-- The `len` bytes of `m` from address `off` on. -/
def read (m : ℕ → UInt8) (off len : ℕ) : List UInt8 :=
  (range len).map fun i => m (off + i)

/-- `m` with the bytes `bs` stored from address `off` on. -/
def write (m : ℕ → UInt8) (off : ℕ) (bs : List UInt8) : ℕ → UInt8 :=
  fun i => if off ≤ i ∧ i < off + bs.length then bs.getD (i - off) 0 else m i

@[simp] theorem length_read (m : ℕ → UInt8) (off len : ℕ) : (read m off len).length = len := by
  simp [read]

theorem getElem_read (m : ℕ → UInt8) (off len i : ℕ) (h : i < (read m off len).length) :
    (read m off len)[i] = m (off + i) := by
  simp [read]

theorem read_congr {m' : ℕ → UInt8} (h : ∀ i, i < len → m (off + i) = m' (off + i)) :
    read m off len = read m' off len := by
  refine map_congr_left (fun i hi => h i ?_)
  exact mem_range.mp hi

theorem write_of_not_mem {i : ℕ} (h : i < off ∨ off + bs.length ≤ i) : write m off bs i = m i := by
  rw [write, if_neg (by omega)]

@[simp] theorem write_nil (m : ℕ → UInt8) (off : ℕ) : write m off [] = m := by
  funext i
  exact write_of_not_mem (by simp only [length_nil]; omega)

/-- The frame rule: a read disjoint from the write sees the old memory. -/
theorem read_write_of_disjoint (h : off' + len ≤ off ∨ off + bs.length ≤ off') :
    read (write m off bs) off' len = read m off' len :=
  read_congr (fun i hi => write_of_not_mem (by omega))

theorem read_write_of_subset (h : off ≤ off') (h' : off' + len ≤ off + bs.length) :
    read (write m off bs) off' len = (bs.drop (off' - off)).take len := by
  refine ext_getElem ?_ ?_
  · rw [length_read, length_take, length_drop]; omega
  · intro i h1 h2
    rw [length_read] at h1
    rw [getElem_read, write, if_pos (by omega), getElem_take, getElem_drop,
      getD_eq_getElem _ _ (by omega)]
    congr 1
    omega

theorem read_write_self (m : ℕ → UInt8) (off : ℕ) (bs : List UInt8) :
    read (write m off bs) off bs.length = bs := by
  rw [read_write_of_subset (le_rfl) (le_rfl), Nat.sub_self, drop_zero, take_length]

theorem read_drop_take (m : ℕ → UInt8) {i n : ℕ} (h : i + n ≤ len) :
    ((read m off len).drop i).take n = read m (off + i) n := by
  refine ext_getElem ?_ ?_
  · rw [length_read, length_take, length_drop, length_read]; omega
  · intro j h1 h2
    rw [getElem_take, getElem_drop, getElem_read, getElem_read, add_assoc]

/-! ## Integer cells -/

/-- The `w`-byte little-endian integer stored at `off`. -/
def load (w : ℕ) (m : ℕ → UInt8) (off : ℕ) : ℕ := le_nat (read m off w)

/-- Store the `w` low bytes of `v` at `off`. -/
def store (w : ℕ) (m : ℕ → UInt8) (off v : ℕ) : ℕ → UInt8 := write m off (le_bytes w v)

theorem load_lt (w : ℕ) (m : ℕ → UInt8) (off : ℕ) : load w m off < 256 ^ w := by
  have h := le_nat_lt (read m off w)
  rwa [length_read] at h

theorem load_store_self {v : ℕ} (m : ℕ → UInt8) (off : ℕ) (h : v < 256 ^ w) :
    load w (store w m off v) off = v := by
  have hself := read_write_self m off (le_bytes w v)
  rw [length_le_bytes] at hself
  rw [load, store, hself, le_nat_le_bytes_of_lt h]

theorem load_store_of_disjoint {w' v : ℕ} (h : off' + w' ≤ off ∨ off + w ≤ off') :
    load w' (store w m off v) off' = load w' m off' := by
  rw [load, store, read_write_of_disjoint (by rw [length_le_bytes]; exact h), load]

theorem load_write_of_disjoint (h : off' + w ≤ off ∨ off + bs.length ≤ off') :
    load w (write m off bs) off' = load w m off' := by
  rw [load, read_write_of_disjoint h, load]

/-- A cell inside a copied block is the cell it was copied from. -/
theorem load_write_read {m' : ℕ → UInt8} {s n : ℕ} (h : off ≤ off') (h' : off' + w ≤ off + n) :
    load w (write m off (read m' s n)) off' = load w m' (s + (off' - off)) := by
  rw [load, read_write_of_subset h (by rw [length_read]; exact h'),
    read_drop_take m' (by omega), load]

theorem store_of_not_mem {v : ℕ} {i : ℕ} (h : i < off ∨ off + w ≤ i) : store w m off v i = m i := by
  rw [store, write_of_not_mem (by rw [length_le_bytes]; exact h)]

theorem read_store_of_disjoint {v : ℕ} (h : off' + len ≤ off ∨ off + w ≤ off') :
    read (store w m off v) off' len = read m off' len := by
  rw [store, read_write_of_disjoint (by rw [length_le_bytes]; exact h)]

end ByteMem
