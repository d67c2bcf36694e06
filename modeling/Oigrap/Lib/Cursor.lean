/-
Reading binary messages through a cursor.

A decoder walks over a byte string with a position that every read advances. The encoder
of the same message appends fields one after the other. What ties the two together is
`Reads`: wherever the bytes of a field stand in a message, the reader gives the field back
and moves to the byte after them. The rules below build `Reads` for a message from its
fields, so that a round trip is the composition of the round trips of its parts and what
follows the message does not matter.
-/
import Oigrap.Lib.Bytes

namespace Oigrap

open ByteMem List

/-- A reader: the bytes, the position, and the position after a successful read. -/
abbrev Cursor := ReaderT (List UInt8) (StateT ℕ Option)

namespace Cursor

variable {α β : Type}

/-- The next `n` bytes. -/
def take (n : ℕ) : Cursor (List UInt8) := fun data pos =>
  if pos + n ≤ data.length then some ((data.drop pos).take n, pos + n) else none

/-- A little-endian integer of `w` bytes. -/
def le (w : ℕ) : Cursor ℕ := le_nat <$> take w

/-- `n` in `w` bytes, most significant first. -/
def be_bytes (w n : ℕ) : List UInt8 := (le_bytes w n).reverse

/-- The number that big-endian bytes stand for. -/
def be_nat (bs : List UInt8) : ℕ := le_nat bs.reverse

/-- `count` reads in a row. -/
def many (r : Cursor α) : ℕ → Cursor (List α)
  | 0 => pure []
  | count + 1 => do
    let x ← r
    let xs ← many r count
    return x :: xs

/-- Wherever `bs` stands, `r` reads `x` from it and stops after it. -/
def Reads (r : Cursor α) (bs : List UInt8) (x : α) : Prop :=
  ∀ front rest, r (front ++ (bs ++ rest)) front.length = some (x, front.length + bs.length)

variable {r : Cursor α} {bs bs' : List UInt8} {x : α}

theorem reads_pure (x : α) : Reads (pure x) [] x := fun _ _ => rfl

/-- **Composition.** What is written in a row is read in a row. -/
theorem Reads.bind {f : α → Cursor β} {y : β} (h : Reads r bs x) (h' : Reads (f x) bs' y) :
    Reads (r >>= f) (bs ++ bs') y := by
  intro front rest
  have h1 := h front (bs' ++ rest)
  have h2 := h' (front ++ bs) rest
  rw [append_assoc, length_append, add_assoc] at h2
  rw [append_assoc, length_append]
  show (r _ front.length).bind (fun p => f p.1 _ p.2) = _
  rwa [h1]

theorem Reads.map {g : α → β} (h : Reads r bs x) : Reads (g <$> r) bs (g x) := by
  intro front rest
  show (r _ front.length).bind (fun p => some (g p.1, p.2)) = _
  rw [h front rest]
  rfl

/-- A message is read from the start of any string that begins with it. -/
theorem Reads.run (h : Reads r bs x) (rest : List UInt8) :
    r (bs ++ rest) 0 = some (x, bs.length) := by
  have h0 := h [] rest
  rwa [nil_append, length_nil, zero_add] at h0

theorem reads_take (bs : List UInt8) : Reads (take bs.length) bs bs := by
  intro front rest
  rw [take, if_pos (by simp only [length_append]; omega), drop_left, take_left]

theorem reads_le {w n : ℕ} (h : n < 256 ^ w) : Reads (le w) (le_bytes w n) n := by
  have ht := (reads_take (le_bytes w n)).map (g := le_nat)
  rwa [length_le_bytes, le_nat_le_bytes_of_lt h] at ht

@[simp] theorem length_be_bytes (w n : ℕ) : (be_bytes w n).length = w := by
  rw [be_bytes, length_reverse, length_le_bytes]

theorem be_nat_be_bytes {w n : ℕ} (h : n < 256 ^ w) : be_nat (be_bytes w n) = n := by
  rw [be_nat, be_bytes, reverse_reverse, le_nat_le_bytes_of_lt h]

theorem be_nat_lt (bs : List UInt8) : be_nat bs < 256 ^ bs.length := by
  have h := le_nat_lt bs.reverse
  rwa [length_reverse] at h

theorem le_bytes_le_nat (bs : List UInt8) : le_bytes bs.length (le_nat bs) = bs := by
  induction bs with
  | nil => rfl
  | cons b bs ih =>
    have hb : b.toNat < 256 := b.toNat_lt
    have hdiv : (b.toNat + 256 * le_nat bs) / 256 = le_nat bs := by omega
    have hmod : UInt8.ofNat (b.toNat + 256 * le_nat bs) = b := by
      rw [← UInt8.toNat_inj, UInt8.toNat_ofNat']
      omega
    rw [length_cons, le_nat, le_bytes, hdiv, ih, hmod]

/-- Every string of `w` bytes is the big-endian form of its number. -/
theorem be_bytes_be_nat (bs : List UInt8) : be_bytes bs.length (be_nat bs) = bs := by
  have h := le_bytes_le_nat bs.reverse
  rw [length_reverse] at h
  rw [be_bytes, be_nat, h, reverse_reverse]

/-- **Counted lists.** -/
theorem reads_many {enc : α → List UInt8} {xs : List α} (h : ∀ x ∈ xs, Reads r (enc x) x) :
    Reads (many r xs.length) (xs.flatMap enc) xs := by
  induction xs with
  | nil => exact reads_pure []
  | cons x xs ih =>
    have htail := ih fun y hy => h y (mem_cons_of_mem _ hy)
    have hrest := htail.bind (f := fun ys => pure (x :: ys)) (reads_pure (x :: xs))
    rw [append_nil] at hrest
    rw [flatMap_cons]
    exact (h x mem_cons_self).bind hrest

/-! ## Readers that never fail -/

/-- From every position with `P`, `r` succeeds and leaves a position with `Q`. -/
def Safe (P Q : List UInt8 → ℕ → Prop) (r : Cursor α) : Prop :=
  ∀ data pos, P data pos → ∃ x pos', r data pos = some (x, pos') ∧ Q data pos'

section

variable {P Q R : List UInt8 → ℕ → Prop}

theorem bind_apply (r : Cursor α) (f : α → Cursor β) (data : List UInt8) (pos : ℕ) :
    (r >>= f) data pos = (r data pos).bind fun p => f p.1 data p.2 := rfl

theorem safe_pure (x : α) : Safe P P (pure x) := fun _ pos h => ⟨x, pos, rfl, h⟩

theorem Safe.bind {f : α → Cursor β} (h : Safe P Q r) (h' : ∀ x, Safe Q R (f x)) :
    Safe P R (r >>= f) := by
  intro data pos hpos
  obtain ⟨x, pos', hx, hpos'⟩ := h data pos hpos
  obtain ⟨y, pos'', hy, hpos''⟩ := h' x data pos' hpos'
  refine ⟨y, pos'', ?_, hpos''⟩
  rwa [bind_apply, hx]

theorem Safe.map {g : α → β} (h : Safe P Q r) : Safe P Q (g <$> r) :=
  h.bind fun x => safe_pure (g x)

theorem Safe.many (h : Safe P P r) (count : ℕ) : Safe P P (many r count) := by
  induction count with
  | zero => exact safe_pure []
  | succ count ih => exact h.bind fun x => ih.bind fun xs => safe_pure (x :: xs)

end

end Cursor

end Oigrap
