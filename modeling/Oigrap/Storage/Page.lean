/-
`crates/storage/src/page.rs`: the 8 KB slotted page, byte for byte, and what its
operations do to the list of tuples it stores.

The page is modelled as the array of bytes the source has. Header fields are read and
written through little-endian cells at the source's offsets, the slot array grows up
from byte 48, tuple bytes grow down from `special`. An out-of-range slice and an integer
underflow are panics in the source and `Fault.panic` here; `Result::Err` is
`Fault.err`. The two are kept apart because "returns an error" and "aborts the process"
are different answers to a caller.

The second half is the refinement. `Slotted p slots` says that page `p` represents the
list `slots` of optional byte strings, and each operation gets one lemma saying what it
does to that list and that it leaves the rest of the page alone. Nothing above this file
looks at a byte again.
-/
import Oigrap.Lib.Bytes

/-- A computation that succeeds, step by step. -/
theorem Oigrap.bind_ok {ε α β : Type} {x : Except ε α} {f : α → Except ε β} {b : β}
    (h : x >>= f = .ok b) : ∃ a, x = .ok a ∧ f a = .ok b := by
  cases x with
  | error _ => cases h
  | ok a => exact ⟨a, rfl, h⟩

namespace Oigrap.Storage

open ByteMem List

/-! ## Errors -/

/-- `StorageError`. The payload of an I/O error is not modelled. -/
inductive StorageError where
  | Io
  | BufferFull
  | PageNotFound (page_id : ℕ)
  | PageNotPinned (page_id : ℕ)
  | InsufficientSpace (needed available : ℕ)
  | InvalidChecksum (page_id : ℕ)
  | SlotOutOfRange (slot_id : ℕ)
  | Corruption (msg : String)
  deriving DecidableEq, Repr

/-- How a call can fail to produce a value: an `Err`, a panic that unwinds the process, or
a loop that visits more pages than the file has and so never ends. -/
inductive Fault where
  | err (e : StorageError)
  | panic
  | diverge
  deriving DecidableEq, Repr

/-- `bs[a..b]`: a range outside the vector panics. -/
def slice (bs : List UInt8) (a b : ℕ) : Except Fault (List UInt8) :=
  match slice? bs a b with
  | some x => .ok x
  | none => .error .panic

/-- `uN::from_le_bytes(bs[off..off + w].try_into().unwrap())`. -/
def le_at (w : ℕ) (bs : List UInt8) (off : ℕ) : Except Fault ℕ :=
  match slice? bs off (off + w) with
  | some x => .ok (le_nat x)
  | none => .error .panic

/-! Reading the fields of a concatenation one after the other. -/

section Fields

variable {xs ys : List UInt8} {a b off k w n : ℕ}

theorem slice_skip (hx : xs.length = k) (h : k ≤ a) (hab : a ≤ b) :
    slice (xs ++ ys) a b = slice ys (a - k) (b - k) := by
  subst hx
  rw [slice, slice?_append_right h hab, slice]

theorem slice_here (ys : List UInt8) (hb : b = xs.length) : slice (xs ++ ys) 0 b = .ok xs := by
  rw [slice, hb, slice?_append_left]

theorem slice_all (hb : b = xs.length) : slice xs 0 b = .ok xs := by
  rw [slice, hb, slice?_self]

theorem le_at_skip (hx : xs.length = k) (h : k ≤ off) :
    le_at w (xs ++ ys) off = le_at w ys (off - k) := by
  subst hx
  rw [le_at, slice?_append_right h (Nat.le_add_right _ _), le_at, Nat.sub_add_comm h]

theorem le_at_past (h : k ≤ off) : le_at w (le_bytes k n ++ ys) off = le_at w ys (off - k) :=
  le_at_skip (length_le_bytes _ _) h

theorem slice_past (h : k ≤ a) (hab : a ≤ b) :
    slice (le_bytes k n ++ ys) a b = slice ys (a - k) (b - k) :=
  slice_skip (length_le_bytes _ _) h hab

theorem le_at_mod (w n : ℕ) (ys : List UInt8) :
    le_at w (le_bytes w n ++ ys) 0 = .ok (n % 256 ^ w) := by
  have h := slice?_append_left (le_bytes w n) ys
  rw [length_le_bytes] at h
  rw [le_at, zero_add, h, ← le_nat_le_bytes]

theorem le_at_here (ys : List UInt8) (hn : n < 256 ^ w) :
    le_at w (le_bytes w n ++ ys) 0 = .ok n := by
  rw [le_at_mod, Nat.mod_eq_of_lt hn]

theorem le_at_all (hn : n < 256 ^ w) : le_at w (le_bytes w n) 0 = .ok n := by
  have h := le_at_here [] hn
  rwa [append_nil] at h

end Fields

/-! ## Layout -/

abbrev PageId := ℕ

/-- `TupleId` of `heap.rs`: the physical location of a tuple. -/
structure TupleId where
  page_id : PageId
  slot_id : ℕ
  deriving DecidableEq, Repr

abbrev PAGE_SIZE : ℕ := 8192
abbrev PAGE_HEADER_SIZE : ℕ := 48
abbrev SLOT_SIZE : ℕ := 4
abbrev INVALID_PAGE_ID : PageId := 2 ^ 64 - 1

abbrev FLAG_HAS_FREE_LINES : ℕ := 0x0001

abbrev BTREE_SPECIAL_SIZE : ℕ := 28
abbrev BTREE_FLAG_IS_ROOT : ℕ := 0x0001
abbrev BTREE_FLAG_IS_LEAF : ℕ := 0x0002
abbrev BTREE_FLAG_IS_RIGHTMOST : ℕ := 0x0004

abbrev BT_FLAGS : ℕ := 0
abbrev BT_LEVEL : ℕ := 2
abbrev BT_PREV : ℕ := 4
abbrev BT_NEXT : ℕ := 12
abbrev BT_LEFTMOST : ℕ := 20

abbrev HDR_PAGE_ID : ℕ := 0
abbrev HDR_LSN : ℕ := 8
abbrev HDR_FLAGS : ℕ := 20
abbrev HDR_LOWER : ℕ := 22
abbrev HDR_UPPER : ℕ := 24
abbrev HDR_SPECIAL : ℕ := 26

/-- An 8 KB page. Only addresses below `PAGE_SIZE` are ever read or written. -/
structure Page where
  data : ℕ → UInt8

namespace Page

/-! ## Header accessors -/

variable (p : Page) (slot_id : ℕ) (pid id : PageId)

def page_id : ℕ := load 8 p.data HDR_PAGE_ID
def set_page_id (id : ℕ) : Page := ⟨store 8 p.data HDR_PAGE_ID id⟩
def lsn (p : Page) : ℕ := load 8 p.data HDR_LSN
def set_lsn (lsn : ℕ) : Page := ⟨store 8 p.data HDR_LSN lsn⟩
def flags (p : Page) : ℕ := load 2 p.data HDR_FLAGS
def set_flags (flags : ℕ) : Page := ⟨store 2 p.data HDR_FLAGS flags⟩
def lower (p : Page) : ℕ := load 2 p.data HDR_LOWER
def set_lower (lower : ℕ) : Page := ⟨store 2 p.data HDR_LOWER lower⟩
def upper (p : Page) : ℕ := load 2 p.data HDR_UPPER
def set_upper (upper : ℕ) : Page := ⟨store 2 p.data HDR_UPPER upper⟩
def special (p : Page) : ℕ := load 2 p.data HDR_SPECIAL
def set_special (special : ℕ) : Page := ⟨store 2 p.data HDR_SPECIAL special⟩

/-- The all-zero page `DiskManager::allocate_page` writes; it is not a `Page::new`. -/
def blank : Page := ⟨fun _ => 0⟩

/-- `Page::new`. -/
def new (page_id : PageId) : Page :=
  (((blank.set_page_id page_id).set_lower PAGE_HEADER_SIZE).set_upper PAGE_SIZE).set_special
    PAGE_SIZE

/-! ## Slots and free space -/

/-- `free_space`: the subtraction saturates. -/
def free_space : ℕ := p.upper - p.lower

/-- `slot_count`: `lower - PAGE_HEADER_SIZE` underflows on a page that was never initialised. -/
def slot_count : Except Fault ℕ :=
  if p.lower < PAGE_HEADER_SIZE then throw .panic
  else pure ((p.lower - PAGE_HEADER_SIZE) / SLOT_SIZE)

def read_slot : Except Fault (ℕ × ℕ) :=
  let base := PAGE_HEADER_SIZE + slot_id * SLOT_SIZE
  if base + SLOT_SIZE ≤ PAGE_SIZE then pure (load 2 p.data base, load 2 p.data (base + 2))
  else throw .panic

def is_slot_used : Except Fault Bool := do
  let n ← p.slot_count
  if slot_id ≥ n then return false
  let (offset, length) ← p.read_slot slot_id
  return offset != 0 || length != 0

def write_slot (offset length : ℕ) : Except Fault Page :=
  let base := PAGE_HEADER_SIZE + slot_id * SLOT_SIZE
  if base + SLOT_SIZE ≤ PAGE_SIZE then pure ⟨store 2 (store 2 p.data base offset) (base + 2) length⟩
  else throw .panic

/-- `copy_from_slice` into `self.data[off..off + bs.len()]`. -/
def copy_from_slice (off : ℕ) (bs : List UInt8) : Except Fault Page :=
  if off + bs.length ≤ PAGE_SIZE then pure ⟨write p.data off bs⟩ else throw .panic

/-- `self.data.copy_within(start..stop, dest)`. -/
def copy_within (start stop dest : ℕ) : Except Fault Page :=
  if start ≤ stop ∧ stop ≤ PAGE_SIZE ∧ dest + (stop - start) ≤ PAGE_SIZE then
    pure ⟨write p.data dest (read p.data start (stop - start))⟩
  else throw .panic

/-! ## Slotted page operations -/

/-- `insert_tuple`: the new tuple takes the slot after the last one. -/
def insert_tuple (data : List UInt8) : Except Fault (ℕ × Page) := do
  let needed := SLOT_SIZE + data.length
  let available := p.free_space
  if available < needed then throw (.err (.InsufficientSpace needed available))
  let new_upper := p.upper - data.length
  let p1 ← p.copy_from_slice new_upper data
  let slot_id ← p1.slot_count
  let p2 ← p1.write_slot slot_id new_upper data.length
  let p3 := p2.set_upper new_upper
  let p4 := p3.set_lower (p3.lower + SLOT_SIZE)
  return (slot_id, p4)

def get_tuple : Except Fault (List UInt8) := do
  let n ← p.slot_count
  if slot_id ≥ n then throw (.err (.SlotOutOfRange slot_id))
  let (offset, length) ← p.read_slot slot_id
  if offset = 0 ∧ length = 0 then throw (.err (.SlotOutOfRange slot_id))
  if offset + length ≤ PAGE_SIZE then return read p.data offset length else throw .panic

/-- `delete_tuple`: zero the slot; the tuple's bytes stay where they are. -/
def delete_tuple : Except Fault Page := do
  let n ← p.slot_count
  if slot_id ≥ n then throw (.err (.SlotOutOfRange slot_id))
  let p1 ← p.write_slot slot_id 0 0
  return p1.set_flags (p1.flags ||| FLAG_HAS_FREE_LINES)

/-- The shift inside `insert_tuple_at`: slots `pos..slot_count` move up by one. -/
def shift_slots (pos slot_count : ℕ) : Except Fault Page :=
  if pos < slot_count then
    p.copy_within (PAGE_HEADER_SIZE + pos * SLOT_SIZE) (PAGE_HEADER_SIZE + slot_count * SLOT_SIZE)
      (PAGE_HEADER_SIZE + pos * SLOT_SIZE + SLOT_SIZE)
  else pure p

/-- `insert_tuple_at`: like `insert_tuple`, but the slots from `pos` on move up by one. -/
def insert_tuple_at (pos : ℕ) (data : List UInt8) : Except Fault (ℕ × Page) := do
  let needed := SLOT_SIZE + data.length
  let available := p.free_space
  if available < needed then throw (.err (.InsufficientSpace needed available))
  let slot_count ← p.slot_count
  if pos > slot_count then throw (.err (.SlotOutOfRange pos))
  let new_upper := p.upper - data.length
  let p1 ← p.copy_from_slice new_upper data
  let p2 ← p1.shift_slots pos slot_count
  let p3 ← p2.write_slot pos new_upper data.length
  let p4 := p3.set_upper new_upper
  let p5 := p4.set_lower (p4.lower + SLOT_SIZE)
  return (pos, p5)

/-- `clear_tuples`: header and special space survive. -/
def clear_tuples : Except Fault Page := do
  let sp := p.special
  if sp < PAGE_HEADER_SIZE then throw .panic
  let p1 ← p.copy_from_slice PAGE_HEADER_SIZE (replicate (sp - PAGE_HEADER_SIZE) 0)
  let p2 := p1.set_lower PAGE_HEADER_SIZE
  return p2.set_upper p2.special

/-! ## B+ tree node methods -/

/-- A cell of the special space, bounds-checked because `special` is a stored value. -/
def special_get (w : ℕ) (p : Page) (off : ℕ) : Except Fault ℕ :=
  if p.special + off + w ≤ PAGE_SIZE then pure (load w p.data (p.special + off)) else throw .panic

def special_put (w : ℕ) (p : Page) (off v : ℕ) : Except Fault Page :=
  if p.special + off + w ≤ PAGE_SIZE then pure ⟨store w p.data (p.special + off) v⟩
  else throw .panic

def btree_flags : Except Fault ℕ := special_get 2 p BT_FLAGS
def set_btree_flags (f : ℕ) : Except Fault Page := special_put 2 p BT_FLAGS f
def btree_level : Except Fault ℕ := special_get 2 p BT_LEVEL
def set_btree_level (level : ℕ) : Except Fault Page := special_put 2 p BT_LEVEL level
def set_btree_prev_page : Except Fault Page := special_put 8 p BT_PREV pid
def btree_next_page : Except Fault PageId := special_get 8 p BT_NEXT
def set_btree_next_page : Except Fault Page := special_put 8 p BT_NEXT pid
def btree_leftmost_child : Except Fault PageId := special_get 8 p BT_LEFTMOST
def set_btree_leftmost_child : Except Fault Page :=
  special_put 8 p BT_LEFTMOST pid

/-- `init_btree_page`. -/
def init_btree_page (is_leaf is_root : Bool) : Page :=
  let sp := PAGE_SIZE - BTREE_SPECIAL_SIZE
  let p1 := ((p.set_special sp).set_upper sp).set_lower PAGE_HEADER_SIZE
  let flags := (if is_root then BTREE_FLAG_IS_ROOT else 0)
    ||| (if is_leaf then BTREE_FLAG_IS_LEAF else 0) ||| BTREE_FLAG_IS_RIGHTMOST
  let d1 := store 2 p1.data (sp + BT_FLAGS) flags
  let d2 := store 2 d1 (sp + BT_LEVEL) 0
  let d3 := store 8 d2 (sp + BT_PREV) INVALID_PAGE_ID
  let d4 := store 8 d3 (sp + BT_NEXT) INVALID_PAGE_ID
  ⟨store 8 d4 (sp + BT_LEFTMOST) INVALID_PAGE_ID⟩

/-! ## The refinement: a page represents a list of optional tuples -/

/-- What slot `i` of `p` stores: a zeroed slot is free, a used one names its bytes. -/
def SlotHolds (i : ℕ) : Option (List UInt8) → Prop
  | none => load 2 p.data (48 + 4 * i) = 0 ∧ load 2 p.data (48 + 4 * i + 2) = 0
  | some bs => ∃ off, load 2 p.data (48 + 4 * i) = off ∧ load 2 p.data (48 + 4 * i + 2) = bs.length
      ∧ p.upper ≤ off ∧ off + bs.length ≤ p.special ∧ read p.data off bs.length = bs

/-- `p` is a well-formed page that represents `slots`: the slot array is exactly as long as
the list, the three watermarks are in order, and every slot holds what the list says. -/
structure Slotted (p : Page) (slots : List (Option (List UInt8))) : Prop where
  lower_eq : p.lower = 48 + 4 * slots.length
  lower_le : p.lower ≤ p.upper
  upper_le : p.upper ≤ p.special
  special_le : p.special ≤ PAGE_SIZE
  holds : ∀ i (h : i < slots.length), SlotHolds p i slots[i]

theorem Slotted.layout {p : Page} {slots : List (Option (List UInt8))} (h : Slotted p slots) :
    p.lower = 48 + 4 * slots.length ∧ p.lower ≤ p.upper ∧ p.upper ≤ p.special
      ∧ p.special ≤ PAGE_SIZE ∧ p.free_space = p.upper - p.lower :=
  ⟨h.lower_eq, h.lower_le, h.upper_le, h.special_le, rfl⟩

/-- `q` agrees with `p` outside the slot array, the free space and the two watermarks:
the identity, the LSN, the flags, `special` and everything from `special` on. -/
structure SameFrame (p q : Page) : Prop where
  head : ∀ i, i < 22 → q.data i = p.data i
  mid : ∀ i, 26 ≤ i → i < 48 → q.data i = p.data i
  tail : ∀ i, p.special ≤ i → q.data i = p.data i

theorem load_congr {w off : ℕ} {p q : Page} (h : ∀ i, off ≤ i → i < off + w → q.data i = p.data i) :
    load w q.data off = load w p.data off := by
  rw [load, load, read_congr (fun i hi => h (off + i) (by omega) (by omega))]

/-- A tuple that is still there is found in slot `i` of `q` if its cells were moved there. -/
theorem SlotHolds.move {p q : Page} {i j : ℕ} {o : Option (List UInt8)} (h : SlotHolds p j o)
    (h0 : load 2 q.data (48 + 4 * i) = load 2 p.data (48 + 4 * j))
    (h2 : load 2 q.data (48 + 4 * i + 2) = load 2 p.data (48 + 4 * j + 2))
    (hup : q.upper ≤ p.upper) (hsp : q.special = p.special)
    (hread : ∀ off len, p.upper ≤ off → off + len ≤ p.special →
      read q.data off len = read p.data off len) : SlotHolds q i o := by
  cases o with
  | none => exact ⟨h0.trans h.1, h2.trans h.2⟩
  | some bs =>
    obtain ⟨off, e1, e2, e3, e4, e5⟩ := h
    exact ⟨off, h0.trans e1, h2.trans e2, hup.trans e3, e4.trans hsp.ge,
      (hread off _ e3 e4).trans e5⟩

theorem SameFrame.special_eq {p q : Page} (h : SameFrame p q) : q.special = p.special :=
  load_congr (fun i h1 h2 => h.mid i (by simpa [HDR_SPECIAL] using h1)
    (by simp [HDR_SPECIAL] at h2; omega))

theorem SameFrame.lsn_eq {p q : Page} (h : SameFrame p q) : q.lsn = p.lsn :=
  load_congr (fun i _ h2 => h.head i (by simp [HDR_LSN] at h2; omega))

variable {slots : List (Option (List UInt8))}

section Reads

variable {p : Page}

section

variable (h : Slotted p slots)
include h

theorem slot_count_eq : p.slot_count = .ok slots.length := by
  have hl := h.lower_eq
  rw [slot_count, if_neg (by lia), hl, Nat.add_sub_cancel_left, Nat.mul_div_cancel_left _ (by lia)]
  rfl

variable {i : ℕ}

theorem slot_in_page (hi : i < slots.length) :
    PAGE_HEADER_SIZE + i * SLOT_SIZE + SLOT_SIZE ≤ PAGE_SIZE := by
  obtain ⟨h1, h2, h3, h4, -⟩ := h.layout
  lia

theorem read_slot_eq (hi : i < slots.length) :
    p.read_slot i = .ok (load 2 p.data (48 + 4 * i), load 2 p.data (48 + 4 * i + 2)) := by
  rw [read_slot, if_pos (slot_in_page h hi), mul_comm i SLOT_SIZE]
  rfl

theorem is_slot_used_eq (i : ℕ) : p.is_slot_used i = .ok (slots[i]?.join.isSome) := by
  rw [is_slot_used, slot_count_eq h]
  simp only [bind, Except.bind]
  by_cases hi : i < slots.length
  · rw [if_neg (by omega), read_slot_eq h hi, getElem?_eq_getElem hi]
    have hh := h.holds i hi
    cases hs : slots[i] with
    | none =>
      rw [hs] at hh
      simp [hh.1, hh.2, pure, Except.pure]
    | some bs =>
      rw [hs] at hh
      obtain ⟨off, h1, h2, h3, -, -⟩ := hh
      have hoff : off ≠ 0 := by
        have := h.lower_eq
        have := h.lower_le
        omega
      simp [h1, hoff, pure, Except.pure]
  · rw [if_pos (by omega), getElem?_eq_none (by omega)]
    rfl

theorem get_tuple_some {bs : List UInt8} (hs : slots[i]? = some (some bs)) :
    p.get_tuple i = .ok bs := by
  obtain ⟨hi, hsi⟩ := List.getElem?_eq_some_iff.mp hs
  have hh := h.holds i hi
  rw [hsi] at hh
  obtain ⟨off, h1, h2, h3, h4, h5⟩ := hh
  have hoff : off ≠ 0 := by
    have := h.lower_eq
    have := h.lower_le
    omega
  have hsp := h.special_le
  rw [get_tuple, slot_count_eq h]
  simp only [bind, Except.bind]
  rw [if_neg (by omega), read_slot_eq h hi]
  simp only [pure, Except.pure, h1, h2]
  rw [if_neg (by omega), if_pos (by omega), h5]

theorem get_tuple_none (hs : slots[i]?.join = none) :
    p.get_tuple i = .error (.err (.SlotOutOfRange i)) := by
  rw [get_tuple, slot_count_eq h]
  simp only [bind, Except.bind]
  by_cases hi : i < slots.length
  · rw [getElem?_eq_getElem hi] at hs
    have hh := h.holds i hi
    have hn : slots[i] = none := by simpa using hs
    rw [hn] at hh
    rw [if_neg (by omega), read_slot_eq h hi]
    simp [hh.1, hh.2, throw, throwThe, MonadExceptOf.throw]
  · rw [if_pos (by omega)]
    rfl

end

end Reads

/-! ## What the writing operations do

`insert_tuple` and `insert_tuple_at` build the same page once the slot index is fixed, so
both are first reduced to `inserted` and the argument about bytes is made once, there. -/

/-- `p` with `bs` stored below `upper` and a slot for it opened at `pos`; `n` is the number
of slots before the insertion. -/
def inserted (n pos : ℕ) (bs : List UInt8) : Page :=
  let nu := p.upper - bs.length
  let d1 := write p.data nu bs
  let d2 := write d1 (48 + 4 * pos + 4) (read d1 (48 + 4 * pos) (4 * (n - pos)))
  let d3 := store 2 (store 2 d2 (48 + 4 * pos) nu) (48 + 4 * pos + 2) bs.length
  ⟨store 2 (store 2 d3 24 nu) 22 (p.lower + 4)⟩

section Insert

variable {p : Page} {bs : List UInt8} {pos : ℕ}

theorem insert_tuple_full (hroom : p.free_space < 4 + bs.length) :
    p.insert_tuple bs = .error (.err (.InsufficientSpace (4 + bs.length) p.free_space)) := by
  rw [insert_tuple, if_pos (show p.free_space < SLOT_SIZE + bs.length from hroom)]
  rfl

variable (h : Slotted p slots) (hpos : pos ≤ slots.length) (hroom : 4 + bs.length ≤ p.free_space)
include h

theorem inserted_upper :
    (inserted p slots.length pos bs).upper = p.upper - bs.length := by
  have hus := h.upper_le
  have hsp := h.special_le
  rw [upper, inserted, load_store_of_disjoint (by lia)]
  exact load_store_self _ _ (by lia)

theorem inserted_lower :
    (inserted p slots.length pos bs).lower = p.lower + 4 := by
  obtain ⟨-, hlu, hus, hsp, -⟩ := h.layout
  exact load_store_self _ _ (by lia)

include hroom

section Image

include hpos

theorem insert_tuple_at_eq :
    p.insert_tuple_at pos bs = .ok (pos, inserted p slots.length pos bs) := by
  obtain ⟨hl, hlu, hus, hsp, hfs⟩ := h.layout
  have hw : ∀ d : ℕ → UInt8, (⟨d⟩ : Page).write_slot pos (p.upper - bs.length) bs.length
      = .ok ⟨store 2 (store 2 d (48 + 4 * pos) (p.upper - bs.length)) (48 + 4 * pos + 2)
          bs.length⟩ := by
    intro d
    rw [write_slot, if_pos (by lia), mul_comm pos SLOT_SIZE]
    rfl
  -- shifting an empty suffix is the identity, so the source's two branches agree
  have hshift : ∀ d : ℕ → UInt8, (⟨d⟩ : Page).shift_slots pos slots.length
      = .ok ⟨write d (48 + 4 * pos + 4)
          (ByteMem.read d (48 + 4 * pos) (4 * (slots.length - pos)))⟩ := by
    intro d
    rw [shift_slots]
    by_cases hlt : pos < slots.length
    · have hlen : 48 + slots.length * 4 - (48 + pos * 4) = 4 * (slots.length - pos) := by omega
      rw [if_pos hlt, copy_within, if_pos (by lia), hlen, mul_comm pos SLOT_SIZE]
      rfl
    · have h0 : slots.length - pos = 0 := by omega
      rw [if_neg hlt, h0]
      simp [ByteMem.read, pure, Except.pure]
  rw [insert_tuple_at]
  simp only [bind, Except.bind]
  rw [if_neg (by lia), slot_count_eq h]
  simp only
  rw [if_neg (by omega), copy_from_slice, if_pos (by lia)]
  simp only [pure, Except.pure, hshift, hw, set_upper, set_lower, lower, inserted]
  simp (disch := lia) only [load_store_of_disjoint, load_write_of_disjoint]

theorem inserted_frame : SameFrame p (inserted p slots.length pos bs) := by
  obtain ⟨hl, hlu, hus, -, hfs⟩ := h.layout
  refine ⟨fun i hi => ?_, fun i h1 h2 => ?_, fun i hi => ?_⟩
  all_goals
    simp only [inserted]
    rw [store_of_not_mem (by omega), store_of_not_mem (by omega), store_of_not_mem (by omega),
      store_of_not_mem (by omega), write_of_not_mem (by rw [length_read]; omega),
      write_of_not_mem (by omega)]

/-- The slot array after the insertion: unchanged below `pos`, shifted above it. -/
theorem inserted_cell {i k : ℕ} (hi : i ≤ slots.length) (hk : k = 0 ∨ k = 2) :
    load 2 (inserted p slots.length pos bs).data (48 + 4 * i + k)
      = if i < pos then load 2 p.data (48 + 4 * i + k)
        else if i = pos then (if k = 0 then p.upper - bs.length else bs.length)
        else load 2 p.data (48 + 4 * (i - 1) + k) := by
  obtain ⟨hl, hlu, hus, hsp, hfs⟩ := h.layout
  split
  · simp only [inserted]
    simp (disch := omega) only [load_store_of_disjoint, load_write_of_disjoint]
  · by_cases heq : i = pos
    · subst heq
      rw [if_pos rfl]
      simp only [inserted]
      simp (disch := omega) only [load_store_of_disjoint]
      rcases hk with rfl | rfl
      · rw [load_store_of_disjoint (by omega), if_pos rfl]
        exact load_store_self _ _ (by lia)
      · exact load_store_self _ _ (by lia)
    · rw [if_neg heq]
      simp (disch := omega) only [inserted, load_store_of_disjoint]
      rw [load_write_read (by omega) (by omega), load_write_of_disjoint (by omega)]
      congr 1
      omega

theorem inserted_read_old {off len : ℕ} (hoff : p.upper ≤ off) :
    ByteMem.read (inserted p slots.length pos bs).data off len = ByteMem.read p.data off len := by
  obtain ⟨hl, hlu, -, -, hfs⟩ := h.layout
  simp (disch := first | omega | (rw [length_read]; omega)) only [inserted, read_store_of_disjoint,
    read_write_of_disjoint]

theorem inserted_read_new :
    ByteMem.read (inserted p slots.length pos bs).data (p.upper - bs.length) bs.length = bs := by
  obtain ⟨hl, hlu, -, -, hfs⟩ := h.layout
  simp (disch := omega) only [inserted, read_store_of_disjoint]
  rw [read_write_of_disjoint (by rw [length_read]; omega), read_write_self]

theorem inserted_holds_old {i j : ℕ} {o : Option (List UInt8)} (hj : SlotHolds p j o)
    (hcell : ∀ k, k = 0 ∨ k = 2 → load 2 (inserted p slots.length pos bs).data (48 + 4 * i + k)
      = load 2 p.data (48 + 4 * j + k)) : SlotHolds (inserted p slots.length pos bs) i o :=
  hj.move (hcell 0 (.inl rfl)) (hcell 2 (.inr rfl)) ((inserted_upper h).trans_le (Nat.sub_le _ _))
    (inserted_frame h hpos hroom).special_eq fun _ _ hoff _ => inserted_read_old h hpos hroom hoff

/-- **Insertion.** The list gains the tuple at `pos`. -/
theorem inserted_slotted :
    Slotted (inserted p slots.length pos bs) (slots.insertIdx pos (some bs)) := by
  obtain ⟨hl, hlu, hus, hsp, hfs⟩ := h.layout
  have hlen : (slots.insertIdx pos (some bs)).length = slots.length + 1 :=
    length_insertIdx_of_le_length hpos _
  refine ⟨?_, ?_, ?_, ?_, ?_⟩
  · rw [inserted_lower h, hlen]; omega
  · rw [inserted_lower h, inserted_upper h]; omega
  · rw [inserted_upper h, (inserted_frame h hpos hroom).special_eq]; omega
  · rw [(inserted_frame h hpos hroom).special_eq]; exact hsp
  · intro i hi
    have hi' : i ≤ slots.length := by omega
    rw [getElem_insertIdx]
    by_cases hlt : i < pos
    · rw [dif_pos hlt]
      refine inserted_holds_old h hpos hroom (h.holds i (by omega)) (fun k hk => ?_)
      rw [inserted_cell h hpos hroom hi' hk, if_pos hlt]
    · rw [dif_neg hlt]
      by_cases heq : i = pos
      · rw [dif_pos heq]
        have c0 := inserted_cell h hpos hroom hi' (.inl rfl)
        have c2 := inserted_cell h hpos hroom hi' (.inr rfl)
        rw [if_neg hlt, if_pos heq, if_pos rfl, add_zero] at c0
        rw [if_neg hlt, if_pos heq, if_neg (by omega)] at c2
        refine ⟨p.upper - bs.length, c0, c2, ?_, ?_, inserted_read_new h hpos hroom⟩
        · rw [inserted_upper h]
        · rw [(inserted_frame h hpos hroom).special_eq]; omega
      · rw [dif_neg heq]
        refine inserted_holds_old h hpos hroom (h.holds (i - 1) (by omega)) (fun k hk => ?_)
        rw [inserted_cell h hpos hroom hi' hk, if_neg hlt, if_neg heq]

theorem insert_tuple_at_spec :
    ∃ q, p.insert_tuple_at pos bs = .ok (pos, q) ∧ Slotted q (slots.insertIdx pos (some bs))
      ∧ q.free_space = p.free_space - (4 + bs.length) ∧ SameFrame p q := by
  refine ⟨_, insert_tuple_at_eq h hpos hroom, inserted_slotted h hpos hroom, ?_,
    inserted_frame h hpos hroom⟩
  rw [free_space, inserted_upper h, inserted_lower h, free_space]
  omega

end Image

theorem insert_tuple_eq :
    p.insert_tuple bs = .ok (slots.length, inserted p slots.length slots.length bs) := by
  have hat := insert_tuple_at_eq h (Nat.le_refl slots.length) hroom
  obtain ⟨hl, hlu, hus, hsp, hfs⟩ := h.layout
  rw [← hat, insert_tuple, insert_tuple_at]
  simp only [bind, Except.bind]
  rw [if_neg (by lia), if_neg (by lia), slot_count_eq h]
  simp only
  rw [if_neg (by omega), copy_from_slice, if_pos (by lia)]
  have hsc : (⟨write p.data (p.upper - bs.length) bs⟩ : Page).slot_count = p.slot_count := by
    have hlow : (⟨write p.data (p.upper - bs.length) bs⟩ : Page).lower = p.lower := by
      rw [lower, load_write_of_disjoint (by lia)]
      rfl
    rw [slot_count, slot_count, hlow]
  have hns : (⟨write p.data (p.upper - bs.length) bs⟩ : Page).shift_slots slots.length slots.length
      = .ok ⟨write p.data (p.upper - bs.length) bs⟩ := by
    rw [shift_slots, if_neg (lt_irrefl _)]
    rfl
  simp only [pure, Except.pure, hsc, slot_count_eq h, hns]

theorem insert_tuple_spec :
    ∃ q, p.insert_tuple bs = .ok (slots.length, q) ∧ Slotted q (slots ++ [some bs])
      ∧ q.free_space = p.free_space - (4 + bs.length) ∧ SameFrame p q := by
  refine ⟨_, insert_tuple_eq h hroom, ?_, ?_, inserted_frame h (le_rfl) hroom⟩
  · have hs := inserted_slotted h (le_rfl) hroom
    rwa [insertIdx_length_self] at hs
  · rw [free_space, inserted_upper h, inserted_lower h, free_space]
    omega

end Insert

/-! ## Operations that leave the tuples alone -/

section Frame

variable {p q : Page}

theorem lsn_set_lsn {lsn : ℕ} (h : lsn < 2 ^ 64) : (p.set_lsn lsn).lsn = lsn :=
  load_store_self _ _ (by norm_num at h ⊢; exact h)

/-- `p` with slot `i` zeroed. -/
def deleted (p : Page) (i : ℕ) : Page :=
  ⟨store 2 (store 2 (store 2 p.data (48 + 4 * i) 0) (48 + 4 * i + 2) 0) HDR_FLAGS
    (p.flags ||| FLAG_HAS_FREE_LINES)⟩

theorem deleted_data {i j : ℕ} (hj : j < 20 ∨ 22 ≤ j ∧ (j < 48 + 4 * i ∨ 48 + 4 * i + 4 ≤ j)) :
    (p.deleted i).data j = p.data j := by
  simp only [deleted]
  rw [store_of_not_mem (by lia), store_of_not_mem (by lia), store_of_not_mem (by lia)]

/-- Three watermarks in order and no slots: the page represents the empty list. -/
theorem slotted_nil {p : Page} {sp : ℕ} (hl : p.lower = 48) (hu : p.upper = sp)
    (hs : p.special = sp) (h1 : 48 ≤ sp) (h2 : sp ≤ PAGE_SIZE) : Slotted p [] := by
  refine ⟨hl, by rw [hl, hu]; exact h1, by rw [hu, hs], by rw [hs]; exact h2, ?_⟩
  intro i hi
  exact absurd hi (Nat.not_lt_zero _)

/-- `p` without its tuples. -/
def cleared (p : Page) : Page :=
  ⟨store 2 (store 2 (write p.data 48 (replicate (p.special - 48) 0)) 22 48) 24 p.special⟩

variable (h : Slotted p slots)
include h

theorem Slotted.special_ge : 48 ≤ p.special := by
  obtain ⟨h1, h2, h3, -, -⟩ := h.layout
  omega

/-- A page whose watermarks and tuples are those of `p`, and each of whose slots is that of `p`
or holds what the new list says. -/
theorem Slotted.rewrite {slots' : List (Option (List UInt8))} (hlen : slots'.length = slots.length)
    (hq : ∀ i, 22 ≤ i → i < 28 ∨ p.upper ≤ i → i < p.special → q.data i = p.data i)
    (hslot : ∀ i (hi : i < slots'.length), SlotHolds q i slots'[i] ∨ slots'[i] = slots[i] ∧
      ∀ j, 48 + 4 * i ≤ j → j < 48 + 4 * i + 4 → q.data j = p.data j) :
    Slotted q slots' ∧ q.free_space = p.free_space ∧ q.special = p.special := by
  obtain ⟨hl, hlu, hus, hps, -⟩ := h.layout
  have hlow : q.lower = p.lower := load_congr fun i h1 h2 => hq i h1 (.inl (by lia)) (by lia)
  have hup : q.upper = p.upper := load_congr fun i h1 h2 => hq i (by lia) (.inl (by lia)) (by lia)
  have hspec : q.special = p.special :=
    load_congr fun i h1 h2 => hq i (by lia) (.inl (by lia)) (by lia)
  refine ⟨⟨by rw [hlow, hl, hlen], by rw [hlow, hup]; exact hlu, by rw [hup, hspec]; exact hus,
    by rw [hspec]; exact hps, fun i hi => ?_⟩, by rw [free_space, free_space, hlow, hup], hspec⟩
  obtain hnew | ⟨hsame, hcell⟩ := hslot i hi
  · exact hnew
  · rw [hsame]
    refine (h.holds i (hlen ▸ hi)).move (load_congr fun j h1 h2 => hcell j h1 (by lia))
      (load_congr fun j h1 h2 => hcell j (by lia) (by lia)) hup.le hspec fun off len h1 h2 => ?_
    exact read_congr fun j hj => hq _ (by lia) (.inr (by lia)) (by lia)

/-- The represented list only depends on the watermarks and on the bytes between the
header and the special space. -/
theorem Slotted.congr (hq : ∀ i, 22 ≤ i → i < p.special → q.data i = p.data i) :
    Slotted q slots ∧ q.free_space = p.free_space ∧ q.special = p.special := by
  obtain ⟨hl, hlu, hus, -, -⟩ := h.layout
  exact h.rewrite rfl (fun i h1 _ => hq i h1) fun i hi =>
    .inr ⟨rfl, fun j h1 h2 => hq j (by lia) (by lia)⟩

theorem set_lsn_slotted (lsn : ℕ) :
    Slotted (p.set_lsn lsn) slots ∧ (p.set_lsn lsn).free_space = p.free_space :=
  let hc := h.congr (q := p.set_lsn lsn) (fun i h1 _ => store_of_not_mem (by lia))
  ⟨hc.1, hc.2.1⟩

theorem delete_tuple_eq {i : ℕ} (hi : i < slots.length) :
    p.delete_tuple i = .ok (p.deleted i) := by
  rw [delete_tuple, slot_count_eq h]
  simp only [bind, Except.bind]
  rw [if_neg (by omega), write_slot, if_pos (slot_in_page h hi), mul_comm i SLOT_SIZE]
  simp only [pure, Except.pure, set_flags, flags]
  rw [load_store_of_disjoint (by lia), load_store_of_disjoint (by lia)]
  rfl

/-- **Deletion.** The slot is freed; no other slot moves. -/
theorem delete_tuple_spec {i : ℕ} (hi : i < slots.length) :
    ∃ q, p.delete_tuple i = .ok q ∧ Slotted q (slots.set i none)
      ∧ q.free_space = p.free_space ∧ q.lsn = p.lsn := by
  obtain ⟨hl, hlu, hus, -, -⟩ := h.layout
  have hzero : SlotHolds (p.deleted i) i none := by
    refine ⟨?_, ?_⟩
    · rw [deleted, load_store_of_disjoint (by lia), load_store_of_disjoint (by lia)]
      exact load_store_self _ _ (by norm_num)
    · rw [deleted, load_store_of_disjoint (by lia)]
      exact load_store_self _ _ (by norm_num)
  have hq := h.rewrite (q := p.deleted i) (length_set (i := i) (a := none))
    (fun j h1 h2 _ => deleted_data (by lia)) fun j hj => by
      rw [getElem_set]
      by_cases hij : i = j
      · subst hij
        exact .inl (by rwa [if_pos rfl])
      · exact .inr ⟨if_neg hij, fun k h1 h2 => deleted_data (by lia)⟩
  exact ⟨_, delete_tuple_eq h hi, hq.1, hq.2.1, load_congr fun j _ h2 => deleted_data (by lia)⟩

theorem delete_tuple_out_of_range {i : ℕ} (hi : slots.length ≤ i) :
    p.delete_tuple i = .error (.err (.SlotOutOfRange i)) := by
  rw [delete_tuple, slot_count_eq h]
  simp only [bind, Except.bind]
  rw [if_pos hi]
  rfl

/-- **Clearing.** The page represents the empty list and its free space is everything
between the header and the special space. -/
theorem clear_tuples_spec :
    ∃ q, p.clear_tuples = .ok q ∧ Slotted q [] ∧ q.free_space = p.special - 48 ∧ SameFrame p q := by
  have hsp := h.special_ge
  have hps := h.special_le
  have hout : ∀ j, j < 22 ∨ (26 ≤ j ∧ j < 48) ∨ p.special ≤ j → p.cleared.data j = p.data j := by
    intro j hj
    simp only [cleared]
    rw [store_of_not_mem (by omega), store_of_not_mem (by omega),
      write_of_not_mem (by rw [length_replicate]; omega)]
  have hlow : p.cleared.lower = 48 := by
    rw [lower, cleared, load_store_of_disjoint (by lia)]
    exact load_store_self _ _ (by decide)
  have hup : p.cleared.upper = p.special := load_store_self _ _ (by lia)
  have hs : p.cleared.special = p.special := load_congr fun i h1 h2 => hout i (by lia)
  refine ⟨p.cleared, ?_, slotted_nil hlow hup hs hsp hps, by rw [free_space, hlow, hup],
    fun i hi => hout i (by omega), fun i h1 h2 => hout i (by omega), fun i hi => hout i (by omega)⟩
  rw [clear_tuples]
  simp only [bind, Except.bind]
  rw [if_neg (by lia), copy_from_slice, if_pos (by rw [length_replicate]; lia)]
  simp only [pure, Except.pure, set_lower, set_upper, cleared, special]
  simp (disch := lia) only [load_store_of_disjoint, load_write_of_disjoint]

/-- Writing a cell of the special space: the tuples, the header and every other byte stay. -/
theorem special_put_spec {w off v : ℕ} (hoff : p.special + off + w ≤ PAGE_SIZE) :
    ∃ q, special_put w p off v = .ok q ∧ Slotted q slots ∧ q.free_space = p.free_space
      ∧ q.special = p.special ∧ q.data = store w p.data (p.special + off) v := by
  have hc := h.congr (q := ⟨store w p.data (p.special + off) v⟩)
    (fun i _ h2 => store_of_not_mem (by omega))
  refine ⟨_, ?_, hc.1, hc.2.1, hc.2.2, rfl⟩
  rw [special_put, if_pos hoff]
  rfl

end Frame

/-! ## Fresh pages -/

theorem new_lower : (new id).lower = 48 := by
  simp only [lower, new, set_special, set_upper, set_lower]
  simp (disch := lia) only [load_store_of_disjoint]
  exact load_store_self _ _ (by decide)

theorem new_upper : (new id).upper = 8192 := by
  simp only [upper, new, set_special, set_upper]
  rw [load_store_of_disjoint (by lia)]
  exact load_store_self _ _ (by decide)

theorem new_special : (new id).special = 8192 := by
  exact load_store_self _ _ (by decide)

theorem new_slotted : Slotted (new id) [] :=
  slotted_nil (new_lower id) (new_upper id) (new_special id) (by decide) (by decide)

theorem new_free_space : (new id).free_space = 8144 := by
  rw [free_space, new_upper, new_lower]

/-- `init_btree_page` on any page: an empty node with the requested flags and no links. -/
theorem init_btree_page_spec (is_leaf is_root : Bool) :
    Slotted (p.init_btree_page is_leaf is_root) []
      ∧ (p.init_btree_page is_leaf is_root).special = 8164
      ∧ (p.init_btree_page is_leaf is_root).free_space = 8116
      ∧ load 2 (p.init_btree_page is_leaf is_root).data 8164
          = (if is_root then 1 else 0) ||| (if is_leaf then 2 else 0) ||| 4
      ∧ load 8 (p.init_btree_page is_leaf is_root).data 8176 = INVALID_PAGE_ID
      ∧ load 8 (p.init_btree_page is_leaf is_root).data 8184 = INVALID_PAGE_ID := by
  have hlow : (p.init_btree_page is_leaf is_root).lower = 48 := by
    simp only [lower, init_btree_page, set_lower]
    simp (disch := lia) only [load_store_of_disjoint]
    exact load_store_self _ _ (by decide)
  have hup : (p.init_btree_page is_leaf is_root).upper = 8164 := by
    simp only [upper, init_btree_page, set_lower, set_upper]
    simp (disch := lia) only [load_store_of_disjoint]
    exact load_store_self _ _ (by decide)
  have hsp : (p.init_btree_page is_leaf is_root).special = 8164 := by
    simp only [special, init_btree_page, set_lower, set_upper, set_special]
    simp (disch := lia) only [load_store_of_disjoint]
    exact load_store_self _ _ (by decide)
  refine ⟨slotted_nil hlow hup hsp (by decide) (by decide), hsp,
    by rw [free_space, hup, hlow], ?_, ?_, ?_⟩
  · simp only [init_btree_page]
    simp (disch := lia) only [load_store_of_disjoint]
    refine load_store_self _ _ ?_
    cases is_leaf <;> cases is_root <;> decide
  · simp only [init_btree_page]
    rw [load_store_of_disjoint (by lia)]
    exact load_store_self _ _ (by decide)
  · exact load_store_self _ _ (by decide)

end Page

end Oigrap.Storage
