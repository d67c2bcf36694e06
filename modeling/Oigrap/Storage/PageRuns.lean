/-
Runs of the slotted page.

`page.rs` changes the bytes of a page in place. The four methods are written here once more as
the source has them, one assignment after the other, so that a call that fails half way would
show. A call that succeeds does what the function of the same name says about a whole page
(`insert_tuple_rule` and the others), and one that fails does so before its first assignment. A run
keeps a list of optional tuples beside the page, and the page represents that list after any
sequence of calls.
-/
import Oigrap.Lib.Wp
import Oigrap.Storage.Page

namespace Oigrap.Storage

open Wp

namespace PageMut

/-- A statement that writes to the page. -/
def assign (f : Page → Except Fault Page) : EStateM Fault Page Unit := do
  let p ← get
  let q ← lift (f p)
  set q

def insert_tuple (data : List UInt8) : EStateM Fault Page ℕ := do
  let p ← get
  let needed := SLOT_SIZE + data.length
  let available := p.free_space
  if available < needed then throw (.err (.InsufficientSpace needed available))
  let new_upper := p.upper - data.length
  assign (·.copy_from_slice new_upper data)
  let p ← get
  let slot_id ← lift p.slot_count
  assign (·.write_slot slot_id new_upper data.length)
  modify (·.set_upper new_upper)
  modify fun p => p.set_lower (p.lower + SLOT_SIZE)
  return slot_id

def insert_tuple_at (pos : ℕ) (data : List UInt8) : EStateM Fault Page ℕ := do
  let p ← get
  let needed := SLOT_SIZE + data.length
  let available := p.free_space
  if available < needed then throw (.err (.InsufficientSpace needed available))
  let slot_count ← lift p.slot_count
  if pos > slot_count then throw (.err (.SlotOutOfRange pos))
  let new_upper := p.upper - data.length
  assign (·.copy_from_slice new_upper data)
  assign (·.shift_slots pos slot_count)
  assign (·.write_slot pos new_upper data.length)
  modify (·.set_upper new_upper)
  modify fun p => p.set_lower (p.lower + SLOT_SIZE)
  return pos

def delete_tuple (slot_id : ℕ) : EStateM Fault Page Unit := do
  let p ← get
  let n ← lift p.slot_count
  if slot_id ≥ n then throw (.err (.SlotOutOfRange slot_id))
  assign (·.write_slot slot_id 0 0)
  modify fun p => p.set_flags (p.flags ||| FLAG_HAS_FREE_LINES)

def clear_tuples : EStateM Fault Page Unit := do
  let p ← get
  let sp := p.special
  if sp < PAGE_HEADER_SIZE then throw .panic
  assign (·.copy_from_slice PAGE_HEADER_SIZE (List.replicate (sp - PAGE_HEADER_SIZE) 0))
  modify (·.set_lower PAGE_HEADER_SIZE)
  modify fun p => p.set_upper p.special

section

variable {p q : Page} {n i : ℕ} {data : List UInt8} {Q : Unit → Page → Prop}
  {E : Fault → Page → Prop}

theorem wp_assign {f : Page → Except Fault Page} :
    wp (assign f) Q E p ↔ wp (lift (f p)) (fun q _ => Q () q) E p := by
  simp only [assign, wp_bind, wp_get, wp_set]

/-- A check that did not fail. -/
theorem guard_ok {α : Type} {c : Prop} [Decidable c] {e : Fault} {x : Except Fault α} {a : α}
    (h : (if c then .error e else x) = .ok a) : ¬ c ∧ x = .ok a := by
  split at h
  · cases h
  · next hc => exact ⟨hc, h⟩

theorem insert_tuple_rule (h : p.insert_tuple data = .ok (n, q)) :
    wp (insert_tuple data) (fun i q' => i = n ∧ q' = q) never p := by
  unfold Page.insert_tuple at h
  unfold insert_tuple
  rw [wp_bind, wp_get]
  obtain ⟨hroom, h⟩ := guard_ok h
  rw [if_neg hroom]
  obtain ⟨p1, h1, h⟩ := bind_ok h
  obtain ⟨k, h2, h⟩ := bind_ok h
  obtain ⟨p2, h3, h⟩ := bind_ok h
  cases h
  simp only [wp_bind, wp_assign, wp_get, wp_lift_ok, wp_modify, wp_pure, h1, h2, h3, and_self]

theorem insert_tuple_at_rule (h : p.insert_tuple_at i data = .ok (n, q)) :
    wp (insert_tuple_at i data) (fun j q' => j = n ∧ q' = q) never p := by
  unfold Page.insert_tuple_at at h
  unfold insert_tuple_at
  rw [wp_bind, wp_get]
  obtain ⟨hroom, h⟩ := guard_ok h
  rw [if_neg hroom]
  obtain ⟨k, h1, h⟩ := bind_ok h
  rw [wp_bind, h1, wp_lift_ok]
  obtain ⟨hi, h⟩ := guard_ok h
  rw [if_neg hi]
  obtain ⟨p1, h2, h⟩ := bind_ok h
  obtain ⟨p2, h3, h⟩ := bind_ok h
  obtain ⟨p3, h4, h⟩ := bind_ok h
  cases h
  simp only [wp_bind, wp_assign, wp_lift_ok, wp_modify, wp_pure, h2, h3, h4, and_self]

theorem delete_tuple_rule (h : p.delete_tuple i = .ok q) :
    wp (delete_tuple i) (fun _ q' => q' = q) never p := by
  unfold delete_tuple
  obtain ⟨k, h1, h⟩ := bind_ok h
  rw [wp_bind, wp_get, wp_bind, h1, wp_lift_ok]
  obtain ⟨hi, h⟩ := guard_ok h
  rw [if_neg hi]
  obtain ⟨p1, h2, h⟩ := bind_ok h
  cases h
  simp [wp_bind, wp_assign, h2]

theorem clear_tuples_rule (h : p.clear_tuples = .ok q) :
    wp clear_tuples (fun _ q' => q' = q) never p := by
  unfold Page.clear_tuples at h
  unfold clear_tuples
  rw [wp_bind, wp_get]
  obtain ⟨hsp, h⟩ := guard_ok h
  rw [if_neg hsp]
  obtain ⟨p1, h1, h⟩ := bind_ok h
  cases h
  simp [wp_bind, wp_assign, h1]

end

end PageMut

/-! ## Calls -/

/-- The list of optional tuples a page stands for. -/
abbrev Slots := List (Option (List UInt8))

inductive PageCall where
  | insert_tuple (data : List UInt8)
  | insert_tuple_at (pos : ℕ) (data : List UInt8)
  | delete_tuple (slot_id : ℕ)
  | clear_tuples
  deriving DecidableEq, Repr

/-- The page says what the list says. -/
structure Represents (p : Page) (slots : Slots) : Prop where
  slot_count : p.slot_count = .ok slots.length
  get_tuple : ∀ i, p.get_tuple i = match slots[i]?.join with
    | some bs => .ok bs
    | none => .error (.err (.SlotOutOfRange i))
  layout : PAGE_HEADER_SIZE ≤ p.lower ∧ p.lower ≤ p.upper ∧ p.upper ≤ p.special

/-- The page id and the special space are those of `p`. -/
structure Keeps (p q : Page) : Prop where
  page_id : q.page_id = p.page_id
  special : q.special = p.special
  tail : ∀ i, p.special ≤ i → q.data i = p.data i

namespace PageCall

/-- The call on the bytes; an insertion returns the slot. -/
def run : PageCall → EStateM Fault Page (Option ℕ)
  | insert_tuple data => do return some (← PageMut.insert_tuple data)
  | insert_tuple_at pos data => do return some (← PageMut.insert_tuple_at pos data)
  | delete_tuple slot_id => do
    PageMut.delete_tuple slot_id
    return none
  | clear_tuples => do
    PageMut.clear_tuples
    return none

/-- What the call is to do to the list. -/
def apply (slots : Slots) : PageCall → Slots
  | insert_tuple data => slots ++ [some data]
  | insert_tuple_at pos data => slots.insertIdx pos (some data)
  | delete_tuple slot_id => slots.set slot_id none
  | clear_tuples => []

def answer (slots : Slots) : PageCall → Option ℕ
  | insert_tuple _ => some slots.length
  | insert_tuple_at pos _ => some pos
  | _ => none

/-- When the call is to succeed: a new tuple needs its bytes and a slot between `lower` and `upper`,
and a position has to exist. -/
def Fits (p : Page) (slots : Slots) : PageCall → Prop
  | insert_tuple data => p.lower + SLOT_SIZE + data.length ≤ p.upper
  | insert_tuple_at pos data => p.lower + SLOT_SIZE + data.length ≤ p.upper ∧ pos ≤ slots.length
  | delete_tuple slot_id => slot_id < slots.length
  | clear_tuples => True

/-- A call that fits does to the page what it is to do to the list; any other returns an error and
leaves the bytes as they were. None panics. -/
def Refines (c : PageCall) (p : Page) (slots : Slots) : Prop :=
  wp c.run
    (fun r q => c.Fits p slots ∧ r = c.answer slots ∧ Represents q (c.apply slots) ∧ Keeps p q)
    (fun e q => ¬ c.Fits p slots ∧ (∃ x, e = .err x) ∧ q = p) p

end PageCall

section Step

variable {p q r : Page} {slots : Slots}

theorem Keeps.refl : Keeps p p := ⟨rfl, rfl, fun _ _ => rfl⟩

theorem Keeps.trans (h : Keeps p q) (h' : Keeps q r) : Keeps p r :=
  ⟨h'.page_id.trans h.page_id, h'.special.trans h.special,
    fun i hi => (h'.tail i (h.special.trans_le hi)).trans (h.tail i hi)⟩

theorem Page.SameFrame.keeps (h : Page.SameFrame p q) : Keeps p q :=
  ⟨Page.load_congr fun i _ h2 => h.head i (by lia), h.special_eq, h.tail⟩

variable (h : Page.Slotted p slots)
include h

theorem Page.Slotted.represents : Represents p slots := by
  refine ⟨Page.slot_count_eq h, fun i => ?_, ?_⟩
  · cases hs : slots[i]?.join with
    | none => exact Page.get_tuple_none h hs
    | some bs => exact Page.get_tuple_some h (Option.join_eq_some_iff.mp hs)
  · obtain ⟨hl, hlu, hus, -, -⟩ := h.layout
    exact ⟨by lia, hlu, hus⟩

theorem Page.Slotted.deleted_keeps {i : ℕ} (hi : i < slots.length) : Keeps p (p.deleted i) := by
  obtain ⟨hl, hlu, hus, -, -⟩ := h.layout
  refine ⟨?_, ?_, fun j hj => Page.deleted_data (by lia)⟩
  · exact Page.load_congr fun j h1 h2 => Page.deleted_data (by lia)
  · exact Page.load_congr fun j h1 h2 => Page.deleted_data (by lia)

/-- There is room for a tuple and its slot iff they lie between `lower` and `upper`. -/
theorem Page.Slotted.room_iff (n : ℕ) :
    4 + n ≤ p.free_space ↔ p.lower + SLOT_SIZE + n ≤ p.upper := by
  obtain ⟨-, hlu, -, -, hfree⟩ := h.layout
  rw [hfree, show SLOT_SIZE = 4 from rfl]
  omega

/-- **One call.** -/
theorem run_spec (c : PageCall) :
    wp c.run (fun r q => c.Fits p slots ∧ r = c.answer slots ∧ Page.Slotted q (c.apply slots)
        ∧ Keeps p q)
      (fun e q => ¬ c.Fits p slots ∧ (∃ x, e = .err x) ∧ q = p) p := by
  cases c with
  | insert_tuple data =>
    have hfits := h.room_iff data.length
    by_cases hroom : 4 + data.length ≤ p.free_space
    · obtain ⟨q, hq, hs, -, hf⟩ := Page.insert_tuple_spec h hroom
      refine wp_then (PageMut.insert_tuple_rule hq) ?_
      rintro _ _ ⟨rfl, rfl⟩
      exact ⟨hfits.mp hroom, rfl, hs, hf.keeps⟩
    · rw [PageCall.run, PageMut.insert_tuple, wp_bind, wp_bind, wp_get, if_pos (by lia)]
      exact ⟨fun hfit => hroom (hfits.mpr hfit), ⟨_, rfl⟩, rfl⟩
  | insert_tuple_at pos data =>
    have hfits := h.room_iff data.length
    by_cases hroom : 4 + data.length ≤ p.free_space
    · by_cases hpos : pos ≤ slots.length
      · obtain ⟨q, hq, hs, -, hf⟩ := Page.insert_tuple_at_spec h hpos hroom
        refine wp_then (PageMut.insert_tuple_at_rule hq) ?_
        rintro _ _ ⟨rfl, rfl⟩
        exact ⟨⟨hfits.mp hroom, hpos⟩, rfl, hs, hf.keeps⟩
      · rw [PageCall.run, PageMut.insert_tuple_at, wp_bind, wp_bind, wp_get, if_neg (by lia),
          wp_bind, Page.slot_count_eq h, wp_lift_ok, if_pos (by omega)]
        exact ⟨fun hfit => hpos hfit.2, ⟨_, rfl⟩, rfl⟩
    · rw [PageCall.run, PageMut.insert_tuple_at, wp_bind, wp_bind, wp_get, if_pos (by lia)]
      exact ⟨fun hfit => hroom (hfits.mpr hfit.1), ⟨_, rfl⟩, rfl⟩
  | delete_tuple slot_id =>
    by_cases hi : slot_id < slots.length
    · obtain ⟨q, hq, hs, -, -⟩ := Page.delete_tuple_spec h hi
      obtain rfl := Except.ok.inj ((Page.delete_tuple_eq h hi).symm.trans hq)
      refine wp_then (PageMut.delete_tuple_rule hq) ?_
      rintro _ _ rfl
      exact ⟨hi, rfl, hs, h.deleted_keeps hi⟩
    · rw [PageCall.run, PageMut.delete_tuple, wp_bind, wp_bind, wp_get, wp_bind,
        Page.slot_count_eq h, wp_lift_ok, if_pos (by omega)]
      exact ⟨hi, ⟨_, rfl⟩, rfl⟩
  | clear_tuples =>
    obtain ⟨q, hq, hs, -, hf⟩ := Page.clear_tuples_spec h
    refine wp_then (PageMut.clear_tuples_rule hq) ?_
    rintro _ _ rfl
    exact ⟨trivial, rfl, hs, hf.keeps⟩

end Step

/-! ## Runs -/

/-- Where a page comes from. -/
inductive PageOrigin where
  | new (page_id : PageId)
  | init_btree_page (p : Page) (is_leaf is_root : Bool)

def PageOrigin.page : PageOrigin → Page
  | new page_id => Page.new page_id
  | init_btree_page p is_leaf is_root => p.init_btree_page is_leaf is_root

/-- The page and the list beside it after one more call. -/
def PageCall.step (s : Page × Slots) (c : PageCall) : Page × Slots :=
  match c.run s.1 with
  | .ok _ q => (q, c.apply s.2)
  | .error _ q => (q, s.2)

/-- The page after some calls, with its list. -/
def PageOrigin.after (origin : PageOrigin) (calls : List PageCall) : Page × Slots :=
  calls.foldl PageCall.step (origin.page, [])

theorem after_slotted (origin : PageOrigin) (calls : List PageCall) :
    Page.Slotted (origin.after calls).1 (origin.after calls).2
      ∧ Keeps origin.page (origin.after calls).1 := by
  have hstart : Page.Slotted origin.page [] := by
    cases origin with
    | new page_id => exact Page.new_slotted page_id
    | init_btree_page p is_leaf is_root => exact (p.init_btree_page_spec is_leaf is_root).1
  refine List.foldlRecOn (motive := fun s : Page × Slots => Page.Slotted s.1 s.2 ∧ Keeps origin.page s.1)
    calls _ ⟨hstart, .refl⟩ ?_
  rintro ⟨p, slots⟩ ⟨h, hk⟩ c -
  have hc := run_spec h c
  unfold PageCall.step
  cases hx : c.run p with
  | ok r q =>
    obtain ⟨-, -, hs, hq⟩ := wp_ok hc hx
    exact ⟨hs, hk.trans hq⟩
  | error e q =>
    obtain ⟨-, -, rfl⟩ := wp_error hc hx
    exact ⟨h, hk⟩

/-- **The page is a list of optional tuples**, whatever calls are made, and the next call succeeds
exactly if it fits. -/
theorem page_refines (origin : PageOrigin) (calls : List PageCall) :
    Represents (origin.after calls).1 (origin.after calls).2
      ∧ Keeps origin.page (origin.after calls).1
      ∧ ∀ c : PageCall, c.Refines (origin.after calls).1 (origin.after calls).2 := by
  obtain ⟨hs, hk⟩ := after_slotted origin calls
  refine ⟨hs.represents, hk, fun c => wp_mono (run_spec hs c) ?_ fun _ _ => id⟩
  rintro r q ⟨hfit, hr, hq, hkeep⟩
  exact ⟨hfit, hr, hq.represents, hkeep⟩

end Oigrap.Storage
