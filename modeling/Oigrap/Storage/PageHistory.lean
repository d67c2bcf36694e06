/-
What a heap page contains, as a function of the changes that were made to it.

A heap page only ever sees two changes: a tuple is added in the slot after the last one, or
a slot is freed. `Contents` is what such a page holds, seen from above: the list of
optional tuples and the space left between the two watermarks. `Contents.replay` runs a
list of changes, and fails on a change that the page could not have made. A page's bytes
are tied to its contents by `Page.Holds`; its LSN plays no part there, since the contents
do not depend on it.
-/
import Oigrap.Storage.Page

namespace Oigrap.Storage

open List

/-- A change of a heap page, with the slot the log names for it. -/
inductive Change where
  | insert (slot_id : ℕ) (tuple_data : List UInt8)
  | delete (slot_id : ℕ)
  deriving DecidableEq, Repr

@[ext]
structure Contents where
  slots : List (Option (List UInt8))
  free : ℕ
  deriving DecidableEq, Repr

namespace Contents

/-- The contents of a new page. -/
def empty : Contents := ⟨[], 8144⟩

def apply (c : Contents) : Change → Option Contents
  | .insert slot_id tuple_data =>
    if slot_id = c.slots.length ∧ 4 + tuple_data.length ≤ c.free then
      some ⟨c.slots ++ [some tuple_data], c.free - (4 + tuple_data.length)⟩
    else none
  | .delete slot_id =>
    if slot_id < c.slots.length then some ⟨c.slots.set slot_id none, c.free⟩ else none

/-- Several changes, oldest first. -/
def replay : List Change → Contents → Option Contents
  | [], c => some c
  | ch :: chs, c => (c.apply ch).bind (replay chs)

variable {c c' c'' : Contents} {ch : Change} {chs chs' : List Change}
  {tuple_data : List UInt8} {i : ℕ}

theorem apply_insert {slot_id : ℕ} (h : c.apply (.insert slot_id tuple_data) = some c') :
    slot_id = c.slots.length ∧ 4 + tuple_data.length ≤ c.free
      ∧ c' = ⟨c.slots ++ [some tuple_data], c.free - (4 + tuple_data.length)⟩ := by
  by_cases hc : slot_id = c.slots.length ∧ 4 + tuple_data.length ≤ c.free
  · rw [apply, if_pos hc] at h
    exact ⟨hc.1, hc.2, (Option.some.inj h).symm⟩
  · simp [apply, if_neg hc] at h

theorem apply_delete {slot_id : ℕ} (h : c.apply (.delete slot_id) = some c') :
    slot_id < c.slots.length ∧ c' = ⟨c.slots.set slot_id none, c.free⟩ := by
  by_cases hc : slot_id < c.slots.length
  · rw [apply, if_pos hc] at h
    exact ⟨hc, (Option.some.inj h).symm⟩
  · simp [apply, if_neg hc] at h

theorem replay_cons : replay (ch :: chs) c = some c'' ↔
    ∃ c', c.apply ch = some c' ∧ replay chs c' = some c'' := Option.bind_eq_some_iff

theorem replay_append : replay (chs ++ chs') c = some c'' ↔
    ∃ c', replay chs c = some c' ∧ replay chs' c' = some c'' := by
  induction chs generalizing c with
  | nil => simp [replay]
  | cons ch chs ih =>
    simp only [cons_append, replay_cons, ih]
    constructor
    · rintro ⟨c1, h1, c2, h2, h3⟩
      exact ⟨c2, ⟨c1, h1, h2⟩, h3⟩
    · rintro ⟨c2, ⟨c1, h1, h2⟩, h3⟩
      exact ⟨c1, h1, c2, h2, h3⟩

theorem replay_snoc (h : replay chs c = some c') (h' : c'.apply ch = some c'') :
    replay (chs ++ [ch]) c = some c'' :=
  replay_append.mpr ⟨c', h, replay_cons.mpr ⟨c'', h', rfl⟩⟩

/-! ## What later changes leave alone -/

theorem apply_length (h : c.apply ch = some c') : c.slots.length ≤ c'.slots.length := by
  cases ch with
  | insert slot_id tuple_data =>
    obtain ⟨-, -, rfl⟩ := apply_insert h
    rw [length_append]
    exact Nat.le_add_right _ _
  | delete slot_id =>
    obtain ⟨-, rfl⟩ := apply_delete h
    rw [length_set]

/-- A slot keeps what it has, unless it is freed. -/
theorem apply_get (h : c.apply ch = some c') {o : Option (List UInt8)} (hi : c.slots[i]? = some o)
    (hch : o = none ∨ ch ≠ .delete i) : c'.slots[i]? = some o := by
  obtain ⟨hlt, hget⟩ := List.getElem?_eq_some_iff.mp hi
  cases ch with
  | insert slot_id tuple_data =>
    obtain ⟨-, -, rfl⟩ := apply_insert h
    rwa [getElem?_append_left hlt]
  | delete slot_id =>
    obtain ⟨-, rfl⟩ := apply_delete h
    rw [getElem?_set]
    by_cases hs : slot_id = i
    · subst hs
      rcases hch with rfl | hne
      · rw [if_pos rfl, if_pos hlt]
      · exact absurd rfl hne
    · rwa [if_neg hs]

section

variable (h : replay chs c = some c')
include h

theorem replay_length : c.slots.length ≤ c'.slots.length := by
  induction chs generalizing c with
  | nil => exact le_of_eq (congrArg (fun c => c.slots.length) (Option.some.inj h))
  | cons ch chs ih =>
    obtain ⟨c1, h1, h2⟩ := replay_cons.mp h
    exact (apply_length h1).trans (ih h2)

theorem replay_get {o : Option (List UInt8)}
    (hi : c.slots[i]? = some o) (hch : o = none ∨ Change.delete i ∉ chs) :
    c'.slots[i]? = some o := by
  induction chs generalizing c with
  | nil => rwa [← Option.some.inj h]
  | cons ch chs ih =>
    obtain ⟨c1, h1, h2⟩ := replay_cons.mp h
    refine ih h2 (apply_get h1 hi ?_) ?_
    · exact hch.imp_right fun hn heq => hn (heq ▸ mem_cons_self)
    · exact hch.imp_right fun hn hin => hn (mem_cons_of_mem _ hin)

theorem replay_inserted (hin : Change.insert i tuple_data ∈ chs)
    (hno : Change.delete i ∉ chs) : c'.slots[i]? = some (some tuple_data) := by
  obtain ⟨pre, post, rfl⟩ := append_of_mem hin
  obtain ⟨c1, -, h2⟩ := replay_append.mp h
  obtain ⟨c2, h3, h4⟩ := replay_cons.mp h2
  obtain ⟨rfl, -, rfl⟩ := apply_insert h3
  refine replay_get h4 ?_ (.inr fun hd => hno ?_)
  · exact getElem?_concat_length
  · exact mem_append_right _ (mem_cons_of_mem _ hd)

theorem replay_deleted (hin : Change.delete i ∈ chs) : c'.slots[i]? = some none := by
  obtain ⟨pre, post, rfl⟩ := append_of_mem hin
  obtain ⟨c1, -, h2⟩ := replay_append.mp h
  obtain ⟨c2, h3, h4⟩ := replay_cons.mp h2
  obtain ⟨hlt, rfl⟩ := apply_delete h3
  exact replay_get h4 (getElem?_set_self hlt) (.inl rfl)

theorem replay_inserted_lt (hin : Change.insert i tuple_data ∈ chs) : i < c'.slots.length := by
  obtain ⟨pre, post, rfl⟩ := append_of_mem hin
  obtain ⟨c1, -, h2⟩ := replay_append.mp h
  obtain ⟨c2, h3, h4⟩ := replay_cons.mp h2
  obtain ⟨rfl, -, rfl⟩ := apply_insert h3
  have hle := replay_length h4
  rw [length_append, length_singleton] at hle
  exact Nat.lt_of_succ_le hle

end

end Contents

/-! ## Pages and contents -/

namespace Page

/-- The page has the contents `c`. -/
def Holds (p : Page) (c : Contents) : Prop := Slotted p c.slots ∧ p.free_space = c.free

/-- The page is what the changes make of a new page. -/
def Built (p : Page) (chs : List Change) : Prop :=
  ∃ c, Contents.replay chs Contents.empty = some c ∧ p.Holds c

variable {p : Page} {c c' : Contents} {chs : List Change}

theorem new_built (id : PageId) : (new id).Built [] :=
  ⟨Contents.empty, rfl, new_slotted id, new_free_space id⟩

theorem Holds.set_lsn (h : p.Holds c) (lsn : ℕ) : (p.set_lsn lsn).Holds c :=
  ⟨(set_lsn_slotted h.1 lsn).1, (set_lsn_slotted h.1 lsn).2.trans h.2⟩

theorem Built.set_lsn (h : p.Built chs) (lsn : ℕ) : (p.set_lsn lsn).Built chs := by
  obtain ⟨c, hc, hp⟩ := h
  exact ⟨c, hc, hp.set_lsn lsn⟩

section

variable (h : p.Holds c)
include h

/-- Making room for a tuple that fits. -/
theorem Holds.insert_tuple {tuple_data : List UInt8}
    (hc : c.apply (.insert c.slots.length tuple_data) = some c') :
    ∃ q, p.insert_tuple tuple_data = .ok (c.slots.length, q) ∧ q.Holds c' ∧ q.lsn = p.lsn := by
  obtain ⟨-, hroom, rfl⟩ := Contents.apply_insert hc
  have hroom' : 4 + tuple_data.length ≤ p.free_space := by rw [h.2]; exact hroom
  obtain ⟨q, hq, hs, hf, hframe⟩ := insert_tuple_spec h.1 hroom'
  exact ⟨q, hq, ⟨hs, by rw [hf, h.2]⟩, hframe.lsn_eq⟩

theorem Holds.insert_tuple_cases (tuple_data : List UInt8) :
    (∃ q c', p.insert_tuple tuple_data = .ok (c.slots.length, q)
        ∧ c.apply (.insert c.slots.length tuple_data) = some c' ∧ q.Holds c')
      ∨ ∃ e, p.insert_tuple tuple_data = .error (.err e) := by
  by_cases hroom : 4 + tuple_data.length ≤ c.free
  · have hc : c.apply (.insert c.slots.length tuple_data)
        = some ⟨c.slots ++ [some tuple_data], c.free - (4 + tuple_data.length)⟩ := by
      rw [Contents.apply, if_pos ⟨rfl, hroom⟩]
    obtain ⟨q, hq, hholds, -⟩ := h.insert_tuple hc
    exact .inl ⟨q, _, hq, hc, hholds⟩
  · exact .inr ⟨_, insert_tuple_full (by rw [h.2]; exact Nat.lt_of_not_le hroom)⟩

theorem Holds.delete_tuple {slot_id : ℕ} (hc : c.apply (.delete slot_id) = some c') :
    ∃ q, p.delete_tuple slot_id = .ok q ∧ q.Holds c' ∧ q.lsn = p.lsn := by
  obtain ⟨hlt, rfl⟩ := Contents.apply_delete hc
  obtain ⟨q, hq, hs, hf, hl⟩ := delete_tuple_spec h.1 hlt
  exact ⟨q, hq, ⟨hs, hf.trans h.2⟩, hl⟩

theorem Holds.delete_tuple_cases (slot_id : ℕ) :
    (∃ q c', p.delete_tuple slot_id = .ok q ∧ c.apply (.delete slot_id) = some c' ∧ q.Holds c')
      ∨ ∃ e, p.delete_tuple slot_id = .error (.err e) := by
  by_cases hlt : slot_id < c.slots.length
  · have hc : c.apply (.delete slot_id) = some ⟨c.slots.set slot_id none, c.free⟩ := by
      rw [Contents.apply, if_pos hlt]
    obtain ⟨q, hq, hholds, -⟩ := h.delete_tuple hc
    exact .inl ⟨q, _, hq, hc, hholds⟩
  · exact .inr ⟨_, delete_tuple_out_of_range h.1 (Nat.le_of_not_lt hlt)⟩

theorem Holds.bounds : c.slots.length < 256 ^ 2 ∧ c.free < 256 ^ 2 := by
  have h1 := h.1.lower_eq
  have h2 := h.1.lower_le
  have h3 := h.1.upper_le
  have h4 := h.1.special_le
  have h5 : p.upper - p.lower = c.free := h.2
  lia

end

end Page

end Oigrap.Storage
