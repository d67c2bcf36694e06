/-
`crates/storage/src/heap.rs`: the free space map and the heap file.

A heap file inserts a tuple into a page its free space map names, or into a new page, and
logs the change. The page is edited first, the record is written to the log's buffer next,
and the page is then stamped with the log's *flushed* LSN, not with the LSN of the record:
what recovery makes of that stamp is the subject of `Oigrap.Storage.Durability`.

The map is the source's 1-indexed tree of encoded free space. Indexing it is
bounds-checked and the offset of a page below the first one underflows, so both can panic;
`FreeSpaceMap.Wf` is what rules that out.
-/
import Oigrap.Storage.PoolSpec
import Oigrap.Storage.Wal

namespace Oigrap.Storage

open Wp BufferPool List

/-! ## `FreeSpaceMap` -/

/-- `usize::next_power_of_two`. -/
def next_power_of_two (n : ℕ) : ℕ := if n ≤ 1 then 1 else 2 ^ (Nat.log2 (n - 1) + 1)

def encode_free (free_bytes : ℕ) : ℕ := min (free_bytes / 32) 255

/-- `tree[i]`, bounds-checked. -/
def tree_at (tree : List ℕ) (i : ℕ) : Except Fault ℕ :=
  match tree[i]? with
  | some v => .ok v
  | none => .error .panic

/-- `tree[i] = v`, bounds-checked. -/
def tree_put (tree : List ℕ) (i v : ℕ) : Except Fault (List ℕ) :=
  if i < tree.length then .ok (tree.set i v) else .error .panic

/-- `FreeSpaceMap`: a tree of `u8`s, the leaves from `capacity` on. -/
structure FreeSpaceMap where
  tree : List ℕ
  capacity : ℕ
  first_page_id : PageId
  deriving DecidableEq, Repr

namespace FreeSpaceMap

def new (capacity : ℕ) (first_page_id : PageId) : FreeSpaceMap :=
  let cap := max (next_power_of_two capacity) 1
  ⟨replicate (cap * 2) 0, cap, first_page_id⟩

def leaf_index (m : FreeSpaceMap) (page_id : PageId) : Except Fault ℕ :=
  if page_id < m.first_page_id then .error .panic
  else .ok (m.capacity + (page_id - m.first_page_id))

/-- The loop of `propagate_up`: every ancestor becomes the maximum of its children. The
index halves, so the starting index bounds the rounds. -/
def propagate_loop : ℕ → List ℕ → ℕ → Except Fault (List ℕ)
  | 0, _, _ => .error .diverge
  | fuel + 1, tree, idx =>
    if idx ≥ 1 then do
      let left ← tree_at tree (2 * idx)
      let right ← tree_at tree (2 * idx + 1)
      let tree' ← tree_put tree idx (max left right)
      propagate_loop fuel tree' (idx / 2)
    else .ok tree

def propagate_up (tree : List ℕ) (idx : ℕ) : Except Fault (List ℕ) :=
  propagate_loop (idx + 1) tree (idx / 2)

/-- `update`: a page outside the range is ignored. -/
def update (m : FreeSpaceMap) (page_id : PageId) (free_bytes : ℕ) : Except Fault FreeSpaceMap := do
  let idx ← m.leaf_index page_id
  if idx ≥ m.capacity * 2 then return m
  else do
    let tree ← tree_put m.tree idx (encode_free free_bytes)
    let tree' ← propagate_up tree idx
    return { m with tree := tree' }

/-- The loop of `find_page`: go left if the left child has enough. The index at least
doubles, so `capacity` rounds reach the leaves. -/
def descend (m : FreeSpaceMap) (needed : ℕ) : ℕ → ℕ → Except Fault ℕ
  | 0, idx => if idx < m.capacity then .error .diverge else .ok idx
  | fuel + 1, idx =>
    if idx < m.capacity then do
      let left ← tree_at m.tree (2 * idx)
      if left ≥ needed then descend m needed fuel (2 * idx)
      else descend m needed fuel (2 * idx + 1)
    else .ok idx

def find_page (m : FreeSpaceMap) (needed_bytes : ℕ) : Except Fault (Option PageId) := do
  let root ← tree_at m.tree 1
  if root < encode_free needed_bytes then return none
  else do
    let idx ← m.descend (encode_free needed_bytes) m.capacity 1
    return some (m.first_page_id + (idx - m.capacity))

end FreeSpaceMap

/-! ## `HeapFile` -/

structure HeapFile where
  table_id : ℕ
  fsm : FreeSpaceMap
  pages : List PageId
  deriving DecidableEq, Repr

/-- What a method of `HeapFile` works on. -/
structure HeapEnv where
  heap : HeapFile
  pool : BufferPool
  wal : WalManager

namespace HeapFile

abbrev HeapM := EStateM Fault HeapEnv

def on_pool {α : Type} (x : PoolM α) : HeapM α :=
  zoom HeapEnv.pool (fun p e => { e with pool := p }) x

def on_wal {α : Type} (x : WalManager.WalM α) : HeapM α :=
  zoom HeapEnv.wal (fun w e => { e with wal := w }) x

def new (table_id : ℕ) : HeapFile := ⟨table_id, FreeSpaceMap.new 64 0, []⟩

/-- `self.fsm.update(page_id, free_bytes)`. -/
def update_fsm (page_id : PageId) (free_bytes : ℕ) : HeapM Unit := do
  let e ← get
  let fsm ← lift (e.heap.fsm.update page_id free_bytes)
  set { e with heap := { e.heap with fsm := fsm } }

/-- One round of the loop in `find_or_alloc_page`. -/
def refresh (page_id : PageId) : HeapM Unit := do
  let frame_id ← on_pool (fetch_page page_id)
  let free ← on_pool (page frame_id fun p => .ok p.free_space)
  on_pool (unpin_page page_id false)
  update_fsm page_id free

def refresh_all : List PageId → HeapM Unit
  | [] => pure ()
  | page_id :: rest => do
    refresh page_id
    refresh_all rest

/-- The page list and the rebuilt map after a new page. -/
def with_page (h : HeapFile) (page_id : PageId) : HeapFile :=
  let pages := h.pages ++ [page_id]
  { h with
    pages := pages
    fsm := FreeSpaceMap.new (next_power_of_two pages.length) (pages.headD page_id) }

/-- The second half of `find_or_alloc_page`. -/
def alloc_page : HeapM PageId := do
  let (page_id, _) ← on_pool new_page
  on_pool (unpin_page page_id true)
  modify fun e => { e with heap := e.heap.with_page page_id }
  let e ← get
  refresh_all e.heap.pages
  return page_id

/-- `find_or_alloc_page`: the map's answer counts only if the page is one of the file's. -/
def find_or_alloc_page (needed : ℕ) : HeapM PageId := do
  let e ← get
  let found ← lift (e.heap.fsm.find_page needed)
  match found with
  | some page_id => if page_id ∈ e.heap.pages then return page_id else alloc_page
  | none => alloc_page

/-- The end of both changing methods: the page is stamped with what the log has flushed,
and given back dirty. -/
def stamp (page_id : PageId) (frame_id : FrameId) : HeapM Unit := do
  let e ← get
  on_pool (page_mut frame_id fun p => .ok ((), p.set_lsn e.wal.flushed_lsn))
  on_pool (unpin_page page_id true)

def insert_tuple (xid : Xid) (tuple_data : List UInt8) : HeapM TupleId := do
  let page_id ← find_or_alloc_page (SLOT_SIZE + tuple_data.length)
  let frame_id ← on_pool (fetch_page page_id)
  let slot_id ← on_pool (page_mut frame_id fun p => p.insert_tuple tuple_data)
  let new_free ← on_pool (page frame_id fun p => .ok p.free_space)
  let e ← get
  let _ ← on_wal (WalManager.write_record xid
    (.HeapInsert e.heap.table_id page_id slot_id tuple_data))
  stamp page_id frame_id
  update_fsm page_id new_free
  return ⟨page_id, slot_id⟩

def get_tuple (tid : TupleId) : PoolM (List UInt8) :=
  read_at tid.page_id fun p => p.get_tuple tid.slot_id

def delete_tuple (xid : Xid) (tid : TupleId) (old_xmax : Xid) : HeapM Unit := do
  let frame_id ← on_pool (fetch_page tid.page_id)
  on_pool (page_mut frame_id fun p => (fun q => ((), q)) <$> p.delete_tuple tid.slot_id)
  let e ← get
  let _ ← on_wal (WalManager.write_record xid
    (.HeapDelete e.heap.table_id tid.page_id tid.slot_id old_xmax))
  stamp tid.page_id frame_id

end HeapFile

/-! ## The map never panics

The tree has two cells per leaf, and no page is below the first one. -/

namespace FreeSpaceMap

structure Wf (m : FreeSpaceMap) : Prop where
  pos : 1 ≤ m.capacity
  length : m.tree.length = 2 * m.capacity

variable {m : FreeSpaceMap}

theorem new_wf (capacity : ℕ) (first_page_id : PageId) : (new capacity first_page_id).Wf :=
  ⟨le_max_right _ _, by rw [new, length_replicate, mul_comm]⟩

theorem tree_at_of_lt {tree : List ℕ} {i : ℕ} (h : i < tree.length) :
    tree_at tree i = .ok (tree.get ⟨i, h⟩) := by
  rw [tree_at, getElem?_eq_getElem h]
  rfl

theorem tree_put_of_lt {tree : List ℕ} {i : ℕ} (h : i < tree.length) (v : ℕ) :
    tree_put tree i v = .ok (tree.set i v) := by
  rw [tree_put, if_pos h]

/-- `propagate_up` keeps the tree's size. The induction is on the rounds left; the index
halves and so stays below them. -/
theorem propagate_loop_ok {capacity : ℕ} : ∀ (fuel : ℕ) (tree : List ℕ) (idx : ℕ), idx < fuel →
    idx < capacity → tree.length = 2 * capacity →
    ∃ tree', propagate_loop fuel tree idx = .ok tree' ∧ tree'.length = 2 * capacity := by
  intro fuel
  induction fuel with
  | zero => exact fun _ _ h => absurd h (Nat.not_lt_zero _)
  | succ fuel ih =>
    intro tree idx hfuel hidx hlen
    unfold propagate_loop
    split
    · rw [tree_at_of_lt (show 2 * idx < tree.length by omega),
        tree_at_of_lt (show 2 * idx + 1 < tree.length by omega)]
      simp only [bind, Except.bind]
      rw [tree_put_of_lt (show idx < tree.length by omega)]
      exact ih _ _ (by omega) (by omega) (by rw [length_set, hlen])
    · exact ⟨tree, rfl, hlen⟩

theorem update_ok (h : m.Wf) {page_id : PageId} (hfirst : m.first_page_id ≤ page_id)
    (free_bytes : ℕ) :
    ∃ m', m.update page_id free_bytes = .ok m' ∧ m'.Wf ∧ m'.first_page_id = m.first_page_id := by
  have hlen := h.length
  unfold update leaf_index
  rw [if_neg (not_lt.mpr hfirst)]
  simp only [bind, Except.bind]
  split
  · exact ⟨m, rfl, h, rfl⟩
  · rw [tree_put_of_lt (by omega)]
    obtain ⟨tree', htree, hlen'⟩ := @propagate_loop_ok m.capacity
      (m.capacity + (page_id - m.first_page_id) + 1)
      (m.tree.set (m.capacity + (page_id - m.first_page_id)) (encode_free free_bytes))
      ((m.capacity + (page_id - m.first_page_id)) / 2) (by omega) (by omega)
      (by rw [length_set, hlen])
    refine ⟨{ m with tree := tree' }, ?_, ⟨h.pos, hlen'⟩, rfl⟩
    simp only [propagate_up, htree, pure, Except.pure]

/-- The rounds left and the index together stay at least the capacity. -/
theorem descend_ok (h : m.Wf) (needed : ℕ) : ∀ fuel idx, 1 ≤ idx → m.capacity ≤ idx + fuel →
    ∃ leaf, m.descend needed fuel idx = .ok leaf := by
  have hlen := h.length
  intro fuel
  induction fuel with
  | zero =>
    intro idx _ hcap
    exact ⟨idx, by rw [descend, if_neg (by omega)]⟩
  | succ fuel ih =>
    intro idx hpos hcap
    unfold descend
    split
    · rw [tree_at_of_lt (show 2 * idx < m.tree.length by omega)]
      simp only [bind, Except.bind]
      split <;> exact ih _ (by omega) (by omega)
    · exact ⟨idx, rfl⟩

theorem find_page_ok (h : m.Wf) (needed_bytes : ℕ) : ∃ r, m.find_page needed_bytes = .ok r := by
  have hlen := h.length
  have hpos := h.pos
  unfold find_page
  rw [tree_at_of_lt (show 1 < m.tree.length by omega)]
  simp only [bind, Except.bind]
  split
  · exact ⟨none, rfl⟩
  · obtain ⟨leaf, hleaf⟩ := descend_ok h (encode_free needed_bytes) m.capacity 1 (by omega) (by omega)
    rw [hleaf]
    exact ⟨_, rfl⟩

end FreeSpaceMap

namespace HeapFile

/-- A heap file over a database file of `len` pages: its pages were allocated one after the
other, none of them is the header page, and the map starts at or below the first. -/
structure Wf (h : HeapFile) (len : ℕ) : Prop where
  fsm : h.fsm.Wf
  first : ∀ pid ∈ h.pages, h.fsm.first_page_id ≤ pid
  range : ∀ pid ∈ h.pages, pid ≠ 0 ∧ pid < len
  sorted : h.pages.Pairwise (· < ·)

variable {h : HeapFile} {len : ℕ}

theorem new_heap_wf (table_id len : ℕ) : (new table_id).Wf len :=
  ⟨FreeSpaceMap.new_wf _ _, fun _ hp => absurd hp not_mem_nil,
    fun _ hp => absurd hp not_mem_nil, List.Pairwise.nil⟩

theorem Wf.mono (hw : h.Wf len) {len' : ℕ} (hle : len ≤ len') : h.Wf len' :=
  { hw with range := fun pid hp => ⟨(hw.range pid hp).1, (hw.range pid hp).2.trans_le hle⟩ }

/-- A new page is the last of the file, and so comes after all others. -/
theorem Wf.with_page (hw : h.Wf len) (hlen : 0 < len) : (h.with_page len).Wf (len + 1) := by
  have hsorted : (h.pages ++ [len]).Pairwise (· < ·) := by
    refine pairwise_append.mpr ⟨hw.sorted, pairwise_singleton _ _, ?_⟩
    intro pid hp q hq
    rw [mem_singleton.mp hq]
    exact (hw.range pid hp).2
  refine ⟨FreeSpaceMap.new_wf _ _, ?_, ?_, hsorted⟩
  · intro pid hp
    show (h.pages ++ [len]).headD len ≤ pid
    cases hpages : h.pages ++ [len] with
    | nil => simp at hpages
    | cons first rest =>
      have hp' : pid ∈ first :: rest := by
        rwa [← hpages]
      rw [hpages] at hsorted
      rcases mem_cons.mp hp' with rfl | hrest
      · exact le_rfl
      · exact le_of_lt (rel_of_pairwise_cons hsorted hrest)
  · intro pid hp
    rcases mem_append.mp hp with hp | hp
    · exact ⟨(hw.range pid hp).1, Nat.lt_succ_of_lt (hw.range pid hp).2⟩
    · rw [mem_singleton.mp hp]
      exact ⟨ne_of_gt hlen, Nat.lt_succ_self _⟩

end HeapFile

end Oigrap.Storage
