/-
`crates/storage/src/btree.rs`: the B+ tree index over the buffer pool.

The functions on one page (`descend`, `find_in_leaf`, `leaf_insert_pos`, ..) are pure
functions of its bytes; the rest are programs on the pool in the source's order of calls,
so an `Err` in the middle leaves behind exactly the pins and the half-written pages the
source leaves.

Three loops of the source have no bound of their own: the descent of `lookup` and
`range_scan`, the recursion of `insert_recursive`, and the walk along the leaf chain. They
follow page ids stored in pages and would circle forever on a damaged tree. Here each
carries a budget of page visits, as many as the file has pages, and ends in
`Fault.diverge` when it is used up: a walk that visits no page twice never does.

`partition_point` is the first index at which its predicate fails, which is what the
library's binary search returns on the sorted lists it is called on. The page level
`old_root_level + 1` is a `u16` that wraps; nothing reads it but the code that copies it.
-/
import Mathlib.Data.List.Lex
import Oigrap.Storage.BufferPool

namespace Oigrap.Storage

open Wp ByteMem BufferPool

/-- The order on bytes, from which the lexicographic order on keys is built. -/
instance linearOrderUInt8 : LinearOrder UInt8 where
  le_refl a := UInt8.le_refl a
  le_trans _ _ _ := UInt8.le_trans
  lt_iff_le_not_ge a b := by grind [UInt8.lt_iff_toNat_lt, UInt8.le_iff_toNat_le]
  le_antisymm _ _ := UInt8.le_antisymm
  le_total a b := UInt8.le_total a b
  toDecidableLE := inferInstance

abbrev Key := List UInt8

abbrev META_MAGIC : ℕ := 0x454D5442
abbrev META_OFF_MAGIC : ℕ := 0
abbrev META_OFF_ROOT : ℕ := 4
abbrev META_OFF_HEIGHT : ℕ := 12
abbrev META_OFF_NENTRIES : ℕ := 16

structure BTree where
  meta_page_id : PageId
  root_page_id : PageId
  deriving DecidableEq, Repr

namespace BTree

/-! ## Entries -/

variable {α : Type} (key : Key) (p : Page) (decode : List UInt8 → Except Fault α) (start : Key)
  (stop : Option Key) (t : BTree) (page_id : PageId)

/-- `Result::unwrap`: an `Err` becomes a panic. -/
def unwrap : Except Fault α → Except Fault α
  | .error (.err _) => .error .panic
  | x => x

def encode_leaf_entry (tid : TupleId) : List UInt8 :=
  le_bytes 2 key.length ++ (key ++ (le_bytes 8 tid.page_id ++ le_bytes 2 tid.slot_id))

def decode_leaf_entry (data : List UInt8) : Except Fault (Key × TupleId) :=
  if data.length < 12 then throw (.err (.Corruption "short btree leaf entry"))
  else do
    let key_len ← le_at 2 data 0
    if data.length < 2 + key_len + 10 then throw (.err (.Corruption "truncated btree leaf entry"))
    else do
      let key ← slice data 2 (2 + key_len)
      let page_id ← le_at 8 data (2 + key_len)
      let slot_id ← le_at 2 data (2 + key_len + 8)
      return (key, ⟨page_id, slot_id⟩)

def encode_internal_entry (child : PageId) : List UInt8 :=
  le_bytes 2 key.length ++ (key ++ le_bytes 8 child)

def decode_internal_entry (data : List UInt8) : Except Fault (Key × PageId) :=
  if data.length < 10 then throw (.err (.Corruption "short btree internal entry"))
  else do
    let key_len ← le_at 2 data 0
    if data.length < 2 + key_len + 8 then
      throw (.err (.Corruption "truncated btree internal entry"))
    else do
      let key ← slice data 2 (2 + key_len)
      let child ← le_at 8 data (2 + key_len)
      return (key, child)

/-- `&entry[2..2 + kl]` with `kl` the stored length. -/
def entry_key (entry : List UInt8) : Except Fault Key := do
  let kl ← le_at 2 entry 0
  slice entry 2 (2 + kl)

/-! ## Walking the slots of a page -/

/-- Whether a loop over slots goes on. -/
inductive Flow (β : Type) where
  | next (b : β)
  | stop (b : β)

/-- The loop `for i in 0..slot_count` over the used slots of a page, from slot `i` on with
`n` slots to go. `get` is how the source reads a tuple: `unwrap` or `?`. -/
def for_used {β : Type} (p : Page) (get : Except Fault (List UInt8) → Except Fault (List UInt8))
    (body : ℕ → List UInt8 → β → Except Fault (Flow β)) : ℕ → ℕ → β → Except Fault β
  | _, 0, b => .ok b
  | i, n + 1, b => do
    let used ← p.is_slot_used i
    if !used then for_used p get body (i + 1) n b
    else do
      let entry ← get (p.get_tuple i)
      match ← body i entry b with
      | .stop b' => .ok b'
      | .next b' => for_used p get body (i + 1) n b'

def find_in_leaf_body (_ : ℕ) (entry : List UInt8) (_ : Option TupleId) :
    Except Fault (Flow (Option TupleId)) := do
  let kl ← le_at 2 entry 0
  let existing ← slice entry 2 (2 + kl)
  if existing = key then do
    let pid ← le_at 8 entry (2 + kl)
    let sid ← le_at 2 entry (2 + kl + 8)
    return .stop (some ⟨pid, sid⟩)
  else if key < existing then return .stop none  -- sorted order: not present
  else return .next none

def find_in_leaf : Except Fault (Option TupleId) := do
  let n ← p.slot_count
  for_used p unwrap (find_in_leaf_body key) 0 n none

def insert_pos_body (i : ℕ) (entry : List UInt8) (_ : Option ℕ) :
    Except Fault (Flow (Option ℕ)) := do
  let k ← entry_key entry
  if key < k then return .stop (some i) else return .next none

/-- `leaf_insert_pos` and `internal_insert_pos`, which have one body: the first slot with a
larger key, or the slot count. -/
def insert_pos : Except Fault ℕ := do
  let n ← p.slot_count
  let pos ← for_used p unwrap (insert_pos_body key) 0 n none
  return pos.getD n

def leaf_insert_pos : Except Fault ℕ := insert_pos key p
def internal_insert_pos : Except Fault ℕ := insert_pos key p

def collect_body (_ : ℕ) (entry : List UInt8) (out : List α) : Except Fault (Flow (List α)) := do
  let e ← unwrap (decode entry)
  return .next (out ++ [e])

/-- The common form of `collect_leaf_entries` and `collect_internal_entries`. -/
def collect_entries (p : Page) :
    Except Fault (List α) := do
  let n ← p.slot_count
  for_used p unwrap (collect_body decode) 0 n []

def collect_leaf_entries : Except Fault (List (Key × TupleId)) :=
  collect_entries decode_leaf_entry p

def collect_internal_entries : Except Fault (List (Key × PageId)) :=
  collect_entries decode_internal_entry p

/-- The loop of `descend`: the first slot in `lo..hi` with a separator above the key. The
interval shrinks in every round, so `hi - lo` rounds are enough. -/
def descend_search (key : Key) (p : Page) : ℕ → ℕ → ℕ → Except Fault ℕ
  | 0, lo, _ => .ok lo
  | fuel + 1, lo, hi =>
    if lo < hi then do
      let mid := lo + (hi - lo) / 2
      let used ← p.is_slot_used mid
      if !used then descend_search key p fuel lo mid
      else do
        let entry ← unwrap (p.get_tuple mid)
        let sep ← entry_key entry
        if sep ≤ key then descend_search key p fuel (mid + 1) hi
        else descend_search key p fuel lo mid
    else .ok lo

/-- `descend`: the child to go to for `key`. -/
def descend : Except Fault PageId := do
  let slot_count ← p.slot_count
  if slot_count = 0 then p.btree_leftmost_child
  else do
    let lo ← descend_search key p slot_count 0 slot_count
    if lo = 0 then p.btree_leftmost_child
    else do
      let entry ← unwrap (p.get_tuple (lo - 1))
      let kl ← le_at 2 entry 0
      le_at 8 entry (2 + kl)

def is_leaf : Except Fault Bool := do
  let flags ← p.btree_flags
  return decide (flags &&& BTREE_FLAG_IS_LEAF ≠ 0)

def scan_body (_ : ℕ) (bytes : List UInt8) (acc : List (Key × TupleId) × Bool)
    : Except Fault (Flow (List (Key × TupleId) × Bool)) := do
  let (k, tid) ← decode_leaf_entry bytes
  if k < start then return .next acc
  else if stop.any (fun e => decide (e ≤ k)) then return .stop (acc.1, true)
  else return .next (acc.1 ++ [(k, tid)], false)

/-- The loop of `range_scan` over one leaf: what it adds, and whether it met `end`. -/
def scan_leaf (p : Page) :
    Except Fault (List (Key × TupleId) × Bool) := do
  let n ← p.slot_count
  for_used p id (scan_body start stop) 0 n ([], false)

/-! ## The tree -/

/-- `partition_point` on a list that is sorted by the predicate. -/
def partition_point (p : α → Bool) (l : List α) : ℕ := (l.takeWhile p).length

theorem insertIdx_partition_point (p : α → Bool) (l : List α) (x : α) :
    l.insertIdx (partition_point p l) x = l.takeWhile p ++ x :: l.dropWhile p := by
  unfold partition_point
  induction l with
  | nil => rfl
  | cons c l ih =>
    by_cases hc : p c = true
    · rw [List.takeWhile_cons_of_pos hc, List.dropWhile_cons_of_pos hc, List.length_cons,
        List.insertIdx_succ_cons, ih]
      rfl
    · rw [List.takeWhile_cons_of_neg hc, List.dropWhile_cons_of_neg hc]
      rfl

/-- `let sc = page.slot_count(); page.insert_tuple_at(sc, &e)?`. -/
def append_entry (e : List UInt8) (p : Page) : Except Fault Page := do
  let sc ← p.slot_count
  let (_, q) ← p.insert_tuple_at sc e
  return q

def insert_entry_at (pos : ℕ) (e : List UInt8) (p : Page) : Except Fault Page := do
  let (_, q) ← p.insert_tuple_at pos e
  return q

/-- Writing into `as_bytes_mut()` at a fixed offset. -/
def write_bytes (w off v : ℕ) (p : Page) : Except Fault Page := .ok ⟨store w p.data off v⟩

/-- The initial contents of the meta page. -/
def meta_ops (root_page_id : PageId) : List PageOp :=
  [write_bytes 4 META_OFF_MAGIC META_MAGIC, write_bytes 8 META_OFF_ROOT root_page_id,
    write_bytes 4 META_OFF_HEIGHT 0, write_bytes 8 META_OFF_NENTRIES 0]

def create : PoolM BTree := do
  let (meta_page_id, _) ← new_page
  let (root_page_id, root_fid) ← new_page
  edit root_fid [fun p => .ok (p.init_btree_page true true)]
  unpin_page root_page_id true
  edit_at meta_page_id (meta_ops root_page_id)
  return ⟨meta_page_id, root_page_id⟩

def «open» (meta_page_id : PageId) : PoolM BTree := do
  let (magic, root_page_id) ← read_at meta_page_id fun p =>
    .ok (load 4 p.data META_OFF_MAGIC, load 8 p.data META_OFF_ROOT)
  if magic ≠ META_MAGIC then throw (.err (.Corruption "invalid B+ tree meta page"))
  else return ⟨meta_page_id, root_page_id⟩

/-- One round of the loop in `lookup`: the answer, or the child to go to. -/
def lookup_step : Except Fault (Option TupleId ⊕ PageId) := do
  if ← is_leaf p then
    let result ← find_in_leaf key p
    return .inl result
  else
    let child ← descend key p
    return .inr child

def lookup_from (key : Key) : ℕ → PageId → PoolM (Option TupleId)
  | 0, _ => throw .diverge
  | fuel + 1, page_id => do
    match ← read_at page_id (lookup_step key) with
    | .inl result => return result
    | .inr child => lookup_from key fuel child

def lookup (key : Key) : PoolM (Option TupleId) := do
  let s ← get
  lookup_from key s.disk.len t.root_page_id

/-- One round of the first loop of `range_scan`: the child to go to, if it is not a leaf. -/
def find_leaf_step (p : Page) : Except Fault (Option PageId) := do
  if ← is_leaf p then return none
  else
    let c ← descend start p
    return some c

/-- The first loop of `range_scan`: the leaf that would contain `start`. -/
def find_leaf (start : Key) : ℕ → PageId → PoolM PageId
  | 0, _ => throw .diverge
  | fuel + 1, page_id => do
    match ← read_at page_id (find_leaf_step start) with
    | none => return page_id
    | some c => find_leaf start fuel c

/-- One round of the second loop: the next leaf, what is found, and whether it met `end`. -/
def scan_step (p : Page) :
    Except Fault (PageId × List (Key × TupleId) × Bool) := do
  let next ← p.btree_next_page
  let (found, ended) ← scan_leaf start stop p
  return (next, found, ended)

/-- The second loop: along the leaf chain until a key reaches `end`. -/
def scan_chain (start : Key) (stop : Option Key) :
    ℕ → PageId → List (Key × TupleId) → PoolM (List (Key × TupleId))
  | 0, _, _ => throw .diverge
  | fuel + 1, page_id, results => do
    let (next, found, ended) ← read_at page_id (scan_step start stop)
    if ended ∨ next = INVALID_PAGE_ID then return results ++ found
    else scan_chain start stop fuel next (results ++ found)

def range_scan (start : Key) (stop : Option Key) : PoolM (List (Key × TupleId)) := do
  let s ← get
  let page_id ← find_leaf start s.disk.len t.root_page_id
  scan_chain start stop s.disk.len page_id []

/-! ## Insertion -/

/-- What `leaf_insert` does to the page it splits: it keeps the first half. -/
def left_leaf_ops (old_flags : ℕ) (new_page_id : PageId) (es : List (Key × TupleId)) :
    List PageOp :=
  Page.clear_tuples ::
    (fun p => p.set_btree_flags (old_flags &&& (2 ^ 16 - 1 - BTREE_FLAG_IS_RIGHTMOST))) ::
    (fun p => p.set_btree_next_page new_page_id) ::
    es.map fun e => append_entry (encode_leaf_entry e.1 e.2)

/-- What `leaf_insert` does to the new page: it gets the second half. -/
def right_leaf_ops (old_next : PageId) (es : List (Key × TupleId)) : List PageOp :=
  (fun p => .ok (p.init_btree_page true false)) ::
    (fun p => p.set_btree_prev_page page_id) ::
    (fun p => p.set_btree_next_page old_next) ::
    es.map fun e => append_entry (encode_leaf_entry e.1 e.2)

/-- The second half of `leaf_insert`: the entries `all` go to the old page and a new one. -/
def split_leaf (all : List (Key × TupleId)) :
    PoolM (Option (Key × PageId)) := do
  let mid := all.length / 2
  match all[mid]? with
  | none => throw .panic
  | some (separator_key, _) => do
    let (new_page_id, new_fid) ← new_page
    let fid ← fetch_page page_id
    let old_next ← page fid Page.btree_next_page
    let old_flags ← page fid Page.btree_flags
    edit fid (left_leaf_ops old_flags new_page_id (all.take mid))
    unpin_page page_id true
    edit new_fid (right_leaf_ops page_id old_next (all.drop mid))
    unpin_page new_page_id true
    if old_next ≠ INVALID_PAGE_ID then
      edit_at old_next [fun p => p.set_btree_prev_page new_page_id]
      return some (separator_key, new_page_id)
    else return some (separator_key, new_page_id)

def leaf_insert (key : Key) (tid : TupleId) :
    PoolM (Option (Key × PageId)) := do
  let entry := encode_leaf_entry key tid
  let needed := SLOT_SIZE + entry.length
  let fid ← fetch_page page_id
  let pos ← page fid (leaf_insert_pos key)
  let has_space ← page fid fun p => .ok (decide (needed ≤ p.free_space))
  if has_space then do
    edit fid [insert_entry_at pos entry]
    unpin_page page_id true
    return none
  else do
    let existing ← page fid collect_leaf_entries
    unpin_page page_id false
    let ins := partition_point (fun e => decide (e.1 ≤ key)) existing
    split_leaf page_id (existing.insertIdx ins (key, tid))

/-- What `internal_insert` does to the page it splits. -/
def left_internal_ops (leftmost : PageId) (es : List (Key × PageId)) : List PageOp :=
  Page.clear_tuples :: (fun p => p.set_btree_leftmost_child leftmost) ::
    es.map fun e => append_entry (encode_internal_entry e.1 e.2)

/-- What `internal_insert` does to the new page. -/
def right_internal_ops (level : ℕ) (leftmost : PageId) (es : List (Key × PageId)) : List PageOp :=
  (fun p => .ok (p.init_btree_page false false)) :: (fun p => p.set_btree_level level) ::
    (fun p => p.set_btree_leftmost_child leftmost) ::
    es.map fun e => append_entry (encode_internal_entry e.1 e.2)

/-- The second half of `internal_insert`: `all[mid]` moves up, what follows it goes to a
new page. -/
def split_internal (page_id leftmost level : ℕ) (all : List (Key × PageId)) :
    PoolM (Option (Key × PageId)) := do
  let mid := all.length / 2
  match all[mid]? with
  | none => throw .panic
  | some (push_up_key, new_leftmost_right) => do
    edit_at page_id (left_internal_ops leftmost (all.take mid))
    let (new_page_id, new_fid) ← new_page
    edit new_fid (right_internal_ops level new_leftmost_right (all.drop (mid + 1)))
    unpin_page new_page_id true
    return some (push_up_key, new_page_id)

def internal_insert (sep_key : Key) (new_child : PageId) :
    PoolM (Option (Key × PageId)) := do
  let entry := encode_internal_entry sep_key new_child
  let needed := SLOT_SIZE + entry.length
  let fid ← fetch_page page_id
  let pos ← page fid (internal_insert_pos sep_key)
  let has_space ← page fid fun p => .ok (decide (needed ≤ p.free_space))
  if has_space then do
    edit fid [insert_entry_at pos entry]
    unpin_page page_id true
    return none
  else do
    let leftmost ← page fid Page.btree_leftmost_child
    let level ← page fid Page.btree_level
    let existing ← page fid collect_internal_entries
    unpin_page page_id false
    let ins := partition_point (fun e => decide (e.1 ≤ sep_key)) existing
    split_internal page_id leftmost level (existing.insertIdx ins (sep_key, new_child))

def insert_recursive (key : Key) (tid : TupleId) : ℕ → PageId → PoolM (Option (Key × PageId))
  | 0, _ => throw .diverge
  | fuel + 1, page_id => do
    let leaf ← read_at page_id is_leaf
    if leaf then leaf_insert page_id key tid
    else do
      let child ← read_at page_id (descend key)
      match ← insert_recursive key tid fuel child with
      | some (sep_key, new_child) => internal_insert page_id sep_key new_child
      | none => return none

def new_root_ops (old_root_level : ℕ) (root_page_id : PageId) (sep_key : Key)
    (new_page_id : PageId) : List PageOp :=
  [fun p => .ok (p.init_btree_page false true),
    fun p => p.set_btree_level ((old_root_level + 1) % 2 ^ 16),
    fun p => p.set_btree_leftmost_child root_page_id,
    insert_entry_at 0 (encode_internal_entry sep_key new_page_id)]

/-- The root was split: a new root goes over the two halves. -/
def grow_root (root_page_id : PageId) (sep_key : Key) (new_page_id : PageId) : PoolM PageId := do
  let old_root_level ← read_at root_page_id Page.btree_level
  edit_at root_page_id [fun p => do
    let flags ← p.btree_flags
    p.set_btree_flags (flags &&& (2 ^ 16 - 1 - BTREE_FLAG_IS_ROOT))]
  let (new_root_id, new_root_fid) ← new_page
  edit new_root_fid (new_root_ops old_root_level root_page_id sep_key new_page_id)
  unpin_page new_root_id true
  return new_root_id

def persist_root : PoolM Unit :=
  edit_at t.meta_page_id [write_bytes 8 META_OFF_ROOT t.root_page_id]

/-- `insert`: the tree it returns is `self` afterwards. When `persist_root` fails the caller's
`self` already has the new root, but an `Err` is all such a caller sees. -/
def insert (key : Key) (tid : TupleId) : PoolM BTree := do
  let s ← get
  match ← insert_recursive key tid s.disk.len t.root_page_id with
  | none => return t
  | some (sep_key, new_page_id) => do
    let new_root_id ← grow_root t.root_page_id sep_key new_page_id
    let t' := { t with root_page_id := new_root_id }
    persist_root t'
    return t'

end BTree

end Oigrap.Storage
