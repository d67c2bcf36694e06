/-
One page of the B+ tree: what the page functions of `btree.rs` compute.

`IsNode p es flags next leftmost` says that page `p` is a tree node with the encoded
entries `es` in slot order. Under it every page function of the source is a function of
the list: `descend` and the insertion positions count the keys that are not above the
search key, `find_in_leaf` is a search in the list, the collecting loops return it. The
changing functions are edits of the list and of the three cells.
-/
import Oigrap.Lib.BPlusTree
import Oigrap.Storage.BTree

namespace Oigrap.Storage.BTree

open ByteMem Page BufferPool List

/-- The bytes a list of entries takes in a page, slots included. -/
def footprint (es : List (List UInt8)) : ℕ := (es.map fun e => SLOT_SIZE + e.length).sum

/-- `NODE_CAPACITY`: usable bytes per node page. -/
abbrev NODE_CAPACITY : ℕ := PAGE_SIZE - PAGE_HEADER_SIZE - BTREE_SPECIAL_SIZE

structure IsNode (p : Page) (es : List (List UInt8)) (flags next leftmost : ℕ) : Prop where
  slotted : Slotted p (es.map some)
  special : p.special = 8164
  free : p.free_space + footprint es = NODE_CAPACITY
  flags : load 2 p.data 8164 = flags
  next : load 8 p.data 8176 = next
  leftmost : load 8 p.data 8184 = leftmost

variable {flags next leftmost : ℕ} {p : Page} {es : List (List UInt8)}

section Cells

variable (h : IsNode p es flags next leftmost)

include h

theorem IsNode.special_get {w off : ℕ} (hoff : off + w ≤ 28) :
    Page.special_get w p off = .ok (load w p.data (8164 + off)) := by
  rw [Page.special_get, h.special, if_pos (by lia)]
  rfl

theorem IsNode.btree_flags_eq : p.btree_flags = .ok flags := by
  rw [btree_flags, h.special_get (by decide), ← h.flags]
  rfl

theorem IsNode.btree_next_page_eq : p.btree_next_page = .ok next := by
  rw [btree_next_page, h.special_get (by decide), ← h.next]
  rfl

theorem IsNode.btree_leftmost_child_eq : p.btree_leftmost_child = .ok leftmost := by
  rw [btree_leftmost_child, h.special_get (by decide), ← h.leftmost]
  rfl

theorem IsNode.btree_level_eq : ∃ l, p.btree_level = .ok l :=
  ⟨_, h.special_get (by decide)⟩

theorem IsNode.is_leaf_eq : is_leaf p = .ok (decide (flags &&& BTREE_FLAG_IS_LEAF ≠ 0)) := by
  rw [is_leaf, h.btree_flags_eq]
  rfl

/-- Changing one cell of the special space. -/
theorem IsNode.special_put {w off v flags' next' leftmost' : ℕ} (hoff : off + w ≤ 28)
    (h1 : load 2 (store w p.data (8164 + off) v) 8164 = flags')
    (h2 : load 8 (store w p.data (8164 + off) v) 8176 = next')
    (h3 : load 8 (store w p.data (8164 + off) v) 8184 = leftmost') :
    ∃ q, Page.special_put w p off v = .ok q ∧ IsNode q es flags' next' leftmost' := by
  obtain ⟨q, hq, hs, hf, hsp, hd⟩ := special_put_spec (v := v) h.slotted
    (w := w) (by rw [h.special]; show 8164 + off + w ≤ 8192; omega)
  rw [h.special] at hd hsp
  rw [← hd] at h1 h2 h3
  exact ⟨q, hq, hs, hsp, by rw [hf]; exact h.free, h1, h2, h3⟩

theorem IsNode.set_flags {f : ℕ} (hf : f < 2 ^ 16) :
    ∃ q, p.set_btree_flags f = .ok q ∧ IsNode q es f next leftmost := by
  refine h.special_put (by decide : BT_FLAGS + 2 ≤ 28) ?_ ?_ ?_
  · exact load_store_self _ _ (by norm_num at hf ⊢; exact hf)
  · rw [load_store_of_disjoint (by lia), h.next]
  · rw [load_store_of_disjoint (by lia), h.leftmost]

theorem IsNode.set_next {n : ℕ} (hn : n < 2 ^ 64) :
    ∃ q, p.set_btree_next_page n = .ok q ∧ IsNode q es flags n leftmost := by
  refine h.special_put (by decide : BT_NEXT + 8 ≤ 28) ?_ ?_ ?_
  · rw [load_store_of_disjoint (by lia), h.flags]
  · exact load_store_self _ _ (by norm_num at hn ⊢; exact hn)
  · rw [load_store_of_disjoint (by lia), h.leftmost]

theorem IsNode.set_leftmost {n : ℕ} (hn : n < 2 ^ 64) :
    ∃ q, p.set_btree_leftmost_child n = .ok q ∧ IsNode q es flags next n := by
  refine h.special_put (by decide : BT_LEFTMOST + 8 ≤ 28) ?_ ?_ ?_
  · rw [load_store_of_disjoint (by lia), h.flags]
  · rw [load_store_of_disjoint (by lia), h.next]
  · exact load_store_self _ _ (by norm_num at hn ⊢; exact hn)

/-- The level and the back link are cells that no search reads. -/
theorem IsNode.set_unread {w off v : ℕ} (h2 : 2 ≤ off) (hoff : off + w ≤ 12) :
    ∃ q, Page.special_put w p off v = .ok q ∧ IsNode q es flags next leftmost := by
  refine h.special_put (by omega) ?_ ?_ ?_
  · rw [load_store_of_disjoint (by omega), h.flags]
  · rw [load_store_of_disjoint (by omega), h.next]
  · rw [load_store_of_disjoint (by omega), h.leftmost]

theorem IsNode.set_level (l : ℕ) :
    ∃ q, p.set_btree_level l = .ok q ∧ IsNode q es flags next leftmost :=
  h.set_unread (by decide) (by decide)

theorem IsNode.set_prev (pid : PageId) :
    ∃ q, p.set_btree_prev_page pid = .ok q ∧ IsNode q es flags next leftmost :=
  h.set_unread (by decide) (by decide)

theorem IsNode.of_frame {q : Page} {es' : List (List UInt8)} (hs : Slotted q (es'.map some))
    (hfree : q.free_space + footprint es' = NODE_CAPACITY) (hfr : SameFrame p q) :
    IsNode q es' flags next leftmost := by
  have ht : ∀ w off, 8164 ≤ off → load w q.data off = load w p.data off := by
    intro w off ho
    exact load_congr (fun i h1 _ => hfr.tail i (by rw [h.special]; omega))
  refine ⟨hs, hfr.special_eq.trans h.special, hfree, ?_, ?_, ?_⟩
  · rw [ht _ _ (by decide), h.flags]
  · rw [ht _ _ (by decide), h.next]
  · rw [ht _ _ (by decide), h.leftmost]

theorem IsNode.clear : ∃ q, p.clear_tuples = .ok q ∧ IsNode q [] flags next leftmost := by
  obtain ⟨q, hq, hs, hf, hfr⟩ := clear_tuples_spec h.slotted
  refine ⟨q, hq, h.of_frame hs ?_ hfr⟩
  rw [hf, h.special]
  rfl

theorem IsNode.insert {pos : ℕ} {e : List UInt8} (hpos : pos ≤ es.length)
    (hroom : SLOT_SIZE + e.length ≤ p.free_space) :
    ∃ q, insert_entry_at pos e p = .ok q ∧ IsNode q (es.insertIdx pos e) flags next leftmost := by
  have hpos' : pos ≤ (es.map some).length := by
    rwa [length_map]
  obtain ⟨q, hq, hs, hf, hfr⟩ := insert_tuple_at_spec h.slotted hpos' hroom
  refine ⟨q, ?_, h.of_frame ?_ ?_ hfr⟩
  · rw [insert_entry_at, hq]
    rfl
  · rwa [map_insertIdx]
  · have hsum : footprint (es.insertIdx pos e) = SLOT_SIZE + e.length + footprint es := by
      have hperm := (perm_insertIdx e es hpos).map (fun e => SLOT_SIZE + e.length)
      rw [footprint, hperm.sum_nat]
      rfl
    have hfree := h.free
    lia

theorem IsNode.append {e : List UInt8} (hroom : SLOT_SIZE + e.length ≤ p.free_space) :
    ∃ q, append_entry e p = .ok q ∧ IsNode q (es ++ [e]) flags next leftmost := by
  obtain ⟨q, hq, hn⟩ := h.insert (le_rfl) hroom
  rw [insertIdx_length_self] at hn
  refine ⟨q, ?_, hn⟩
  rwa [append_entry, slot_count_eq h.slotted, length_map]

end Cells

variable {get : Except Fault (List UInt8) → Except Fault (List UInt8)}

theorem IsNode.append_all {flags next leftmost : ℕ} (h : IsNode p es flags next leftmost)
    (new : List (List UInt8)) (hroom : footprint (es ++ new) ≤ NODE_CAPACITY) :
    ∃ q, run_ops (new.map append_entry) p = .ok q ∧ IsNode q (es ++ new) flags next leftmost := by
  induction new generalizing p es with
  | nil =>
    rw [append_nil]
    exact ⟨p, rfl, h⟩
  | cons e new ih =>
    have hsum : footprint (es ++ e :: new) = footprint es + (SLOT_SIZE + e.length) + footprint new := by
      simp only [footprint, map_append, sum_append, map_cons, sum_cons]
      omega
    have hfree := h.free
    obtain ⟨q, hq, hn⟩ := h.append (e := e) (by lia)
    obtain ⟨q', hq', hn'⟩ := ih hn (by rw [append_assoc]; exact hroom)
    refine ⟨q', ?_, by rwa [append_assoc] at hn'⟩
    rwa [map_cons, run_ops, hq]

theorem init_isNode (p : Page) (is_leaf is_root : Bool) :
    IsNode (p.init_btree_page is_leaf is_root) []
      ((if is_root then 1 else 0) ||| (if is_leaf then 2 else 0) ||| 4)
      INVALID_PAGE_ID INVALID_PAGE_ID := by
  obtain ⟨h1, h2, h3, h4, h5, h6⟩ := init_btree_page_spec p is_leaf is_root
  exact ⟨h1, h2, by rw [h3]; rfl, h4, h5, h6⟩

/-! ## Entries -/

/-- The widths of a stored key and location. -/
structure Storable (key : Key) (tid : TupleId) : Prop where
  key : key.length < 2 ^ 16
  page : tid.page_id < 2 ^ 64
  slot : tid.slot_id < 2 ^ 16

theorem length_encode_leaf_entry (key : Key) (tid : TupleId) :
    (encode_leaf_entry key tid).length = key.length + 12 := by
  simp only [encode_leaf_entry, length_append, length_le_bytes]
  omega

theorem length_encode_internal_entry (key : Key) (child : PageId) :
    (encode_internal_entry key child).length = key.length + 10 := by
  simp only [encode_internal_entry, length_append, length_le_bytes]
  omega

section Codec

variable {key : Key} {tid : TupleId} {child : PageId}

/-- What follows the length field of any entry. -/
theorem entry_len (hk : key.length < 2 ^ 16) (rest : List UInt8) :
    le_at 2 (le_bytes 2 key.length ++ (key ++ rest)) 0 = .ok key.length :=
  le_at_here _ (by norm_num at hk ⊢; exact hk)

theorem entry_slice (rest : List UInt8) :
    slice (le_bytes 2 key.length ++ (key ++ rest)) 2 (2 + key.length) = .ok key := by
  rw [slice_skip (length_le_bytes 2 _) (le_rfl) (Nat.le_add_right _ _)]
  exact slice_here _ (Nat.add_sub_cancel_left _ _)

theorem entry_field (w off : ℕ) (rest : List UInt8) :
    le_at w (le_bytes 2 key.length ++ (key ++ rest)) (2 + key.length + off) = le_at w rest off := by
  rw [le_at_skip (length_le_bytes 2 _) (by omega), le_at_skip rfl (by omega)]
  congr 1
  omega

theorem leaf_page (ht : Storable key tid) :
    le_at 8 (encode_leaf_entry key tid) (2 + key.length) = .ok tid.page_id := by
  rw [encode_leaf_entry, ← add_zero (2 + key.length), entry_field]
  exact le_at_here _ (by have := ht.page; norm_num at this ⊢; exact this)

theorem leaf_slot (ht : Storable key tid) :
    le_at 2 (encode_leaf_entry key tid) (2 + key.length + 8) = .ok tid.slot_id := by
  rw [encode_leaf_entry, entry_field, le_at_skip (length_le_bytes 8 _) (le_rfl)]
  exact le_at_all (by have := ht.slot; norm_num at this ⊢; exact this)

theorem entry_key_leaf (ht : Storable key tid) :
    entry_key (encode_leaf_entry key tid) = .ok key := by
  rw [entry_key, encode_leaf_entry, entry_len ht.key]
  exact entry_slice _

theorem entry_key_internal (child : PageId) (hk : key.length < 2 ^ 16) :
    entry_key (encode_internal_entry key child) = .ok key := by
  rw [entry_key, encode_internal_entry, entry_len hk]
  exact entry_slice _

theorem internal_child (hc : child < 2 ^ 64) :
    le_at 8 (encode_internal_entry key child) (2 + key.length) = .ok child := by
  rw [encode_internal_entry, ← add_zero (2 + key.length), entry_field]
  exact le_at_all (by norm_num at hc ⊢; exact hc)

theorem decode_encode_leaf (ht : Storable key tid) :
    decode_leaf_entry (encode_leaf_entry key tid) = .ok (key, tid) := by
  have hlen := length_encode_leaf_entry key tid
  rw [decode_leaf_entry, if_neg (by omega)]
  have h1 : le_at 2 (encode_leaf_entry key tid) 0 = .ok key.length := entry_len ht.key _
  have h2 : slice (encode_leaf_entry key tid) 2 (2 + key.length) = .ok key := entry_slice _
  simp only [h1, bind, Except.bind]
  rw [if_neg (by omega), h2, leaf_page ht, leaf_slot ht]
  rfl

theorem decode_encode_internal (hk : key.length < 2 ^ 16) (hc : child < 2 ^ 64) :
    decode_internal_entry (encode_internal_entry key child) = .ok (key, child) := by
  have hlen := length_encode_internal_entry key child
  rw [decode_internal_entry, if_neg (by omega)]
  have h1 : le_at 2 (encode_internal_entry key child) 0 = .ok key.length := entry_len hk _
  have h2 : slice (encode_internal_entry key child) 2 (2 + key.length) = .ok key := entry_slice _
  simp only [h1, bind, Except.bind]
  rw [if_neg (by omega), h2, internal_child hc]
  rfl

end Codec

/-! ## Loops over the slots -/

/-- `for_used` on a list of tuples. -/
def walk {β : Type} (body : ℕ → List UInt8 → β → Except Fault (Flow β)) :
    ℕ → List (List UInt8) → β → Except Fault β
  | _, [], b => .ok b
  | i, e :: es, b => do
    match ← body i e b with
    | .stop b' => .ok b'
    | .next b' => walk body (i + 1) es b'

/-- The loop over the slots of a node is the loop over its entries. -/
theorem for_used_eq {β : Type} (h : Slotted p (es.map some)) (hget : ∀ bs, get (.ok bs) = .ok bs)
    (body : ℕ → List UInt8 → β → Except Fault (Flow β)) (suf : List (List UInt8)) :
    ∀ (pre : List (List UInt8)) (b : β), es = pre ++ suf →
      for_used p get body pre.length suf.length b = walk body pre.length suf b := by
  induction suf with
  | nil =>
    intro pre b _
    rfl
  | cons e suf ih =>
    intro pre b hes
    have hslot : (es.map some)[pre.length]? = some (some e) := by
      rw [hes, map_append, getElem?_append_right (by simp)]
      simp
    rw [length_cons, for_used, is_slot_used_eq h, hslot]
    simp only [bind, Except.bind, Option.join_some, Option.isSome_some, Bool.not_true,
      Bool.false_eq_true, if_false]
    rw [get_tuple_some h hslot, hget, walk]
    simp only [bind, Except.bind]
    cases body pre.length e b with
    | error x => rfl
    | ok fl =>
      cases fl with
      | stop b' => rfl
      | next b' =>
        have := ih (pre ++ [e]) b' (by rw [hes, append_assoc]; rfl)
        rwa [length_append, length_singleton] at this

theorem for_used_all {β : Type} (h : Slotted p (es.map some)) (hget : ∀ bs, get (.ok bs) = .ok bs)
    (body : ℕ → List UInt8 → β → Except Fault (Flow β)) (b : β)
    : (do let n ← p.slot_count; for_used p get body 0 n b) = walk body 0 es b := by
  rw [slot_count_eq h, length_map]
  exact for_used_eq h hget body es [] b rfl

/-! ## The page functions on entries -/

/-- A leaf's entries as its page stores them. -/
def leaf_bytes (es : List (Key × TupleId)) : List (List UInt8) :=
  es.map fun e => encode_leaf_entry e.1 e.2

/-- A branch's separators and children as its page stores them. -/
def internal_bytes (es : List (Key × PageId)) : List (List UInt8) :=
  es.map fun e => encode_internal_entry e.1 e.2

/-- Both insertion positions count the keys that are not above the new one. -/
theorem insert_pos_eq {α : Type} {es : List (Key × α)} {enc : Key × α → List UInt8}
    (h : Slotted p ((es.map enc).map some)) (key : Key)
    (henc : ∀ e ∈ es, entry_key (enc e) = .ok e.1) :
    insert_pos key p = .ok (partition_point (fun e => decide (e.1 ≤ key)) es) := by
  -- the loop returns the index of the first larger key, if there is one
  have hwalk : ∀ (suf : List (Key × α)) (i : ℕ), (∀ e ∈ suf, entry_key (enc e) = .ok e.1) →
      ∃ o : Option ℕ, walk (insert_pos_body key) i (suf.map enc) none = .ok o
        ∧ o.getD (i + suf.length) = i + partition_point (fun e => decide (e.1 ≤ key)) suf := by
    intro suf
    induction suf with
    | nil =>
      intro i _
      exact ⟨none, rfl, rfl⟩
    | cons e suf ih =>
      intro i henc
      rw [map_cons, walk, insert_pos_body]
      simp only [henc e mem_cons_self, bind, Except.bind]
      split_ifs with hlt
      · refine ⟨some i, rfl, ?_⟩
        have : decide (e.1 ≤ key) = false := decide_eq_false (not_le.mpr hlt)
        simp [partition_point, this]
      · obtain ⟨o, ho, hpos⟩ := ih (i + 1) (fun e he => henc e (mem_cons_of_mem _ he))
        refine ⟨o, ho, ?_⟩
        have hle : decide (e.1 ≤ key) = true := decide_eq_true (not_lt.mp hlt)
        rw [length_cons, ← add_assoc, Nat.add_right_comm, hpos]
        simp only [partition_point, takeWhile_cons, hle, if_true, length_cons]
        omega
  obtain ⟨o, ho, hpos⟩ := hwalk es 0 henc
  have hloop : for_used p unwrap (insert_pos_body key) 0 (es.map enc).length none = .ok o :=
    (for_used_eq h (fun _ => rfl) (insert_pos_body key) (es.map enc) [] none rfl).trans ho
  rw [length_map] at hloop
  rw [insert_pos, slot_count_eq h, length_map, length_map]
  simp only [bind, Except.bind, hloop, pure, Except.pure]
  rw [zero_add, zero_add] at hpos
  rw [hpos]

theorem collect_entries_eq {α : Type} {es : List (Key × α)} {enc : Key × α → List UInt8}
    {dec : List UInt8 → Except Fault (Key × α)} (h : Slotted p ((es.map enc).map some))
    (henc : ∀ e ∈ es, dec (enc e) = .ok e) : collect_entries dec p = .ok es := by
  have hwalk : ∀ (suf : List (Key × α)) (i : ℕ) (out : List (Key × α)),
      (∀ e ∈ suf, dec (enc e) = .ok e) →
      walk (collect_body dec) i (suf.map enc) out = .ok (out ++ suf) := by
    intro suf
    induction suf with
    | nil =>
      intro i out _
      rw [append_nil]
      rfl
    | cons e suf ih =>
      intro i out henc
      rw [map_cons, walk, collect_body, henc e mem_cons_self]
      have := ih (i + 1) (out ++ [e]) (fun e he => henc e (mem_cons_of_mem _ he))
      rwa [append_assoc] at this
  rw [collect_entries, for_used_all h (fun _ => rfl), hwalk es 0 [] henc, nil_append]

/-- `start <= k` and `k < end`. -/
def in_range (start : Key) (stop : Option Key) (e : Key × TupleId) : Bool :=
  decide (start ≤ e.1) && stop.all (fun s => decide (e.1 < s))

/-- Not before `start` and not before `end`: where a scan stops. -/
def past (start : Key) (stop : Option Key) (e : Key × TupleId) : Bool :=
  decide (start ≤ e.1) && stop.any (fun s => decide (s ≤ e.1))

section Leaf

variable {es : List (Key × TupleId)} (h : IsNode p (leaf_bytes es) flags next leftmost)
  (hst : ∀ e ∈ es, Storable e.1 e.2)

include h hst

theorem leaf_insert_pos_eq (key : Key) :
    leaf_insert_pos key p = .ok (partition_point (fun e => decide (e.1 ≤ key)) es) :=
  insert_pos_eq h.slotted key (fun e he => entry_key_leaf (hst e he))

theorem collect_leaf_entries_eq : collect_leaf_entries p = .ok es :=
  collect_entries_eq h.slotted (fun e he => decode_encode_leaf (hst e he))

/-- In a sorted leaf the search finds the first entry with the key. -/
theorem find_in_leaf_eq (hs : es.Pairwise (fun a b => a.1 ≤ b.1)) (key : Key) :
    find_in_leaf key p = .ok ((es.find? (fun e => decide (e.1 = key))).map Prod.snd) := by
  rw [find_in_leaf, for_used_all h.slotted (fun _ => rfl)]
  clear h
  generalize 0 = i
  unfold leaf_bytes
  induction es generalizing i with
  | nil => rfl
  | cons e es ih =>
    obtain ⟨hle, hs'⟩ := pairwise_cons.mp hs
    have hste := hst e mem_cons_self
    have h1 : le_at 2 (encode_leaf_entry e.1 e.2) 0 = .ok e.1.length := entry_len hste.key _
    have h2 : slice (encode_leaf_entry e.1 e.2) 2 (2 + e.1.length) = .ok e.1 := entry_slice _
    rw [map_cons, walk, find_in_leaf_body]
    simp only [h1, h2, bind, Except.bind]
    by_cases heq : e.1 = key
    · rw [if_pos heq, leaf_page hste, leaf_slot hste]
      simp [heq, pure, Except.pure]
    · rw [if_neg heq, find?_cons_of_neg (by simpa using heq)]
      by_cases hlt : key < e.1
      · -- past the key: nothing further right can have it
        rw [if_pos hlt]
        have hnone : es.find? (fun e => decide (e.1 = key)) = none := by
          rw [find?_eq_none]
          intro x hx
          have := hlt.trans_le (hle x hx)
          simpa using this.ne'
        rw [hnone]
        rfl
      · rw [if_neg hlt]
        exact ih (fun e he => hst e (mem_cons_of_mem _ he)) hs' (i + 1)

/-- In a sorted leaf the scan loop adds the entries in range, and stops when one is past it. -/
theorem scan_leaf_eq (hs : es.Pairwise (fun a b => a.1 ≤ b.1)) (start : Key) (stop : Option Key) :
    scan_leaf start stop p = .ok (es.filter (in_range start stop), es.any (past start stop)) := by
  have hwalk : ∀ (suf : List (Key × TupleId)) (i : ℕ) (acc : List (Key × TupleId)),
      (∀ e ∈ suf, Storable e.1 e.2) → suf.Pairwise (fun a b => a.1 ≤ b.1) →
      walk (scan_body start stop) i (leaf_bytes suf) (acc, false)
        = .ok (acc ++ suf.filter (in_range start stop), suf.any (past start stop)) := by
    intro suf
    induction suf with
    | nil =>
      simp [leaf_bytes, walk]
    | cons e suf ih =>
      intro i acc hst hs
      obtain ⟨hle, hs'⟩ := pairwise_cons.mp hs
      have ih' := fun acc => ih (i + 1) acc (fun e he => hst e (mem_cons_of_mem _ he)) hs'
      simp only [leaf_bytes, map_cons] at ih' ⊢
      rw [walk, scan_body, decode_encode_leaf (hst e mem_cons_self)]
      simp only [bind, Except.bind]
      by_cases hlt : e.1 < start
      · have h1 : in_range start stop e = false := by simp [in_range, hlt]
        have h2 : past start stop e = false := by simp [past, hlt]
        rw [if_pos hlt, filter_cons_of_neg (by simp [h1]), any_cons, h2, Bool.false_or]
        exact ih' acc
      · rw [if_neg hlt]
        cases hstop : stop.any (fun s => decide (s ≤ e.1)) with
        | true =>
          -- the rest of the leaf is past the end as well
          have hpast : past start stop e = true := by simp [past, not_lt.mp hlt, hstop]
          have hnone : (e :: suf).filter (in_range start stop) = [] := by
            rw [filter_eq_nil_iff]
            intro x hx
            have hex : e.1 ≤ x.1 := by
              rcases mem_cons.mp hx with rfl | hx
              · exact le_refl _
              · exact hle x hx
            cases stop with
            | none => cases hstop
            | some b =>
              have hb : b ≤ x.1 := (by simpa using hstop : b ≤ e.1).trans hex
              simp [in_range, hb]
          rw [hnone, any_cons, hpast, append_nil]
          rfl
        | false =>
          have h1 : in_range start stop e = true := by
            cases stop with
            | none => simp [in_range, not_lt.mp hlt]
            | some b =>
              have hb : e.1 < b := by simpa using hstop
              simp [in_range, not_lt.mp hlt, hb]
          have h2 : past start stop e = false := by simp [past, hstop]
          rw [filter_cons_of_pos h1, any_cons, h2, Bool.false_or]
          have := ih' (acc ++ [e])
          rwa [append_assoc] at this
  rw [scan_leaf, for_used_all h.slotted (fun _ => rfl)]
  have := hwalk es 0 [] hst hs
  rwa [nil_append] at this

end Leaf

section Internal

open BPlusTree

variable {es : List (Key × PageId)} (h : IsNode p (internal_bytes es) flags next leftmost)
  (hst : ∀ e ∈ es, e.1.length < 2 ^ 16 ∧ e.2 < 2 ^ 64)

include h hst

theorem internal_insert_pos_eq (key : Key) :
    internal_insert_pos key p = .ok (partition_point (fun e => decide (e.1 ≤ key)) es) :=
  insert_pos_eq h.slotted key (fun e he => entry_key_internal _ (hst e he).1)

theorem collect_internal_entries_eq : collect_internal_entries p = .ok es :=
  collect_entries_eq h.slotted (fun e he => decode_encode_internal (hst e he).1 (hst e he).2)

omit h hst in
theorem internal_slot {i : ℕ} (hi : i < es.length) :
    ((internal_bytes es).map some)[i]? = some (some (encode_internal_entry es[i].1 es[i].2)) := by
  simp [internal_bytes, hi]

/-- The binary search: what is left of the result is not above the key, the rest is. -/
theorem descend_search_eq (hs : (es.map Prod.fst).Pairwise (· ≤ ·)) (key : Key) (fuel : ℕ) :
    ∀ lo hi, hi ≤ es.length → hi ≤ lo + fuel → lo ≤ hi →
      (∀ i (hi' : i < es.length), i < lo → es[i].1 ≤ key) →
      (∀ i (hi' : i < es.length), hi ≤ i → key < es[i].1) →
      ∃ n, descend_search key p fuel lo hi = .ok n ∧ n ≤ es.length
        ∧ (∀ i (hi' : i < es.length), i < n → es[i].1 ≤ key)
        ∧ ∀ i (hi' : i < es.length), n ≤ i → key < es[i].1 := by
  induction fuel with
  | zero =>
    intro lo hi hhi hf hle h1 h2
    have : lo = hi := by omega
    exact ⟨lo, rfl, by omega, h1, by rw [this]; exact h2⟩
  | succ fuel ih =>
    intro lo hi hhi hf hle h1 h2
    unfold descend_search
    split_ifs with hlt
    · have hmid : lo + (hi - lo) / 2 < es.length := by omega
      have hslot := internal_slot hmid
      have hkey := entry_key_internal es[lo + (hi - lo) / 2].2
        (hst _ (getElem_mem hmid)).1
      have hmono : ∀ i j (hi : i < es.length) (hj : j < es.length), i ≤ j → es[i].1 ≤ es[j].1 := by
        intro i j hi hj hij
        rcases Nat.eq_or_lt_of_le hij with rfl | hij
        · exact le_refl _
        · have := pairwise_iff_getElem.mp hs i j (by simpa using hi) (by simpa using hj) hij
          simpa using this
      simp only [is_slot_used_eq h.slotted, hslot, get_tuple_some h.slotted hslot, unwrap, hkey,
        bind, Except.bind, Option.join_some, Option.isSome_some, Bool.not_true, Bool.false_eq_true,
        if_false]
      by_cases hle' : es[lo + (hi - lo) / 2].1 ≤ key
      · rw [if_pos hle']
        refine ih _ hi hhi (by omega) (by omega) ?_ h2
        intro i hi' hlt'
        exact (hmono i _ hi' hmid (by omega)).trans hle'
      · rw [if_neg hle']
        refine ih lo _ (by omega) (by omega) (by omega) h1 ?_
        intro i hi' hge
        exact (not_le.mp hle').trans_le (hmono _ i hmid hi' hge)
    · have : lo = hi := by omega
      exact ⟨lo, rfl, by omega, h1, by rw [this]; exact h2⟩

omit h hst in
/-- The child after `n` separators that are not above the key is the one `pick` opens. -/
theorem pick_focus_eq (key : Key) {c : PageId} {n : ℕ} (hn : n ≤ es.length)
    (h1 : ∀ i (hi : i < es.length), i < n → es[i].1 ≤ key)
    (h2 : ∀ i (hi : i < es.length), n ≤ i → key < es[i].1) :
    (kids c es)[n]? = some (pick key c es).focus := by
  induction es generalizing c n with
  | nil =>
    have : n = 0 := by simpa using hn
    subst this
    rfl
  | cons e es ih =>
    obtain ⟨s, d⟩ := e
    unfold pick
    cases n with
    | zero =>
      have hlt : key < s := h2 0 (by simp) (le_rfl)
      rw [if_pos hlt]
      rfl
    | succ n =>
      have hle : s ≤ key := h1 0 (by simp) (Nat.succ_pos _)
      rw [if_neg (not_lt.mpr hle)]
      refine ih (c := d) (n := n) (by simpa using hn) ?_ ?_
      · intro i hi hlt
        exact h1 (i + 1) (by simpa using hi) (by omega)
      · intro i hi hge
        exact h2 (i + 1) (by simpa using hi) (by omega)

/-- **`descend`** takes the child `pick` opens. -/
theorem descend_eq (hs : (es.map Prod.fst).Pairwise (· ≤ ·)) (key : Key) :
    descend key p = .ok (pick key leftmost es).focus := by
  obtain ⟨n, hn, hle, h1, h2⟩ := descend_search_eq h hst hs key es.length 0 es.length
    (le_rfl) (by omega) (Nat.zero_le _) (fun i _ hi => absurd hi (Nat.not_lt_zero _))
    (fun i hi hge => absurd hge (by omega))
  have hfocus := pick_focus_eq key (c := leftmost) hle h1 h2
  have hlen : (internal_bytes es).length = es.length := by simp [internal_bytes]
  rw [descend, slot_count_eq h.slotted, length_map, hlen]
  simp only [bind, Except.bind, hn]
  cases n with
  | zero =>
    have h0 : (pick key leftmost es).focus = leftmost := (Option.some.inj hfocus).symm
    rw [h0, h.btree_leftmost_child_eq]
    simp
  | succ n =>
    rw [if_neg (by omega), if_neg (Nat.succ_ne_zero n), Nat.add_sub_cancel]
    have hi : n < es.length := by omega
    have hslot := internal_slot hi
    have hchild : es[n].2 = (pick key leftmost es).focus := by
      rw [kids, getElem?_cons_succ, getElem?_map, getElem?_eq_getElem hi] at hfocus
      exact Option.some.inj hfocus
    have hste := hst _ (getElem_mem hi)
    have hl : le_at 2 (encode_internal_entry es[n].1 es[n].2) 0 = .ok es[n].1.length :=
      entry_len hste.1 _
    rw [get_tuple_some h.slotted hslot]
    simp only [unwrap, hl]
    rw [internal_child hste.2, hchild]

end Internal

end Oigrap.Storage.BTree
