/-
The pages of an index hold a B+ tree, and `insert` inserts into it.

`Holds` relates the contents of the file to a tree of the library: a leaf's page stores
its entries, a branch's page stores its separators and the page ids of its children, and
the identity of a node is its page id. `Chained` says that the leaves are linked left to
right. Both look at the pages of the tree only, so they survive whatever happens to other
pages of the same file.

The simulation theorem `insert_recursive_spec` says that the recursion of the source turns
the pages of a tree into the pages of the tree after `ins`: it returns the separator and
the page of the right half exactly when `ins` splits, and it touches no other page, except
that the leaf after a split one gets its back link changed.
-/
import Oigrap.Storage.BTreeNode
import Oigrap.Storage.PoolImage

namespace Oigrap.Storage.BTree

open Wp ByteMem BufferPool BPlusTree Function List Image
open Prod (fst snd)

/-! ## Capacities -/

/-- How many entries with keys of length `L` fit a leaf. -/
def leaf_cap (L : ℕ) : ℕ := NODE_CAPACITY / (L + 16)

/-- How many separators of length `L` fit a branch. -/
def internal_cap (L : ℕ) : ℕ := NODE_CAPACITY / (L + 14)

variable {L : ℕ} {p : Page} {leftmost : ℕ}

/-- Keys that fit a node fit the length field. -/
theorem lt_of_internal_cap (h : 0 < internal_cap L) : L < 2 ^ 16 := by
  have := (Nat.div_pos_iff.mp h).2
  lia

section Entries

variable {α : Type} {es : List (Key × α)} {enc : Key × α → List UInt8} {w flags next : ℕ}
  (hn : IsNode p (es.map enc) flags next leftmost)
  (hw : ∀ e, SLOT_SIZE + (enc e).length = e.1.length + w) (hL : ∀ e ∈ es, e.1.length = L)
include hw hL

theorem footprint_map : footprint (es.map enc) = es.length * (L + w) := by
  induction es with
  | nil => simp [footprint]
  | cons e es ih =>
    have h1 := hw e
    have h2 := ih (fun e he => hL e (mem_cons_of_mem _ he))
    simp only [footprint, map_cons, sum_cons, length_cons] at h2 ⊢
    rw [h2, h1, hL e mem_cons_self, Nat.succ_mul, add_comm]

include hn

theorem room_iff (hpos : 0 < L + w) :
    L + w ≤ p.free_space ↔ es.length < NODE_CAPACITY / (L + w) := by
  have hfree := hn.free
  rw [footprint_map hw hL] at hfree
  rw [Nat.lt_iff_add_one_le, Nat.le_div_iff_mul_le hpos, Nat.add_mul, Nat.one_mul]
  omega

/-- The two halves of a node with one entry more both fit: neither is longer than the node. -/
theorem place_halves {key : Key} {x : α} (hkey : key.length = L) (hne : 0 < es.length) :
    ∃ e right, (place key x es).drop ((place key x es).length / 2) = e :: right
      ∧ footprint (((place key x es).take ((place key x es).length / 2)).map enc) ≤ NODE_CAPACITY
      ∧ footprint ((e :: right).map enc) ≤ NODE_CAPACITY
      ∧ footprint (right.map enc) ≤ NODE_CAPACITY := by
  have hlen := length_place key x es
  have hfree := hn.free
  rw [footprint_map hw hL] at hfree
  have hall : ∀ e ∈ place key x es, e.1.length = L := by
    intro e he
    rcases mem_place.mp he with rfl | he
    · exact hkey
    · exact hL e he
  have hfits : ∀ l : List (Key × α), (∀ e ∈ l, e ∈ place key x es) → l.length ≤ es.length →
      footprint (l.map enc) ≤ NODE_CAPACITY := by
    intro l hmem hle
    rw [footprint_map hw fun e he => hall e (hmem e he)]
    have := Nat.mul_le_mul_right (L + w) hle
    omega
  have hdrop : (drop ((place key x es).length / 2) (place key x es)).length = _ := length_drop
  cases hd : (place key x es).drop ((place key x es).length / 2) with
  | nil =>
    rw [hd, length_nil] at hdrop
    omega
  | cons e right =>
    rw [hd, length_cons] at hdrop
    have hmem : ∀ y ∈ e :: right, y ∈ place key x es :=
      fun y hy => mem_of_mem_drop (by rw [hd]; exact hy)
    refine ⟨e, right, rfl, hfits _ (fun _ => mem_of_mem_take) ?_, hfits _ hmem ?_,
      hfits _ (fun y hy => hmem y (mem_cons_of_mem _ hy)) ?_⟩
    · rw [length_take]
      omega
    · rw [length_cons]
      omega
    · omega

end Entries

theorem leaf_width (e : Key × TupleId) :
    SLOT_SIZE + (encode_leaf_entry e.1 e.2).length = e.1.length + 16 := by
  rw [length_encode_leaf_entry]
  lia

theorem internal_width (e : Key × PageId) :
    SLOT_SIZE + (encode_internal_entry e.1 e.2).length = e.1.length + 14 := by
  rw [length_encode_internal_entry]
  lia

/-! ## Pages that differ in unread cells only -/

/-- `q` reads like `p` to every function of the tree. -/
structure Like (p q : Page) : Prop where
  node : ∀ es f n l, IsNode p es f n l → IsNode q es f n l
  next : load 8 q.data 8176 = load 8 p.data 8176

theorem Like.refl (p : Page) : Like p p := ⟨fun _ _ _ _ h => h, rfl⟩

theorem IsNode.set_prev_like {es : List (List UInt8)} {flags next : ℕ}
    (h : IsNode p es flags next leftmost) (pid : PageId) :
    ∃ q, p.set_btree_prev_page pid = .ok q ∧ Like p q := by
  obtain ⟨q, hq, hn⟩ := h.set_prev pid
  refine ⟨q, hq, ?_, by rw [hn.next, h.next]⟩
  intro es' f n l h'
  obtain ⟨q', hq', hn'⟩ := h'.set_prev pid
  rw [hq] at hq'
  rwa [Except.ok.inj hq']

/-- A change that succeeds, then the rest of the changes. -/
theorem ops_cons {op : PageOp} {ops : List PageOp} {q r : Page} (h : op p = .ok q)
    (hrest : run_ops ops q = .ok r) : run_ops (op :: ops) p = .ok r := by
  rwa [run_ops, h]

theorem and_leaf_flag (f m : ℕ) (hm : m &&& BTREE_FLAG_IS_LEAF = BTREE_FLAG_IS_LEAF) :
    (f &&& m) &&& BTREE_FLAG_IS_LEAF = f &&& BTREE_FLAG_IS_LEAF := by
  rw [Nat.and_assoc, hm]

variable {s : BufferPool} {flags next leftmost L : ℕ} {a : Image}

/-! ## Splitting a leaf -/

section Leaf

variable {pid : PageId}

/-- A page id the file can have. -/
structure InFile (a : Image) (pid : PageId) : Prop where
  ne_zero : pid ≠ 0
  lt : pid < a.len

/-- The file is within its size limit with `n` more pages. -/
def DiskRoom (a : Image) (n : ℕ) : Prop := (a.len + n) * PAGE_SIZE ≤ MAX_FILE_SIZE

theorem DiskRoom.lt_invalid {n : ℕ} (h : DiskRoom a n) {q : PageId} (hq : q < a.len + n) :
    q < INVALID_PAGE_ID := by
  unfold DiskRoom at h
  have : MAX_FILE_SIZE = 2 ^ 63 - 1 := rfl
  lia

theorem DiskRoom.mono {a' : Image} {n n' : ℕ} (h : DiskRoom a n) (hle : a'.len + n' ≤ a.len + n) :
    DiskRoom a' n' :=
  le_trans (Nat.mul_le_mul_right _ hle) h

variable {es : List (Key × TupleId)} {bs : List (List UInt8)}

/-- The old page gets the left half. -/
theorem left_half {p : Page} (h : IsNode p bs flags next leftmost) {new_id : PageId}
    (hid : new_id < 2 ^ 64) (hroom : footprint (leaf_bytes es) ≤ NODE_CAPACITY) :
    ∃ q f, run_ops (left_leaf_ops flags new_id es) p = .ok q
      ∧ IsNode q (leaf_bytes es) f new_id leftmost
      ∧ f &&& BTREE_FLAG_IS_LEAF = flags &&& BTREE_FLAG_IS_LEAF := by
  obtain ⟨p1, e1, n1⟩ := h.clear
  obtain ⟨p2, e2, n2⟩ := n1.set_flags (f := flags &&& (2 ^ 16 - 1 - BTREE_FLAG_IS_RIGHTMOST))
    (lt_of_le_of_lt Nat.and_le_right (by decide))
  obtain ⟨p3, e3, n3⟩ := n2.set_next hid
  obtain ⟨q, e4, n4⟩ := n3.append_all (leaf_bytes es) hroom
  rw [leaf_bytes, map_map] at e4
  exact ⟨q, _, ops_cons e1 (ops_cons e2 (ops_cons e3 e4)), n4, and_leaf_flag _ _ (by decide)⟩

theorem right_half (p : Page) (page_id : PageId) {old_next : PageId} (hid : old_next < 2 ^ 64)
    (hroom : footprint (leaf_bytes es) ≤ NODE_CAPACITY) :
    ∃ q f l, run_ops (right_leaf_ops page_id old_next es) p = .ok q
      ∧ IsNode q (leaf_bytes es) f old_next l ∧ f &&& BTREE_FLAG_IS_LEAF ≠ 0 := by
  have n1 := init_isNode p true false
  obtain ⟨p2, e2, n2⟩ := n1.set_prev page_id
  obtain ⟨p3, e3, n3⟩ := n2.set_next hid
  obtain ⟨q, e4, n4⟩ := n3.append_all (leaf_bytes es) hroom
  rw [leaf_bytes, map_map] at e4
  exact ⟨q, _, _, ops_cons rfl (ops_cons e2 (ops_cons e3 e4)), n4, by decide⟩

/-- The leaf after a split one: there is none, or it is another node of the file. -/
def NextLeaf (a : Image) (pid next : PageId) : Prop :=
  next = INVALID_PAGE_ID ∨ InFile a next ∧ next ≠ pid ∧ ∃ es f n l, IsNode (a.view next) es f n l

/-- What the split of leaf `pid` into `left` and `right` does to the file: both pages are
written, and no other page changes but for the back link of the next leaf. -/
structure LeafSplit (a : Image) (pid next flags : ℕ) (left right : List (Key × TupleId))
    (v : PageId → Page) : Prop where
  left : ∃ f l, IsNode (v pid) (leaf_bytes left) f a.len l
    ∧ f &&& BTREE_FLAG_IS_LEAF = flags &&& BTREE_FLAG_IS_LEAF
  right : ∃ f l, IsNode (v a.len) (leaf_bytes right) f next l ∧ f &&& BTREE_FLAG_IS_LEAF ≠ 0
  frame : ∀ q, q ≠ pid → q ≠ a.len → v q = a.view q ∨ q = next ∧ Like (a.view q) (v q)

/-- The node took one more entry: its page is rewritten, no other page changes. -/
def Took (a : Image) (pid : PageId) (bs : List (List UInt8)) (flags next leftmost : ℕ)
    (s' : BufferPool) : Prop :=
  ∃ v, s'.Stands ∅ ⟨a.len, v, a.pins, a.size⟩ [] ∧ IsNode (v pid) bs flags next leftmost
    ∧ ∀ q, q ≠ pid → v q = a.view q

/-- There is room: the entry goes to its place. -/
theorem place_rule {α : Type} {es : List (Key × α)} {enc : Key × α → List UInt8} (key : Key)
    (x : α) {f : FrameId} (h : s.Stands ∅ (a.pin pid) [(pid, f)])
    (hn : IsNode (a.view pid) (es.map enc) flags next leftmost)
    (hfree : SLOT_SIZE + (enc (key, x)).length ≤ (a.view pid).free_space) :
    wp (do
      edit f [insert_entry_at (partition_point (fun e => decide (e.1 ≤ key)) es) (enc (key, x))]
      unpin_page pid true
      return (none : Option (Key × PageId)))
      (fun r s' => r = none ∧ Took a pid ((place key x es).map enc) flags next leftmost s')
      never s := by
  have hpos : partition_point (fun e => decide (e.1 ≤ key)) es ≤ (es.map enc).length := by
    rw [length_map]
    exact (takeWhile_sublist _).length_le
  obtain ⟨p', e', n'⟩ := hn.insert hpos hfree
  refine wp_then (edit_rule h mem_cons_self (ops_cons e' rfl)) ?_
  intro _ s2 h2
  refine wp_then (unpin_changed h2 nofun) ?_
  intro _ s3 h3
  refine ⟨rfl, (a.put pid p').view, h3, ?_, fun q hq => update_of_ne hq _ _⟩
  rwa [put_view, update_self, place, ← insertIdx_partition_point, map_insertIdx]

variable (h : s.Stands ∅ a []) (hp : InFile a pid) (hroom : Room a.pins a.size 2)
  (hdisk : DiskRoom a 1)
include h hp hroom hdisk

theorem split_leaf_spec (hn : IsNode (a.view pid) bs flags next leftmost)
    (hnext : NextLeaf a pid next) {all right : List (Key × TupleId)} {e : Key × TupleId}
    (hd : all.drop (all.length / 2) = e :: right)
    (hl : footprint (leaf_bytes (all.take (all.length / 2))) ≤ NODE_CAPACITY)
    (hr : footprint (leaf_bytes (e :: right)) ≤ NODE_CAPACITY) :
    wp (split_leaf pid all) (fun r s' => r = some (e.1, a.len) ∧ ∃ v,
        s'.Stands ∅ ⟨a.len + 1, v, a.pins, a.size⟩ []
        ∧ LeafSplit a pid next flags (all.take (all.length / 2)) (e :: right) v) never s := by
  have hmid : all[all.length / 2]? = some e := by
    rw [← head?_drop, hd]
    rfl
  have hne : pid ≠ a.len := ne_of_lt hp.lt
  have hinv : a.len < INVALID_PAGE_ID := hdisk.lt_invalid (Nat.lt_succ_self _)
  unfold split_leaf
  simp only [hmid]
  refine wp_then (new_page_rule h (hroom.mono (by decide)) hdisk) ?_
  rintro ⟨new_id, nf⟩ s1 ⟨rfl, h1⟩
  refine wp_then (fetch_rule h1 hp.ne_zero (Nat.lt_succ_of_lt hp.lt) (hroom.update _ _)) ?_
  intro f s2 h2
  -- the page being split has not changed
  have hview : (a.alloc.pin pid).view pid = a.view pid := by
    rw [pin_view, alloc_view, update_of_ne hne]
  refine page_then h2 (by rw [hview]; exact hn.btree_next_page_eq) ?_
  refine page_then h2 (by rw [hview]; exact hn.btree_flags_eq) ?_
  obtain ⟨pL, fL, eL, nL, hfL⟩ := left_half hn (lt_trans hinv (by decide)) hl
  refine wp_then (edit_rule h2 mem_cons_self (by rw [hview]; exact eL)) ?_
  intro _ s3 h3
  have hother : ∀ x ∈ [(a.len, nf)], x.1 ≠ pid := by
    intro x hx
    rw [mem_singleton.mp hx]
    exact hne.symm
  refine wp_then (unpin_changed h3 hother) ?_
  intro _ s4 h4
  have hnext64 : next < 2 ^ 64 := by
    have := load_lt 8 (a.view pid).data 8176
    rwa [hn.next] at this
  obtain ⟨pR, fR, lR, eR, nR, hfR⟩ :=
    right_half ((a.alloc.put pid pL).view a.len) pid hnext64 hr
  rw [hd]
  refine wp_then (edit_rule h4 mem_cons_self eR) ?_
  intro _ s5 h5
  refine wp_then (unpin_rule h5 (fun _ hx => absurd hx not_mem_nil) (.inl rfl)) ?_
  intro _ s6 h6
  rw [unpin_put_put_alloc _ _ _ _ h.fresh_pins hne,
    Set.insert_sdiff_self_of_notMem (Set.notMem_empty _)] at h6
  -- both halves are written; the pages they are read from
  have hvL : ((a.put pid pL).grow pR).view pid = pL := by
    rw [grow_view, put_len, update_of_ne hne, put_view, update_self]
  have hvR : ((a.put pid pL).grow pR).view a.len = pR := update_self _ _ _
  have hvO : ∀ q, q ≠ pid → q ≠ a.len → ((a.put pid pL).grow pR).view q = a.view q := by
    intro q hq1 hq2
    rw [grow_view, put_len, update_of_ne hq2, put_view, update_of_ne hq1]
  by_cases hlast : next = INVALID_PAGE_ID
  · rw [if_neg (by simpa using hlast)]
    refine ⟨rfl, ((a.put pid pL).grow pR).view, h6, ⟨fL, leftmost, ?_, hfL⟩, ⟨fR, lR, ?_, hfR⟩,
      fun q h1 h2 => .inl (hvO q h1 h2)⟩
    · rwa [hvL]
    · rwa [hvR]
  · rw [if_pos hlast]
    rcases hnext with hbad | ⟨hin, hnp, es', f', n', l', hn'⟩
    · exact absurd hbad hlast
    have hnl : next ≠ a.len := ne_of_lt hin.lt
    obtain ⟨pN, eN, hlike⟩ := hn'.set_prev_like a.len
    refine wp_then (edit_at_rule h6 hin.ne_zero (Nat.lt_succ_of_lt hin.lt) (hroom.mono (by decide))
      (ops_cons (by rw [hvO next hnp hnl]; exact eN) rfl)) ?_
    intro _ s7 h7
    refine ⟨rfl, (((a.put pid pL).grow pR).put next pN).view, h7, ⟨fL, leftmost, ?_, hfL⟩,
      ⟨fR, lR, ?_, hfR⟩, ?_⟩
    · rwa [put_view, update_of_ne hnp.symm, hvL]
    · rwa [put_view, update_of_ne hnl.symm, hvR]
    · intro q h1 h2
      rw [put_view, update_apply]
      split_ifs with heq
      · exact .inr ⟨heq, by rw [heq]; exact hlike⟩
      · exact .inl (hvO q h1 h2)

/-- **`leaf_insert`.** A leaf below its capacity takes the entry; a full one is split. -/
theorem leaf_insert_spec {key : Key} {tid : TupleId}
    (hn : IsNode (a.view pid) (leaf_bytes es) flags next leftmost)
    (hst : ∀ e ∈ es, Storable e.1 e.2 ∧ e.1.length = L) (hnext : NextLeaf a pid next)
    (hL : key.length = L) (hcap : 0 < leaf_cap L) : wp (leaf_insert pid key tid) (fun r s' =>
        (es.length < leaf_cap L ∧ r = none
          ∧ Took a pid (leaf_bytes (place key tid es)) flags next leftmost s')
        ∨ (leaf_cap L ≤ es.length ∧ ∃ e right v,
          (place key tid es).drop ((place key tid es).length / 2) = e :: right
          ∧ r = some (e.1, a.len) ∧ s'.Stands ∅ ⟨a.len + 1, v, a.pins, a.size⟩ []
          ∧ LeafSplit a pid next flags ((place key tid es).take ((place key tid es).length / 2))
            (e :: right) v)) never s := by
  have hst1 : ∀ e ∈ es, Storable e.1 e.2 := fun e he => (hst e he).1
  have hneed := leaf_width (key, tid)
  rw [hL] at hneed
  have hiff := room_iff hn leaf_width (fun e he => (hst e he).2) (Nat.succ_pos _)
  refine wp_then (fetch_rule h hp.ne_zero hp.lt (hroom.mono (by decide))) ?_
  intro f s1 h1
  refine page_then h1 (leaf_insert_pos_eq hn hst1 key) ?_
  refine page_then h1 rfl ?_
  rw [hneed, pin_view]
  by_cases hfit : es.length < leaf_cap L
  · have hfree := hiff.mpr hfit
    rw [decide_eq_true hfree, if_pos rfl]
    have htook := place_rule key tid h1 hn (hneed.le.trans hfree)
    exact wp_imp htook fun _ _ ht => .inl ⟨hfit, ht⟩
  · have hfull := not_lt.mp hfit
    rw [decide_eq_false (fun hc => hfit (hiff.mp hc)), if_neg Bool.false_ne_true]
    refine page_then h1 (collect_leaf_entries_eq hn hst1) ?_
    refine wp_then (unpin_clean h1) ?_
    intro _ s2 h2
    simp only [insertIdx_partition_point]
    obtain ⟨e, right, hd, hl, hr, -⟩ :=
      place_halves (x := tid) hn leaf_width (fun e he => (hst e he).2) hL (hcap.trans_le hfull)
    refine wp_imp (split_leaf_spec h2 hp hroom hdisk hn hnext hd hl hr) ?_
    rintro r s3 ⟨hr, v, h3, hsplit⟩
    exact .inr ⟨hfull, e, right, v, hd, hr, h3, hsplit⟩

end Leaf

/-! ## Inserting into a branch -/

section Internal

variable {pid : PageId} {es : List (Key × PageId)} {bs : List (List UInt8)}

theorem left_branch {p : Page} (h : IsNode p bs flags next leftmost)
    (hroom : footprint (internal_bytes es) ≤ NODE_CAPACITY) :
    ∃ q, run_ops (left_internal_ops leftmost es) p = .ok q
      ∧ IsNode q (internal_bytes es) flags next leftmost := by
  have h64 : leftmost < 2 ^ 64 := by
    have := load_lt 8 p.data 8184
    rwa [h.leftmost] at this
  obtain ⟨p1, e1, n1⟩ := h.clear
  obtain ⟨p2, e2, n2⟩ := n1.set_leftmost h64
  obtain ⟨q, e3, n3⟩ := n2.append_all (internal_bytes es) hroom
  rw [internal_bytes, map_map] at e3
  exact ⟨q, ops_cons e1 (ops_cons e2 e3), n3⟩

theorem right_branch (p : Page) (level : ℕ) {child : PageId} (hc : child < 2 ^ 64)
    (hroom : footprint (internal_bytes es) ≤ NODE_CAPACITY) :
    ∃ q f n, run_ops (right_internal_ops level child es) p = .ok q
      ∧ IsNode q (internal_bytes es) f n child ∧ f &&& BTREE_FLAG_IS_LEAF = 0 := by
  have n1 := init_isNode p false false
  obtain ⟨p2, e2, n2⟩ := n1.set_level level
  obtain ⟨p3, e3, n3⟩ := n2.set_leftmost hc
  obtain ⟨q, e4, n4⟩ := n3.append_all (internal_bytes es) hroom
  rw [internal_bytes, map_map] at e4
  exact ⟨q, _, _, ops_cons rfl (ops_cons e2 (ops_cons e3 e4)), n4, by decide⟩

theorem new_filled_rule {α : Type} {Q : α → BufferPool → Prop} {ops : List PageOp} {p : Page}
    (k : PageId → PoolM α) (h : s.Stands ∅ a []) (hroom : Room a.pins a.size 1)
    (hdisk : DiskRoom a 1) (hops : run_ops ops (Page.new a.len) = .ok p)
    (hk : ∀ s', s'.Stands ∅ (a.grow p) [] → wp (k a.len) Q never s') :
    wp (do
      let r ← new_page
      edit r.2 ops
      unpin_page r.1 true
      k r.1) Q never s := by
  refine wp_then (new_page_rule h hroom hdisk) ?_
  rintro ⟨_, f⟩ s1 ⟨rfl, h1⟩
  have hv : a.alloc.view a.len = Page.new a.len := update_self _ _ _
  refine wp_then (edit_rule h1 mem_cons_self (by rw [hv]; exact hops)) ?_
  intro _ s2 h2
  refine wp_then (unpin_rule h2 (fun _ hx => absurd hx not_mem_nil) (.inl rfl)) ?_
  intro _ s3 h3
  rw [unpin_put_alloc _ _ h.fresh_pins, Set.insert_sdiff_self_of_notMem (Set.notMem_empty _)] at h3
  exact hk s3 h3

/-- What the split of branch `pid` into `left` and `right`, with first child `child`, does. -/
structure BranchSplit (a : Image) (pid flags next leftmost : ℕ) (left : List (Key × PageId))
    (child : PageId) (right : List (Key × PageId)) (v : PageId → Page) : Prop where
  left : IsNode (v pid) (internal_bytes left) flags next leftmost
  right : ∃ f n, IsNode (v a.len) (internal_bytes right) f n child ∧ f &&& BTREE_FLAG_IS_LEAF = 0
  frame : ∀ q, q ≠ pid → q ≠ a.len → v q = a.view q

variable (h : s.Stands ∅ a []) (hp : InFile a pid) (hroom : Room a.pins a.size 1)
  (hdisk : DiskRoom a 1)
include h hp hroom hdisk

theorem split_internal_spec (hn : IsNode (a.view pid) bs flags next leftmost) (level : ℕ)
    {all right : List (Key × PageId)} {e : Key × PageId} (hc : e.2 < 2 ^ 64)
    (hd : all.drop (all.length / 2) = e :: right)
    (hl : footprint (internal_bytes (all.take (all.length / 2))) ≤ NODE_CAPACITY)
    (hr : footprint (internal_bytes right) ≤ NODE_CAPACITY) :
    wp (split_internal pid leftmost level all) (fun r s' => r = some (e.1, a.len) ∧ ∃ v,
        s'.Stands ∅ ⟨a.len + 1, v, a.pins, a.size⟩ []
        ∧ BranchSplit a pid flags next leftmost (all.take (all.length / 2)) e.2 right v) never s := by
  have hmid : all[all.length / 2]? = some e := by
    rw [← head?_drop, hd]
    rfl
  have hd1 : all.drop (all.length / 2 + 1) = right := by
    rw [← drop_drop, hd]
    rfl
  have hne : pid ≠ a.len := ne_of_lt hp.lt
  unfold split_internal
  simp only [hmid, hd1]
  obtain ⟨pL, eL, nL⟩ := left_branch hn hl
  refine wp_then (edit_at_rule h hp.ne_zero hp.lt hroom eL) ?_
  intro _ s1 h1
  obtain ⟨pR, fR, nx, eR, nR, hfR⟩ := right_branch (Page.new a.len) level hc hr
  refine new_filled_rule (fun id => pure (some (e.1, id))) h1 hroom hdisk eR ?_
  intro s2 h2
  refine ⟨rfl, ((a.put pid pL).grow pR).view, h2, ?_, ⟨fR, nx, ?_, hfR⟩, ?_⟩
  · rwa [grow_view, put_len, update_of_ne hne, put_view, update_self]
  · rwa [grow_view, put_len, update_self]
  · intro q hq1 hq2
    rw [grow_view, put_len, update_of_ne hq2, put_view, update_of_ne hq1]

/-- **`internal_insert`.** A branch below its capacity takes the separator; a full one is
split around its middle separator. -/
theorem internal_insert_spec {sep : Key} {child : PageId}
    (hn : IsNode (a.view pid) (internal_bytes es) flags next leftmost)
    (hst : ∀ e ∈ es, e.1.length = L ∧ e.2 < 2 ^ 64) (hL : sep.length = L) (hc : child < 2 ^ 64)
    (hcap : 0 < internal_cap L) : wp (internal_insert pid sep child) (fun r s' =>
        (es.length < internal_cap L ∧ r = none
          ∧ Took a pid (internal_bytes (place sep child es)) flags next leftmost s')
        ∨ (internal_cap L ≤ es.length ∧ ∃ e right v,
          (place sep child es).drop ((place sep child es).length / 2) = e :: right
          ∧ r = some (e.1, a.len) ∧ s'.Stands ∅ ⟨a.len + 1, v, a.pins, a.size⟩ []
          ∧ BranchSplit a pid flags next leftmost
            ((place sep child es).take ((place sep child es).length / 2)) e.2 right v)) never s := by
  have hL16 := lt_of_internal_cap hcap
  have hst1 : ∀ e ∈ es, e.1.length < 2 ^ 16 ∧ e.2 < 2 ^ 64 :=
    fun e he => ⟨by rw [(hst e he).1]; exact hL16, (hst e he).2⟩
  have hneed := internal_width (sep, child)
  rw [hL] at hneed
  have hiff := room_iff hn internal_width (fun e he => (hst e he).1) (Nat.succ_pos _)
  refine wp_then (fetch_rule h hp.ne_zero hp.lt hroom) ?_
  intro f s1 h1
  refine page_then h1 (internal_insert_pos_eq hn hst1 sep) ?_
  refine page_then h1 rfl ?_
  rw [hneed, pin_view]
  by_cases hfit : es.length < internal_cap L
  · have hfree := hiff.mpr hfit
    rw [decide_eq_true hfree, if_pos rfl]
    have htook := place_rule sep child h1 hn (hneed.le.trans hfree)
    exact wp_imp htook fun _ _ ht => .inl ⟨hfit, ht⟩
  · have hfull := not_lt.mp hfit
    rw [decide_eq_false (fun hc => hfit (hiff.mp hc)), if_neg Bool.false_ne_true]
    -- full: the entries are read out, the new one placed, and both halves written
    refine page_then h1 hn.btree_leftmost_child_eq ?_
    obtain ⟨level, hlevel⟩ := hn.btree_level_eq
    refine page_then h1 hlevel ?_
    refine page_then h1 (collect_internal_entries_eq hn hst1) ?_
    refine wp_then (unpin_clean h1) ?_
    intro _ s2 h2
    simp only [insertIdx_partition_point]
    obtain ⟨e, right, hd, hl, -, hr⟩ :=
      place_halves (x := child) hn internal_width (fun e he => (hst e he).1) hL
        (hcap.trans_le hfull)
    have hchild : e.2 < 2 ^ 64 := by
      have hmem : e ∈ place sep child es := mem_of_mem_drop (by rw [hd]; exact mem_cons_self)
      rcases mem_place.mp hmem with rfl | he
      · exact hc
      · exact (hst e he).2
    refine wp_imp (split_internal_spec h2 hp hroom hdisk hn level hchild hd hl hr) ?_
    rintro r s3 ⟨hr, v, h3, hsplit⟩
    exact .inr ⟨hfull, e, right, v, hd, hr, h3, hsplit⟩

end Internal

/-! ## Pages that hold a tree -/

/-- The pages of `v` hold the tree: keys have length `L`, and a node's identity is its page. -/
def Holds (L : ℕ) (v : PageId → Page) : {h : ℕ} → Node Key TupleId h → Prop
  | 0, (t : Leaf Key TupleId) =>
    (∃ f n l, IsNode (v t.id) (leaf_bytes t.entries) f n l ∧ f &&& BTREE_FLAG_IS_LEAF ≠ 0)
      ∧ ∀ e ∈ t.entries, Storable e.1 e.2 ∧ e.1.length = L
  | _ + 1, (t : Branch Key (Node Key TupleId _)) =>
    (∃ f n, IsNode (v t.id) (internal_bytes (t.rest.map (Prod.map id Node.id))) f n t.first.id
      ∧ f &&& BTREE_FLAG_IS_LEAF = 0)
      ∧ (∀ k ∈ t.rest.map Prod.fst, k.length = L)
      ∧ ∀ d ∈ kids t.first t.rest, Holds L v d

variable {v v' : PageId → Page}

section Holds

variable {L h i : ℕ}

theorem holds_leaf {es : List (Key × TupleId)} :
    Holds L v (.leaf i es) ↔
      (∃ f n l, IsNode (v i) (leaf_bytes es) f n l ∧ f &&& BTREE_FLAG_IS_LEAF ≠ 0)
        ∧ ∀ e ∈ es, Storable e.1 e.2 ∧ e.1.length = L := Iff.rfl

theorem holds_branch {c : Node Key TupleId h} {rest : List (Key × Node Key TupleId h)} :
    Holds L v (.branch i c rest) ↔
      (∃ f n, IsNode (v i) (internal_bytes (rest.map (Prod.map id Node.id))) f n c.id
        ∧ f &&& BTREE_FLAG_IS_LEAF = 0)
        ∧ (∀ k ∈ rest.map fst, k.length = L) ∧ ∀ d ∈ kids c rest, Holds L v d := Iff.rfl

variable {t : Node Key TupleId h}

/-- Only the pages of the tree matter, and of these only what the tree reads. -/
theorem Holds.like (ht : Holds L v t) (hv : ∀ q ∈ t.ids, Like (v q) (v' q)) : Holds L v' t := by
  induction t with
  | leaf i es =>
    obtain ⟨⟨f, n, l, hn, hf⟩, hst⟩ := ht
    exact ⟨⟨f, n, l, (hv i mem_cons_self).node _ _ _ _ hn, hf⟩, hst⟩
  | branch i c rest ih =>
    obtain ⟨⟨f, n, hn, hf⟩, hL, hk⟩ := ht
    refine ⟨⟨f, n, (hv i mem_cons_self).node _ _ _ _ hn, hf⟩, hL, ?_⟩
    intro d hd
    refine ih d (hk d hd) (fun q hq => hv q ?_)
    exact mem_cons_of_mem _ (mem_flatMap.mpr ⟨d, hd, hq⟩)

theorem Holds.congr (ht : Holds L v t) (hv : ∀ q ∈ t.ids, v' q = v q) : Holds L v' t :=
  ht.like (fun q hq => by rw [hv q hq]; exact Like.refl _)

theorem Holds.leaf (ht : Holds L v t) :
    ∀ l ∈ t.leaves, (∃ f n m, IsNode (v l.id) (leaf_bytes l.entries) f n m
      ∧ f &&& BTREE_FLAG_IS_LEAF ≠ 0) ∧ ∀ e ∈ l.entries, Storable e.1 e.2 ∧ e.1.length = L := by
  induction t with
  | leaf i es =>
    intro l hl
    rw [Node.leaves_leaf, mem_singleton] at hl
    rwa [hl]
  | branch i c rest ih =>
    intro l hl
    rw [Node.leaves_branch, mem_flatMap] at hl
    obtain ⟨d, hd, hl⟩ := hl
    exact ih d (ht.2.2 d hd) l hl

end Holds

/-- The pages are linked in this order by their `next` cells; the last one points to `tail`. -/
def Chained (v : PageId → Page) : List PageId → PageId → Prop
  | [], _ => True
  | q :: qs, tail => load 8 (v q).data 8176 = qs.headD tail ∧ Chained v qs tail

section Chained

variable {xs ys : List PageId} {tail : PageId}

theorem chained_append :
    Chained v (xs ++ ys) tail ↔ Chained v xs (ys.headD tail) ∧ Chained v ys tail := by
  induction xs with
  | nil => simp [Chained]
  | cons x xs ih =>
    rw [cons_append, Chained, Chained, ih, and_assoc]
    cases xs with
    | nil | cons y xs => rfl

/-- Only the `next` cells of the chain matter. -/
theorem Chained.congr (h : Chained v xs tail)
    (hv : ∀ q ∈ xs, load 8 (v' q).data 8176 = load 8 (v q).data 8176) : Chained v' xs tail := by
  induction xs with
  | nil => trivial
  | cons x xs ih =>
    refine ⟨(hv x mem_cons_self).trans h.1, ?_⟩
    exact ih h.2 (fun q hq => hv q (mem_cons_of_mem _ hq))

theorem Chained.like (h : Chained v xs tail) (hv : ∀ q ∈ xs, Like (v q) (v' q)) :
    Chained v' xs tail :=
  h.congr (fun q hq => (hv q hq).next)

end Chained

/-- A subtree in the file: its pages, its part of the leaf chain, and the leaf after it. -/
structure Sub (L : ℕ) (a : Image) {h : ℕ} (t : Node Key TupleId h) (tail : PageId) : Prop where
  holds : Holds L a.view t
  chain : Chained a.view (t.leaves.map Leaf.id) tail
  nodup : t.ids.Nodup
  in_file : ∀ q ∈ t.ids, InFile a q
  tail : tail = INVALID_PAGE_ID
    ∨ InFile a tail ∧ tail ∉ t.ids ∧ ∃ es f n l, IsNode (a.view tail) es f n l

/-- The pages `v` after an insertion into subtree `t` that left `g`. -/
structure Done (L : ℕ) (a : Image) {h : ℕ} (t : Node Key TupleId h) (g : Grown Key TupleId h)
    (tail : PageId) (v : PageId → Page) : Prop where
  left : Holds L v g.left
  right : ∀ e, g.split = some e → e.1.length = L ∧ Holds L v e.2
  chain : Chained v (g.leaves.map Leaf.id) tail
  frame : ∀ q, q ∉ t.ids → q < a.len → v q = a.view q ∨ q = tail ∧ Like (a.view q) (v q)

theorem Done.like {a : Image} {h : ℕ} {t : Node Key TupleId h} {g : Grown Key TupleId h}
    {tail : PageId} {v : PageId → Page} (hd : Done L a t g tail v) {q : PageId} (hq : q ∉ t.ids)
    (hlt : q < a.len) : Like (a.view q) (v q) := by
  rcases hd.frame q hq hlt with heq | ⟨-, hl⟩
  · rw [heq]
    exact Like.refl _
  · exact hl

/-! ## The simulation -/

section Simulation

variable {L : ℕ} {tail : PageId} {key : Key} {tid : TupleId}

/-- What `ins` leaves of the tree is what the source leaves of its pages. -/
def Simulates (L : ℕ) (a : Image) (tail : PageId) {h : ℕ} (t : Node Key TupleId h)
    (g : Grown Key TupleId h) (r : Option (Key × PageId)) (s' : BufferPool) : Prop :=
  r = g.split.map (fun e => (e.1, e.2.id))
    ∧ ∃ v, s'.Stands ∅ ⟨g.next, v, a.pins, a.size⟩ [] ∧ Done L a t g tail v

theorem leaf_simulates {i : ℕ} {es : List (Key × TupleId)} (h : s.Stands ∅ a [])
    (hsub : Sub L a (.leaf i es) tail) (hroom : Room a.pins a.size 2) (hdisk : DiskRoom a 1)
    (hkey : Storable key tid) (hL : key.length = L) (hcap : 0 < leaf_cap L) :
    wp (leaf_insert i key tid)
      (Simulates L a tail (.leaf i es) (ins_leaf (leaf_cap L) key tid i es a.len)) never s := by
  obtain ⟨⟨f, n, l, hn, hf⟩, hst⟩ := holds_leaf.mp hsub.holds
  have hi := hsub.in_file i mem_cons_self
  have hnext : n = tail := hn.next.symm.trans hsub.chain.1
  subst hnext
  have hnl : NextLeaf a i n := by
    rcases hsub.tail with htail | ⟨h1, h2, h3⟩
    · exact .inl htail
    · exact .inr ⟨h1, fun heq => h2 (by rw [heq]; exact mem_cons_self), h3⟩
  have hall : ∀ e ∈ place key tid es, Storable e.1 e.2 ∧ e.1.length = L := by
    intro e he
    rcases mem_place.mp he with rfl | he
    · exact ⟨hkey, hL⟩
    · exact hst e he
  refine wp_imp (leaf_insert_spec h hi hroom hdisk hn hst hnl hL hcap) ?_
  rintro r s' (⟨hfit, rfl, v, h', hn', hfr⟩ | ⟨hfull, e, right, v, hd, rfl, h', hsplit⟩)
  · rw [ins_leaf, if_pos hfit]
    refine ⟨rfl, v, h', ⟨⟨f, n, l, hn', hf⟩, hall⟩, (fun _ he => by cases he),
      ⟨hn'.next, trivial⟩, ?_⟩
    intro q hq _
    exact .inl (hfr q (fun heq => hq (by rw [heq]; exact mem_cons_self)))
  · rw [ins_leaf, if_neg (not_lt.mpr hfull), hd]
    obtain ⟨f1, l1, n1, hf1⟩ := hsplit.left
    obtain ⟨f2, l2, n2, hf2⟩ := hsplit.right
    have hright : ∀ x ∈ e :: right, x ∈ place key tid es :=
      fun x hx => mem_of_mem_drop (by rw [hd]; exact hx)
    refine ⟨rfl, v, h', ⟨⟨f1, _, l1, n1, by rw [hf1]; exact hf⟩,
      fun x hx => hall x (mem_of_mem_take hx)⟩, ?_, ⟨n1.next, n2.next, trivial⟩, ?_⟩
    · intro x hx
      rw [← Option.some.inj hx]
      exact ⟨(hall e (hright e mem_cons_self)).2,
        ⟨f2, _, l2, n2, hf2⟩, fun y hy => hall y (hright y hy)⟩
    · intro q hq hlt
      exact hsplit.frame q (fun heq => hq (by rw [heq]; exact mem_cons_self))
        (ne_of_lt hlt)

section Branch

variable {h i : ℕ} {c : Node Key TupleId h} {rest : List (Key × Node Key TupleId h)}
  (after : List (Key × Node Key TupleId h)) {v : PageId → Page} {n : ℕ}
  {z : Zipper Key (Node Key TupleId h)} (hz : pick key c rest = z)

/-- The leaf that follows the focus: the first one to its right. -/
def after_leaf (tail : PageId) : PageId :=
  (((after.map Prod.snd).flatMap Node.leaves).map Leaf.id).headD tail

variable {d : Node Key TupleId h}

theorem mem_ids_of_kid (hd : d ∈ kids c rest) {q : ℕ} (hq : q ∈ d.ids) :
    q ∈ (Node.branch i c rest).ids := by
  exact mem_cons_of_mem _ (mem_flatMap.mpr ⟨d, hd, hq⟩)

/-- The leaf after the focus is in the branch, right of the focus, or after the branch. -/
theorem after_leaf_cases (tail : PageId) : after_leaf after tail = tail
      ∨ ∃ d ∈ after.map snd, ∃ l ∈ d.leaves, after_leaf after tail = l.id := by
  unfold after_leaf
  cases hl : (after.map snd).flatMap Node.leaves with
  | nil => exact .inl rfl
  | cons l ls =>
    have hmem : l ∈ (after.map snd).flatMap Node.leaves := by
      rw [hl]
      exact mem_cons_self
    obtain ⟨d, hd, hld⟩ := mem_flatMap.mp hmem
    exact .inr ⟨d, hd, l, hld, rfl⟩

theorem like_leaves {ds : List (Node Key TupleId h)} {v' : PageId → Page}
    (hv : ∀ d ∈ ds, ∀ q ∈ d.ids, Like (v q) (v' q)) :
    ∀ q ∈ (ds.flatMap Node.leaves).map Leaf.id, Like (v q) (v' q) := by
  intro q hq
  obtain ⟨l, hl, rfl⟩ := mem_map.mp hq
  obtain ⟨d, hd, hl⟩ := mem_flatMap.mp hl
  exact hv d hd _ (d.leaves_ids l hl)

/-- A branch after its focus was inserted into, before the branch itself is rewritten: its
children, with the right half of a split focus among them, are all in place. -/
structure KidsDone (L : ℕ) (a : Image) (i : ℕ) (c : Node Key TupleId h)
    (rest : List (Key × Node Key TupleId h)) (tail n : PageId)
    (p : Node Key TupleId h × List (Key × Node Key TupleId h)) (v : PageId → Page) : Prop where
  holds : ∀ d ∈ kids p.1 p.2, Holds L v d
  keys : ∀ k ∈ p.2.map Prod.fst, k.length = L
  chain : Chained v (((kids p.1 p.2).flatMap Node.leaves).map Leaf.id) tail
  ids : ∀ d ∈ kids p.1 p.2, ∀ q ∈ d.ids, q ≠ i ∧ q < n
  self : Like (a.view i) (v i)
  frame : ∀ q, q ∉ (Node.branch i c rest).ids → q < a.len →
    v q = a.view q ∨ q = tail ∧ Like (a.view q) (v q)

/-- Rewriting the branch's own page and a new one disturbs nothing below. -/
theorem KidsDone.rewrite {v' : PageId → Page}
    {p : Node Key TupleId h × List (Key × Node Key TupleId h)}
    (hk : KidsDone L a i c rest tail n p v) (hv : ∀ q, q ≠ i → q ≠ n → v' q = v q)
    (hlen : a.len ≤ n) : (∀ d ∈ kids p.1 p.2, Holds L v' d)
      ∧ Chained v' (((kids p.1 p.2).flatMap Node.leaves).map Leaf.id) tail
      ∧ ∀ q, q ∉ (Node.branch i c rest).ids → q < a.len →
        v' q = a.view q ∨ q = tail ∧ Like (a.view q) (v' q) := by
  have hids : ∀ d ∈ kids p.1 p.2, ∀ q ∈ d.ids, v' q = v q := by
    intro d hd q hq
    obtain ⟨h1, h2⟩ := hk.ids d hd q hq
    exact hv q h1 (ne_of_lt h2)
  refine ⟨fun d hd => (hk.holds d hd).congr (hids d hd), hk.chain.like (like_leaves ?_), ?_⟩
  · intro d hd q hq
    rw [hids d hd q hq]
    exact Like.refl _
  · intro q hq hlt
    have h1 : q ≠ i := fun heq => hq (by rw [heq]; exact mem_cons_self)
    rw [hv q h1 (by lia)]
    exact hk.frame q hq hlt

variable {x : Node Key TupleId h}

theorem rest_ids (hx : x.id = z.focus.id) (a : List (Key × Node Key TupleId h)) :
    plug (z.before.map (Prod.map Node.id id)) z.focus.id (a.map (Prod.map id Node.id))
      = ((plug z.before x a).1.id, (plug z.before x a).2.map (Prod.map id Node.id)) := by
  rw [plug_map, hx]

section

variable (hsub : Sub L a (.branch i c rest) tail)
include hsub

/-- What the branch's page stores fits its fields. -/
theorem Sub.rest_storable (hdisk : DiskRoom a n) :
    ∀ e ∈ rest.map (Prod.map id Node.id), e.1.length = L ∧ e.2 < 2 ^ 64 := by
  obtain ⟨-, hkeys, -⟩ := holds_branch.mp hsub.holds
  intro e he
  obtain ⟨d, hd, rfl⟩ := mem_map.mp he
  have hkid : d.2 ∈ kids c rest := mem_cons_of_mem _ (mem_map_of_mem hd)
  have hlt := (hsub.in_file _ (mem_ids_of_kid hkid d.2.id_mem_ids)).lt
  exact ⟨hkeys _ (mem_map_of_mem hd),
    lt_trans (hdisk.lt_invalid (lt_of_lt_of_le hlt (Nat.le_add_right _ _))) (by decide)⟩

theorem descend_focus (hdisk : DiskRoom a n)
    (hci : 0 < internal_cap L) (hsorted : (rest.map fst).Pairwise (· ≤ ·)) (key : Key) :
    descend key (a.view i) = .ok (pick key c rest).focus.id := by
  obtain ⟨⟨f, n, hn, hf⟩, -, -⟩ := holds_branch.mp hsub.holds
  rw [descend_eq hn ?_ ?_ key, pick_map]
  · intro e he
    obtain ⟨h1, h2⟩ := hsub.rest_storable hdisk e he
    exact ⟨by rw [h1]; exact lt_of_internal_cap hci, h2⟩
  · rwa [map_map]

end

include hz

theorem kids_of_pick : kids c rest = z.before.map fst ++ z.focus :: z.after.map snd :=
  hz ▸ kids_pick key c rest

theorem mem_kids_pick :
    d ∈ kids c rest ↔ d ∈ z.before.map fst ∨ d = z.focus ∨ d ∈ z.after.map snd := by
  rw [kids_of_pick hz, mem_append, mem_cons]

/-- No page is in two children, and none of them is the branch's own. -/
theorem kids_disjoint (hnd : (Node.branch i c rest).ids.Nodup) :
    (∀ d ∈ kids c rest, i ∉ d.ids) ∧ (∀ d ∈ z.before.map fst, ∀ q ∈ d.ids, q ∉ z.focus.ids)
      ∧ (∀ d ∈ z.after.map snd, ∀ q ∈ d.ids, q ∉ z.focus.ids) := by
  rw [Node.ids_branch, nodup_cons, kids_of_pick hz, flatMap_append, flatMap_cons] at hnd
  obtain ⟨hi, hnd⟩ := hnd
  obtain ⟨-, hright, hdis⟩ := nodup_append.mp hnd
  obtain ⟨-, -, hdis'⟩ := nodup_append.mp hright
  refine ⟨?_, ?_, ?_⟩
  · intro d hd hin
    rw [kids_of_pick hz] at hd
    refine hi ?_
    rw [← flatMap_cons, ← flatMap_append]
    exact mem_flatMap.mpr ⟨d, hd, hin⟩
  · intro d hd q hq hin
    exact hdis q (mem_flatMap.mpr ⟨d, hd, hq⟩) q (mem_append_left _ hin) rfl
  · intro d hd q hq hin
    exact hdis' q hin q (mem_flatMap.mpr ⟨d, hd, hq⟩) rfl

theorem focus_rest_ids :
    plug (z.before.map (Prod.map Node.id id)) z.focus.id (z.after.map (Prod.map id Node.id))
      = (c.id, rest.map (Prod.map id Node.id)) := by
  subst hz
  rw [rest_ids rfl, plug_pick]

variable (hsub : Sub L a (.branch i c rest) tail)
include hsub

/-- The focus of a branch is a subtree of the file. -/
theorem Sub.focus : Sub L a z.focus (after_leaf z.after tail) := by
  have hmem : z.focus ∈ kids c rest := (mem_kids_pick hz).mpr (.inr (.inl rfl))
  have hafter : ∀ d ∈ z.after.map snd, d ∈ kids c rest :=
    fun d hd => (mem_kids_pick hz).mpr (.inr (.inr hd))
  obtain ⟨-, -, hdis⟩ := kids_disjoint hz hsub.nodup
  obtain ⟨-, -, hkids⟩ := hsub.holds
  refine ⟨hkids _ hmem, ?_, ?_, fun q hq => hsub.in_file q (mem_ids_of_kid hmem hq), ?_⟩
  · have hch := hsub.chain
    rw [Node.leaves_branch, kids_of_pick hz, flatMap_append, flatMap_cons,
      map_append, map_append, chained_append, chained_append] at hch
    exact hch.2.1
  · have hnd := hsub.nodup
    rw [Node.ids_branch, nodup_cons] at hnd
    exact (nodup_flatMap.mp hnd.2).1 _ hmem
  · rcases after_leaf_cases z.after tail with heq | ⟨d, hd, l, hl, heq⟩
    · rw [heq]
      rcases hsub.tail with htail | ⟨h1, h2, h3⟩
      · exact .inl htail
      · exact .inr ⟨h1, fun hin => h2 (mem_ids_of_kid hmem hin), h3⟩
    · -- a leaf right of the focus
      rw [heq]
      have hlid := d.leaves_ids l hl
      obtain ⟨⟨f, n, m, hn, -⟩, -⟩ := (hkids d (hafter d hd)).leaf l hl
      exact .inr ⟨hsub.in_file _ (mem_ids_of_kid (hafter d hd) hlid), hdis d hd _ hlid,
        _, f, n, m, hn⟩

theorem Done.kids {cl ci : ℕ} {g : Grown Key TupleId h}
    (hg : ins cl ci key tid z.focus a.len = g)
    (hd : Done L a z.focus g (after_leaf z.after tail) v) :
    KidsDone L a i c rest tail g.next (plug z.before g.left (g.split.toList ++ z.after)) v := by
  obtain ⟨hown, hbef, haft⟩ := kids_disjoint hz hsub.nodup
  obtain ⟨-, hkeys, hkids⟩ := holds_branch.mp hsub.holds
  obtain ⟨-, hnext, hperm⟩ := ins_ids cl ci key tid z.focus a.len
  obtain ⟨x, xs, ys, hx, hy⟩ := ins_leaves_head cl ci key tid z.focus a.len
  rw [hg] at hnext hperm hy
  have hmemb : ∀ d ∈ z.before.map fst, d ∈ BPlusTree.kids c rest :=
    fun d hd => (mem_kids_pick hz).mpr (.inl hd)
  have hmema : ∀ d ∈ z.after.map snd, d ∈ BPlusTree.kids c rest :=
    fun d hd => (mem_kids_pick hz).mpr (.inr (.inr hd))
  have hmemf : z.focus ∈ BPlusTree.kids c rest :=
    (mem_kids_pick hz).mpr (.inr (.inl rfl))
  -- a sibling of the focus reads as before
  have hsib : ∀ d ∈ BPlusTree.kids c rest, (∀ q ∈ d.ids, q ∉ z.focus.ids) →
      ∀ q ∈ d.ids, Like (a.view q) (v q) := fun d hd' hdis q hq =>
    hd.like (hdis q hq) (hsub.in_file q (mem_ids_of_kid hd' hq)).lt
  have hold : ∀ d ∈ BPlusTree.kids c rest, ∀ q ∈ d.ids, q ≠ i ∧ q < g.next := by
    intro d hd' q hq
    have hlt := (hsub.in_file q (mem_ids_of_kid hd' hq)).lt
    exact ⟨fun heq => hown d hd' (heq ▸ hq), by lia⟩
  -- the pages of the focus after the insertion are its old ones or new
  have hgrown : ∀ q ∈ g.ids, q ≠ i ∧ q < g.next := by
    intro q hq
    rcases mem_append.mp (hperm.mem_iff.mp hq) with hq | hq
    · exact hold _ hmemf q hq
    · have hi := (hsub.in_file i mem_cons_self).lt
      have hr := mem_range'_1.mp hq
      exact ⟨by lia, by lia⟩
  have hi : i ∉ z.focus.ids := hown _ hmemf
  -- a child is one before the focus, what is left of the focus, or one after it
  have hcases : ∀ d ∈ BPlusTree.kids (plug z.before g.left (g.split.toList ++ z.after)).1
      (plug z.before g.left (g.split.toList ++ z.after)).2,
      (d ∈ BPlusTree.kids c rest ∧ ∀ q ∈ d.ids, q ∉ z.focus.ids) ∨ d = g.left ∨
        ∃ e, g.split = some e ∧ d = e.2 := by
    intro d hd'
    rw [kids_plug, map_append] at hd'
    rcases mem_append.mp hd' with hb | hr
    · exact .inl ⟨hmemb d hb, hbef d hb⟩
    rcases mem_cons.mp hr with rfl | hr
    · exact .inr (.inl rfl)
    rcases mem_append.mp hr with he | ha
    · obtain ⟨e, he', rfl⟩ := mem_map.mp he
      exact .inr (.inr ⟨e, Option.mem_toList.mp he', rfl⟩)
    · exact .inl ⟨hmema d ha, haft d ha⟩
  refine ⟨?_, ?_, ?_, ?_, hd.like hi (hsub.in_file i mem_cons_self).lt, ?_⟩
  · intro d hd'
    obtain ⟨hk, hdis⟩ | rfl | ⟨e, he, rfl⟩ := hcases d hd'
    · exact (hkids d hk).like (hsib d hk hdis)
    · exact hd.left
    · exact (hd.right e he).2
  · intro k hk
    rw [seps_plug, map_append] at hk
    have hseps : ∀ k ∈ z.before.map snd ++ z.after.map fst,
        k.length = L := by
      intro k hk
      rw [← seps_plug _ z.focus, ← hz, plug_pick] at hk
      exact hkeys k hk
    rcases mem_append.mp hk with hb | hr
    · exact hseps k (mem_append_left _ hb)
    rcases mem_append.mp hr with he | ha
    · obtain ⟨e, he', rfl⟩ := mem_map.mp he
      exact (hd.right e (Option.mem_toList.mp he')).1
    · exact hseps k (mem_append_right _ ha)
  · -- the chain: before the focus, the focus' own leaves, after it
    rw [kids_plug, Grown.leaves_plug, map_append, map_append, chained_append, chained_append]
    have hch := hsub.chain
    rw [Node.leaves_branch, kids_of_pick hz, flatMap_append, flatMap_cons,
      map_append, map_append, chained_append, chained_append, hx] at hch
    refine ⟨?_, hd.chain, hch.2.2.like (like_leaves fun d hd' => hsib d (hmema d hd') (haft d hd'))⟩
    rw [hy]
    exact hch.1.like (like_leaves fun d hd' => hsib d (hmemb d hd') (hbef d hd'))
  · intro d hd' q hq
    obtain ⟨hk, -⟩ | rfl | ⟨e, he, rfl⟩ := hcases d hd'
    · exact hold d hk q hq
    · exact hgrown q (mem_append_left _ hq)
    · refine hgrown q (mem_append_right _ ?_)
      rwa [he]
  · intro q hq hlt
    rcases hd.frame q (fun hin => hq (mem_ids_of_kid hmemf hin)) hlt with heq | ⟨htail, hlike⟩
    · exact .inl heq
    · rcases after_leaf_cases z.after tail with heq | ⟨d, hd', l, hl, heq⟩
      · exact .inr ⟨htail.trans heq, hlike⟩
      · -- a leaf right of the focus is a page of the branch
        refine absurd ?_ hq
        rw [htail, heq]
        exact mem_ids_of_kid (hmema d hd') (d.leaves_ids l hl)

/-- The focus was not split: the branch's page stays as it is. -/
theorem KidsDone.whole (hx : x.id = z.focus.id)
    (hk : KidsDone L a i c rest tail n (plug z.before x z.after) v) :
    Done L a (.branch i c rest)
      ⟨.branch i (plug z.before x z.after).1 (plug z.before x z.after).2, none, n⟩ tail v := by
  obtain ⟨⟨f, nx, hn, hf⟩, -, -⟩ := holds_branch.mp hsub.holds
  have hids := (focus_rest_ids hz).symm.trans (rest_ids hx _)
  obtain ⟨h1, h2⟩ := Prod.mk.inj hids
  refine ⟨holds_branch.mpr ⟨⟨f, nx, ?_, hf⟩, hk.keys, hk.holds⟩, (fun _ he => by cases he), ?_,
    hk.frame⟩
  · rw [← h1, ← h2]
    exact hk.self.node _ _ _ _ hn
  · simp only [Grown.leaves, Option.map_none, Option.getD_none, append_nil, Node.leaves_branch]
    exact hk.chain

/-- The focus was split: the branch takes over the new child. -/
theorem KidsDone.absorbed {x r : Node Key TupleId h} {sep : Key}
    (hx : x.id = z.focus.id) (hlen : a.len ≤ n)
    (hk : KidsDone L a i c rest tail n (plug z.before x ((sep, r) :: z.after)) v)
    (hb : ∀ y ∈ z.before.map snd, y ≤ sep) (ha : ∀ y ∈ z.after.map fst, sep < y)
    (h : s.Stands ∅ ⟨n, v, a.pins, a.size⟩ []) (hroom : Room a.pins a.size 1)
    (hdisk : DiskRoom ⟨n, v, a.pins, a.size⟩ 1) (hci : 0 < internal_cap L) :
    wp (internal_insert i sep r.id)
      (Simulates L a tail (.branch i c rest) (absorb (internal_cap L) i rest.length
        (plug z.before x ((sep, r) :: z.after)) n)) never s := by
  obtain ⟨⟨f, nx, hn, hf⟩, -, -⟩ := holds_branch.mp hsub.holds
  have hi := hsub.in_file i mem_cons_self
  have hold := focus_rest_ids hz
  have hnew := rest_ids hx ((sep, r) :: z.after)
  -- the list the source builds is the list of the new children, under the same first child
  have hplace : place sep r.id (rest.map (Prod.map id Node.id))
      = (plug z.before x ((sep, r) :: z.after)).2.map
        (Prod.map id Node.id) := by
    have h1 : rest.map (Prod.map id Node.id) = _ := (congrArg snd hold).symm
    rw [h1, place_plug]
    · exact congrArg snd hnew
    · simpa using hb
    · simpa using ha
  have hfirst : c.id
      = (plug z.before x ((sep, r) :: z.after)).1.id := by
    have h1 : c.id = _ := (congrArg fst hold).symm
    have h2 := congrArg fst hnew
    rw [map_cons, plug_insert] at h2
    exact h1.trans h2
  have hr : r ∈ kids (plug z.before x ((sep, r) :: z.after)).1
      (plug z.before x ((sep, r) :: z.after)).2 := by
    rw [kids_plug]
    exact mem_append_right _ (mem_cons_of_mem _ mem_cons_self)
  have hsep : sep ∈ (plug z.before x
      ((sep, r) :: z.after)).2.map fst := by
    rw [seps_plug]
    exact mem_append_right _ mem_cons_self
  generalize plug z.before x ((sep, r) :: z.after) = p at *
  have hr64 : r.id < 2 ^ 64 :=
    lt_trans (hdisk.lt_invalid (Nat.lt_succ_of_lt (hk.ids r hr _ r.id_mem_ids).2)) (by decide)
  have hst := hsub.rest_storable (n := 0) (hdisk.mono (Nat.le_succ_of_le hlen))
  have hlenr : (rest.map (Prod.map id Node.id)).length = rest.length := length_map _
  refine wp_imp (internal_insert_spec h ⟨hi.ne_zero, lt_of_lt_of_le hi.lt hlen⟩ hroom hdisk
    (hk.self.node _ _ _ _ hn) hst (hk.keys sep hsep) hr64 hci) ?_
  rintro res s' (⟨hfit, rfl, v', h', hn', hfr⟩ | ⟨hfull, e, right, v', hd, rfl, h', hsplit⟩)
  · obtain ⟨hk1, hk2, hk3⟩ := hk.rewrite (fun q h1 _ => hfr q h1) hlen
    rw [hlenr] at hfit
    rw [absorb, if_pos hfit]
    refine ⟨rfl, v', h', holds_branch.mpr ⟨⟨f, nx, ?_, hf⟩, hk.keys, hk1⟩,
      (fun _ he => by cases he), ?_, hk3⟩
    · rwa [← hplace, ← hfirst]
    · simp only [Grown.leaves, Option.map_none, Option.getD_none, append_nil, Node.leaves_branch]
      exact hk2
  · obtain ⟨hk1, hk2, hk3⟩ := hk.rewrite hsplit.frame hlen
    rw [hlenr] at hfull
    rw [hplace, length_map] at hd hsplit
    rw [← map_drop] at hd
    rw [← absorb_leaves (internal_cap L) i rest.length n p] at hk2
    rw [absorb, if_neg (not_lt.mpr hfull)] at hk2 ⊢
    cases hdp : p.2.drop (p.2.length / 2) with
    | nil =>
      simp [hdp] at hd
    | cons em rightn =>
      obtain ⟨sm, m⟩ := em
      rw [hdp] at hd hk2
      obtain ⟨he, hright⟩ := cons.inj hd
      subst he hright
      have hcat : p.2.take (p.2.length / 2) ++ (sm, m) :: rightn = p.2 := by
        rw [← hdp, take_append_drop]
      have hkids : ∀ d, d ∈ kids p.1 (p.2.take (p.2.length / 2)) ∨ d ∈ kids m rightn →
          d ∈ kids p.1 p.2 := by
        intro d hd
        rw [← hcat]
        simp only [kids, map_append, map_cons, mem_cons, mem_append] at hd ⊢
        tauto
      have hseps : ∀ k, k ∈ (p.2.take (p.2.length / 2)).map fst ∨ k = sm
          ∨ k ∈ rightn.map fst → k.length = L := by
        intro k hk'
        refine hk.keys k ?_
        rwa [← hcat, map_append, map_cons, mem_append, mem_cons]
      obtain ⟨f2, n2, hn2, hf2⟩ := hsplit.right
      refine ⟨rfl, v', h', holds_branch.mpr ⟨⟨f, nx, ?_, hf⟩,
        fun k hk' => hseps k (.inl hk'), fun d hd => hk1 d (hkids d (.inl hd))⟩, ?_, hk2, hk3⟩
      · rw [map_take, ← hfirst]
        exact hsplit.left
      · intro e he
        rw [← Option.some.inj he]
        exact ⟨hseps sm (.inr (.inl rfl)), holds_branch.mpr ⟨⟨f2, n2, hn2, hf2⟩,
          fun k hk' => hseps k (.inr (.inr hk')), fun d hd => hk1 d (hkids d (.inr hd))⟩⟩

end Branch

/-- **`insert_recursive`** inserts into the tree its pages hold. -/
theorem insert_recursive_spec (hkey : Storable key tid) (hL : key.length = L)
    (hcl : 0 < leaf_cap L) (hci : 0 < internal_cap L) {h : ℕ} (t : Node Key TupleId h) :
    ∀ {s : BufferPool} {a : Image} {tail : PageId} {fuel : ℕ}, s.Stands ∅ a [] →
      Sub L a t tail → Room a.pins a.size 2 → DiskRoom a (h + 1) → Routable key t →
      Fits (leaf_cap L) (internal_cap L) key tid a.len t → h < fuel →
      wp (insert_recursive key tid fuel t.id)
        (Simulates L a tail t (ins (leaf_cap L) (internal_cap L) key tid t a.len)) never s := by
  induction t with
  | leaf i es =>
    intro s a tail fuel hs hsub hroom hdisk _ _ hfuel
    obtain ⟨fuel, rfl⟩ := Nat.exists_eq_add_of_lt hfuel
    obtain ⟨⟨f, n, l, hn, hf⟩, -⟩ := holds_leaf.mp hsub.holds
    have hi := hsub.in_file i mem_cons_self
    rw [zero_add, insert_recursive, Node.id_leaf]
    refine wp_then (read_at_rule hs hi.ne_zero hi.lt (hroom.mono (by decide)) hn.is_leaf_eq) ?_
    rintro _ s1 ⟨rfl, h1⟩
    rw [decide_eq_true hf, if_pos rfl, ins_of_leaf]
    exact leaf_simulates h1 hsub hroom hdisk hkey hL hcl
  | branch i c rest ih =>
    intro s a tail fuel hs hsub hroom hdisk hroute hfits hfuel
    obtain ⟨fuel, rfl⟩ := Nat.exists_eq_add_of_lt (lt_of_le_of_lt (Nat.zero_le _) hfuel)
    obtain ⟨⟨f, n, hn, hf⟩, -, -⟩ := holds_branch.mp hsub.holds
    obtain ⟨hsorted, hroute⟩ := routable_branch.mp hroute
    obtain ⟨hfits, hsplits⟩ := fits_branch.mp hfits
    have hi := hsub.in_file i mem_cons_self
    refine wp_then (read_at_rule hs hi.ne_zero hi.lt (hroom.mono (by decide)) hn.is_leaf_eq) ?_
    rintro _ s1 ⟨rfl, h1⟩
    rw [decide_eq_false (not_not.mpr hf), if_neg Bool.false_ne_true]
    -- the child the source goes to is the focus
    have hdesc := descend_focus hsub hdisk hci hsorted key
    refine wp_then (read_at_rule h1 hi.ne_zero hi.lt (hroom.mono (by decide)) hdesc) ?_
    rintro _ s2 ⟨rfl, h2⟩
    refine wp_then (ih (pick key c rest).focus h2 (hsub.focus rfl) hroom ?_ hroute hfits
      (by omega)) ?_
    · exact hdisk.mono (Nat.add_le_add_left (Nat.le_succ _) _)
    rintro r s3 ⟨rfl, v, h3, hdone⟩
    have hk := hdone.kids rfl hsub rfl
    obtain ⟨hid, hlen, -⟩ := ins_ids (leaf_cap L) (internal_cap L) key tid (pick key c rest).focus
      a.len
    cases hsplit : (ins (leaf_cap L) (internal_cap L) key tid (pick key c rest).focus a.len).split with
    | none =>
      rw [hsplit] at hk
      rw [ins_branch_none rfl rfl hsplit]
      exact ⟨rfl, v, h3, hk.whole rfl hsub hid⟩
    | some e =>
      obtain ⟨sep, r⟩ := e
      rw [hsplit] at hk
      rw [ins_branch_some rfl rfl hsplit]
      obtain ⟨hb, ha⟩ := hsplits sep r hsplit
      have hnext := (ins_next (leaf_cap L) (internal_cap L) key tid (pick key c rest).focus a.len).2
      exact hk.absorbed rfl hsub hid hlen hb ha h3 (hroom.mono (by decide))
        (hdisk.mono (Nat.succ_le_succ hnext)) hci

end Simulation

end Oigrap.Storage.BTree
