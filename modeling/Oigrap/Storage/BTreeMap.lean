/-
The index as a map from keys to tuple locations.

`Indexed` says of a pool that the tree in it holds a given collection of entries: the
pages are an ordered tree of the library whose entries, read along the leaves, are a
permutation of what was inserted. Every insert keeps it unless it splits a leaf between
two equal keys, and every search of an indexed pool gives the answer of the collection.

Pairwise distinct keys never cause such a split, which is `distinct_keys`. With repeated
keys `repeated_keys` says the same of every run that avoids it, and
`straddling_split_loses_a_tuple` runs the source into one.
-/
import Oigrap.Storage.BTreeSpec

namespace Oigrap.Storage.BTree

open Wp ByteMem BufferPool BPlusTree List

/-! ## Runs of inserts -/

/-- Inserts one after the other, each into the tree the one before it left. -/
def insert_all : BTree → List (Key × TupleId) → PoolM BTree
  | t, [] => pure t
  | t, e :: es => do
    let t' ← insert t e.1 e.2
    insert_all t' es

/-- A new tree with the entries `kvs` inserted in this order. -/
def build (kvs : List (Key × TupleId)) : PoolM BTree := do
  let t ← create
  insert_all t kvs

/-- What `leaf_insert` would divide the entries of a full leaf into. -/
def halves (key : Key) (tid : TupleId) (p : Page) :
    Except Fault (Option (List (Key × TupleId) × List (Key × TupleId))) := do
  let existing ← collect_leaf_entries p
  let ins := partition_point (fun e => decide (e.1 ≤ key)) existing
  let all := existing.insertIdx ins (key, tid)
  if SLOT_SIZE + (encode_leaf_entry key tid).length ≤ p.free_space then return none
  else return some (all.take (all.length / 2), all.drop (all.length / 2))

/-- The halves of the leaf that `insert` reaches, if that leaf has no room. -/
def split_halves (t : BTree) (key : Key) (tid : TupleId) :
    PoolM (Option (List (Key × TupleId) × List (Key × TupleId))) := do
  let s ← get
  let page_id ← find_leaf key s.disk.len t.root_page_id
  read_at page_id (halves key tid)

/-- The insert divides a leaf between two entries with the same key. -/
def SplitsEqual (t : BTree) (s : BufferPool) (e : Key × TupleId) : Prop :=
  ∃ left right s', split_halves t e.1 e.2 s = .ok (some (left, right)) s'
    ∧ ∃ x ∈ left, ∃ y ∈ right, x.1 = y.1

/-- Along the run that inserts `kvs`, no insert divides a leaf between equal keys. -/
def NeverSplitsEqual : List (Key × TupleId) → BTree → BufferPool → Prop
  | [], _, _ => True
  | e :: es, t, s => ¬ SplitsEqual t s e ∧
    ∀ t' s', insert t e.1 e.2 s = .ok t' s' → NeverSplitsEqual es t' s'

/-- `s'` shows the user pages that `s` shows, and can fetch them: `s` itself at a later
moment, or another pool over the same file. -/
structure Shows (s s' : BufferPool) : Prop where
  coherent : s'.Coherent ∅ none
  len : s'.disk.len = s.disk.len
  view : ∀ q, q ≠ 0 → s'.view q = s.view q
  room : Room s'.pins s'.pool_size 1

/-! ## The invariant of a run -/

/-- The pool `s` holds the tree `t`, which is `T` and has the entries `kvs`. -/
structure Indexed (L : ℕ) (s : BufferPool) (a : Image) (t : BTree) (T : Tree Key TupleId)
    (kvs : List (Key × TupleId)) : Prop where
  stands : s.Stands ∅ a []
  tree : IsTree L a t T
  ordered : Ordered T.root ⊥ ⊤
  sorted : T.root.entries.Pairwise (fun a b => a.1 ≤ b.1)
  entries : T.root.entries.Perm kvs
  height : T.height ≤ kvs.length

variable {kvs : List (Key × TupleId)} {T : Tree Key TupleId} {L : ℕ} {s s' : BufferPool} {a : Image}
  {t : BTree} {key : Key} {tid : TupleId}

theorem cap_pos (hL : L + 16 ≤ NODE_CAPACITY) : 0 < leaf_cap L ∧ 0 < internal_cap L :=
  ⟨Nat.div_pos hL (Nat.succ_pos _), Nat.div_pos (by omega) (Nat.succ_pos _)⟩

variable {es : List (Key × TupleId)}

theorem halves_eq {p : Page} {f n m : ℕ} (hn : IsNode p (leaf_bytes es) f n m)
    (hst : ∀ e ∈ es, Storable e.1 e.2 ∧ e.1.length = L) (tid : TupleId) (hlen : key.length = L) :
    halves key tid p = .ok (if es.length < leaf_cap L then none
      else some ((place key tid es).take ((place key tid es).length / 2),
        (place key tid es).drop ((place key tid es).length / 2))) := by
  have hneed := leaf_width (key, tid)
  rw [hlen] at hneed
  have hiff := room_iff hn leaf_width (fun e he => (hst e he).2) (Nat.succ_pos _)
  rw [halves, collect_leaf_entries_eq hn (fun e he => (hst e he).1)]
  simp only [bind, Except.bind]
  rw [hneed, insertIdx_partition_point]
  by_cases hfit : es.length < leaf_cap L
  · rw [if_pos hfit, if_pos (hiff.mpr hfit)]
    rfl
  · rw [if_neg hfit, if_neg (fun hx => hfit (hiff.mp hx))]
    rfl

/-- Of the pages a run may take, an insert leaves the rest of the run its share. -/
theorem DiskRoom.share {n : ℕ} {e : Key × TupleId}
    (h : DiskRoom a ((e :: es).length * (n + (e :: es).length + 2))) :
    DiskRoom a (n + 2) ∧ ∀ a' : Image, a'.len ≤ a.len + (n + 2) →
      DiskRoom a' (es.length * (n + 1 + es.length + 2)) := by
  have hsum : (e :: es).length * (n + (e :: es).length + 2)
      = es.length * (n + 1 + es.length + 2) + (n + es.length + 3) := by
    rw [length_cons, Nat.succ_mul, show n + (es.length + 1) + 2 = n + 1 + es.length + 2 by omega]
    omega
  rw [hsum] at h
  exact ⟨h.mono (by omega), fun a' ha => le_trans (Nat.mul_le_mul_right _ (by omega)) h⟩

section

variable (h : Indexed L s a t T kvs)
include h

theorem Indexed.routable (key : Key) : Routable key T.root :=
  h.ordered.routable bot_le (WithTop.coe_lt_top key)

/-- The leaf of a key and its neighbours, in terms of the entries of the tree. -/
theorem Indexed.leaf (key : Key) : ∃ pre post, T.root.leaves = pre ++ leaf_for key T.root :: post
      ∧ (∀ e ∈ pre.flatMap Leaf.entries, e.1 < key) ∧ (∀ e ∈ post.flatMap Leaf.entries, key < e.1)
      ∧ T.root.entries = pre.flatMap Leaf.entries
        ++ ((leaf_for key T.root).entries ++ post.flatMap Leaf.entries) := by
  obtain ⟨pre, post, hl, hpre, hpost⟩ :=
    h.ordered.leaf_for bot_le (WithTop.coe_lt_top key)
  refine ⟨pre, post, hl, hpre, hpost, ?_⟩
  rw [Node.entries, hl, flatMap_append, flatMap_cons]

theorem Indexed.leaf_sublist (key : Key) :
    (leaf_for key T.root).entries.Sublist T.root.entries := by
  obtain ⟨pre, post, -, -, -, he⟩ := h.leaf key
  rw [he]
  exact (sublist_append_left _ _).trans (sublist_append_right _ _)

/-- Halves of a list of entries with distinct keys share no key. -/
theorem Indexed.not_straddles (hnd : ((key, tid) :: kvs).map Prod.fst |>.Nodup) :
    ¬ Straddles (leaf_cap L) key tid T.root := by
  rintro ⟨-, x, hx, y, hy, hxy⟩
  have hnodup : ((place key tid (leaf_for key T.root).entries).map Prod.fst).Nodup := by
    rw [((place_perm key tid _).map Prod.fst).nodup_iff]
    refine List.Nodup.sublist ?_ (((h.entries.cons (key, tid)).map Prod.fst).nodup_iff.mpr hnd)
    exact ((h.leaf_sublist key).cons_cons _).map _
  rw [← take_append_drop ((place key tid (leaf_for key T.root).entries).length / 2)
    (place key tid (leaf_for key T.root).entries), map_append] at hnodup
  exact (nodup_append.mp hnodup).2.2 x.1 (mem_map_of_mem hx) y.1
    (mem_map_of_mem hy) hxy

variable (hL : L + 16 ≤ NODE_CAPACITY)
include hL

/-- **One insert** that does not straddle equal keys. -/
theorem Indexed.insert (hroom : Room a.pins a.size 2) (hdisk : DiskRoom a (kvs.length + 2))
    (hkey : Storable key tid) (hlen : key.length = L)
    (hno : ¬ Straddles (leaf_cap L) key tid T.root) :
    wp (insert t key tid) (fun t' s' => t'.meta_page_id = t.meta_page_id ∧ ∃ a' T',
      Indexed L s' a' t' T' (kvs ++ [(key, tid)]) ∧ a'.pins = a.pins ∧ a'.size = a.size
        ∧ a'.len ≤ a.len + (kvs.length + 2)) never s := by
  obtain ⟨hcl, hci⟩ := cap_pos hL
  have hfits := h.ordered.fits (internal_cap L) a.len hcl bot_le
    (WithTop.coe_lt_top key) hno
  refine wp_imp (insert_spec h.stands h.tree hroom (hdisk.mono (by have := h.height; omega))
    hkey hlen hcl hci (h.routable key) hfits) ?_
  rintro t' s' ⟨hm, v, hs, ht⟩
  obtain ⟨hord, hent⟩ := Tree.insert_ordered (internal_cap L) a.len hcl h.ordered hno
  obtain ⟨hheight, hnext⟩ := Tree.insert_bounds (leaf_cap L) (internal_cap L) key tid T a.len
  have hh := h.height
  refine ⟨hm, _, _, ⟨hs, ht, hord, ?_, ?_, ?_⟩, rfl, rfl, ?_⟩
  · rw [hent]
    exact place_sorted h.sorted
  · rw [hent]
    exact (place_perm key tid _).trans ((h.entries.cons _).trans (perm_append_singleton _ _).symm)
  · rw [length_append]
    exact hheight.trans (Nat.succ_le_succ hh)
  · exact hnext.trans (by omega)

variable (hroom : Room a.pins a.size 1)
include hroom

theorem split_halves_spec (tid : TupleId) (hlen : key.length = L) :
    wp (split_halves t key tid) (fun r _ =>
      (if (leaf_for key T.root).entries.length < leaf_cap L then none
        else some ((place key tid (leaf_for key T.root).entries).take
            ((place key tid (leaf_for key T.root).entries).length / 2),
          (place key tid (leaf_for key T.root).entries).drop
            ((place key tid (leaf_for key T.root).entries).length / 2))) = r) never s := by
  unfold split_halves
  rw [wp_bind, wp_get, h.stands.len, h.tree.root]
  refine wp_then (find_leaf_spec (cap_pos hL).2 T.root h.stands h.tree.sub hroom
    (h.routable key) h.tree.sub.height_lt) ?_
  rintro _ s1 ⟨rfl, h1⟩
  obtain ⟨pre, post, hl, -, -, -⟩ := h.leaf key
  have hmem : leaf_for key T.root ∈ T.root.leaves := by
    rw [hl]
    exact mem_append_right _ mem_cons_self
  obtain ⟨⟨f, n, m, hn, -⟩, hst⟩ := h.tree.sub.holds.leaf _ hmem
  have hin := h.tree.sub.in_file _ (T.root.leaves_ids _ hmem)
  exact wp_imp (read_at_rule h1 hin.ne_zero hin.lt hroom
    (halves_eq hn hst tid hlen)) (fun _ _ hx => hx.1)

/-- The condition on the pages is the condition on the tree. -/
theorem Indexed.splitsEqual_iff (hlen : key.length = L) :
    SplitsEqual t s (key, tid) ↔ Straddles (leaf_cap L) key tid T.root := by
  obtain ⟨r, s', hr, rfl⟩ := exists_ok_of_wp (split_halves_spec h hL hroom tid hlen)
  unfold SplitsEqual Straddles
  rw [hr]
  constructor
  · rintro ⟨left, right, s'', heq, x, hx, y, hy, hxy⟩
    by_cases hfit : (leaf_for key T.root).entries.length < leaf_cap L
    · simp [if_pos hfit] at heq
    · rw [if_neg hfit] at heq
      cases heq
      exact ⟨not_lt.mp hfit, x, hx, y, hy, hxy⟩
  · rintro ⟨hfull, x, hx, y, hy, hxy⟩
    rw [if_neg (not_lt.mpr hfull)]
    exact ⟨_, _, s', rfl, x, hx, y, hy, hxy⟩

/-- **`lookup`** finds a tuple of the key if one was inserted. -/
theorem Indexed.lookup (key : Key) :
    wp (lookup t key) (fun r s' => (∀ tid, r = some tid → (key, tid) ∈ kvs)
      ∧ (r = none → ∀ tid, (key, tid) ∉ kvs) ∧ s'.Stands ∅ a []) never s := by
  refine wp_imp (lookup_spec h.stands h.tree hroom (cap_pos hL).2 (h.routable key)
    (h.sorted.sublist (h.leaf_sublist key))) ?_
  rintro r s' ⟨rfl, hs⟩
  obtain ⟨pre, post, -, hpre, hpost, he⟩ := h.leaf key
  refine ⟨?_, ?_, hs⟩
  · intro tid htid
    obtain ⟨⟨k, v⟩, hfind, rfl⟩ := Option.map_eq_some_iff.mp htid
    have hk : k = key := by simpa using find?_some hfind
    subst hk
    exact h.entries.subset ((h.leaf_sublist k).subset (mem_of_find?_eq_some hfind))
  · intro hnone tid hin
    have hleaf : (key, tid) ∈ (leaf_for key T.root).entries := by
      have hall := h.entries.symm.subset hin
      rw [he, mem_append, mem_append] at hall
      rcases hall with hx | hx | hx
      · exact absurd (hpre _ hx) (lt_irrefl _)
      · exact hx
      · exact absurd (hpost _ hx) (lt_irrefl _)
    exact find?_eq_none.mp (Option.map_eq_none_iff.mp hnone) _ hleaf (decide_eq_true rfl)

/-- **`range_scan`** returns the inserted entries of the range, in order. -/
theorem Indexed.range_scan (start : Key) (stop : Option Key) :
    wp (range_scan t start stop) (fun r s' => r.Perm (kvs.filter (in_range start stop))
      ∧ r.Pairwise (fun a b => a.1 ≤ b.1) ∧ s'.Stands ∅ a []) never s := by
  obtain ⟨pre, post, hl, hpre, -, he⟩ := h.leaf start
  have hsorted := h.sorted
  rw [he] at hsorted
  refine wp_imp (range_scan_spec h.stands h.tree hroom (cap_pos hL).2 stop (h.routable start) hl
    (pairwise_append.mp hsorted).2.1) ?_
  rintro r s' ⟨rfl, hs⟩
  -- the leaves left of the start have nothing in range
  have hskip : ((leaf_for start T.root :: post).flatMap Leaf.entries).filter (in_range start stop)
      = T.root.entries.filter (in_range start stop) := by
    have hnone : (pre.flatMap Leaf.entries).filter (in_range start stop) = [] := by
      rw [filter_eq_nil_iff]
      intro e hpe
      simp [in_range, not_le.mpr (hpre e hpe)]
    rw [he, filter_append, hnone, nil_append, flatMap_cons]
  rw [hskip]
  exact ⟨h.entries.filter _, h.sorted.filter _, hs⟩

end

/-- **A whole run**: as long as no insert straddles equal keys. -/
theorem insert_all_spec (hL : L + 16 ≤ NODE_CAPACITY) (new : List (Key × TupleId)) :
    ∀ {s : BufferPool} {a : Image} {t : BTree} {T : Tree Key TupleId}
      {kvs : List (Key × TupleId)}, Indexed L s a t T kvs → Room a.pins a.size 2 →
      DiskRoom a (new.length * (kvs.length + new.length + 2)) →
      (∀ e ∈ new, Storable e.1 e.2 ∧ e.1.length = L) → NeverSplitsEqual new t s →
      wp (insert_all t new) (fun t' s' => ∃ a' T', Indexed L s' a' t' T' (kvs ++ new)
        ∧ a'.pins = a.pins ∧ a'.size = a.size) never s := by
  induction new with
  | nil =>
    intro s a t T kvs h _ _ _ _
    rw [append_nil]
    exact ⟨a, T, h, rfl, rfl⟩
  | cons e es ih =>
    intro s a t T kvs h hroom hdisk hall hnever
    obtain ⟨hst, hlen⟩ := hall e mem_cons_self
    obtain ⟨hnow, hlater⟩ := DiskRoom.share hdisk
    have hno := (h.splitsEqual_iff hL (hroom.mono (by decide)) hlen).not.mp hnever.1
    obtain ⟨t1, s1, hrun, -, a1, T1, h1, hp, hz, hl⟩ :=
      exists_ok_of_wp (h.insert hL hroom hnow hst hlen hno)
    refine wp_then (wp_of_ok (Q := fun t' s' => t' = t1 ∧ s' = s1) hrun ⟨rfl, rfl⟩) ?_
    rintro _ _ ⟨rfl, rfl⟩
    rw [append_cons]
    refine wp_imp (ih h1 (by rwa [hp, hz])
      (by rw [length_append]; exact hlater a1 hl)
      (fun x hx => hall x (mem_cons_of_mem _ hx)) (hnever.2 _ _ hrun)) ?_
    rintro t2 s2 ⟨a2, T2, h2, hp2, hz2⟩
    exact ⟨a2, T2, h2, hp2.trans hp, hz2.trans hz⟩

/-- A condition on what has been inserted so far that rules the bad split out rules it out
along the whole run. -/
theorem never_splits_equal (hL : L + 16 ≤ NODE_CAPACITY) (new : List (Key × TupleId)) :
    ∀ {s : BufferPool} {a : Image} {t : BTree} {T : Tree Key TupleId}
      {kvs : List (Key × TupleId)}, Indexed L s a t T kvs → Room a.pins a.size 2 →
      DiskRoom a (new.length * (kvs.length + new.length + 2)) →
      (∀ e ∈ new, Storable e.1 e.2 ∧ e.1.length = L) →
      (∀ pre e post, new = pre ++ e :: post → ∀ s a t T, Indexed L s a t T (kvs ++ pre) →
        ¬ Straddles (leaf_cap L) e.1 e.2 T.root) → NeverSplitsEqual new t s := by
  induction new with
  | nil => exact fun _ _ _ _ _ => trivial
  | cons e es ih =>
    intro s a t T kvs h hroom hdisk hall hcond
    obtain ⟨hst, hlen⟩ := hall e mem_cons_self
    obtain ⟨hnow, hlater⟩ := DiskRoom.share hdisk
    have hno := hcond [] e es rfl s a t T (by rwa [append_nil])
    refine ⟨(h.splitsEqual_iff hL (hroom.mono (by decide)) hlen).not.mpr hno, ?_⟩
    intro t1 s1 hrun
    obtain ⟨-, a1, T1, h1, hp, hz, hl⟩ := wp_ok (h.insert hL hroom hnow hst hlen hno) hrun
    refine ih h1 (by rwa [hp, hz]) (by rw [length_append]; exact hlater a1 hl)
      (fun x hx => hall x (mem_cons_of_mem _ hx)) ?_
    intro pre x post hsplit s a t T hx
    refine hcond (e :: pre) x post (by rw [hsplit]; rfl) s a t T ?_
    rwa [append_cons]

/-! ## Reopening -/

theorem Shows.trans {s₁ s₂ s₃ : BufferPool} (h : Shows s₁ s₂) (h' : Shows s₂ s₃) : Shows s₁ s₃ :=
  ⟨h'.coherent, h'.len.trans h.len, fun q hq => (h'.view q hq).trans (h.view q hq), h'.room⟩

theorem shows_of_stands (h : s.Stands ∅ a []) (h' : s'.Stands ∅ a []) (hroom : Room a.pins a.size 1) :
    Shows s s' where
  coherent := h'.coherent
  len := h'.len.trans h.len.symm
  view := fun q hq => (h'.view q hq).trans (h.view q hq).symm
  room := by rwa [h'.pins, h'.size]

/-- Pins and frames do not matter to a tree. -/
theorem IsTree.repin (h : IsTree L a t T) (pins : PageId → ℕ) (size : ℕ) :
    IsTree L ⟨a.len, a.view, pins, size⟩ t T where
  sub := ⟨h.sub.holds, h.sub.chain, h.sub.nodup,
    fun q hq => ⟨(h.sub.in_file q hq).ne_zero, (h.sub.in_file q hq).lt⟩, .inl rfl⟩
  root := h.root
  meta_in_file := ⟨h.meta_in_file.ne_zero, h.meta_in_file.lt⟩
  meta_free := h.meta_free
  magic := h.magic
  meta_root := h.meta_root

theorem Indexed.reopen (h : Indexed L s a t T kvs) (hs : Shows s s') :
    Indexed L s' ⟨a.len, a.view, s'.pins, s'.pool_size⟩ t T kvs where
  stands := ⟨hs.coherent, hs.len.trans h.stands.len, rfl,
    fun q hq => (hs.view q hq).trans (h.stands.view q hq), rfl,
    fun _ he => absurd he not_mem_nil⟩
  tree := h.tree.repin _ _
  ordered := h.ordered
  sorted := h.sorted
  entries := h.entries
  height := h.height

/-- What a pool that shows the pages of an indexed one serves. -/
theorem Indexed.serves {s₁ s₂ : BufferPool} (h : Indexed L s₁ a t T kvs)
    (hL : L + 16 ≤ NODE_CAPACITY) (hshow : Shows s₁ s₂) :
    wp («open» t.meta_page_id) (fun t' s₃ => t' = t ∧ Shows s₁ s₃) never s₂
    ∧ (∀ key, wp (BTree.lookup t key) (fun r s₃ => (∀ tid, r = some tid → (key, tid) ∈ kvs)
        ∧ (r = none → ∀ tid, (key, tid) ∉ kvs) ∧ Shows s₁ s₃) never s₂)
    ∧ ∀ start stop, wp (BTree.range_scan t start stop) (fun r s₃ =>
        r.Perm (kvs.filter (in_range start stop)) ∧ r.Pairwise (fun a b => a.1 ≤ b.1)
        ∧ Shows s₁ s₃) never s₂ := by
  have h2 := h.reopen hshow
  have back : ∀ s₃, s₃.Stands ∅ ⟨a.len, a.view, s₂.pins, s₂.pool_size⟩ [] → Shows s₁ s₃ :=
    fun s₃ h3 => hshow.trans (shows_of_stands h2.stands h3 hshow.room)
  refine ⟨?_, ?_, ?_⟩
  · exact wp_imp (open_spec h2.stands h2.tree hshow.room)
      (fun t' s₃ hx => ⟨hx.1, back s₃ hx.2⟩)
  · exact fun key => wp_imp (h2.lookup hL hshow.room key)
      (fun r s₃ hx => ⟨hx.1, hx.2.1, back s₃ hx.2.2⟩)
  · exact fun start stop => wp_imp (h2.range_scan hL hshow.room start stop)
      (fun r s₃ hx => ⟨hx.1, hx.2.1, back s₃ hx.2.2⟩)

/-! ## The map -/

theorem empty_indexed {i : PageId} (h : s.Stands ∅ a [])
    (ht : IsTree L a t (Tree.empty i)) : Indexed L s a t (Tree.empty i) [] where
  stands := h
  tree := ht
  ordered := ordered_leaf.mpr ⟨List.Pairwise.nil, fun _ he => absurd he not_mem_nil⟩
  sorted := List.Pairwise.nil
  entries := List.Perm.refl _
  height := le_rfl

/-- The pool a tree with the entries `kvs` is built in: `L` is a key length of which at
least one entry fits a node, three frames are free, and the file may grow by the pages the
inserts can take at most. (A branch with room for one separator has one child after some
splits, so that descending keys of such a length really make a tree as high as there are
entries.) -/
structure Buildable (L : ℕ) (kvs : List (Key × TupleId)) (s : BufferPool) : Prop where
  coherent : s.Coherent ∅ none
  frames : Room s.pins s.pool_size 3
  file : (s.disk.len + (kvs.length + 2) ^ 2) * PAGE_SIZE ≤ MAX_FILE_SIZE
  fits : L + 16 ≤ NODE_CAPACITY
  entries : ∀ e ∈ kvs, Storable e.1 e.2 ∧ e.1.length = L

section

variable (h : Buildable L kvs s)
include h

/-- `create`, with what the inserts after it need. -/
theorem Buildable.create :
    wp create (fun t s' => ∃ a i, Indexed L s' a t (Tree.empty i) [] ∧ Room a.pins a.size 2
      ∧ DiskRoom a (kvs.length * (0 + kvs.length + 2))) never s := by
  have hfile : DiskRoom s.image (2 + kvs.length * (0 + kvs.length + 2)) := by
    refine le_trans (Nat.mul_le_mul_right _ (Nat.add_le_add_left ?_ _)) h.file
    rw [pow_two, Nat.add_mul, Nat.zero_add]
    omega
  refine wp_imp (create_spec L h.coherent.stands h.coherent.disk.pos h.frames
    (hfile.mono (by omega))) ?_
  rintro t s' ⟨-, v, hs, ht⟩
  refine ⟨_, _, empty_indexed hs ht, h.frames.update _ _, ?_⟩
  unfold DiskRoom at hfile ⊢
  rwa [← add_assoc] at hfile

/-- Building an index whose inserts never split a leaf between equal keys. -/
theorem Buildable.build (hno : ∀ t s', BTree.create s = .ok t s' → NeverSplitsEqual kvs t s') :
    wp (build kvs) (fun t s' => ∃ a T, Indexed L s' a t T kvs ∧ Room a.pins a.size 1) never s := by
  obtain ⟨t, s1, hrun, a, i, h1, hroom, hdisk⟩ := exists_ok_of_wp h.create
  refine wp_then (wp_of_ok (Q := fun t' s' => t' = t ∧ s' = s1) hrun ⟨rfl, rfl⟩) ?_
  rintro _ _ ⟨rfl, rfl⟩
  refine wp_imp (insert_all_spec h.fits kvs h1 hroom hdisk h.entries (hno _ _ hrun)) ?_
  rintro t' s' ⟨a', T', h2, hp, hz⟩
  refine ⟨a', T', h2, ?_⟩
  rw [hp, hz]
  exact hroom.mono (by decide)

theorem Buildable.never_splits (hno : ∀ pre e post, kvs = pre ++ e :: post → ∀ s a t T,
      Indexed L s a t T pre → ¬ Straddles (leaf_cap L) e.1 e.2 T.root) :
    ∀ t s', BTree.create s = .ok t s' → NeverSplitsEqual kvs t s' := by
  intro t s' hrun
  obtain ⟨a, i, h1, hroom, hdisk⟩ := wp_ok h.create hrun
  exact never_splits_equal h.fits kvs h1 hroom hdisk h.entries hno

theorem Buildable.distinct (hnd : (kvs.map Prod.fst).Nodup) :
    ∀ t s', BTree.create s = .ok t s' → NeverSplitsEqual kvs t s' := by
  refine h.never_splits fun pre e post hsplit s a t T hx => hx.not_straddles ?_
  rw [hsplit] at hnd
  refine List.Nodup.sublist ?_ ((perm_middle.map Prod.fst).nodup_iff.mp hnd)
  exact ((sublist_append_left pre post).cons_cons e).map _

theorem Buildable.few (hfew : kvs.length ≤ leaf_cap L) :
    ∀ t s', BTree.create s = .ok t s' → NeverSplitsEqual kvs t s' := by
  refine h.never_splits fun pre e post hsplit s a t T hx hstr => ?_
  have hle := (hx.leaf_sublist e.1).length_le
  rw [hx.entries.length_eq] at hle
  rw [hsplit, length_append, length_cons] at hfew
  have := hstr.1
  omega

end

/-- **The index is a map.** Pairwise distinct keys of one length are inserted into a new
tree. Every insert succeeds, and from then on, in this pool or in any that shows the same
pages, opening the meta page gives the tree, a lookup finds exactly what was inserted under
the key, and a scan returns exactly the entries of the range in strictly ascending order. -/
theorem distinct_keys (h : Buildable L kvs s) (hnd : (kvs.map Prod.fst).Nodup) :
    wp (build kvs) (fun t s₁ => Shows s₁ s₁ ∧ ∀ s₂, Shows s₁ s₂ →
      wp («open» t.meta_page_id) (fun t' s₃ => t' = t ∧ Shows s₁ s₃) never s₂
      ∧ (∀ key, wp (lookup t key) (fun r s₃ =>
          (∀ tid, r = some tid ↔ (key, tid) ∈ kvs) ∧ Shows s₁ s₃) never s₂)
      ∧ ∀ start stop, wp (range_scan t start stop) (fun r s₃ =>
          r.Perm (kvs.filter (in_range start stop)) ∧ r.Pairwise (fun a b => a.1 < b.1)
          ∧ Shows s₁ s₃) never s₂) never s := by
  refine wp_imp (h.build (h.distinct hnd)) ?_
  rintro t s₁ ⟨a, T, h1, hroom⟩
  refine ⟨shows_of_stands h1.stands h1.stands hroom, ?_⟩
  intro s₂ hshow
  obtain ⟨hopen, hlookup, hscan⟩ := h1.serves h.fits hshow
  refine ⟨hopen, ?_, ?_⟩
  · intro key
    refine wp_imp (hlookup key) ?_
    rintro r s₃ ⟨hsome, hnone, h3⟩
    refine ⟨fun tid => ⟨hsome tid, fun hin => ?_⟩, h3⟩
    cases r with
    | none => exact absurd hin (hnone rfl tid)
    | some tid' =>
      have := inj_on_of_nodup_map hnd (hsome tid' rfl) hin rfl
      rw [(Prod.mk.inj this).2]
  · intro start stop
    refine wp_imp (hscan start stop) ?_
    rintro r s₃ ⟨hperm, hsorted, h3⟩
    refine ⟨hperm, ?_, h3⟩
    have hnd' : (r.map Prod.fst).Nodup :=
      ((hperm.map Prod.fst).nodup_iff).mpr (hnd.sublist (filter_sublist.map _))
    exact (hsorted.and (pairwise_map.mp hnd')).imp fun hx => lt_of_le_of_ne hx.1 hx.2

/-- A new pool of four frames. -/
abbrev four_frames : BufferPool := .new 4 DiskManager.fresh

theorem fresh_buildable (hsmall : kvs.length ≤ 1000) (hL : L + 16 ≤ NODE_CAPACITY)
    (hall : ∀ e ∈ kvs, Storable e.1 e.2 ∧ e.1.length = L) :
    Buildable L kvs four_frames where
  coherent := new_coherent DiskManager.fresh_faithful 4
  frames := ⟨∅, fun q hq => absurd hq (lt_irrefl _), by decide⟩
  file := by
    have hpow : (kvs.length + 2) ^ 2 ≤ 1002 ^ 2 :=
      Nat.pow_le_pow_left (Nat.add_le_add_right hsmall 2) 2
    exact le_trans (Nat.mul_le_mul_right _ (Nat.add_le_add_left hpow 1)) (by decide)
  fits := hL
  entries := hall

theorem two_buildable {k k' : Key} (hL : L + 16 ≤ NODE_CAPACITY) (hk : k.length = L)
    (hk' : k'.length = L) :
    Buildable L [(k, ⟨1, 0⟩), (k', ⟨1, 1⟩)] four_frames := by
  have hlt : L < 2 ^ 16 := lt_of_le_of_lt (le_trans (Nat.le_add_right L 16) hL) (by decide)
  refine fresh_buildable (by simp) hL ?_
  simp only [forall_mem_cons]
  exact ⟨⟨⟨hk ▸ hlt, by norm_num, by norm_num⟩, hk⟩,
    ⟨⟨hk' ▸ hlt, by norm_num, by norm_num⟩, hk'⟩, by simp⟩

/-- Two keys in descending order, and a lookup of the second. -/
theorem distinct_keys_two : wp (build [([2], ⟨1, 0⟩), ([1], ⟨1, 1⟩)]) (fun t s₁ =>
      wp (lookup t [1]) (fun r _ => r = some ⟨1, 1⟩) never s₁) never
      four_frames := by
  have h : Buildable 1 [([2], ⟨1, 0⟩), ([1], ⟨1, 1⟩)] four_frames :=
    two_buildable (by decide) rfl rfl
  generalize four_frames = s at h ⊢
  refine wp_imp (distinct_keys h (by decide)) ?_
  rintro t s₁ ⟨hself, hall⟩
  refine wp_imp ((hall s₁ hself).2.1 [1]) ?_
  intro r s₃ hx
  exact (hx.1 _).mpr (mem_cons_of_mem _ mem_cons_self)

/-- **Repeated keys.** In every run in which no insert splits a leaf between two equal keys
every insert succeeds, a lookup finds a tuple that was inserted under the key whenever there
is one, and a scan returns every entry of the range as often as it was inserted. -/
theorem repeated_keys (h : Buildable L kvs s)
    (hno : ∀ t s', create s = .ok t s' → NeverSplitsEqual kvs t s') :
    wp (build kvs) (fun t s₁ => Shows s₁ s₁ ∧ ∀ s₂, Shows s₁ s₂ →
      (∀ key, wp (lookup t key) (fun r s₃ => (∀ tid, r = some tid → (key, tid) ∈ kvs)
          ∧ (r = none → ∀ tid, (key, tid) ∉ kvs) ∧ Shows s₁ s₃) never s₂)
      ∧ ∀ start stop, wp (range_scan t start stop) (fun r s₃ =>
          r.Perm (kvs.filter (in_range start stop)) ∧ r.Pairwise (fun a b => a.1 ≤ b.1)
          ∧ Shows s₁ s₃) never s₂) never s := by
  refine wp_imp (h.build hno) ?_
  rintro t s₁ ⟨a, T, h1, hroom⟩
  exact ⟨shows_of_stands h1.stands h1.stands hroom, fun s₂ hshow => (h1.serves h.fits hshow).2⟩

/-- The same key twice in one leaf, and a scan from it. -/
theorem repeated_keys_in_one_leaf :
    wp (build [([7], ⟨1, 0⟩), ([7], ⟨1, 1⟩)]) (fun t s₁ => wp (range_scan t [7] none)
      (fun r _ => r.Perm [([7], ⟨1, 0⟩), ([7], ⟨1, 1⟩)]) never s₁) never
      four_frames := by
  have h : Buildable 1 [([7], ⟨1, 0⟩), ([7], ⟨1, 1⟩)] four_frames :=
    two_buildable (by decide) rfl rfl
  generalize four_frames = s at h ⊢
  refine wp_imp (repeated_keys h (h.few (by decide))) ?_
  rintro t s₁ ⟨hself, hall⟩
  refine wp_imp ((hall s₁ hself).2 [7] none) ?_
  intro r s₃ hx
  exact hx.1

/-- The first insert into a tree with one entry a leaf. -/
theorem insert_empty_one {K V : Type} [LinearOrder K] (ci : ℕ) (k : K) (x : V) (i n : ℕ) :
    (Tree.empty i).insert 1 ci k x n = (⟨0, .leaf i [(k, x)]⟩, n) := rfl

/-- The second insert of the same key: both halves of the leaf have it, and so does the
separator. -/
theorem insert_again_one {K V : Type} [LinearOrder K] (ci : ℕ) (k : K) (x y : V) (i n : ℕ) :
    (⟨0, .leaf i [(k, x)]⟩ : Tree K V).insert 1 ci k y n
      = (⟨1, .branch (n + 1) (.leaf i [(k, x)]) [(k, .leaf n [(k, y)])]⟩, n + 2) := by
  have hplace : place k y [(k, x)] = [(k, x), (k, y)] := by simp [place]
  unfold Tree.insert Tree.of_grown
  rw [ins_of_leaf]
  simp [ins_leaf, hplace]

/-- A search for the separator goes to its right. -/
theorem scan_right_of_separator {k : Key} {x y : TupleId} {i j n : ℕ}
    (h : s.Stands ∅ a [])
    (ht : IsTree L a t ⟨1, .branch j (.leaf i [(k, x)]) [(k, .leaf n [(k, y)])]⟩)
    (hroom : Room a.pins a.size 1) (hci : 0 < internal_cap L) :
    wp (range_scan t k none) (fun r _ => r = [(k, y)]) never s := by
  have hpick : pick k (Node.leaf i [(k, x)]) [(k, Node.leaf n [(k, y)])]
      = ⟨[(Node.leaf i [(k, x)], k)], .leaf n [(k, y)], []⟩ := by simp [pick]
  have hleaf : leaf_for k (Node.branch j (.leaf i [(k, x)]) [(k, .leaf n [(k, y)])])
      = ⟨n, [(k, y)]⟩ := by
    rw [leaf_for_branch, hpick]
    rfl
  have hroute : Routable k (Node.branch j (.leaf i [(k, x)]) [(k, .leaf n [(k, y)])]) :=
    routable_branch.mpr ⟨pairwise_singleton _ _, trivial⟩
  have hleaves : (Node.branch j (.leaf i [(k, x)]) [(k, .leaf n [(k, y)])]).leaves
      = [⟨i, [(k, x)]⟩] ++ leaf_for k (.branch j (.leaf i [(k, x)]) [(k, .leaf n [(k, y)])]) :: [] := by
    rw [hleaf]
    rfl
  refine wp_imp (range_scan_spec h ht hroom hci none hroute hleaves
    (by rw [hleaf]; exact pairwise_singleton _ _)) ?_
  rintro r _ ⟨rfl, -⟩
  rw [hleaf]
  simp [in_range]

/-- When a leaf has room for one entry, the second insert of a key hides the first one. -/
theorem insert_again_hides {k : Key} {x y : TupleId} (h : Buildable L [(k, x), (k, y)] s)
    (hcap : leaf_cap L = 1) : wp (build [(k, x), (k, y)]) (fun t s₁ =>
      wp (range_scan t k none) (fun r _ => r = [(k, y)]) never s₁) never s := by
  obtain ⟨hcl, hci⟩ := cap_pos h.fits
  obtain ⟨hx, hk⟩ := h.entries _ mem_cons_self
  obtain ⟨hy, -⟩ := h.entries _ (mem_cons_of_mem _ mem_cons_self)
  refine wp_then h.create ?_
  rintro t s1 ⟨a, i, h1, hroom, hdisk⟩
  have hdisk2 : DiskRoom a 2 := hdisk.mono (Nat.add_le_add_left (show 2 ≤ 2 * 4 by decide) _)
  refine wp_then (insert_spec h1.stands h1.tree hroom hdisk2 hx hk hcl hci trivial trivial) ?_
  rintro t1 s2 ⟨-, v1, h2, ht2⟩
  rw [hcap, insert_empty_one] at h2 ht2
  refine wp_then (insert_spec h2 ht2 hroom hdisk2 hy hk hcl hci trivial trivial) ?_
  rintro t2 s3 ⟨-, v2, h3, ht3⟩
  rw [hcap, insert_again_one] at h3 ht3
  exact scan_right_of_separator h3 ht3 (hroom.mono (by decide)) hci

/-- **A split between equal keys loses a tuple.** One entry with a key of 5000 bytes fits a
leaf. The key is inserted twice; a scan from it returns the second tuple only. -/
theorem straddling_split_loses_a_tuple :
    wp (build [(replicate 5000 0, ⟨1, 0⟩), (replicate 5000 0, ⟨1, 1⟩)]) (fun t s₁ =>
      wp (range_scan t (replicate 5000 0) none)
        (fun r _ => r = [(replicate 5000 0, ⟨1, 1⟩)]) never s₁) never
      four_frames := by
  have hlen := length_replicate (n := 5000) (a := (0 : UInt8))
  generalize replicate 5000 (0 : UInt8) = key at hlen ⊢
  have h : Buildable 5000 [(key, ⟨1, 0⟩), (key, ⟨1, 1⟩)] four_frames :=
    two_buildable (by decide) hlen hlen
  generalize four_frames = s at h ⊢
  exact insert_again_hides h (by decide)

end Oigrap.Storage.BTree
