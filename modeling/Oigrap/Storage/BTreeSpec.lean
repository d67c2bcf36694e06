/-
The operations of the index, on trees of the library.

A tree is created on a pool, keys are inserted, and lookups and range scans run against
it, possibly after it was reopened by its meta page or by another pool over the same
pages. `IsTree` is the invariant that ties the meta page, the tree's pages and the leaf
chain to a tree of the library; `insert_spec` keeps it, and the two searches read the
library tree off the pages.
-/
import Oigrap.Storage.BTreeSim

namespace Oigrap.Storage.BTree

open Wp ByteMem BufferPool BPlusTree Function List

/-! ## The invariant -/

/-- The file `a` has index `t`, which is the tree `T` with keys of length `L`. -/
structure IsTree (L : ℕ) (a : Image) (t : BTree) (T : Tree Key TupleId) : Prop where
  sub : Sub L a T.root INVALID_PAGE_ID
  root : t.root_page_id = T.root.id
  meta_in_file : InFile a t.meta_page_id
  meta_free : t.meta_page_id ∉ T.root.ids
  magic : load 4 (a.view t.meta_page_id).data META_OFF_MAGIC = META_MAGIC
  meta_root : load 8 (a.view t.meta_page_id).data META_OFF_ROOT = t.root_page_id

variable {a : Image} {L : ℕ}

section Height

variable {h : ℕ} {t : Node Key TupleId h} {tail : PageId}

theorem height_lt_ids {h : ℕ} (t : Node Key TupleId h) : h < t.ids.length := by
  induction t with
  | leaf i es =>
    exact Nat.one_pos
  | branch i c rest ih =>
    have hc := ih c
    simp only [Node.ids_branch, kids, flatMap_cons, length_cons, length_append]
    omega

/-- The pages of a tree are distinct, so the file has more of them than the tree is high. -/
theorem Sub.height_lt (hsub : Sub L a t tail) : h < a.len := by
  have hle : t.ids.length ≤ a.len := by
    have hs : t.ids ⊆ range a.len := by
      intro q hq
      exact mem_range.mpr (hsub.in_file q hq).lt
    have := (hsub.nodup.subperm hs).length_le
    rwa [length_range] at this
  exact lt_of_lt_of_le (height_lt_ids t) hle

end Height

variable {s : BufferPool}

/-! ## Creating and reopening -/

section Create

theorem meta_ops_spec (p : Page) {root : PageId} (hr : root < 2 ^ 64) :
    ∃ q, run_ops (meta_ops root) p = .ok q ∧ load 4 q.data META_OFF_MAGIC = META_MAGIC
      ∧ load 8 q.data META_OFF_ROOT = root := by
  refine ⟨_, ops_cons rfl (ops_cons rfl (ops_cons rfl (ops_cons rfl rfl))), ?_, ?_⟩
  · simp (disch := lia) only [load_store_of_disjoint]
    exact load_store_self _ _ (by decide)
  · simp (disch := lia) only [load_store_of_disjoint]
    exact load_store_self _ _ (by norm_num at hr ⊢; exact hr)

/-- An empty root leaf and a meta page that names it are the empty tree. -/
theorem empty_isTree {root m f l : ℕ} (hn : IsNode (a.view root) [] f INVALID_PAGE_ID l)
    (hf : f &&& BTREE_FLAG_IS_LEAF ≠ 0) (hr : InFile a root) (hm : InFile a m) (hne : m ≠ root)
    (hmagic : load 4 (a.view m).data META_OFF_MAGIC = META_MAGIC)
    (hroot : load 8 (a.view m).data META_OFF_ROOT = root) :
    IsTree L a ⟨m, root⟩ (Tree.empty root) := by
  have hone : ∀ q, q ∈ (Tree.empty root : Tree Key TupleId).root.ids → q = root :=
    fun q hq => mem_singleton.mp hq
  refine ⟨⟨holds_leaf.mpr ⟨⟨f, _, l, hn, hf⟩, ?_⟩, ⟨hn.next, trivial⟩, nodup_singleton _, ?_,
    .inl rfl⟩, rfl, hm, fun hin => hne (hone m hin), hmagic, hroot⟩
  · intro e he
    cases he
  · intro q hq
    rwa [hone q hq]

/-- **`create`** makes an empty tree. The pin `new_page` took on the meta page stays. -/
theorem create_spec (L : ℕ) (h : s.Stands ∅ a []) (hpos : 0 < a.len)
    (hroom : Room a.pins a.size 3) (hdisk : DiskRoom a 2) :
    wp create (fun t s' => t.meta_page_id = a.len ∧ ∃ v,
        s'.Stands ∅ ⟨a.len + 2, v, update a.pins a.len 1, a.size⟩ []
        ∧ IsTree L ⟨a.len + 2, v, update a.pins a.len 1, a.size⟩ t
          (Tree.empty (a.len + 1))) never s := by
  refine wp_then (new_page_rule h (hroom.mono (by decide)) (hdisk.mono (Nat.le_succ _))) ?_
  rintro ⟨_, mf⟩ s1 ⟨rfl, h1⟩
  refine wp_then (new_page_rule h1 ((hroom.update _ _).mono (by decide)) hdisk) ?_
  rintro ⟨_, rf⟩ s2 ⟨rfl, h2⟩
  refine wp_then (edit_rule h2 mem_cons_self (ops_cons rfl rfl)) ?_
  intro _ s3 h3
  have hother : ∀ x ∈ [(a.len, mf)], x.1 ≠ a.alloc.len := by
    intro x hx
    rw [mem_singleton.mp hx]
    exact (Nat.succ_ne_self _).symm
  refine wp_then (unpin_rule h3 hother (.inl rfl)) ?_
  intro _ s4 h4
  rw [Image.unpin_put_alloc _ _ h1.fresh_pins,
    Set.insert_sdiff_self_of_notMem (Set.notMem_empty _)] at h4
  have hpr := init_isNode (a.alloc.alloc.view a.alloc.len) true true
  generalize (a.alloc.alloc.view a.alloc.len).init_btree_page true true = pr at h4 hpr
  have hroot : a.len + 1 < 2 ^ 64 :=
    lt_trans (hdisk.lt_invalid (Nat.lt_succ_self _)) (by decide)
  obtain ⟨pm, em, hmagic, hmroot⟩ := meta_ops_spec ((a.alloc.grow pr).view a.len) hroot
  refine wp_then (edit_at_rule h4.forget (ne_of_gt hpos) (Nat.lt_succ_of_lt (Nat.lt_succ_self _))
    ((hroom.update _ _).mono (by decide)) em) ?_
  intro _ s5 h5
  -- the root page was written before the meta page and is another page
  have hne : a.len ≠ a.len + 1 := (Nat.succ_ne_self _).symm
  have hvr : ((a.alloc.grow pr).put a.len pm).view (a.len + 1) = pr := by
    rw [Image.put_view, update_of_ne hne.symm]
    exact update_self _ _ _
  have hvm : ((a.alloc.grow pr).put a.len pm).view a.len = pm := update_self _ _ _
  rw [← hvr] at hpr
  rw [← hvm] at hmagic hmroot
  exact ⟨rfl, ((a.alloc.grow pr).put a.len pm).view, h5, empty_isTree hpr (by decide)
    ⟨Nat.succ_ne_zero _, Nat.lt_succ_self _⟩
    ⟨ne_of_gt hpos, Nat.lt_succ_of_lt (Nat.lt_succ_self _)⟩ hne hmagic hmroot⟩

end Create

variable {T : Tree Key TupleId}

/-! ## Inserting -/

section Insert

variable {t : BTree} {key : Key} {tid : TupleId}

theorem new_root_spec (p : Page) (level : ℕ) {root right : PageId} {sep : Key}
    (hr : root < 2 ^ 64) (hfit : SLOT_SIZE + (encode_internal_entry sep right).length ≤ NODE_CAPACITY) :
    ∃ q f n, run_ops (new_root_ops level root sep right) p = .ok q
      ∧ IsNode q (internal_bytes [(sep, right)]) f n root ∧ f &&& BTREE_FLAG_IS_LEAF = 0 := by
  have n1 := init_isNode p false true
  obtain ⟨p2, e2, n2⟩ := n1.set_level ((level + 1) % 2 ^ 16)
  obtain ⟨p3, e3, n3⟩ := n2.set_leftmost hr
  have hfree : p3.free_space = NODE_CAPACITY := n3.free
  obtain ⟨q, e4, n4⟩ := n3.insert (Nat.zero_le _) (hfit.trans hfree.ge)
  exact ⟨q, _, _, ops_cons rfl (ops_cons e2 (ops_cons e3 (ops_cons e4 rfl))), n4, by decide⟩

variable {h : ℕ}

/-- The pages of the tree after an insertion: distinct, and the old ones or new. -/
theorem grown_ids {t : Node Key TupleId h} {tail : PageId} (hsub : Sub L a t tail)
    (hpos : 0 < a.len) (cl ci : ℕ) (key : Key) (tid : TupleId) :
    (ins cl ci key tid t a.len).ids.Nodup ∧ ∀ q ∈ (ins cl ci key tid t a.len).ids,
      (q ∈ t.ids ∨ a.len ≤ q) ∧ q ≠ 0 ∧ q < (ins cl ci key tid t a.len).next := by
  obtain ⟨-, hle, hperm⟩ := ins_ids cl ci key tid t a.len
  constructor
  · rw [hperm.nodup_iff, nodup_append]
    refine ⟨hsub.nodup, nodup_range', ?_⟩
    intro x hx y hy heq
    have h1 := (hsub.in_file x hx).lt
    have h2 := (mem_range'_1.mp hy).1
    lia
  · intro q hq
    rcases mem_append.mp (hperm.mem_iff.mp hq) with hq | hq
    · have hin := hsub.in_file q hq
      exact ⟨.inl hq, hin.ne_zero, lt_of_lt_of_le hin.lt hle⟩
    · have hr := mem_range'_1.mp hq
      exact ⟨.inr hr.1, by lia, by lia⟩

theorem Holds.root_page {v : PageId → Page} {t : Node Key TupleId h} (ht : Holds L v t) :
    ∃ es f n l, IsNode (v t.id) es f n l := by
  induction t with
  | leaf i es =>
    obtain ⟨⟨f, n, l, hn, -⟩, -⟩ := holds_leaf.mp ht
    exact ⟨_, f, n, l, hn⟩
  | branch i c rest _ =>
    obtain ⟨⟨f, n, hn, -⟩, -, -⟩ := holds_branch.mp ht
    exact ⟨_, f, n, _, hn⟩

/-- `q` is `p` with other flags, the leaf flag apart. -/
def Reflagged (p q : Page) : Prop := ∀ es f n l, IsNode p es f n l →
  ∃ f', IsNode q es f' n l ∧ f' &&& BTREE_FLAG_IS_LEAF = f &&& BTREE_FLAG_IS_LEAF

/-- Changing other flags of the root's page. -/
theorem Holds.reflag {v v' : PageId → Page} {t : Node Key TupleId h} (ht : Holds L v t)
    (hnd : t.ids.Nodup) (hroot : Reflagged (v t.id) (v' t.id))
    (hv : ∀ q ∈ t.ids, q ≠ t.id → v' q = v q) : Holds L v' t := by
  induction t with
  | leaf i es =>
    obtain ⟨⟨f, n, l, hn, hf⟩, hst⟩ := holds_leaf.mp ht
    obtain ⟨f', hn', hf'⟩ := hroot _ _ _ _ hn
    exact holds_leaf.mpr ⟨⟨f', n, l, hn', by rw [hf']; exact hf⟩, hst⟩
  | branch i c rest _ =>
    obtain ⟨⟨f, n, hn, hf⟩, hkeys, hkids⟩ := holds_branch.mp ht
    obtain ⟨f', hn', hf'⟩ := hroot _ _ _ _ hn
    refine holds_branch.mpr ⟨⟨f', n, hn', hf'.trans hf⟩, hkeys, ?_⟩
    intro d hd
    refine (hkids d hd).congr ?_
    intro q hq
    refine hv q (mem_ids_of_kid hd hq) ?_
    rintro rfl
    rw [Node.ids_branch, nodup_cons] at hnd
    exact hnd.1 (mem_flatMap.mpr ⟨d, hd, hq⟩)

theorem clear_root_flag {p : Page} {es : List (List UInt8)} {f n l : ℕ} (hn : IsNode p es f n l) :
    ∃ q, run_ops [fun p => do
        let flags ← p.btree_flags
        p.set_btree_flags (flags &&& (2 ^ 16 - 1 - BTREE_FLAG_IS_ROOT))] p = .ok q
      ∧ Reflagged p q ∧ load 8 q.data 8176 = load 8 p.data 8176 := by
  have hlt : ∀ f, f &&& (2 ^ 16 - 1 - BTREE_FLAG_IS_ROOT) < 2 ^ 16 :=
    fun f => lt_of_le_of_lt Nat.and_le_right (by decide)
  obtain ⟨q, hq, hn'⟩ := hn.set_flags (hlt f)
  refine ⟨q, ops_cons (q := q) ?_ rfl, ?_, by rw [hn'.next, hn.next]⟩
  · rwa [hn.btree_flags_eq]
  · intro es' f' n' l' hp
    have hff : f' = f := by rw [← hp.flags, ← hn.flags]
    subst hff
    obtain ⟨q', hq', hnq⟩ := hp.set_flags (hlt f')
    rw [hq] at hq'
    rw [Except.ok.inj hq']
    exact ⟨_, hnq, and_leaf_flag _ _ (by decide)⟩

/-- A new root over the old one, `x`, and a page `right`. -/
theorem grow_root_spec {x : Node Key TupleId h} {sep : Key} {right : PageId} (hs : s.Stands ∅ a [])
    (hx : Holds L a.view x) (hin : InFile a x.id) (hroom : Room a.pins a.size 1)
    (hdisk : DiskRoom a 1) (hL : sep.length = L) (hci : 0 < internal_cap L) :
    wp (grow_root x.id sep right) (fun id s' => id = a.len ∧ ∃ w,
        s'.Stands ∅ ⟨a.len + 1, w, a.pins, a.size⟩ [] ∧ Reflagged (a.view x.id) (w x.id)
        ∧ load 8 (w x.id).data 8176 = load 8 (a.view x.id).data 8176
        ∧ (∃ f n, IsNode (w a.len) (internal_bytes [(sep, right)]) f n x.id
          ∧ f &&& BTREE_FLAG_IS_LEAF = 0)
        ∧ ∀ q, q ≠ x.id → q ≠ a.len → w q = a.view q) never s := by
  obtain ⟨es, f, n, l, hn⟩ := hx.root_page
  obtain ⟨level, hlevel⟩ := hn.btree_level_eq
  refine wp_then (read_at_rule hs hin.ne_zero hin.lt hroom hlevel) ?_
  rintro _ s1 ⟨rfl, h1⟩
  obtain ⟨pr, er, hflag, hnext⟩ := clear_root_flag hn
  refine wp_then (edit_at_rule h1 hin.ne_zero hin.lt hroom er) ?_
  intro _ s2 h2
  have hid : x.id < 2 ^ 64 :=
    lt_trans (hdisk.lt_invalid (Nat.lt_succ_of_lt hin.lt)) (by decide)
  have hfit : SLOT_SIZE + (encode_internal_entry sep right).length ≤ NODE_CAPACITY := by
    rw [length_encode_internal_entry, hL]
    have := (Nat.div_pos_iff.mp hci).2
    lia
  obtain ⟨pn, f', n', en, hnn, hf'⟩ := new_root_spec (Page.new a.len) level hid hfit
  refine new_filled_rule (fun id => pure id) h2 hroom hdisk en ?_
  intro s3 h3
  have hvx : ((a.put x.id pr).grow pn).view x.id = pr :=
    (update_of_ne (ne_of_lt hin.lt) _ _).trans (update_self _ _ _)
  have hvn : ((a.put x.id pr).grow pn).view a.len = pn := update_self _ _ _
  rw [← hvx] at hflag hnext
  rw [← hvn] at hnn
  exact ⟨rfl, _, h3, hflag, hnext, ⟨f', n', hnn, hf'⟩, fun q h1 h2 =>
    (update_of_ne h2 _ _).trans (update_of_ne h1 _ _)⟩

theorem persist_root_spec (hs : s.Stands ∅ a []) (hm : InFile a t.meta_page_id)
    (hroom : Room a.pins a.size 1) (hroot : t.root_page_id < 2 ^ 64) :
    wp (persist_root t) (fun _ s' => ∃ w, s'.Stands ∅ ⟨a.len, w, a.pins, a.size⟩ []
      ∧ load 4 (w t.meta_page_id).data META_OFF_MAGIC
        = load 4 (a.view t.meta_page_id).data META_OFF_MAGIC
      ∧ load 8 (w t.meta_page_id).data META_OFF_ROOT = t.root_page_id
      ∧ ∀ q, q ≠ t.meta_page_id → w q = a.view q) never s := by
  refine wp_imp (edit_at_rule hs hm.ne_zero hm.lt hroom (ops_cons rfl rfl)) ?_
  intro _ s1 h1
  refine ⟨_, h1, ?_, ?_, fun q hq => update_of_ne hq _ _⟩
  · rw [update_self, load_store_of_disjoint (by lia)]
  · rw [update_self]
    exact load_store_self _ _ (by norm_num at hroot ⊢; exact hroot)

/-- The file after a new root was put over `x` and `r` and recorded in the meta page. -/
theorem root_isTree {h m n f nx : ℕ} {x r : Node Key TupleId h} {sep : Key} {v w : PageId → Page}
    (pins : PageId → ℕ) (size : ℕ) (hx : Holds L v x) (hr : Holds L v r) (hsep : sep.length = L)
    (hch : Chained v ((x.leaves ++ r.leaves).map Leaf.id) INVALID_PAGE_ID)
    (hnd : (x.ids ++ r.ids).Nodup) (hids : ∀ q ∈ x.ids ++ r.ids, q ≠ 0 ∧ q < n) (hm : m ≠ 0)
    (hmn : m < n) (hmfree : m ∉ x.ids ++ r.ids) (hflag : Reflagged (v x.id) (w x.id))
    (hnext : load 8 (w x.id).data 8176 = load 8 (v x.id).data 8176)
    (hn : IsNode (w n) (internal_bytes [(sep, r.id)]) f nx x.id)
    (hf : f &&& BTREE_FLAG_IS_LEAF = 0) (hw : ∀ q, q ≠ x.id → q ≠ n → q ≠ m → w q = v q)
    (hmagic : load 4 (w m).data META_OFF_MAGIC = META_MAGIC)
    (hroot : load 8 (w m).data META_OFF_ROOT = n) :
    IsTree L ⟨n + 1, w, pins, size⟩ ⟨m, n⟩ ⟨h + 1, .branch n x [(sep, r)]⟩ := by
  obtain ⟨hndx, hndr, hdis⟩ := nodup_append.mp hnd
  -- a page of the two halves other than the old root is untouched
  have hsame : ∀ q ∈ x.ids ++ r.ids, q ≠ x.id → w q = v q := by
    intro q hq hne
    refine hw q hne (ne_of_lt (hids q hq).2) ?_
    rintro rfl
    exact hmfree hq
  have hkids : kids x [(sep, r)] = [x, r] := rfl
  have hall : (Node.branch n x [(sep, r)]).ids = n :: (x.ids ++ r.ids) := by
    simp [hkids]
  refine ⟨⟨holds_branch.mpr ⟨⟨f, nx, hn, hf⟩, ?_, ?_⟩, ?_, ?_, ?_, .inl rfl⟩, rfl,
    ⟨hm, Nat.lt_succ_of_lt hmn⟩, ?_, hmagic, hroot⟩
  · intro k hk
    rw [mem_singleton.mp hk]
    exact hsep
  · intro d hd
    rcases mem_cons.mp hd with rfl | hd
    · exact hx.reflag hndx hflag (fun q hq => hsame q (mem_append_left _ hq))
    · rw [mem_singleton.mp hd]
      refine hr.congr (fun q hq => hsame q (mem_append_right _ hq) ?_)
      exact fun heq => hdis _ x.id_mem_ids q hq heq.symm
  · have hleaves : (Node.branch n x [(sep, r)]).leaves = x.leaves ++ r.leaves := by
      simp [hkids]
    show Chained w ((Node.branch n x [(sep, r)]).leaves.map Leaf.id) _
    rw [hleaves]
    refine hch.congr ?_
    intro q hq
    obtain ⟨l, hl, rfl⟩ := mem_map.mp hq
    have hlid : l.id ∈ x.ids ++ r.ids := by
      rcases mem_append.mp hl with hl | hl
      · exact mem_append_left _ (x.leaves_ids l hl)
      · exact mem_append_right _ (r.leaves_ids l hl)
    by_cases hq : l.id = x.id
    · rw [hq]
      exact hnext
    · rw [hsame _ hlid hq]
  · rw [hall, nodup_cons]
    exact ⟨fun hin => absurd (hids n hin).2 (lt_irrefl _), hnd⟩
  · intro q hq
    rw [hall] at hq
    rcases mem_cons.mp hq with rfl | hq
    · exact ⟨ne_of_gt (lt_of_le_of_lt (Nat.zero_le _) hmn), Nat.lt_succ_self _⟩
    · exact ⟨(hids q hq).1, Nat.lt_succ_of_lt (hids q hq).2⟩
  · show m ∉ (Node.branch n x [(sep, r)]).ids
    rw [hall, mem_cons]
    rintro (rfl | hin)
    · exact lt_irrefl _ hmn
    · exact hmfree hin

/-- **`insert`**: the pages hold the tree after the library's insertion. -/
theorem insert_spec (h : s.Stands ∅ a []) (ht : IsTree L a t T) (hroom : Room a.pins a.size 2)
    (hdisk : DiskRoom a (T.height + 2)) (hkey : Storable key tid) (hL : key.length = L)
    (hcl : 0 < leaf_cap L) (hci : 0 < internal_cap L) (hroute : Routable key T.root)
    (hfits : Fits (leaf_cap L) (internal_cap L) key tid a.len T.root) :
    wp (insert t key tid) (fun t' s' => t'.meta_page_id = t.meta_page_id ∧ ∃ v,
        s'.Stands ∅ ⟨(T.insert (leaf_cap L) (internal_cap L) key tid a.len).2, v, a.pins, a.size⟩ []
        ∧ IsTree L ⟨(T.insert (leaf_cap L) (internal_cap L) key tid a.len).2, v, a.pins, a.size⟩ t'
          (T.insert (leaf_cap L) (internal_cap L) key tid a.len).1) never s := by
  have hm := ht.meta_in_file
  have hpos : 0 < a.len := lt_of_le_of_lt (Nat.zero_le _) hm.lt
  unfold insert
  rw [wp_bind, wp_get, h.len, ht.root]
  refine wp_then (insert_recursive_spec hkey hL hcl hci T.root h ht.sub hroom
    (hdisk.mono (by omega)) hroute hfits ht.sub.height_lt) ?_
  rintro r s1 ⟨rfl, v, h1, hdone⟩
  obtain ⟨hnd, hids⟩ := grown_ids ht.sub hpos (leaf_cap L) (internal_cap L) key tid
  obtain ⟨hid, hlen, -⟩ := ins_ids (leaf_cap L) (internal_cap L) key tid T.root a.len
  have hnext := (ins_next (leaf_cap L) (internal_cap L) key tid T.root a.len).2
  -- the header is no page of the tree, so the descent leaves it alone
  have hmeta : v t.meta_page_id = a.view t.meta_page_id := by
    rcases hdone.frame _ ht.meta_free hm.lt with heq | ⟨hbad, -⟩
    · exact heq
    · have := hdisk.lt_invalid (lt_of_lt_of_le hm.lt (Nat.le_add_right _ _))
      rw [hbad] at this
      exact absurd this (lt_irrefl _)
  have hmagic : load 4 (v t.meta_page_id).data META_OFF_MAGIC = META_MAGIC := by
    rw [hmeta]
    exact ht.magic
  have hmroot : load 8 (v t.meta_page_id).data META_OFF_ROOT = t.root_page_id := by
    rw [hmeta]
    exact ht.meta_root
  have hmfree : t.meta_page_id ∉ (ins (leaf_cap L) (internal_cap L) key tid T.root a.len).ids := by
    intro hin
    rcases (hids _ hin).1 with h1 | h1
    · exact ht.meta_free h1
    · exact absurd hm.lt (not_lt.mpr h1)
  unfold Tree.insert Tree.of_grown
  generalize ins (leaf_cap L) (internal_cap L) key tid T.root a.len = g at *
  cases hsplit : g.split with
  | none =>
    have hg : g.ids = g.left.ids := by simp [Grown.ids, hsplit]
    have hl : g.leaves = g.left.leaves := by simp [Grown.leaves, hsplit]
    rw [hg] at hnd hids hmfree
    have hch := hdone.chain
    rw [hl] at hch
    exact ⟨rfl, v, h1, ⟨hdone.left, hch, hnd, fun q hq => ⟨(hids q hq).2.1, (hids q hq).2.2⟩,
      .inl rfl⟩, ht.root.trans hid.symm, ⟨hm.ne_zero, lt_of_lt_of_le hm.lt hlen⟩, hmfree,
      hmagic, hmroot⟩
  | some e =>
    -- the root was split: it stays as the left half, and the new root is the next page
    obtain ⟨sep, r⟩ := e
    obtain ⟨hsep, hr⟩ := hdone.right (sep, r) hsplit
    have hg : g.ids = g.left.ids ++ r.ids := by simp [Grown.ids, hsplit]
    have hl : g.leaves = g.left.leaves ++ r.leaves := by simp [Grown.leaves, hsplit]
    rw [hg] at hnd hids hmfree
    obtain ⟨hndl, hndr, hdis⟩ := nodup_append.mp hnd
    have hx := hids _ (mem_append_left _ g.left.id_mem_ids)
    rw [← hid]
    refine wp_then (grow_root_spec (a := ⟨g.next, v, a.pins, a.size⟩) h1 hdone.left
      ⟨hx.2.1, hx.2.2⟩ (hroom.mono (by decide)) (hdisk.mono (by show g.next + 1 ≤ _; omega))
      hsep hci) ?_
    rintro _ s2 ⟨rfl, w, h2, hflag, hrnext, ⟨f, n, hn, hf⟩, hw⟩
    have hml : t.meta_page_id ≠ g.left.id := fun heq =>
      hmfree (mem_append_left _ (heq ▸ g.left.id_mem_ids))
    have hmn : t.meta_page_id < g.next := lt_of_lt_of_le hm.lt hlen
    have hnext64 : g.next < 2 ^ 64 := lt_trans
      (hdisk.lt_invalid (lt_of_le_of_lt hnext (by lia))) (by decide)
    refine wp_then (persist_root_spec (t := ⟨t.meta_page_id, g.next⟩) h2
      ⟨hm.ne_zero, Nat.lt_succ_of_lt hmn⟩ (hroom.mono (by decide)) hnext64) ?_
    rintro _ s3 ⟨u, h3, hu1, hu2, hu⟩
    have hch := hdone.chain
    rw [hl] at hch
    have hux : u g.left.id = w g.left.id := hu _ hml.symm
    have hun : u g.next = w g.next := hu _ (ne_of_gt hmn)
    rw [← hux] at hflag hrnext
    rw [← hun] at hn
    refine ⟨rfl, u, h3, root_isTree a.pins a.size hdone.left hr hsep hch hnd
      (fun q hq => (hids q hq).2) hm.ne_zero hmn hmfree hflag hrnext hn hf ?_ ?_ hu2⟩
    · intro q h1 h2 h3
      exact (hu q h3).trans (hw q h1 h2)
    · refine hu1.trans ?_
      show load 4 (w t.meta_page_id).data META_OFF_MAGIC = _
      rw [hw _ hml (ne_of_lt hmn)]
      exact hmagic

end Insert

/-! ## Searching -/

section Search

variable {t : BTree} {key : Key}

theorem disk_room {hot : Set PageId} {F : List (PageId × FrameId)} (h : s.Stands hot a F) :
    DiskRoom a 0 := by
  have := h.coherent.disk.size
  rwa [h.len] at this

/-- **The descent.** A loop that goes to the child `descend` names until it meets a leaf comes to
the leaf the key is routed to, and stops there with what its step makes of the leaf. -/
theorem descent_rule {β σ : Type} {g : ℕ → PageId → PoolM β} {step : Page → Except Fault σ}
    {next : ℕ → PageId → σ → PoolM β} {k : PageId → σ} {x : β} (hci : 0 < internal_cap L)
    (hroom : Room a.pins a.size 1)
    (hg : ∀ fuel pid, g (fuel + 1) pid = read_at pid step >>= next fuel pid)
    (hgo : ∀ p c, is_leaf p = .ok false → descend key p = .ok c → step p = .ok (k c))
    (hnext : ∀ fuel pid c, next fuel pid (k c) = g fuel c) {h : ℕ} (t : Node Key TupleId h) :
    ∀ {s : BufferPool} {tail : PageId} {fuel : ℕ},
      s.Stands ∅ a [] → Sub L a t tail → Routable key t → h < fuel →
      (∀ {f n l}, IsNode (a.view (leaf_for key t).id) (leaf_bytes (leaf_for key t).entries) f n l →
        is_leaf (a.view (leaf_for key t).id) = .ok true →
        (∀ e ∈ (leaf_for key t).entries, Storable e.1 e.2) →
        ∃ r, step (a.view (leaf_for key t).id) = .ok r
          ∧ ∀ fuel, next fuel (leaf_for key t).id r = pure x) →
      wp (g fuel t.id) (fun r s' => r = x ∧ s'.Stands ∅ a []) never s := by
  induction t with
  | leaf i es =>
    intro s tail fuel hs hsub _ hfuel hleaf
    obtain ⟨fuel, rfl⟩ := Nat.exists_eq_add_one_of_ne_zero (ne_of_gt hfuel)
    obtain ⟨⟨f, n, l, hn, hf⟩, hst⟩ := holds_leaf.mp hsub.holds
    obtain ⟨r, hstep, hstop⟩ := hleaf hn (hn.is_leaf_eq.trans (congrArg _ (decide_eq_true hf)))
      (fun e he => (hst e he).1)
    have hin := hsub.in_file i mem_cons_self
    rw [hg]
    refine wp_then (read_at_rule hs hin.ne_zero hin.lt hroom hstep) ?_
    rintro _ s1 ⟨rfl, h1⟩
    exact (hstop fuel).symm ▸ ⟨rfl, h1⟩
  | branch i c rest ih =>
    intro s tail fuel hs hsub hroute hfuel hleaf
    obtain ⟨fuel, rfl⟩ := Nat.exists_eq_add_one_of_ne_zero (ne_of_gt (Nat.zero_lt_of_lt hfuel))
    obtain ⟨⟨f, n, hn, hf⟩, -, -⟩ := holds_branch.mp hsub.holds
    obtain ⟨hseps, hroute⟩ := routable_branch.mp hroute
    have hstep := hgo _ _ (hn.is_leaf_eq.trans (congrArg _ (decide_eq_false (not_not.mpr hf))))
      (descend_focus hsub (disk_room hs) hci hseps key)
    have hin := hsub.in_file i mem_cons_self
    rw [hg]
    refine wp_then (read_at_rule hs hin.ne_zero hin.lt hroom hstep) ?_
    rintro _ s1 ⟨rfl, h1⟩
    rw [hnext]
    exact ih _ h1 (hsub.focus rfl) hroute (Nat.lt_of_succ_lt_succ hfuel) hleaf

section

variable (hci : 0 < internal_cap L) {h : ℕ} (t : Node Key TupleId h) {tail : PageId} {fuel : ℕ}
  (hs : s.Stands ∅ a []) (hsub : Sub L a t tail) (hroom : Room a.pins a.size 1)
  (hroute : Routable key t)
include hci hs hsub hroom hroute

theorem lookup_from_spec
    (hsorted : (leaf_for key t).entries.Pairwise (fun a b => a.1 ≤ b.1)) (hfuel : h < fuel) :
    wp (lookup_from key fuel t.id) (fun r s' =>
      r = ((leaf_for key t).entries.find? (fun e => decide (e.1 = key))).map Prod.snd
      ∧ s'.Stands ∅ a []) never s := by
  refine descent_rule (k := .inr) hci hroom (fun _ _ => rfl) ?_ (fun _ _ _ => rfl) t hs hsub
    hroute hfuel ?_
  · intro p c hnode hchild
    rw [lookup_step, hnode]
    rw [hchild]
    rfl
  · intro f n l hn hleaf hst
    refine ⟨.inl _, ?_, fun _ => rfl⟩
    rw [lookup_step, hleaf]
    rw [find_in_leaf_eq hn hst hsorted]
    rfl

theorem find_leaf_spec (hfuel : h < fuel) :
    wp (find_leaf key fuel t.id) (fun r s' => r = (leaf_for key t).id ∧ s'.Stands ∅ a [])
      never s := by
  refine descent_rule (k := some) hci hroom (fun _ _ => rfl) ?_ (fun _ _ _ => rfl) t hs hsub
    hroute hfuel ?_
  · intro p c hnode hchild
    rw [find_leaf_step, hnode]
    rw [hchild]
    rfl
  · intro f n l hn hleaf _
    refine ⟨none, ?_, fun _ => rfl⟩
    rw [find_leaf_step, hleaf]
    rfl

end

theorem scan_step_eq {p : Page} {es : List (Key × TupleId)} {f n m : ℕ} (start : Key)
    (stop : Option Key) (hn : IsNode p (leaf_bytes es) f n m)
    (hst : ∀ e ∈ es, Storable e.1 e.2) (hsorted : es.Pairwise (fun a b => a.1 ≤ b.1)) :
    scan_step start stop p =
      .ok (n, es.filter (in_range start stop), es.any (past start stop)) := by
  rw [scan_step, hn.btree_next_page_eq]
  rw [scan_leaf_eq hn hst hsorted]
  rfl

/-- A scan along leaves whose entries are sorted as a whole collects what is in range. -/
theorem scan_chain_spec (hroom : Room a.pins a.size 1) (start : Key) (stop : Option Key)
    (ls : List (Leaf Key TupleId)) :
    ∀ {s : BufferPool} {l : Leaf Key TupleId} {fuel : ℕ} {acc : List (Key × TupleId)},
      s.Stands ∅ a [] → (∀ x ∈ l :: ls, InFile a x.id ∧ (∃ f n m, IsNode (a.view x.id)
        (leaf_bytes x.entries) f n m) ∧ ∀ e ∈ x.entries, Storable e.1 e.2) →
      Chained a.view ((l :: ls).map Leaf.id) INVALID_PAGE_ID →
      ((l :: ls).flatMap Leaf.entries).Pairwise (fun a b => a.1 ≤ b.1) → ls.length < fuel →
      wp (scan_chain start stop fuel l.id acc) (fun r s' =>
        r = acc ++ ((l :: ls).flatMap Leaf.entries).filter (in_range start stop)
        ∧ s'.Stands ∅ a []) never s := by
  induction ls with
  | nil =>
    intro s l fuel acc hs hall hch hsorted hfuel
    obtain ⟨fuel, rfl⟩ := Nat.exists_eq_add_of_lt hfuel
    obtain ⟨hin, ⟨f, n, m, hn⟩, hst⟩ := hall l mem_cons_self
    rw [flatMap_cons, flatMap_nil, append_nil] at hsorted ⊢
    have hlast : n = INVALID_PAGE_ID := hn.next.symm.trans hch.1
    have hstep := hlast ▸ scan_step_eq start stop hn hst hsorted
    refine wp_then (read_at_rule hs hin.ne_zero hin.lt hroom hstep) ?_
    rintro _ s1 ⟨rfl, h1⟩
    simp only [or_true, if_true]
    exact ⟨rfl, h1⟩
  | cons l' ls ih =>
    intro s l fuel acc hs hall hch hsorted hfuel
    obtain ⟨fuel, rfl⟩ := Nat.exists_eq_add_of_lt (lt_of_le_of_lt (Nat.zero_le _) hfuel)
    obtain ⟨hin, ⟨f, n, m, hn⟩, hst⟩ := hall l mem_cons_self
    obtain ⟨hin', -, -⟩ := hall l' (mem_cons_of_mem _ mem_cons_self)
    rw [flatMap_cons] at hsorted ⊢
    obtain ⟨hs1, hs2, hs3⟩ := pairwise_append.mp hsorted
    have hnext : n = l'.id := hn.next.symm.trans hch.1
    have hstep := hnext ▸ scan_step_eq start stop hn hst hs1
    refine wp_then (read_at_rule hs hin.ne_zero hin.lt hroom hstep) ?_
    rintro _ s1 ⟨rfl, h1⟩
    have hvalid : l'.id ≠ INVALID_PAGE_ID :=
      ne_of_lt ((disk_room hs).lt_invalid hin'.lt)
    rw [filter_append]
    cases hpast : l.entries.any (past start stop) with
    | true =>
      -- an entry at or past the end: nothing in the following leaves is in range
      obtain ⟨e, he, hpe⟩ := any_eq_true.mp hpast
      have hnone : ((l' :: ls).flatMap Leaf.entries).filter (in_range start stop) = [] := by
        rw [filter_eq_nil_iff]
        intro x hx
        have hle := hs3 e he x hx
        cases stop with
        | none => simp [past] at hpe
        | some b =>
          have hb : b ≤ e.1 := by
            simp only [past, Option.any_some, Bool.and_eq_true, decide_eq_true_eq] at hpe
            exact hpe.2
          simp [in_range, hb.trans hle]
      rw [hnone, append_nil]
      exact ⟨rfl, h1⟩
    | false =>
      simp only [Bool.false_eq_true, hvalid, or_self, if_false]
      refine wp_imp (ih h1 (fun x hx => hall x (mem_cons_of_mem _ hx)) hch.2 hs2
        (by rw [length_cons] at hfuel; omega)) ?_
      rintro r s2 ⟨rfl, h2⟩
      rw [append_assoc]
      exact ⟨rfl, h2⟩

variable (h : s.Stands ∅ a []) (ht : IsTree L a t T) (hroom : Room a.pins a.size 1)
include h ht hroom

theorem open_spec :
    wp («open» t.meta_page_id) (fun t' s' => t' = t ∧ s'.Stands ∅ a []) never s := by
  refine wp_then (read_at_rule h ht.meta_in_file.ne_zero ht.meta_in_file.lt hroom rfl) ?_
  rintro _ s1 ⟨rfl, h1⟩
  rw [ht.magic, ht.meta_root]
  exact ⟨rfl, h1⟩

variable (hci : 0 < internal_cap L)
include hci

/-- **`lookup`** searches the leaf the key is routed to. -/
theorem lookup_spec (hroute : Routable key T.root)
    (hsorted : (leaf_for key T.root).entries.Pairwise (fun a b => a.1 ≤ b.1)) :
    wp (lookup t key) (fun r s' =>
      r = ((leaf_for key T.root).entries.find? (fun e => decide (e.1 = key))).map Prod.snd
      ∧ s'.Stands ∅ a []) never s := by
  unfold lookup
  rw [wp_bind, wp_get, h.len, ht.root]
  exact lookup_from_spec hci T.root h ht.sub hroom hroute hsorted ht.sub.height_lt

/-- **`range_scan`** collects what is in range from the leaf `start` is routed to on. -/
theorem range_scan_spec {start : Key} (stop : Option Key) (hroute : Routable start T.root)
    {pre post : List (Leaf Key TupleId)}
    (hleaves : T.root.leaves = pre ++ leaf_for start T.root :: post)
    (hsorted : ((leaf_for start T.root :: post).flatMap Leaf.entries).Pairwise
      (fun a b => a.1 ≤ b.1)) : wp (range_scan t start stop) (fun r s' =>
      r = ((leaf_for start T.root :: post).flatMap Leaf.entries).filter (in_range start stop)
      ∧ s'.Stands ∅ a []) never s := by
  unfold range_scan
  rw [wp_bind, wp_get, h.len, ht.root]
  refine wp_then (find_leaf_spec hci T.root h ht.sub hroom hroute ht.sub.height_lt) ?_
  rintro _ s1 ⟨rfl, h1⟩
  have hmem : ∀ x ∈ leaf_for start T.root :: post, x ∈ T.root.leaves := by
    intro x hx
    rw [hleaves]
    exact mem_append_right _ hx
  have hch := ht.sub.chain
  rw [hleaves, map_append, chained_append] at hch
  have hlen : T.root.leaves.length ≤ a.len := by
    have hs : T.root.ids ⊆ range a.len :=
      fun q hq => mem_range.mpr (ht.sub.in_file q hq).lt
    have h1 := (ht.sub.nodup.subperm hs).length_le
    have h2 := T.root.leaves_sublist.length_le
    rw [length_range] at h1
    rw [length_map] at h2
    exact h2.trans h1
  refine wp_imp (scan_chain_spec hroom start stop post h1 ?_ hch.2 hsorted ?_) ?_
  · intro x hx
    obtain ⟨⟨f, n, m, hn, -⟩, hst⟩ := ht.sub.holds.leaf x (hmem x hx)
    exact ⟨ht.sub.in_file _ (T.root.leaves_ids x (hmem x hx)), ⟨f, n, m, hn⟩,
      fun e he => (hst e he).1⟩
  · rw [hleaves, length_append, length_cons] at hlen
    omega
  · rintro r s2 ⟨rfl, h2⟩
    exact ⟨rfl, h2⟩

end Search

end Oigrap.Storage.BTree
