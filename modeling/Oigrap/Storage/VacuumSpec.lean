/-
What vacuum takes away from readers.

A tuple is visible to a snapshot as long as its deleter is not committed before the
snapshot. Vacuum does not ask for snapshots: a tuple whose deleter has ended is removed. The
first result compares the two rules, for every heap, every transaction manager a run can
reach and every snapshot: the visible tuples survive exactly if no visible inserter's tuple
was deleted by a transaction that aborted, or that committed after the snapshot was taken.
-/
import Oigrap.Storage.Vacuum

namespace Oigrap.Storage

open List hiding after
open ByteMem Wp BufferPool HeapFile TransactionManager

namespace Vacuum

/-! ## Visibility -/

/-- The tuples of a page, as a scan of it finds them. -/
def page_tuples (p : Page) : List (List UInt8) :=
  match p.slot_count with
  | .ok n => (range n).filterMap fun i =>
      match p.get_tuple i with
      | .ok data => some data
      | .error _ => none
  | .error _ => []

/-- A reader that uses the snapshot sees the tuple. -/
def sees (tm : TransactionManager) (snap : Snapshot) (data : List UInt8) : Bool :=
  match TupleHeader.decode data with
  | .ok hdr => tm.is_visible hdr snap
  | .error _ => false

/-- Every tuple that was visible is still there, in the same order and number. -/
def Preserves (tm : TransactionManager) (snap : Snapshot) (pages : List PageId)
    (v v' : PageId → Page) : Prop :=
  ∀ q ∈ pages, ((page_tuples (v q)).filter (sees tm snap)).Sublist (page_tuples (v' q))

/-- No tuple whose inserter the snapshot sees was deleted by a transaction that aborted, or
that the snapshot does not see although it has committed. -/
def DeletersSeen (tx tm : TransactionManager) (snap : Snapshot) (pages : List PageId)
    (v : PageId → Page) : Prop :=
  ∀ q ∈ pages, ∀ data ∈ page_tuples (v q), ∀ hdr, TupleHeader.decode data = .ok hdr →
    tm.is_committed_before hdr.xmin snap = true → hdr.xmax ≠ INVALID_XID →
    tx.is_aborted hdr.xmax = false
      ∧ (tx.is_committed hdr.xmax = true → tm.is_committed_before hdr.xmax snap = true)

theorem filterMap_range (slots : List (Option (List UInt8))) :
    (range slots.length).filterMap (fun i => slots[i]?.join) = tuples slots := by
  induction slots with
  | nil => rfl
  | cons o slots ih =>
    rw [length_cons, range_succ_eq_map, filterMap_cons, filterMap_map]
    have hrest : (range slots.length).filterMap
        ((fun i => (o :: slots)[i]?.join) ∘ Nat.succ) = tuples slots := by
      rw [← ih]
      exact filterMap_congr fun i _ => by rw [Function.comp_apply, getElem?_cons_succ]
    rw [hrest]
    cases o with
    | none | some data => rfl

theorem page_tuples_eq {p : Page} {c : Contents} (h : p.Holds c) : page_tuples p = tuples c.slots := by
  unfold page_tuples
  rw [Page.slot_count_eq h.1, ← filterMap_range]
  refine filterMap_congr fun i hi => ?_
  cases hs : c.slots[i]?.join with
  | none => rw [Page.get_tuple_none h.1 hs]
  | some data => rw [Page.get_tuple_some h.1 (Option.join_eq_some_iff.mp hs)]

section Visibility

variable {tx tm : TransactionManager} {snap : Snapshot} {data : List UInt8} {c : Contents}
  {p p' : Page}

theorem committed_of_before {xid : Xid} (h : tm.is_committed_before xid snap = true) :
    xid ∈ tm.committed := by
  unfold is_committed_before at h
  by_cases h1 : xid = INVALID_XID
  · simp [if_pos h1] at h
  rw [if_neg h1] at h
  by_cases h2 : xid ∈ snap.active
  · simp [if_pos h2] at h
  rw [if_neg h2] at h
  by_cases h3 : xid < snap.xmin
  · rw [if_pos h3] at h
    exact of_decide_eq_true h
  rw [if_neg h3] at h
  by_cases h4 : xid ≥ snap.xmax
  · simp [if_pos h4] at h
  rw [if_neg h4] at h
  exact of_decide_eq_true h

theorem not_before_of_aborted (ha : tx.AbortedEnded) (hs : Settled tx tm) {xid : Xid}
    (h : tx.is_aborted xid = true) : tm.is_committed_before xid snap = false := by
  obtain ⟨hlt, hact, hcom⟩ := ha xid (of_decide_eq_true h)
  refine Bool.eq_false_iff.mpr fun hb => hcom ?_
  exact (hs.status xid hlt hact).mp (committed_of_before hb)

theorem is_dead_of_decode {hdr : TupleHeader} (h : TupleHeader.decode data = .ok hdr) :
    is_dead tx data = (decide (hdr.xmax ≠ INVALID_XID)
      && (tx.is_committed hdr.xmax || tx.is_aborted hdr.xmax)) := by
  have hlen : data.length ≥ TUPLE_HEADER_SIZE := by
    by_contra hshort
    simp [TupleHeader.decode, if_pos (Nat.lt_of_not_le hshort)] at h
  rw [is_dead, if_pos hlen, h]

/-- **The two rules compared.** A visible tuple is not dead exactly if its deleter did not
abort, and is seen if it committed. -/
theorem visible_live_iff (ha : tx.AbortedEnded) (hs : Settled tx tm) :
    (sees tm snap data = true → is_dead tx data = false)
    ↔ ∀ hdr, TupleHeader.decode data = .ok hdr → tm.is_committed_before hdr.xmin snap = true →
        hdr.xmax ≠ INVALID_XID → tx.is_aborted hdr.xmax = false
          ∧ (tx.is_committed hdr.xmax = true → tm.is_committed_before hdr.xmax snap = true) := by
  cases hdec : TupleHeader.decode data with
  | error e =>
    refine ⟨fun _ hdr h => (by cases h), fun _ h => ?_⟩
    simp [sees, hdec] at h
  | ok hdr =>
    have hsees : sees tm snap data = tm.is_visible hdr snap := by rw [sees, hdec]
    rw [hsees, is_dead_of_decode hdec]
    constructor
    · rintro h hdr' heq hmin hmax
      cases heq
      -- were the deleter not seen, the tuple would be visible, and so not dead
      have hnot : tm.is_committed_before hdr.xmax snap = false →
          (tx.is_committed hdr.xmax || tx.is_aborted hdr.xmax) = false := by
        intro hb
        have hvis : tm.is_visible hdr snap = true := by
          rw [is_visible, if_neg (by rw [hmin]; exact Bool.noConfusion), if_neg hmax, hb]
          rfl
        have hdead := h hvis
        rwa [decide_eq_true hmax, Bool.true_and] at hdead
      refine ⟨Bool.eq_false_iff.mpr fun hab => ?_, fun hcom => ?_⟩
      · have hfalse := hnot (not_before_of_aborted ha hs hab)
        simp [hab, Bool.or_true] at hfalse
      · by_contra hb
        have hfalse := hnot (Bool.eq_false_iff.mpr hb)
        simp [hcom, Bool.true_or] at hfalse
    · intro h hvis
      by_cases hmin : tm.is_committed_before hdr.xmin snap = false
      · simp [is_visible, if_pos hmin] at hvis
      by_cases hmax : hdr.xmax = INVALID_XID
      · rw [decide_eq_false (not_not.mpr hmax), Bool.false_and]
      rw [is_visible, if_neg hmin, if_neg hmax] at hvis
      obtain ⟨hab, hcom⟩ := h hdr rfl (Bool.eq_true_of_not_eq_false hmin) hmax
      have hnot : tx.is_committed hdr.xmax = false := by
        refine Bool.eq_false_iff.mpr fun hc => ?_
        simp [hcom hc] at hvis
      rw [hab, hnot, Bool.or_false, Bool.and_false]

/-- A later state of the manager; the log may have changed in between. -/
abbrev Later := Relation.ReflTransGen fun tm tm' : TransactionManager =>
  ∃ log log', Step (tm, log) (tm', log')

theorem Later.settled (h : Later tx tm) : Settled tx tm := by
  induction h with
  | refl => exact Settled.refl _
  | tail _ hstep ih =>
    obtain ⟨log, log', hstep⟩ := hstep
    exact ih.trans (step_settled hstep)

theorem Later.wf (h : Later tx tm) (hw : tx.Wf) (ha : tx.AbortedEnded) :
    tm.Wf ∧ tm.AbortedEnded := by
  induction h with
  | refl => exact ⟨hw, ha⟩
  | tail _ hstep ih =>
    obtain ⟨log, log', hstep⟩ := hstep
    exact ⟨step_wf hstep ih.1, step_aborted hstep ih.1 ih.2⟩

variable {slots : List (Option (List UInt8))}

theorem mem_tuples :
    data ∈ tuples slots ↔ ∃ i : ℕ, slots[i]?.join = some data := by
  rw [← filterMap_range, mem_filterMap]
  constructor
  · rintro ⟨i, -, hi⟩
    exact ⟨i, hi⟩
  · rintro ⟨i, hi⟩
    refine ⟨i, mem_range.mpr ?_, hi⟩
    by_contra hlt
    simp [getElem?_eq_none (Nat.le_of_not_lt hlt)] at hi

theorem dead_eq_nil (h : dead tx slots = []) :
    ∀ data ∈ tuples slots, is_dead tx data = false := by
  intro data hdata
  obtain ⟨i, hi⟩ := mem_tuples.mp hdata
  have hlt : i < slots.length := by
    by_contra hlt
    simp [getElem?_eq_none (Nat.le_of_not_lt hlt)] at hi
  have hno := filter_eq_nil_iff.mp h i (mem_range.mpr hlt)
  rw [is_dead_slot, hi] at hno
  exact Bool.eq_false_iff.mpr hno

theorem tuples_map_some (ts : List (List UInt8)) : tuples (ts.map some) = ts := by
  rw [tuples, filterMap_map]
  exact filterMap_some

/-- What is visible on a page survives exactly if none of it is dead. -/
theorem page_preserved_iff (hp : p.Holds c) (hv : PageVacuumed tx c p p') :
    ((page_tuples p).filter (sees tm snap)).Sublist (page_tuples p')
    ↔ ∀ data ∈ page_tuples p, sees tm snap data = true → is_dead tx data = false := by
  rcases hv with ⟨hd, rfl⟩ | ⟨-, hp'⟩
  · refine iff_of_true filter_sublist fun data hdata _ => ?_
    rw [page_tuples_eq hp] at hdata
    exact dead_eq_nil hd data hdata
  · have hafter : page_tuples p' = (page_tuples p).filter fun data => !is_dead tx data := by
      rw [page_tuples_eq hp', page_tuples_eq hp]
      exact tuples_map_some _
    rw [hafter]
    constructor
    · intro hsub data hdata hsees
      have hin := hsub.subset (mem_filter.mpr ⟨hdata, hsees⟩)
      exact (Bool.not_eq_true' _).mp (mem_filter.mp hin).2
    · intro h
      -- what is visible is a part of what is live
      have hpart : (page_tuples p).filter (sees tm snap)
          = ((page_tuples p).filter fun data => !is_dead tx data).filter (sees tm snap) := by
        rw [filter_filter]
        refine filter_congr fun data hdata => ?_
        cases hs : sees tm snap data with
        | false => rfl
        | true => rw [h data hdata hs]; rfl
      rw [hpart]
      exact filter_sublist

end Visibility

/-! ### The table -/

theorem syscall_err (w : WalManager) :
    wp WalManager.syscall (fun _ _ => True) (fun x _ => ∃ err, x = .err err) w := by
  simp only [WalManager.syscall, wp_bind, wp_get, wp_set]
  split
  · trivial
  · exact ⟨_, rfl⟩

/-- Whatever state the log is in, writing to it returns. -/
theorem flush_err (w : WalManager) :
    wp WalManager.flush (fun _ _ => True) (fun x _ => ∃ err, x = .err err) w := by
  unfold WalManager.flush
  rw [wp_bind, wp_get]
  by_cases hb : w.buffer = []
  · rw [if_pos hb]
    trivial
  rw [if_neg hb, wp_bind]
  refine wp_seq (syscall_err w) (fun _ _ hx => hx) ?_
  rintro - w1 -
  split
  · refine wp_seq (syscall_err _) (fun _ _ hx => hx) ?_
    rintro - w2 -
    trivial
  · exact ⟨_, rfl⟩

theorem records_any (table_id : ℕ) :
    Records table_id (fun _ _ => True) (fun x => ∃ err, x = .err err) := by
  intro xs w pid slot_id _ _ _
  unfold WalManager.write_record
  rw [wp_bind, wp_get, wp_bind, wp_set]
  split
  · exact wp_seq (flush_err _) (fun _ _ hx => hx) fun _ _ _ => trivial
  · trivial

variable {e : HeapEnv} {tx : TransactionManager} {C : PageId → Contents}

theorem contents_of_built {pages : List PageId} {v : PageId → Page}
    (h : ∀ q ∈ pages, ∃ chs, (v q).Built chs) : ∃ C : PageId → Contents, ∀ q ∈ pages,
      (∃ chs, Contents.replay chs Contents.empty = some (C q)) ∧ (v q).Holds (C q) := by
  have hex : ∀ q, ∃ c, q ∈ pages → (∃ chs, Contents.replay chs Contents.empty = some c)
      ∧ (v q).Holds c := by
    intro q
    by_cases hq : q ∈ pages
    · obtain ⟨chs, c, hc, hh⟩ := h q hq
      exact ⟨c, fun _ => ⟨⟨chs, hc⟩, hh⟩⟩
    · exact ⟨Contents.empty, fun hin => absurd hin hq⟩
  choose C hC using hex
  exact ⟨C, hC⟩

/-- **`vacuum_table`** on a heap whose pages have the contents `C`. -/
theorem vacuum_table_rule {W : List (PageId × ℕ) → WalManager → Prop} {E : Fault → Prop}
    {S : Lsn → Prop} (hW : Records e.heap.table_id W E) (hS : Stamps W S) (hpool : e.pool.Coherent ∅ none)
    (hwf : e.heap.Wf e.pool.disk.len)
    (hC : ∀ q ∈ e.heap.pages, (∃ chs, Contents.replay chs Contents.empty = some (C q))
      ∧ (e.pool.view q).Holds (C q)) (hw : W [] e.wal) :
    wp (vacuum_table tx)
      (fun _ e' => ∃ v', Vacuumed tx C e.heap.pages e.pool.view v'
        ∧ (∀ q, v' q = e.pool.view q ∨ S (v' q).lsn)
        ∧ e'.pool.Stands ∅ { e.pool.image with view := v' } []
        ∧ SameHeap e.heap e'.heap e.pool.disk.len ∧ W (dead_on tx C e.heap.pages) e'.wal)
      (fun x e' => Failed E e.pool.image x ∧ ∃ v', PartlyVacuumed tx C e.heap.pages e.pool.view v'
        ∧ ∀ q, q ≠ 0 → e'.pool.view q = v' q) e := by
  unfold vacuum_table
  rw [wp_bind, wp_get]
  have hnd : e.heap.pages.Nodup := hwf.sorted.imp fun h => ne_of_lt h
  exact vacuum_pages_rule hW hS e.heap.pages _ hpool.stands hwf hnd (fun _ hq => hq)
    (fun q hq => (hC q hq).1) (fun q hq => (hC q hq).2) rfl hw

/-- **Vacuum and visibility.** For every heap, every transaction manager that a run reaches
and every later state of it in which a snapshot is read: every tuple visible to the snapshot
is still there after vacuum exactly if no tuple whose inserter the snapshot sees was deleted
by a transaction that has aborted, or that has committed without the snapshot seeing it. A
call that fails halfway keeps the visible tuples under the same condition. -/
theorem vacuum_preserves_visible_iff {tm : TransactionManager}
    (hreach : Later TransactionManager.new tx) (hlater : Later tx tm) (snap : Snapshot)
    (hpool : e.pool.Coherent ∅ none) (hwf : e.heap.Wf e.pool.disk.len)
    (hbuilt : ∀ q ∈ e.heap.pages, ∃ chs, (e.pool.view q).Built chs) : wp (vacuum_table tx)
      (fun _ e' => Preserves tm snap e.heap.pages e.pool.view e'.pool.view
        ↔ DeletersSeen tx tm snap e.heap.pages e.pool.view) (fun x e' => (∃ err, x = .err err)
        ∧ (DeletersSeen tx tm snap e.heap.pages e.pool.view →
          Preserves tm snap e.heap.pages e.pool.view e'.pool.view)) e := by
  have hended : tx.AbortedEnded :=
    (Later.wf hreach new_wf fun x hx => absurd hx (Finset.notMem_empty x)).2
  have hsettled : Settled tx tm := Later.settled hlater
  obtain ⟨C, hC⟩ := contents_of_built hbuilt
  have hne : ∀ q ∈ e.heap.pages, q ≠ 0 := fun q hq => (hwf.range q hq).1
  -- the condition, page by page
  have hcond : DeletersSeen tx tm snap e.heap.pages e.pool.view ↔ ∀ q ∈ e.heap.pages,
      ∀ data ∈ page_tuples (e.pool.view q), sees tm snap data = true → is_dead tx data = false :=
    forall₂_congr fun q _ => forall₂_congr fun data _ => (visible_live_iff hended hsettled).symm
  refine wp_mono (vacuum_table_rule (S := fun _ => True) (records_any _) (fun _ _ _ _ => trivial)
    hpool hwf hC trivial) ?_ ?_
  · rintro stats e' ⟨v', hv', -, hstands, -, -⟩
    rw [hcond]
    refine forall₂_congr fun q hq => ?_
    rw [hstands.view q (hne q hq)]
    exact page_preserved_iff (hC q hq).2 ((hv' q).1 hq)
  · rintro x e' ⟨hx, v', hv', hview⟩
    refine ⟨hx.elim (fun h => ⟨_, h.1⟩) id, fun hseen q hq => ?_⟩
    rw [hview q (hne q hq)]
    rcases hv' q with heq | ⟨-, hpage⟩
    · rw [heq]
      exact filter_sublist
    · exact (page_preserved_iff (hC q hq).2 hpage).mpr (hcond.mp hseen q hq)

/-- The transaction manager after some calls on a new one. -/
def tx_after (calls : List Call) : TransactionManager :=
  (calls.foldl (fun s c => after c.run s) (TransactionManager.new, .blank)).1

/-- A tuple with a header and one byte. -/
def tuple (xmin xmax : Xid) : List UInt8 := TupleHeader.encode ⟨xmin, xmax, 0, 0, 0⟩ ++ [42]

/-- A new heap file of table 1 with these tuples. -/
def heap_of (ts : List (List UInt8)) : HeapEnv :=
  ts.foldl (fun e data => after (insert_tuple 1 data) e)
    ⟨HeapFile.new 1, BufferPool.new 4 DiskManager.fresh, .blank⟩

theorem tx_after_reached (calls : List Call) : Later TransactionManager.new (tx_after calls) := by
  have hrun : ∀ (calls : List Call) (s : TransactionManager × WalManager),
      Later s.1 (calls.foldl (fun s c => after c.run s) s).1 := by
    intro calls
    induction calls with
    | nil => exact fun s => Relation.ReflTransGen.refl
    | cons c calls ih =>
      intro s
      exact Relation.ReflTransGen.head ⟨s.2, (after c.run s).2, c, rfl⟩ (ih _)
  exact hrun calls (TransactionManager.new, .blank)

/-- The heap file of one tuple. -/
theorem heap_of_sound (data : List UInt8) (hdata : data.length < 100) :
    ∃ H, Sound (heap_of [data]) ∅ H := by
  have hlen : ∀ q, q ≠ 0 → ¬ q < DiskManager.fresh.len := fun q h0 hq => h0 (Nat.lt_one_iff.mp hq)
  have hstart : Sound ⟨HeapFile.new 1, BufferPool.new 4 DiskManager.fresh,
      .blank⟩ ∅ (fun _ => []) :=
    ⟨⟨new_coherent DiskManager.fresh_faithful _, fun q h0 hq => absurd hq (hlen q h0),
      fun q h0 hq => absurd hq (hlen q h0), fun _ _ => rfl⟩, new_heap_wf _ _⟩
  have hroom : LogRoom WalManager.blank (50 + data.length) := by
    show 0 + 0 + (50 + data.length) ≤ 2 ^ 63 - 1
    omega
  have hinsert := @insert_tuple_sound _ (fun _ => []) [] [] 1 data hstart (by decide +kernel)
    (WalManager.create_logged fun _ => rfl) (WalManager.quiet_of_nil rfl) (by decide) hroom
  refine after_of_wp (P := fun e' => ∃ H, Sound e' ∅ H) (wp_mono hinsert ?_ ?_)
  · exact fun _ _ h => ⟨_, h.sound⟩
  · exact fun _ _ h => ⟨_, h.2.1⟩

/-- A heap file with one tuple, inserted and deleted by committed transactions, and
a snapshot of the manager as it is. The tuple is removed. -/
theorem vacuum_preserves_visible_iff_one :
    ∃ tx e, tx = tx_after [.begin, .commit 1 0, .begin, .commit 2 0] ∧ e = heap_of [tuple 1 2]
      ∧ page_tuples (e.pool.view 1) = [tuple 1 2]
      ∧ page_tuples ((after (vacuum_table tx) e).pool.view 1) = [] ∧ wp (vacuum_table tx)
        (fun _ e' => Preserves tx tx.snapshot e.heap.pages e.pool.view e'.pool.view
          ↔ DeletersSeen tx tx tx.snapshot e.heap.pages e.pool.view) (fun _ _ => True) e := by
  -- the two inputs are named, so that nothing here evaluates them
  obtain ⟨tx, htx⟩ : ∃ tx, tx = tx_after [.begin, .commit 1 0, .begin, .commit 2 0] :=
    ⟨_, rfl⟩
  obtain ⟨e, he⟩ : ∃ e, e = heap_of [tuple 1 2] := ⟨_, rfl⟩
  refine ⟨tx, e, htx, he, by rw [he]; decide +kernel, by rw [he, htx]; decide +kernel, ?_⟩
  have hreach : Later TransactionManager.new tx := htx ▸ tx_after_reached _
  obtain ⟨H, h⟩ := heap_of_sound (tuple 1 2) (by decide)
  rw [← he] at h
  refine wp_mono (vacuum_preserves_visible_iff hreach Relation.ReflTransGen.refl _
    h.tracks.coherent h.wf fun q hq => ?_) (fun _ _ hi => hi) (fun _ _ _ => trivial)
  obtain ⟨h0, hlt⟩ := h.wf.range q hq
  exact ⟨H q, h.tracks.view q h0 hlt⟩

/-- Visible tuples are removed. Transaction 2 is active throughout. First the deleter has
aborted and the snapshot is current; then the deleter has committed after transaction 2 took
its snapshot. -/
theorem vacuum_removes_visible :
    (let tx := tx_after [.begin, .commit 1 0, .begin, .begin, .abort 3 0]
     2 ∈ tx.active ∧ sees tx tx.snapshot (tuple 1 3) = true
       ∧ page_tuples ((heap_of [tuple 1 3]).pool.view 1) = [tuple 1 3]
       ∧ page_tuples ((after (vacuum_table tx) (heap_of [tuple 1 3])).pool.view 1) = [])
    ∧ (let tm := tx_after [.begin, .commit 1 0, .begin]
       let tx := tx_after [.begin, .commit 1 0, .begin, .begin, .commit 3 0]
       2 ∈ tx.active ∧ sees tx tm.snapshot (tuple 1 3) = true
         ∧ page_tuples ((heap_of [tuple 1 3]).pool.view 1) = [tuple 1 3]
         ∧ page_tuples ((after (vacuum_table tx) (heap_of [tuple 1 3])).pool.view 1) = []) := by
  decide +kernel

end Vacuum

end Oigrap.Storage
