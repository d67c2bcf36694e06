/-
`crates/storage/src/vacuum.rs`: removing dead tuples from a heap file.

Vacuum calls a tuple dead when its `xmax` names a transaction that has ended, committed or
aborted, whatever snapshots are still in use. A page with a dead tuple is built anew from
the others, in slot order: the slots are numbered from zero again. The log gets a deletion
for every dead slot, under the slot's old number.

The first half is the code. The second says what it does to the contents of a page, and the
third what a whole run does to the pages of a pool, for any log: what the log has to keep is
a parameter of the proof.
-/
import Mathlib.Algebra.Order.BigOperators.Group.List
import Oigrap.Storage.HeapSpec
import Oigrap.Storage.PoolImage
import Oigrap.Storage.Recovery

namespace Oigrap.Storage

open ByteMem Wp BufferPool HeapFile Function List Contents

structure VacuumStats where
  pages_scanned : ℕ
  tuples_examined : ℕ
  tuples_removed : ℕ
  pages_compacted : ℕ
  deriving DecidableEq, Repr

namespace Vacuum

variable (tx : TransactionManager) (page_id : PageId) (slots : List (Option (List UInt8)))

/-- `is_dead`. -/
def is_dead (data : List UInt8) : Bool :=
  if data.length ≥ TUPLE_HEADER_SIZE then
    match TupleHeader.decode data with
    | .ok hdr => decide (hdr.xmax ≠ INVALID_XID) && (tx.is_committed hdr.xmax || tx.is_aborted hdr.xmax)
    | .error _ => false
  else false

/-- What the loop over the slots of a page collects. -/
structure PageScan where
  examined : ℕ
  live_tuples : List (List UInt8)
  dead_slots : List ℕ

def scan_slot (p : Page) (acc : PageScan) (slot_id : ℕ) :
    Except Fault PageScan := do
  let used ← p.is_slot_used slot_id
  if used then do
    let data ← p.get_tuple slot_id
    if is_dead tx data then
      return ⟨acc.examined + 1, acc.live_tuples, acc.dead_slots ++ [slot_id]⟩
    else return ⟨acc.examined + 1, acc.live_tuples ++ [data], acc.dead_slots⟩
  else return acc

def scan_page (p : Page) : Except Fault PageScan := do
  let slot_count ← p.slot_count
  (range slot_count).foldlM (scan_slot tx p) ⟨0, [], []⟩

/-- The fresh page: a tuple that does not fit is left out. -/
def rebuild (live_tuples : List (List UInt8)) : Except Fault Page :=
  live_tuples.foldlM (fun p data => Prod.snd <$> insert_ignoring_err data p) (Page.new page_id)

/-- One log record per dead slot, under transaction id 0. -/
def log_dead (page_id : PageId) : List ℕ → HeapM Unit
  | [] => pure ()
  | slot_id :: rest => do
    let e ← get
    let _ ← on_wal (WalManager.write_record 0 (.HeapDelete e.heap.table_id page_id slot_id 0))
    log_dead page_id rest

/-- The second part of a round: the fresh page is put in place, logged and stamped, and its
free space is entered. -/
def compact_page (new_page : Page) (dead_slots : List ℕ) : HeapM Unit := do
  let frame_id ← on_pool (fetch_page page_id)
  on_pool (page_mut frame_id fun _ => .ok ((), new_page))
  log_dead page_id dead_slots
  stamp page_id frame_id
  refresh page_id

/-- One round of the loop over the pages. -/
def vacuum_page (stats : VacuumStats) :
    HeapM VacuumStats := do
  let frame_id ← on_pool (fetch_page page_id)
  let scan ← on_pool (page frame_id (scan_page tx))
  on_pool (unpin_page page_id false)
  let stats : VacuumStats := ⟨stats.pages_scanned + 1, stats.tuples_examined + scan.examined,
    stats.tuples_removed + scan.dead_slots.length, stats.pages_compacted⟩
  if scan.dead_slots = [] then return stats
  else do
    let new_page ← lift (rebuild page_id scan.live_tuples)
    compact_page page_id new_page scan.dead_slots
    return { stats with pages_compacted := stats.pages_compacted + 1 }

def vacuum_pages (tx : TransactionManager) : List PageId → VacuumStats → HeapM VacuumStats
  | [], stats => pure stats
  | page_id :: rest, stats => do
    let stats ← vacuum_page tx page_id stats
    vacuum_pages tx rest stats

def vacuum_table : HeapM VacuumStats := do
  let e ← get
  vacuum_pages tx e.heap.pages ⟨0, 0, 0, 0⟩

/-! ## One page -/

/-- The tuples of a page, in slot order. -/
def tuples : List (List UInt8) := slots.filterMap id

def live : List (List UInt8) :=
  (tuples slots).filter fun data => !is_dead tx data

def is_dead_slot (i : ℕ) : Bool :=
  match slots[i]?.join with
  | some data => is_dead tx data
  | none => false

def dead : List ℕ :=
  (range slots.length).filter (is_dead_slot tx slots)

/-- The bytes tuples take on a page, with their slots. -/
def space (ts : List (List UInt8)) : ℕ := (ts.map fun data => 4 + data.length).sum

/-- The contents of the fresh page. -/
def compacted : Contents :=
  ⟨(live tx slots).map some, 8144 - space (live tx slots)⟩

section Page

variable {tx : TransactionManager} {p : Page} {c : Contents} {chs : List Change}

theorem tuples_append (xs ys : List (Option (List UInt8))) :
    tuples (xs ++ ys) = tuples xs ++ tuples ys := filterMap_append

theorem live_append (tx : TransactionManager) (xs ys : List (Option (List UInt8))) :
    live tx (xs ++ ys) = live tx xs ++ live tx ys := by
  rw [live, tuples_append, filter_append, live, live]

/-- One slot of the loop. -/
theorem scan_slot_eq (h : p.Holds c) (acc : PageScan) {i : ℕ} (hi : i < c.slots.length) :
    scan_slot tx p acc i = .ok ⟨acc.examined + (tuples [c.slots[i]]).length,
      acc.live_tuples ++ live tx [c.slots[i]],
      acc.dead_slots ++ [i].filter (is_dead_slot tx c.slots)⟩ := by
  have hget : c.slots[i]? = some c.slots[i] := getElem?_eq_getElem hi
  unfold scan_slot
  rw [Page.is_slot_used_eq h.1, hget]
  cases hs : c.slots[i] with
  | none =>
    have hdead : is_dead_slot tx c.slots i = false := by
      rw [is_dead_slot, hget, hs]
      rfl
    simp [hdead, tuples, live, bind, Except.bind, pure, Except.pure]
  | some data =>
    have htuple : p.get_tuple i = .ok data := Page.get_tuple_some h.1 (by rw [hget, hs])
    have hdead : is_dead_slot tx c.slots i = is_dead tx data := by
      rw [is_dead_slot, hget, hs]
      rfl
    cases hd : is_dead tx data with
    | true | false => simp [htuple, hdead, hd, tuples, live, bind, Except.bind, pure, Except.pure]

theorem scan_slots_eq (h : p.Holds c) (n : ℕ) (hn : n ≤ c.slots.length) :
    (range n).foldlM (scan_slot tx p) ⟨0, [], []⟩ = .ok ⟨(tuples (c.slots.take n)).length,
      live tx (c.slots.take n), (range n).filter (is_dead_slot tx c.slots)⟩ := by
  induction n with
  | zero => rfl
  | succ n ih =>
    have htake : c.slots.take (n + 1) = c.slots.take n ++ [c.slots[n]] :=
      take_concat_get' _ _ hn |>.symm
    rw [range_succ, foldlM_append, ih (Nat.le_of_succ_le hn)]
    simp only [bind, Except.bind, foldlM_cons, foldlM_nil]
    rw [scan_slot_eq h _ hn]
    simp only [htake, tuples_append, live_append, length_append, filter_append]
    rfl

theorem scan_page_eq (h : p.Holds c) :
    scan_page tx p = .ok ⟨(tuples c.slots).length, live tx c.slots, dead tx c.slots⟩ := by
  unfold scan_page
  rw [Page.slot_count_eq h.1]
  have hscan := @scan_slots_eq tx p c h c.slots.length (le_rfl)
  rwa [take_length] at hscan

theorem rebuild_loop {ts : List (List UInt8)} : ∀ {p : Page} {c : Contents}, p.Holds c →
    space ts ≤ c.free →
    ∃ q, ts.foldlM (fun p data => Prod.snd <$> insert_ignoring_err data p) p = .ok q
      ∧ q.Holds ⟨c.slots ++ ts.map some, c.free - space ts⟩ := by
  induction ts with
  | nil =>
    intro p c h _
    exact ⟨p, rfl, by rw [map_nil, append_nil]; exact h⟩
  | cons data ts ih =>
    intro p c h hroom
    have hspace : space (data :: ts) = 4 + data.length + space ts := rfl
    have happ : c.apply (.insert c.slots.length data)
        = some ⟨c.slots ++ [some data], c.free - (4 + data.length)⟩ := by
      rw [apply, if_pos ⟨rfl, by omega⟩]
    obtain ⟨q, hq, hholds, -⟩ := h.insert_tuple happ
    have hstep : Prod.snd <$> insert_ignoring_err data p = .ok q := by
      rw [insert_ignoring_err, hq]
      rfl
    obtain ⟨r, hr, hrholds⟩ := ih hholds (show space ts ≤ c.free - (4 + data.length) by omega)
    refine ⟨r, ?_, ?_⟩
    · rwa [foldlM_cons, hstep]
    · rwa [map_cons, append_cons, hspace, ← Nat.sub_sub]

theorem space_le {xs ys : List (List UInt8)} (h : xs.Sublist ys) : space xs ≤ space ys :=
  (h.map _).sum_le_sum fun _ _ => Nat.zero_le _

theorem tuples_set_none (slots : List (Option (List UInt8))) (i : ℕ) :
    (tuples (slots.set i none)).Sublist (tuples slots) := by
  induction slots generalizing i with
  | nil => exact List.Sublist.refl _
  | cons o slots ih =>
    cases i with
    | zero =>
      cases o with
      | none => exact List.Sublist.refl _
      | some data => exact sublist_cons_self _ _
    | succ i =>
      cases o with
      | none => exact ih i
      | some data => exact (ih i).cons_cons _

theorem replay_space {chs : List Change} : ∀ {c c' : Contents}, replay chs c = some c' →
    space (tuples c.slots) + c.free ≤ 8144 → space (tuples c'.slots) + c'.free ≤ 8144 := by
  induction chs with
  | nil =>
    intro c c' h hc
    rwa [← Option.some.inj h]
  | cons ch chs ih =>
    intro c c' h hc
    obtain ⟨c1, h1, h2⟩ := replay_cons.mp h
    refine ih h2 ?_
    cases ch with
    | insert slot_id data =>
      obtain ⟨-, hroom, rfl⟩ := apply_insert h1
      have hspace : space (tuples (c.slots ++ [some data]))
          = space (tuples c.slots) + (4 + data.length) := by
        rw [tuples_append, space, map_append, sum_append]
        rfl
      show space (tuples (c.slots ++ [some data])) + (c.free - (4 + data.length)) ≤ 8144
      omega
    | delete slot_id =>
      obtain ⟨hlt, rfl⟩ := apply_delete h1
      have hle := space_le (tuples_set_none c.slots slot_id)
      show space (tuples (c.slots.set slot_id none)) + c.free ≤ 8144
      omega

/-- **The fresh page.** The live tuples of a page fit a page. -/
theorem rebuild_eq (hc : replay chs empty = some c) (page_id : PageId) :
    ∃ q, rebuild page_id (live tx c.slots) = .ok q ∧ q.Holds (compacted tx c.slots) := by
  have hspace := replay_space hc (by decide)
  have hlive : space (live tx c.slots) ≤ 8144 :=
    (space_le filter_sublist).trans (Nat.le_of_add_right_le hspace)
  obtain ⟨c0, hc0, hholds⟩ := Page.new_built page_id
  cases hc0
  exact rebuild_loop hholds hlive

/-- What vacuum makes of a page with the contents `c`: nothing, or the live tuples from slot 0
on. -/
def PageVacuumed (tx : TransactionManager) (c : Contents) (p p' : Page) : Prop :=
  dead tx c.slots = [] ∧ p' = p ∨ dead tx c.slots ≠ [] ∧ p'.Holds (compacted tx c.slots)

theorem dead_lt {i : ℕ} (hi : i ∈ dead tx c.slots) : i < c.slots.length :=
  mem_range.mp (mem_filter.mp hi).1

end Page

/-! ## The pages of a pool -/

section Pool

variable {e : HeapEnv} {a : Image} {hot : Set PageId} {F : List (PageId × FrameId)} {pid : PageId}
  {f : FrameId} {p : Page} {tx : TransactionManager}

/-- `stamp`: the LSN changes, and nothing else on the page. -/
theorem stamp_rule (h : e.pool.Stands (insert pid ∅) ((a.pin pid).put pid p) [(pid, f)]) :
    wp (stamp pid f) (fun _ e' => e'.heap = e.heap ∧ e'.wal = e.wal
        ∧ e'.pool.Stands ∅ (a.put pid (p.set_lsn e.wal.flushed_lsn)) []) never e := by
  unfold stamp
  rw [wp_bind, wp_get, wp_bind, on_pool, wp_zoom]
  refine wp_imp (page_mut_again h mem_cons_self (x := ()) rfl) ?_
  rintro - s1 ⟨-, h1⟩
  rw [on_pool, wp_zoom]
  exact wp_imp (unpin_changed h1 (forall_mem_nil _)) fun _ _ h2 => ⟨rfl, rfl, h2⟩

/-- The file of a heap, its map changed. -/
def SameHeap (h h' : HeapFile) (len : ℕ) : Prop :=
  h'.pages = h.pages ∧ h'.table_id = h.table_id ∧ h'.Wf len

variable (h : e.pool.Stands ∅ a []) (hwf : e.heap.Wf a.len) (hpid : pid ∈ e.heap.pages)

include h hwf hpid in
/-- `refresh`: only the map changes. -/
theorem refresh_rule : wp (refresh pid)
      (fun _ e' => SameHeap e.heap e'.heap a.len ∧ e'.wal = e.wal ∧ e'.pool.Stands ∅ a [])
      (fun x e' => x = .err .BufferFull ∧ ¬ Room a.pins a.size 1 ∧ e' = e) e := by
  obtain ⟨h0, hlt⟩ := hwf.range pid hpid
  unfold refresh
  rw [wp_bind, on_pool, wp_zoom]
  refine wp_mono (fetch_rule_full h h0 hlt) ?_ ?_
  · rintro f s1 h1
    rw [wp_bind, on_pool, wp_zoom]
    refine wp_never (page_rule h1 mem_cons_self rfl) ?_
    rintro free s1' ⟨rfl, rfl⟩
    rw [wp_bind, on_pool, wp_zoom]
    refine wp_never (unpin_clean h1) ?_
    rintro - s2 h2
    obtain ⟨m, hm, hmwf, hfirst⟩ := FreeSpaceMap.update_ok hwf.fsm (hwf.first pid hpid)
      (a.view pid).free_space
    unfold update_fsm
    rw [wp_bind, wp_get, wp_bind, Image.pin_view, hm, wp_lift_ok, wp_set]
    exact ⟨⟨rfl, rfl, hmwf, fun q hq => hfirst.le.trans (hwf.first q hq), hwf.range, hwf.sorted⟩,
      rfl, h2⟩
  · rintro x s1 ⟨rfl, rfl, hfull⟩
    exact ⟨rfl, hfull, rfl⟩

/-! What the log has to keep while dead slots are recorded is a predicate `W` of the slots
recorded so far; `E` says how a write may fail, and `S` which LSNs pages are stamped with. -/

variable {table_id : ℕ} {W : List (PageId × ℕ) → WalManager → Prop} {E : Fault → Prop}
  {S : Lsn → Prop}

/-- The log can record a dead slot. -/
def Records (table_id : ℕ) (W : List (PageId × ℕ) → WalManager → Prop) (E : Fault → Prop) : Prop :=
  ∀ xs w pid slot_id, pid < 256 ^ 8 → slot_id < 256 ^ 2 → W xs w →
    wp (WalManager.write_record 0 (.HeapDelete table_id pid slot_id 0))
      (fun _ w' => W (xs ++ [(pid, slot_id)]) w') (fun x _ => E x) w

/-- The LSNs the log stamps on pages. -/
def Stamps (W : List (PageId × ℕ) → WalManager → Prop) (S : Lsn → Prop) : Prop :=
  ∀ xs w (p : Page), W xs w → S (p.set_lsn w.flushed_lsn).lsn

variable (hW : Records table_id W E) (hS : Stamps W S)

include hW in
theorem log_dead_rule (hpid : pid < 256 ^ 8) (l : List ℕ) :
    ∀ {e : HeapEnv} {xs : List (PageId × ℕ)}, e.heap.table_id = table_id → W xs e.wal →
    (∀ i ∈ l, i < 256 ^ 2) → wp (log_dead pid l)
      (fun _ e' => e'.heap = e.heap ∧ e'.pool = e.pool ∧ W (xs ++ l.map (pid, ·)) e'.wal)
      (fun x e' => E x ∧ e'.heap = e.heap ∧ e'.pool = e.pool) e := by
  induction l with
  | nil =>
    intro e xs _ hxs _
    exact ⟨rfl, rfl, by rw [map_nil, append_nil]; exact hxs⟩
  | cons i l ih =>
    intro e xs ht hxs hl
    unfold log_dead
    rw [wp_bind, wp_get, wp_bind, on_wal, wp_zoom, ht]
    refine wp_mono (hW xs e.wal pid i hpid (hl i mem_cons_self) hxs) ?_
      (fun x _ hx => ⟨hx, rfl, rfl⟩)
    rintro - w hw
    refine wp_imp (@ih { e with wal := w } _ ht hw fun j hj => hl j (mem_cons_of_mem _ hj)) ?_
    rintro - e' ⟨h1, h2, h3⟩
    refine ⟨h1, h2, ?_⟩
    rwa [map_cons, append_cons]

/-- How a call of vacuum can fail. -/
def Failed (E : Fault → Prop) (a : Image) (x : Fault) : Prop :=
  x = .err .BufferFull ∧ ¬ Room a.pins a.size 1 ∨ E x

variable {c : Contents} {chs : List Change} {xs : List (PageId × ℕ)}

section

include h hwf hpid hW hS

theorem compact_page_rule (hp : p.Holds (compacted tx c.slots)) (hd : dead tx c.slots ≠ [])
    (hslots : c.slots.length ≤ 256 ^ 2) (ht : e.heap.table_id = table_id) (hxs : W xs e.wal) :
    wp (compact_page pid p (dead tx c.slots))
      (fun _ e' => ∃ q, PageVacuumed tx c (a.view pid) q ∧ (q = a.view pid ∨ S q.lsn)
        ∧ e'.pool.Stands ∅ (a.put pid q) [] ∧ SameHeap e.heap e'.heap a.len
        ∧ W (xs ++ (dead tx c.slots).map (pid, ·)) e'.wal)
      (fun x e' => Failed E a x ∧ ∃ q, (q = a.view pid ∨ PageVacuumed tx c (a.view pid) q)
        ∧ ∀ r, r ≠ 0 → e'.pool.view r = update a.view pid q r) e := by
  obtain ⟨h0, hlt⟩ := hwf.range pid hpid
  have hbound : pid < 256 ^ 8 := by
    have h1 := h.coherent.disk.size
    have h2 := h.len
    lia
  unfold compact_page
  rw [wp_bind, on_pool, wp_zoom]
  refine wp_mono (fetch_rule_full h h0 hlt) ?_ ?_
  · rintro f s1 h1
    rw [wp_bind, on_pool, wp_zoom]
    refine wp_never (page_mut_rule h1 mem_cons_self rfl) ?_
    rintro - s2 ⟨-, h2⟩
    have hview : ∀ r, r ≠ 0 → s2.view r = update a.view pid p r := h2.view
    refine wp_seq (log_dead_rule hW hbound _ ht hxs fun i hi =>
      lt_of_lt_of_le (dead_lt hi) hslots) ?_ ?_
    · rintro x e3 ⟨hx, -, hpool⟩
      exact ⟨.inr hx, p, .inr (.inr ⟨hd, hp⟩), by rw [hpool]; exact hview⟩
    · rintro - e3 ⟨hheap, hpool, hw⟩
      have h3 : e3.pool.Stands (insert pid ∅) ((a.pin pid).put pid p) [(pid, f)] := by
        rwa [hpool]
      refine wp_then (stamp_rule h3) ?_
      rintro - e4 ⟨hheap4, hwal4, h4⟩
      have hq : PageVacuumed tx c (a.view pid) (p.set_lsn e3.wal.flushed_lsn) :=
        .inr ⟨hd, hp.set_lsn _⟩
      have hheap' : e4.heap = e.heap := hheap4.trans hheap
      refine wp_mono (refresh_rule h4 (by rw [hheap']; exact hwf) (by rw [hheap']; exact hpid)) ?_ ?_
      · rintro - e5 ⟨hsame, hwal5, h5⟩
        rw [hheap'] at hsame
        exact ⟨_, hq, .inr (hS _ _ p hw), h5, hsame, by rw [hwal5, hwal4]; exact hw⟩
      · rintro x e5 ⟨rfl, hfull, rfl⟩
        exact ⟨.inl ⟨rfl, hfull⟩, _, .inr hq, h4.view⟩
  · rintro x s1 ⟨rfl, rfl, hfull⟩
    refine ⟨.inl ⟨rfl, hfull⟩, a.view pid, .inl rfl, fun r hr => ?_⟩
    rw [update_eq_self]
    exact h.view r hr

/-- **One round of vacuum.** -/
theorem vacuum_page_rule (hc : replay chs empty = some c) (hp : (a.view pid).Holds c)
    (ht : e.heap.table_id = table_id) (hxs : W xs e.wal) (stats : VacuumStats) :
    wp (vacuum_page tx pid stats)
      (fun _ e' => ∃ q, PageVacuumed tx c (a.view pid) q ∧ (q = a.view pid ∨ S q.lsn)
        ∧ e'.pool.Stands ∅ (a.put pid q) [] ∧ SameHeap e.heap e'.heap a.len
        ∧ W (xs ++ (dead tx c.slots).map (pid, ·)) e'.wal)
      (fun x e' => Failed E a x ∧ ∃ q, (q = a.view pid ∨ PageVacuumed tx c (a.view pid) q)
        ∧ ∀ r, r ≠ 0 → e'.pool.view r = update a.view pid q r) e := by
  obtain ⟨h0, hlt⟩ := hwf.range pid hpid
  unfold vacuum_page
  rw [wp_bind, on_pool, wp_zoom]
  refine wp_mono (fetch_rule_full h h0 hlt) ?_ ?_
  · rintro f s1 h1
    rw [wp_bind, on_pool, wp_zoom]
    refine wp_never (page_rule h1 mem_cons_self (scan_page_eq hp)) ?_
    rintro scan s1' ⟨rfl, rfl⟩
    rw [wp_bind, on_pool, wp_zoom]
    refine wp_never (unpin_clean h1) ?_
    rintro - s2 h2
    simp only []
    by_cases hd : dead tx c.slots = []
    · -- nothing to compact on this page
      rw [if_pos hd, wp_pure]
      refine ⟨a.view pid, .inl ⟨hd, rfl⟩, .inl rfl, ?_, ⟨rfl, rfl, hwf⟩, ?_⟩
      · rwa [Image.put_self]
      · rwa [hd, map_nil, append_nil]
    · obtain ⟨p, hreb, hholds⟩ := @rebuild_eq tx c chs hc pid
      rw [if_neg hd, wp_bind, hreb, wp_lift_ok]
      refine wp_seq (@compact_page_rule { e with pool := s2 } a pid p tx h2 hwf hpid table_id W E S
        hW hS c xs hholds hd (le_of_lt hp.bounds.1) ht hxs) (fun _ _ hx => hx) ?_
      rintro - e3 h3
      exact h3
  · rintro x s1 ⟨rfl, rfl, hfull⟩
    refine ⟨.inl ⟨rfl, hfull⟩, a.view pid, .inl rfl, fun r hr => ?_⟩
    rw [update_eq_self]
    exact h.view r hr

end

variable {C : PageId → Contents} {v v' : PageId → Page} {l : List PageId}

/-- Vacuum was over the pages `l`. -/
def Vacuumed (tx : TransactionManager) (C : PageId → Contents) (l : List PageId)
    (v v' : PageId → Page) : Prop :=
  ∀ q, (q ∈ l → PageVacuumed tx (C q) (v q) (v' q)) ∧ (q ∉ l → v' q = v q)

/-- Vacuum was over some of the pages `l`. -/
def PartlyVacuumed (tx : TransactionManager) (C : PageId → Contents) (l : List PageId)
    (v v' : PageId → Page) : Prop :=
  ∀ q, v' q = v q ∨ q ∈ l ∧ PageVacuumed tx (C q) (v q) (v' q)

/-- The dead slots of pages, in order. -/
def dead_on (tx : TransactionManager) (C : PageId → Contents) (l : List PageId) :
    List (PageId × ℕ) := l.flatMap fun q => (dead tx (C q).slots).map (q, ·)

include hW hS in
/-- **A run of vacuum.** -/
theorem vacuum_pages_rule (l : List PageId) :
    ∀ {e : HeapEnv} {a : Image} {xs : List (PageId × ℕ)} (stats : VacuumStats),
    e.pool.Stands ∅ a [] → e.heap.Wf a.len → l.Nodup → (∀ q ∈ l, q ∈ e.heap.pages) →
    (∀ q ∈ l, ∃ chs, replay chs empty = some (C q)) →
    (∀ q ∈ l, (a.view q).Holds (C q)) → e.heap.table_id = table_id → W xs e.wal →
    wp (vacuum_pages tx l stats)
      (fun _ e' => ∃ v', Vacuumed tx C l a.view v' ∧ (∀ q, v' q = a.view q ∨ S (v' q).lsn)
        ∧ e'.pool.Stands ∅ { a with view := v' } [] ∧ SameHeap e.heap e'.heap a.len
        ∧ W (xs ++ dead_on tx C l) e'.wal)
      (fun x e' => Failed E a x ∧ ∃ v', PartlyVacuumed tx C l a.view v'
        ∧ ∀ q, q ≠ 0 → e'.pool.view q = v' q) e := by
  induction l with
  | nil =>
    intro e a xs stats h hwf _ _ _ _ _ hxs
    refine ⟨a.view, fun q => ⟨fun hq => absurd hq not_mem_nil, fun _ => rfl⟩,
      fun q => .inl rfl, h, ⟨rfl, rfl, hwf⟩, ?_⟩
    rwa [dead_on, flatMap_nil, append_nil]
  | cons pid l ih =>
    intro e a xs stats h hwf hnd hpages hreplay hholds ht hxs
    obtain ⟨hnot, hnd'⟩ := nodup_cons.mp hnd
    obtain ⟨chs, hchs⟩ := hreplay pid mem_cons_self
    refine wp_seq (vacuum_page_rule h hwf (hpages pid mem_cons_self) hW hS hchs
      (hholds pid mem_cons_self) ht hxs stats) ?_ ?_
    · rintro x e1 ⟨hx, q, hq, hview⟩
      refine ⟨hx, _, fun r => ?_, hview⟩
      by_cases hr : r = pid
      · subst hr
        rw [update_self]
        exact hq.imp id fun hv => ⟨mem_cons_self, hv⟩
      · exact .inl (update_of_ne hr _ _)
    · rintro stats1 e1 ⟨q, hq, hstamp, h1, hheap1, hw1⟩
      -- the pages still to come have not changed
      have hother : ∀ r ∈ l, (a.put pid q).view r = a.view r := by
        intro r hr
        refine update_of_ne ?_ _ _
        rintro rfl
        exact hnot hr
      refine wp_mono (ih stats1 h1 hheap1.2.2 hnd'
        (fun r hr => by rw [hheap1.1]; exact hpages r (mem_cons_of_mem _ hr))
        (fun r hr => hreplay r (mem_cons_of_mem _ hr))
        (fun r hr => by rw [hother r hr]; exact hholds r (mem_cons_of_mem _ hr))
        (hheap1.2.1.trans ht) hw1) ?_ ?_
      · rintro stats2 e2 ⟨v', hv', hstamp', h2, hheap2, hw2⟩
        refine ⟨v', fun r => ⟨fun hr => ?_, fun hr => ?_⟩, fun r => ?_, h2, ⟨hheap2.1.trans hheap1.1,
          hheap2.2.1.trans hheap1.2.1, hheap2.2.2⟩, ?_⟩
        · by_cases hrp : r = pid
          · subst hrp
            rwa [(hv' r).2 hnot, Image.put_view, update_self]
          · have hrl := (mem_cons.mp hr).resolve_left hrp
            rw [← hother r hrl]
            exact (hv' r).1 hrl
        · rw [mem_cons, not_or] at hr
          rw [(hv' r).2 hr.2, Image.put_view, update_of_ne hr.1]
        · rcases hstamp' r with heq | hs
          · rw [heq, Image.put_view]
            by_cases hrp : r = pid
            · subst hrp
              rwa [update_self]
            · rw [update_of_ne hrp]
              exact .inl rfl
          · exact .inr hs
        · rwa [dead_on, flatMap_cons, ← append_assoc]
      · rintro x e2 ⟨hx, v', hv', hview⟩
        refine ⟨hx, v', fun r => ?_, hview⟩
        by_cases hrp : r = pid
        · subst hrp
          rcases hv' r with heq | ⟨hr, -⟩
          · rw [heq, Image.put_view, update_self]
            exact .inr ⟨mem_cons_self, hq⟩
          · exact absurd hr hnot
        · have hput : (a.put pid q).view r = a.view r := update_of_ne hrp _ _
          have hvr := hv' r
          rw [hput] at hvr
          exact hvr.imp id fun ⟨hr, hv⟩ => ⟨mem_cons_of_mem _ hr, hv⟩

end Pool

end Vacuum

end Oigrap.Storage
