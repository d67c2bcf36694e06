/-
Durability of committed heap changes.

A run is a sequence of calls by transactions on heap files that share a pool and a log:
insertions, deletions, reads, commits, aborts, and writes of pages to disk. Any call may
evict pages, so which version of a page is on disk is arbitrary. A crash at the end of the
run keeps the pages on disk and the flushed part of the log; recovery then runs
`redo_recover` on an empty pool.

What a committed transaction did is in the flushed log. Whether redo brings it back depends
on the page LSN, which the source takes from the log's flush position and not from the
record, and which is 0 on a page that was never written back, the LSN of the first record
of a log. `Recoverable` is the condition under which it does, record by record.
-/
import Oigrap.Lib.Runs
import Oigrap.Storage.HeapSpec
import Oigrap.Storage.Redo

namespace Oigrap.Storage

open List hiding after
open Wp BufferPool Function

/-- A change whose call returned `Ok`. -/
inductive HeapEvent where
  | inserted (xid : Xid) (tid : TupleId) (tuple_data : List UInt8)
  | deleted (xid : Xid) (tid : TupleId)
  deriving DecidableEq, Repr

structure Store where
  pool : BufferPool
  wal : WalManager
  tx : TransactionManager
  /-- the heap files, by table id -/
  heaps : ℕ → HeapFile
  /-- the changes made so far, oldest first -/
  history : List HeapEvent

inductive StoreCall where
  | begin
  | insert_tuple (table_id : ℕ) (xid : Xid) (tuple_data : List UInt8)
  | delete_tuple (table_id : ℕ) (xid : Xid) (tid : TupleId) (old_xmax : Xid)
  | get_tuple (table_id : ℕ) (tid : TupleId)
  | commit (xid : Xid) (timestamp : ℕ)
  | abort (xid : Xid) (timestamp : ℕ)
  | flush_page (page_id : PageId)
  | flush_all

namespace Store

/-- A new database, with `pool_size` frames. -/
def start (pool_size : ℕ) (crc32 : Crc32) : Store :=
  ⟨BufferPool.new pool_size DiskManager.fresh, WalManager.create (fun _ => true) crc32,
    TransactionManager.new, HeapFile.new, []⟩

variable (s : Store)

/-- A call of a heap file's method; what it reports goes into the history. -/
def on_heap {α : Type} (table_id : ℕ) (x : HeapFile.HeapM α) (event : α → HeapEvent) : Store :=
  match x ⟨s.heaps table_id, s.pool, s.wal⟩ with
  | .ok a e => { s with
      pool := e.pool, wal := e.wal, heaps := update s.heaps table_id e.heap
      history := s.history ++ [event a] }
  | .error _ e => { s with
      pool := e.pool, wal := e.wal, heaps := update s.heaps table_id e.heap }

def on_pool {α : Type} (x : PoolM α) : Store := { s with pool := after x s.pool }

def on_tx (x : TransactionManager.TxM Unit) : Store :=
  { s with tx := (after x (s.tx, s.wal)).1, wal := (after x (s.tx, s.wal)).2 }

def step : StoreCall → Store
  | .begin => s.on_tx (TransactionManager.Call.run .begin)
  | .insert_tuple table_id xid tuple_data =>
    s.on_heap table_id (HeapFile.insert_tuple xid tuple_data) fun tid => .inserted xid tid tuple_data
  | .delete_tuple table_id xid tid old_xmax =>
    s.on_heap table_id (HeapFile.delete_tuple xid tid old_xmax) fun _ => .deleted xid tid
  | .get_tuple _ tid => s.on_pool (HeapFile.get_tuple tid)
  | .commit xid timestamp => s.on_tx (TransactionManager.Call.run (.commit xid timestamp))
  | .abort xid timestamp => s.on_tx (TransactionManager.Call.run (.abort xid timestamp))
  | .flush_page page_id => s.on_pool (BufferPool.flush_page page_id)
  | .flush_all => s.on_pool BufferPool.flush_all

/-- The calls of a run: changes are made by transactions that have begun and not ended, on
tuples of the table, and the files have room. The remaining bounds are those of the
source's integer types. -/
def Allowed : StoreCall → Prop
  | .insert_tuple table_id xid tuple_data =>
    xid ∈ s.tx.active ∧ table_id < 256 ^ 4 ∧ ¬ s.pool.disk.Full
      ∧ HeapFile.LogRoom s.wal (50 + tuple_data.length)
  | .delete_tuple table_id xid tid old_xmax =>
    xid ∈ s.tx.active ∧ table_id < 256 ^ 4 ∧ tid.page_id ∈ (s.heaps table_id).pages
      ∧ old_xmax < 256 ^ 8 ∧ HeapFile.LogRoom s.wal 56
  | .get_tuple table_id tid => tid.page_id ∈ (s.heaps table_id).pages
  | .commit _ timestamp | .abort _ timestamp =>
    timestamp < 256 ^ 8 ∧ HeapFile.LogRoom s.wal 42
  | .begin | .flush_page _ | .flush_all => True

instance (s : Store) : ∀ call, Decidable (s.Allowed call)
  | .insert_tuple .. => inferInstanceAs (Decidable (_ ∧ _))
  | .delete_tuple .. => inferInstanceAs (Decidable (_ ∧ _))
  | .get_tuple .. => inferInstanceAs (Decidable (_ ∈ _))
  | .commit .. => inferInstanceAs (Decidable (_ ∧ _))
  | .abort .. => inferInstanceAs (Decidable (_ ∧ _))
  | .begin | .flush_page _ | .flush_all => isTrue trivial

/-! ## The crash -/

/-- The log after a crash. -/
def crashed_wal : WalManager := WalManager.open s.wal.file (fun _ => true) s.wal.crc32

/-- The condition: every flushed heap record is redoable on the page it names, as that page
is on disk. -/
def Recoverable : Prop :=
  ∀ rec ∈ s.crashed_wal.records.1, RedoableOn s.pool.disk.pages rec

instance (s : Store) : Decidable s.Recoverable :=
  inferInstanceAs (Decidable (∀ rec ∈ _, RedoableOn _ rec))

/-- After a crash and redo, on any number of frames, the committed changes are there. -/
structure Recovers (s : Store) (pool_size : ℕ) (disk : DiskManager) : Prop where
  returns : ∃ pool, redo_recover s.crashed_wal (BufferPool.new pool_size disk) = .ok () pool
  readable : ∀ pool, redo_recover s.crashed_wal (BufferPool.new pool_size disk) = .ok () pool →
    ∀ xid tid tuple_data, HeapEvent.inserted xid tid tuple_data ∈ s.history →
    xid ∈ s.tx.committed → (∀ xid', HeapEvent.deleted xid' tid ∉ s.history) →
    ∃ pool', HeapFile.get_tuple tid pool = .ok tuple_data pool'
  unused : ∀ pool, redo_recover s.crashed_wal (BufferPool.new pool_size disk) = .ok () pool →
    ∀ xid tid, HeapEvent.deleted xid tid ∈ s.history → xid ∈ s.tx.committed →
    ∃ pool', read_at tid.page_id (fun p => p.is_slot_used tid.slot_id) pool = .ok false pool'

def Durable : Prop :=
  ∀ pool_size disk, 0 < pool_size → disk.Faithful → disk.pages = s.pool.disk.pages →
    disk.len = s.pool.disk.len → s.Recovers pool_size disk

/-! ## The invariant -/

/-- The call a log entry reports. -/
def event_of (r : DecodedRecord) : Option HeapEvent :=
  match change_of r.record with
  | some (page_id, .insert slot_id tuple_data) =>
    some (.inserted r.xid ⟨page_id, slot_id⟩ tuple_data)
  | some (page_id, .delete slot_id) => some (.deleted r.xid ⟨page_id, slot_id⟩)
  | none => none

/-- The changes the log reports for a page. -/
def changes (log : List DecodedRecord) (q : PageId) : List Change :=
  (changes_on q log).map Prod.snd

/-- The state of a run: `fl` are the entries of the log that were flushed, `pend` those
still in its buffer. The log reports exactly the changes that were made, and what is not
flushed belongs to transactions that have not committed. -/
structure Inv (s : Store) (fl pend : List DecodedRecord) : Prop where
  tracks : Tracks s.pool ∅ (changes (fl ++ pend))
  heaps : ∀ t, (s.heaps t).Wf s.pool.disk.len
  table_id : ∀ t, (s.heaps t).table_id = t
  logged : s.wal.Logged fl pend
  quiet : s.wal.Quiet
  history : s.history = (fl ++ pend).filterMap event_of
  header : changes (fl ++ pend) 0 = []
  tx : s.tx.Wf
  pending : ∀ r ∈ pend, r.xid ∉ s.tx.committed

theorem start_inv (pool_size : ℕ) (crc32 : Crc32) : (start pool_size crc32).Inv [] [] where
  tracks := by
    have hlen : ∀ q, q ≠ 0 → ¬ q < (start pool_size crc32).pool.disk.len := by
      intro q h0 hq
      exact h0 (Nat.lt_one_iff.mp hq)
    exact ⟨new_coherent DiskManager.fresh_faithful _, fun q h0 hq => absurd hq (hlen q h0),
      fun q h0 hq => absurd hq (hlen q h0), fun _ _ => rfl⟩
  heaps t := HeapFile.new_heap_wf t _
  table_id _ := rfl
  logged := WalManager.create_logged fun _ => rfl
  quiet := WalManager.quiet_of_nil rfl
  history := rfl
  header := rfl
  tx := TransactionManager.new_wf
  pending _ h := absurd h not_mem_nil

section Steps

variable {s : Store} {fl pend : List DecodedRecord} {r : DecodedRecord} {log : List DecodedRecord}

/-- The log with a heap record: one page has one more change. -/
theorem changes_concat {page_id : PageId} {ch : Change}
    (h : change_of r.record = some (page_id, ch)) :
    changes (log ++ [r]) = update (changes log) page_id (changes log page_id ++ [ch]) := by
  funext q
  unfold changes
  rw [changes_on_append, changes_on_singleton h, map_append]
  by_cases hq : page_id = q
  · subst hq
    rw [if_pos rfl, update_self]
    rfl
  · rw [if_neg hq, update_of_ne (Ne.symm hq), map_nil, append_nil]

theorem changes_concat_none (h : change_of r.record = none) : changes (log ++ [r]) = changes log := by
  funext q
  unfold changes
  rw [changes_on_append, changes_on_other h, append_nil]

/-- Whether or not the new entry was flushed, it is the last of the log. -/
theorem appended_split {w : WalManager} (h : HeapFile.Appended w fl pend r) :
    ∃ fl' pend', w.Logged fl' pend' ∧ fl' ++ pend' = fl ++ pend ++ [r]
      ∧ ∀ x ∈ pend', x ∈ pend ∨ x = r := by
  rcases h.2 with hl | hl
  · refine ⟨fl, pend ++ [r], hl, (append_assoc _ _ _).symm, fun x hx => ?_⟩
    exact (mem_append.mp hx).imp_right mem_singleton.mp
  · refine ⟨_, [], hl, by rw [append_nil, append_assoc], fun x hx => ?_⟩
    exact absurd hx not_mem_nil

/-- The log is as it was, or ends with a record that is not about the heap, and what stays
unflushed is not committed. -/
def TxKeeps (fl pend : List DecodedRecord) (st : TransactionManager × WalManager) : Prop :=
  ∃ fl' pend', st.2.Logged fl' pend' ∧ st.2.Quiet
    ∧ (fl' ++ pend' = fl ++ pend ∨ ∃ r, change_of r.record = none ∧ fl' ++ pend' = fl ++ pend ++ [r])
    ∧ ∀ r ∈ pend', r.xid ∉ st.1.committed

section

variable (h : s.Inv fl pend)
include h

/-- **A heap call.** -/
theorem on_heap_inv {α : Type} {x : HeapFile.HeapM α} {event : α → HeapEvent}
    {xid : Xid} {table_id : ℕ} (hact : xid ∈ s.tx.active) (hx : wp x
      (fun a e' => ∃ page_id ch rec, change_of rec = some (page_id, ch)
        ∧ (∀ lsn prev_lsn, event_of ⟨lsn, prev_lsn, xid, rec⟩ = some (event a))
        ∧ HeapFile.Changed ⟨s.heaps table_id, s.pool, s.wal⟩ (changes (fl ++ pend)) fl pend xid
          page_id ch rec e')
      (HeapFile.Stopped ⟨s.heaps table_id, s.pool, s.wal⟩ (changes (fl ++ pend)))
      ⟨s.heaps table_id, s.pool, s.wal⟩) :
    ∃ fl' pend', (s.on_heap table_id x event).Inv fl' pend' := by
  have hheaps : ∀ {e' : HeapEnv}, e'.heap.Wf e'.pool.disk.len →
      e'.heap.table_id = (s.heaps table_id).table_id → s.pool.disk.len ≤ e'.pool.disk.len →
      ∀ t, (update s.heaps table_id e'.heap t).Wf e'.pool.disk.len
        ∧ (update s.heaps table_id e'.heap t).table_id = t := by
    intro e' hwf htab hle t
    by_cases ht : t = table_id
    · subst ht
      rw [update_self]
      exact ⟨hwf, htab.trans (h.table_id t)⟩
    · rw [update_of_ne ht]
      exact ⟨(h.heaps t).mono hle, h.table_id t⟩
  unfold on_heap
  cases hrun : x ⟨s.heaps table_id, s.pool, s.wal⟩ with
  | ok a e' =>
    obtain ⟨page_id, ch, rec, hch, hev, hc⟩ := wp_ok hx hrun
    obtain ⟨fl', pend', hlog, hsplit, hpend⟩ := appended_split hc.wal
    have hheaps' := hheaps hc.sound.wf hc.table_id hc.len
    have hne : page_id ≠ 0 := (hc.sound.wf.range _ hc.mem).1
    refine ⟨fl', pend', ?_, fun t => (hheaps' t).1, fun t => (hheaps' t).2, hlog, hc.wal.1, ?_, ?_,
      h.tx, ?_⟩
    · rw [hsplit, changes_concat hch]
      exact hc.sound.tracks
    · rw [hsplit, filterMap_append, ← h.history, filterMap_cons, hev]
      rfl
    · rw [hsplit, changes_concat hch, update_of_ne (Ne.symm hne)]
      exact h.header
    · intro y hy
      rcases hpend y hy with hy | rfl
      · exact h.pending y hy
      · exact fun hin => h.tx.disjoint _ hin hact
  | error e e' =>
    -- a call that fails may have added pages, but it has logged nothing
    obtain ⟨-, hsound, hgrew⟩ := wp_error hx hrun
    have hheaps' := hheaps hsound.wf hgrew.table_id hgrew.len
    have hlog : e'.wal.Logged fl pend := by
      rw [hgrew.wal]
      exact h.logged
    have hquiet : e'.wal.Quiet := by
      rw [hgrew.wal]
      exact h.quiet
    exact ⟨fl, pend, hsound.tracks, fun t => (hheaps' t).1, fun t => (hheaps' t).2, hlog, hquiet,
      h.history, h.header, h.tx, h.pending⟩

/-- **A pool call.** -/
theorem on_pool_inv {α : Type} {x : PoolM α}
    (hx : wp x (fun _ p => Tracks p ∅ (changes (fl ++ pend)) ∧ p.disk.len = s.pool.disk.len)
      (fun _ p => Tracks p ∅ (changes (fl ++ pend)) ∧ p.disk.len = s.pool.disk.len) s.pool) :
    (s.on_pool x).Inv fl pend := by
  obtain ⟨ht, hlen⟩ := after_of_wp (P := fun p : BufferPool =>
    Tracks p ∅ (changes (fl ++ pend)) ∧ p.disk.len = s.pool.disk.len) hx
  refine { h with tracks := ht, heaps := fun t => ?_ }
  show (s.heaps t).Wf (after x s.pool).disk.len
  rw [hlen]
  exact h.heaps t

/-- **A transaction call.** -/
theorem on_tx_inv {c : TransactionManager.Call}
    (hc : wp c.run (fun _ => TxKeeps fl pend) (fun _ => TxKeeps fl pend) (s.tx, s.wal)) :
    ∃ fl' pend', (s.on_tx c.run).Inv fl' pend' := by
  obtain ⟨fl', pend', hlog, hquiet, hsplit, hpend⟩ := after_of_wp (P := TxKeeps fl pend) hc
  have hstep : TransactionManager.Step (s.tx, s.wal) (after c.run (s.tx, s.wal)) := ⟨c, rfl⟩
  have htx := TransactionManager.step_wf hstep h.tx
  have hsame : changes (fl' ++ pend') = changes (fl ++ pend)
      ∧ (fl' ++ pend').filterMap event_of = (fl ++ pend).filterMap event_of := by
    rcases hsplit with heq | ⟨r, hr, heq⟩
    · rw [heq]
      exact ⟨rfl, rfl⟩
    · rw [heq, changes_concat_none hr, filterMap_append, filterMap_cons]
      simp [event_of, hr]
  refine ⟨fl', pend', ?_, h.heaps, h.table_id, hlog, hquiet, ?_, ?_, htx, hpend⟩
  · rw [hsame.1]
    exact h.tracks
  · rw [hsame.2]
    exact h.history
  · rw [hsame.1]
    exact h.header

/-- Nothing was written, and no transaction became committed. -/
theorem Inv.tx_same {st : TransactionManager × WalManager} (hwal : st.2 = s.wal)
    (htx : st.1.committed = s.tx.committed) : TxKeeps fl pend st := by
  refine ⟨fl, pend, ?_, ?_, .inl rfl, ?_⟩
  · rw [hwal]
    exact h.logged
  · rw [hwal]
    exact h.quiet
  · rw [htx]
    exact h.pending

theorem commit_inv (xid : Xid) {timestamp : ℕ} (hts : timestamp < 256 ^ 8)
    (hroom : HeapFile.LogRoom s.wal 42) :
    ∃ fl' pend', (s.on_tx (TransactionManager.Call.run (.commit xid timestamp))).Inv fl' pend' := by
  refine on_tx_inv h (wp_mono (wp_and (TransactionManager.commit_spec xid timestamp)
    (TransactionManager.commit_logged h.logged h.quiet xid hts)) ?_ ?_)
  · -- everything is flushed
    rintro - st ⟨-, hquiet, hlog⟩
    refine ⟨_, [], hlog, hquiet, .inr ⟨⟨s.wal.next_lsn, s.wal.prev_lsn, xid, .XactCommit timestamp⟩,
      rfl, ?_⟩, nofun⟩
    rw [append_nil, append_assoc]
  · rintro - st ⟨htx, ⟨hwal, -⟩ | ⟨-, hfull⟩⟩
    · obtain htx | ⟨-, htx⟩ := htx
      · exact h.tx_same hwal (by rw [htx])
      · exact h.tx_same hwal (by rw [htx]; rfl)
    · exact absurd hroom (not_le.mpr hfull)

theorem abort_inv (xid : Xid) {timestamp : ℕ} (hts : timestamp < 256 ^ 8)
    (hroom : HeapFile.LogRoom s.wal 42) :
    ∃ fl' pend', (s.on_tx (TransactionManager.Call.run (.abort xid timestamp))).Inv fl' pend' := by
  refine on_tx_inv h (wp_mono (wp_and (TransactionManager.abort_spec xid timestamp)
    (TransactionManager.abort_logged h.logged h.quiet xid hts)) ?_ ?_)
  · rintro - st ⟨⟨hact, htx⟩, hlogged⟩
    obtain ⟨fl', pend', hlog, hsplit, hpend⟩ := appended_split hlogged
    refine ⟨fl', pend', hlog, hlogged.1,
      .inr ⟨_, by exact (rfl : change_of (.XactAbort timestamp) = none), hsplit⟩, ?_⟩
    rw [htx]
    intro r hr
    rcases hpend r hr with hr | rfl
    · exact h.pending r hr
    · exact fun hin => h.tx.disjoint _ hin hact
  · rintro - st ⟨htx, ⟨hwal, -⟩ | ⟨-, hfull⟩⟩
    · exact h.tx_same hwal (by rw [htx])
    · exact absurd hroom (not_le.mpr hfull)

/-- **One call.** -/
theorem step_inv {call : StoreCall} (hc : s.Allowed call) :
    ∃ fl' pend', (s.step call).Inv fl' pend' := by
  have hsound : ∀ t, HeapFile.Sound ⟨s.heaps t, s.pool, s.wal⟩ ∅ (changes (fl ++ pend)) :=
    fun t => ⟨h.tracks, h.heaps t⟩
  cases call with
  | begin =>
    exact on_tx_inv (c := .begin) h (h.tx_same rfl rfl)
  | insert_tuple table_id xid tuple_data =>
    obtain ⟨hact, htab, hdisk, hroom⟩ := hc
    refine on_heap_inv h hact (wp_imp (HeapFile.insert_tuple_sound (hsound _) hdisk h.logged h.quiet
      (by rw [h.table_id]; exact htab) hroom) ?_)
    intro tid e' hch
    exact ⟨_, _, _, rfl, fun _ _ => rfl, hch⟩
  | delete_tuple table_id xid tid old_xmax =>
    obtain ⟨hact, htab, hpid, hmax, hroom⟩ := hc
    refine on_heap_inv h hact (wp_imp (HeapFile.delete_tuple_sound (hsound _) h.logged h.quiet
      (by rw [h.table_id]; exact htab) hpid hmax hroom) ?_)
    intro _ e' hch
    exact ⟨_, _, _, rfl, fun _ _ => rfl, hch⟩
  | get_tuple table_id tid =>
    obtain ⟨h0, hlt⟩ := (h.heaps table_id).range _ hc
    exact ⟨fl, pend, on_pool_inv h (read_at_tracks h.tracks h0 hlt _)⟩
  | commit xid timestamp => exact commit_inv h xid hc.1 hc.2
  | abort xid timestamp => exact abort_inv h xid hc.1 hc.2
  | flush_page page_id => exact ⟨fl, pend, on_pool_inv h (flush_page_tracks h.tracks)⟩
  | flush_all =>
    exact ⟨fl, pend, on_pool_inv h (wp_never (flush_all_tracks h.tracks) fun _ _ hx => hx)⟩

end

/-- **Every run.** -/
theorem run_inv {pool_size : ℕ} {crc32 : Crc32} {calls : List StoreCall}
    (hrun : Along step Allowed (start pool_size crc32) calls) :
    ∃ fl pend, (calls.foldl step (start pool_size crc32)).Inv fl pend :=
  hrun.invariant (P := fun s => ∃ fl pend, s.Inv fl pend) ⟨[], [], start_inv pool_size crc32⟩
    fun _ _ ⟨_, _, h⟩ hc => step_inv h hc

end Steps

/-! ## Recovery -/

section Crash

variable {s : Store} {fl pend log : List DecodedRecord} {q : PageId} {ch : Change}

theorem changes_on_seen (q : PageId) (log : List DecodedRecord) :
    changes_on q (log.map seen) = changes_on q log := by
  unfold changes_on
  rw [filterMap_map]
  rfl

theorem mem_changes : ch ∈ changes log q ↔ ∃ e ∈ log, change_of e.record = some (q, ch) := by
  unfold changes
  rw [mem_map]
  constructor
  · rintro ⟨⟨lsn, ch'⟩, hin, rfl⟩
    obtain ⟨e, he, -, hc⟩ := mem_changes_on.mp hin
    exact ⟨e, he, hc⟩
  · rintro ⟨e, he, hc⟩
    exact ⟨(e.lsn, ch), mem_changes_on.mpr ⟨e, he, rfl, hc⟩, rfl⟩

/-- A page that was never written back is not redoable. -/
theorem not_redoable_blank (lsn : Lsn) (ch : Change) : ¬ Redoable Page.blank lsn ch := by
  unfold Redoable
  exact id

/-- A database after redo: the pages the log names have all logged changes, and none that
was not made. -/
def Restored (s : Store) (fl pend : List DecodedRecord) (pool : BufferPool) : Prop :=
  ∃ a, pool.Stands ∅ a [] ∧ a.len = s.pool.disk.len ∧ Room a.pins a.size 1
    ∧ ∀ q, changes fl q ≠ [] → ∃ l, changes fl q <+: l ∧ l <+: changes (fl ++ pend) q
      ∧ (a.view q).Built l

variable {tid : TupleId}

theorem event_of_inserted {e : DecodedRecord} {xid : Xid} {tuple_data : List UInt8}
    (h : event_of e = some (.inserted xid tid tuple_data)) :
    e.xid = xid ∧ change_of e.record = some (tid.page_id, .insert tid.slot_id tuple_data) := by
  unfold event_of at h
  split at h
  · rename_i page_id slot_id data hch
    cases h
    exact ⟨rfl, hch⟩
  · cases h
  · cases h

theorem event_of_deleted {e : DecodedRecord} {xid : Xid} :
    event_of e = some (.deleted xid tid) ↔
      e.xid = xid ∧ change_of e.record = some (tid.page_id, .delete tid.slot_id) := by
  constructor
  · intro h
    unfold event_of at h
    split at h
    · cases h
    · rename_i page_id slot_id hch
      cases h
      exact ⟨rfl, hch⟩
    · cases h
  · rintro ⟨rfl, hch⟩
    unfold event_of
    rw [hch]

section

variable (h : s.Inv fl pend)
include h

theorem crashed_records : s.crashed_wal.records = (fl.map seen, none) :=
  WalManager.records_of_logged h.logged.reopened

/-- The log names user pages of the file only. -/
theorem Inv.named (hin : ch ∈ changes (fl ++ pend) q) :
    q ≠ 0 ∧ q < s.pool.disk.len := by
  constructor
  · rintro rfl
    rw [h.header] at hin
    exact absurd hin not_mem_nil
  · by_contra hge
    rw [h.tracks.fresh q (Nat.le_of_not_lt hge)] at hin
    exact absurd hin not_mem_nil

theorem Inv.flushed {ev : HeapEvent} (hev : ev ∈ s.history) :
    ∃ e ∈ fl ++ pend, event_of e = some ev ∧ (e.xid ∈ s.tx.committed → e ∈ fl) := by
  rw [h.history, mem_filterMap] at hev
  obtain ⟨e, he, heq⟩ := hev
  refine ⟨e, he, heq, fun hcommitted => ?_⟩
  exact (mem_append.mp he).resolve_right fun hp => h.pending e hp hcommitted

theorem Restored.read {pool : BufferPool} (hr : s.Restored fl pend pool)
    (hin : ch ∈ changes fl q) :
    ∃ l c p, ch ∈ l ∧ l <+: changes (fl ++ pend) q ∧ Contents.replay l Contents.empty = some c
      ∧ Page.Holds p c ∧ ∀ {α : Type} {op : Page → Except Fault α} {x : α}, op p = .ok x →
        ∃ pool', read_at q op pool = .ok x pool' := by
  obtain ⟨a, hst, hlen, hroom, hpages⟩ := hr
  obtain ⟨l, hfl, hl, c, hc, hp⟩ := hpages q (ne_nil_of_mem hin)
  have hall : ch ∈ changes (fl ++ pend) q := hl.subset (hfl.subset hin)
  obtain ⟨h0, hlt⟩ := h.named hall
  refine ⟨l, c, a.view q, hfl.subset hin, hl, hc, hp, fun hop => ?_⟩
  obtain ⟨y, pool', hrun, rfl, -⟩ := exists_ok_of_wp
    (read_at_rule hst h0 (by rw [hlen]; exact hlt) hroom hop)
  exact ⟨pool', hrun⟩

variable (hc : s.Recoverable)
include hc

/-- **At a crash** the invariant and the condition give what redo needs. -/
theorem Inv.replayable :
    ∃ es, Replayable s.pool.disk.pages s.pool.disk.len es (changes (fl ++ pend)) (fl.map seen) := by
  have hex : ∀ q, ∃ l, l <+: changes (fl ++ pend) q ∧ (q ≠ 0 → q < s.pool.disk.len →
      s.pool.disk.pages q ≠ Page.blank → (s.pool.disk.pages q).Built l) := by
    intro q
    by_cases hq : q ≠ 0 ∧ q < s.pool.disk.len
    · rcases h.tracks.disk q hq.1 hq.2 with hblank | ⟨l, hl, hb⟩
      · exact ⟨[], nil_prefix, fun _ _ hne => absurd hblank hne⟩
      · exact ⟨l, hl, fun _ _ _ => hb⟩
    · exact ⟨[], nil_prefix, fun h0 hlt _ => absurd ⟨h0, hlt⟩ hq⟩
  choose es hes using hex
  have hlaid := ((laid_append s.wal.crc32).mp h.logged.laid).1
  refine ⟨es, ?_, ?_, ?_, ?_, fun q => (hes q).1, ?_, ?_⟩
  · rw [pairwise_map]
    exact hlaid.pairwise
  · intro e he
    obtain ⟨e0, he0, rfl⟩ := mem_map.mp he
    exact h.logged.reopened.lsn_lt e0 he0
  · intro e he
    obtain ⟨e0, he0, rfl⟩ := mem_map.mp he
    exact (h.logged.storable e0 (mem_append_left _ he0)).1
  · intro e he pid ch hch
    obtain ⟨e0, he0, rfl⟩ := mem_map.mp he
    have hr : Redoable (s.pool.disk.pages pid) e0.lsn ch := by
      have hrec := hc (seen e0) (by rw [crashed_records h]; exact he)
      rwa [RedoableOn, hch] at hrec
    obtain ⟨h0, hlt⟩ := h.named (mem_changes.mpr ⟨e0, mem_append_left _ he0, hch⟩)
    refine ⟨h0, hlt, (hes pid).2 h0 hlt fun hblank => ?_, hr⟩
    rw [hblank] at hr
    exact not_redoable_blank _ _ hr
  · intro q
    rw [changes_on_seen]
    unfold changes
    rw [changes_on_append, map_append]
    exact prefix_append _ _
  · intro q
    by_cases hq : q ≠ 0 ∧ q < s.pool.disk.len
    · obtain ⟨c, hc, -⟩ := h.tracks.view q hq.1 hq.2
      exact ⟨c, hc⟩
    · have hnil : changes (fl ++ pend) q = [] := by
        rw [eq_nil_iff_forall_not_mem]
        exact fun ch hin => hq (h.named hin)
      rw [hnil]
      exact ⟨Contents.empty, rfl⟩

/-- **Redo after a crash.** -/
theorem Inv.redo_restores {pool_size : ℕ} {disk : DiskManager} (hsize : 0 < pool_size)
    (hd : disk.Faithful) (hpages : disk.pages = s.pool.disk.pages)
    (hlen : disk.len = s.pool.disk.len) :
    wp (redo_recover s.crashed_wal) (fun _ pool => s.Restored fl pend pool) never
      (BufferPool.new pool_size disk) := by
  obtain ⟨es, hR⟩ := h.replayable hc
  have hst := (new_coherent hd pool_size).stands
  have hroom := room_new hsize disk
  unfold redo_recover
  rw [crashed_records h]
  refine wp_then (redo_all_rule hR hst hlen hroom hpages) ?_
  rintro - pool ⟨view', hst', hdone⟩
  refine ⟨_, hst', hlen, hroom, fun q hq => ?_⟩
  have hne : changes_on q (fl.map seen) ≠ [] := by
    rw [changes_on_seen]
    exact fun hnil => hq (by rw [changes, hnil]; rfl)
  have hbuilt := (hdone q hne).built
  refine ⟨_, ?_, take_prefix _ _, hbuilt⟩
  -- the flushed changes come first
  have hpre := hR.logged q
  rw [changes_on_seen] at hpre ⊢
  have hlen : (changes fl q).length = (changes_on q fl).length := length_map _
  rw [prefix_take_iff]
  exact ⟨hpre, hlen.le.trans (le_max_left _ _)⟩

end

/-- **Durability.** In a run that crashes while every flushed heap record is redoable on the
disk, redo returns, every tuple of a committed transaction that was not deleted is read back
where it was inserted, and the slots that committed transactions deleted are unused. -/
theorem redo_recover_durable {pool_size : ℕ} {crc32 : Crc32} {calls : List StoreCall}
    (hrun : Along step Allowed (start pool_size crc32) calls)
    (hcrash : (calls.foldl step (start pool_size crc32)).Recoverable) :
    (calls.foldl step (start pool_size crc32)).Durable := by
  obtain ⟨fl, pend, h⟩ := run_inv hrun
  intro pool_size' disk hsize hd hpages hlen
  have hredo := h.redo_restores hcrash hsize hd hpages hlen
  refine ⟨?_, ?_, ?_⟩
  · obtain ⟨u, pool, hok, -⟩ := exists_ok_of_wp hredo
    exact ⟨pool, hok⟩
  · intro pool hok xid tid tuple_data hev hcommitted hno
    obtain ⟨e, -, heq, hfl⟩ := h.flushed hev
    obtain ⟨rfl, hch⟩ := event_of_inserted heq
    have hin := mem_changes.mpr ⟨e, hfl hcommitted, hch⟩
    obtain ⟨l, c, p, hmem, hl, hc, hp, hread⟩ := Restored.read h (wp_ok hredo hok) hin
    -- a deletion of the slot would be in the history
    have hdel : Change.delete tid.slot_id ∉ l := by
      intro hin'
      obtain ⟨e', he', hch'⟩ := mem_changes.mp (hl.subset hin')
      refine hno e'.xid ?_
      rw [h.history]
      exact mem_filterMap.mpr ⟨e', he', event_of_deleted.mpr ⟨rfl, hch'⟩⟩
    exact hread (Page.get_tuple_some hp.1 (Contents.replay_inserted hc hmem hdel))
  · intro pool hok xid tid hev hcommitted
    obtain ⟨e, -, heq, hfl⟩ := h.flushed hev
    obtain ⟨rfl, hch⟩ := event_of_deleted.mp heq
    have hin := mem_changes.mpr ⟨e, hfl hcommitted, hch⟩
    obtain ⟨l, c, p, hmem, -, hc, hp, hread⟩ := Restored.read h (wp_ok hredo hok) hin
    refine hread ?_
    rw [Page.is_slot_used_eq hp.1, Contents.replay_deleted hc hmem]
    rfl

/-- Page 1 is written to disk with its first tuple. The tuple after it and the deletion are
in the log only, and redo makes both. -/
theorem redo_recover_durable_partly_written :
    let calls : List StoreCall := [.begin, .insert_tuple 1 1 [7], .flush_page 1,
      .insert_tuple 1 1 [8], .delete_tuple 1 1 ⟨1, 0⟩ 0, .commit 1 0]
    Along step Allowed (start 2 fun _ => 0) calls
      ∧ (calls.foldl step (start 2 fun _ => 0)).history
        = [.inserted 1 ⟨1, 0⟩ [7], .inserted 1 ⟨1, 1⟩ [8], .deleted 1 ⟨1, 0⟩]
      ∧ (calls.foldl step (start 2 fun _ => 0)).Durable :=
  ⟨by decide +kernel, by decide +kernel, redo_recover_durable (by decide +kernel) (by decide +kernel)⟩

/-- Whether redo returns and reading the tuple afterwards panics. -/
def reads_panic (s : Store) (tid : TupleId) : Bool :=
  match redo_recover s.crashed_wal (BufferPool.new 2 s.pool.disk) with
  | .ok _ pool =>
    match HeapFile.get_tuple tid pool with
    | .error .panic _ => true
    | _ => false
  | .error _ _ => false

theorem reads_panic_spec (h : s.reads_panic tid = true) :
    ∃ pool, redo_recover s.crashed_wal (BufferPool.new 2 s.pool.disk) = .ok () pool
      ∧ ∃ pool', HeapFile.get_tuple tid pool = .error .panic pool' := by
  unfold reads_panic at h
  split at h
  · rename_i pool hredo
    refine ⟨pool, hredo, ?_⟩
    split at h
    · rename_i pool' hget
      exact ⟨pool', hget⟩
    · cases h
  · cases h

theorem not_durable_of_panic (h : s.Inv fl pend) (xid : Xid) (tid : TupleId)
    (tuple_data : List UInt8) (hist : s.history = [.inserted xid tid tuple_data])
    (hcommitted : xid ∈ s.tx.committed) (hp : s.reads_panic tid = true) : ¬ s.Durable := by
  intro hdurable
  obtain ⟨pool, hredo, pool', hpanic⟩ := reads_panic_spec hp
  obtain ⟨pool'', hget⟩ := (hdurable 2 _ (by decide) h.tracks.coherent.disk rfl rfl).readable pool
    hredo xid tid tuple_data (by rw [hist]; exact mem_cons_self) hcommitted
    (by rw [hist]; simp)
  simp [hpanic] at hget

/-- **A committed tuple is lost.** One transaction inserts one tuple and commits. The page
is still blank on disk, and the LSN of the record is 0, the LSN of a blank page: redo
passes over it, and reading the tuple panics. -/
theorem committed_insert_lost : ∃ calls, Along step Allowed (start 2 fun _ => 0) calls
      ∧ (calls.foldl step (start 2 fun _ => 0)).history = [.inserted 1 ⟨1, 0⟩ [7]]
      ∧ 1 ∈ (calls.foldl step (start 2 fun _ => 0)).tx.committed
      ∧ (calls.foldl step (start 2 fun _ => 0)).reads_panic ⟨1, 0⟩ = true
      ∧ ¬ (calls.foldl step (start 2 fun _ => 0)).Durable := by
  have hrun : Along step Allowed (start 2 fun _ => 0) [.begin, .insert_tuple 1 1 [7], .commit 1 0] := by
    decide +kernel
  obtain ⟨fl, pend, h⟩ := run_inv hrun
  refine ⟨_, hrun, by decide +kernel, by decide +kernel, by decide +kernel, ?_⟩
  exact not_durable_of_panic h 1 ⟨1, 0⟩ [7] (by decide +kernel) (by decide +kernel)
    (by decide +kernel)

end Crash

end Store

end Oigrap.Storage
