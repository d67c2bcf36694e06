/-
Crash recovery: `redo_record`, `redo_recover` and `undo_recover` of
`crates/storage/src/mvcc.rs`, and the sequence `DbHandle::open` runs
(`crates/server/src/session.rs`).

Redo replays heap records onto pages whose LSN is behind; undo looks for transactions
without an end record and marks them aborted. Nothing rebuilds the committed set or the
id counter on this path, so a restarted manager knows no committed transaction and hands
out ids from 1 again. The second half says exactly for which logs that does no harm.
-/
import Oigrap.Storage.Mvcc
import Oigrap.Storage.PoolSpec

namespace Oigrap.Storage

open List hiding rec
open TransactionManager (force_abort is_committed is_visible new steps_settled)
open ByteMem Wp BufferPool

/-! ## Redo -/

/-- `let _ = page.insert_tuple(data)`: an `Err` is dropped, a panic is not. -/
def insert_ignoring_err (data : List UInt8) (p : Page) : Except Fault (Unit × Page) :=
  match p.insert_tuple data with
  | .ok (_, p') => .ok ((), p')
  | .error (.err _) => .ok ((), p)
  | .error e => .error e

/-- The insert half of `redo_record`: on a page that is behind, a tuple whose slot is not
used is inserted again, at the next free slot. -/
def redo_insert (page_id : PageId) (slot_id : ℕ) (tuple_data : List UInt8) (lsn : Lsn) :
    PoolM Unit := do
  let frame_id ← fetch_page page_id
  let page_lsn ← page frame_id (fun p => .ok p.lsn)
  if page_lsn < lsn then do
    let used ← page frame_id (fun p => p.is_slot_used slot_id)
    if used then unpin_page page_id false
    else do
      page_mut frame_id (insert_ignoring_err tuple_data)
      page_mut frame_id (fun p => .ok ((), p.set_lsn lsn))
      unpin_page page_id true
  else unpin_page page_id false

/-- The delete half of `redo_record`. -/
def redo_delete (page_id : PageId) (slot_id : ℕ) (lsn : Lsn) : PoolM Unit := do
  let frame_id ← fetch_page page_id
  let page_lsn ← page frame_id (fun p => .ok p.lsn)
  if page_lsn < lsn then do
    let used ← page frame_id (fun p => p.is_slot_used slot_id)
    if used then do
      page_mut frame_id (fun p => (fun p' => ((), p')) <$> p.delete_tuple slot_id)
      page_mut frame_id (fun p => .ok ((), p.set_lsn lsn))
      unpin_page page_id true
    else unpin_page page_id false
  else unpin_page page_id false

def redo_record (rec : DecodedRecord) : PoolM Unit :=
  match rec.record with
  | .HeapInsert _ page_id slot_id tuple_data => redo_insert page_id slot_id tuple_data rec.lsn
  | .HeapDelete _ page_id slot_id _ => redo_delete page_id slot_id rec.lsn
  | .HeapUpdate _ old_page old_slot new_page new_slot _ new_tuple => do
    redo_delete old_page old_slot rec.lsn
    redo_insert new_page new_slot new_tuple rec.lsn
  | _ => pure ()

def redo_all : List DecodedRecord → PoolM Unit
  | [] => pure ()
  | rec :: recs => do
    redo_record rec
    redo_all recs

/-- `redo_recover`: the records in order, until the scan fails or ends. -/
def redo_recover (wal : WalManager) : PoolM Unit := do
  redo_all wal.records.1
  match wal.records.2 with
  | none => pure ()
  | some e => throw e

theorem redo_recover_eq {wal : WalManager} {log : List DecodedRecord}
    (h : wal.records = (log, none)) : redo_recover wal = redo_all log := by
  unfold redo_recover
  rw [h]
  exact bind_pure _

/-! ## Undo -/

def is_commit_of (x : Xid) (e : DecodedRecord) : Bool :=
  match e.record with
  | .XactCommit _ => e.xid = x
  | _ => false

def is_abort_of (x : Xid) (e : DecodedRecord) : Bool :=
  match e.record with
  | .XactAbort _ => e.xid = x
  | _ => false

/-- The ids `undo_recover` aborts: those in the log, 0 excepted, without an end record.
The source visits them in hash order, which does not matter. -/
def unfinished (recs : List DecodedRecord) : List Xid :=
  ((recs.map DecodedRecord.xid).filter (fun x => x ≠ INVALID_XID)).dedup.filter fun x =>
    !(recs.any (is_commit_of x)) && !(recs.any (is_abort_of x))

def undo_recover (wal : WalManager) (tx : TransactionManager) :
    Except Fault TransactionManager :=
  match wal.records with
  | (_, some e) => .error e
  | (recs, none) => .ok ((unfinished recs).foldl TransactionManager.force_abort tx)

/-- The recovery sequence of `DbHandle::open` on the bytes of an existing log: flush, redo,
then undo on a fresh transaction manager. -/
def open_recover (file : List UInt8) (io : ℕ → Bool) (crc32 : Crc32) :
    PoolM (WalManager × TransactionManager) := do
  let wal ← lift (match WalManager.flush (WalManager.open file io crc32) with
    | .ok _ w => .ok w
    | .error e _ => .error e)
  redo_recover wal
  let tx ← lift (undo_recover wal TransactionManager.new)
  return (wal, tx)

/-! ## Restart and the log -/

/-- The log says that `x` committed: it has an `XactCommit` for `x` with no `XactAbort`
for `x` after it. -/
def CommittedIn (recs : List DecodedRecord) (x : Xid) : Prop :=
  ∃ pre e post, recs = pre ++ e :: post ∧ is_commit_of x e = true
    ∧ ∀ e' ∈ post, is_abort_of x e' = false

/-- What a restarted manager owes the log: the committed transactions are those of the log,
their tuples are visible to a new snapshot, and an id of the log is never issued again. -/
structure Agrees (recs : List DecodedRecord) (tx : TransactionManager) : Prop where
  status : ∀ x, tx.is_committed x = true ↔ CommittedIn recs x
  visible : ∀ h : TupleHeader, h.xmax = INVALID_XID →
    (tx.is_visible h tx.snapshot = true ↔ tx.is_committed h.xmin = true)
  fresh : ∀ w s, TransactionManager.Steps (tx, w) s → ∀ e ∈ recs, s.1.begin.1 ≠ e.xid

/-- Marking transactions aborted commits none and issues no id. -/
theorem foldl_force_abort (xs : List Xid) (tx : TransactionManager) :
    (xs.foldl force_abort tx).committed = tx.committed
      ∧ (xs.foldl force_abort tx).next_xid = tx.next_xid := by
  induction xs generalizing tx with
  | nil => exact ⟨rfl, rfl⟩
  | cons x xs ih =>
    rw [foldl_cons]
    exact ih (tx.force_abort x)

variable {tx : TransactionManager}

/-- `undo_recover` on a fresh manager: nothing is committed, and ids start at 1. -/
theorem undo_recover_new {wal : WalManager} (h : undo_recover wal new = .ok tx) :
    tx.committed = ∅ ∧ tx.next_xid = 1 := by
  unfold undo_recover at h
  split at h
  · cases h
  · cases h
    exact foldl_force_abort _ _

theorem steps_to_next (tx : TransactionManager) (w : WalManager) (n : ℕ) :
    ∃ s, TransactionManager.Steps (tx, w) s ∧ s.1.next_xid = tx.next_xid + n := by
  induction n with
  | zero => exact ⟨(tx, w), Relation.ReflTransGen.refl, rfl⟩
  | succ n ih =>
    obtain ⟨s, hs, hn⟩ := ih
    refine ⟨(s.1.begin.2, s.2), hs.tail ⟨.begin, rfl⟩, ?_⟩
    show s.1.next_xid + 1 = _
    rw [hn, add_assoc]

/-- Counting starts at 1, so the ids of the log are never issued again only if they are
all 0. -/
theorem fresh_iff (hn : tx.next_xid = 1) (recs : List DecodedRecord) :
    (∀ w s, TransactionManager.Steps (tx, w) s → ∀ e ∈ recs, s.1.begin.1 ≠ e.xid)
      ↔ ∀ e ∈ recs, e.xid = INVALID_XID := by
  constructor
  · intro h e he
    by_contra hne
    obtain ⟨s, hs, hnext⟩ := steps_to_next tx WalManager.blank (e.xid - 1)
    refine h _ s hs e he ?_
    show s.1.next_xid = e.xid
    rw [hnext, hn]
    lia
  · intro h w s hs e he heq
    have hle := (steps_settled hs).next
    rw [h e he] at heq
    have hbegin : s.1.next_xid = 0 := heq
    rw [hbegin, hn] at hle
    exact absurd hle (by decide)

theorem not_visible_of_empty (h : tx.committed = ∅) (hd : TupleHeader) (snap : Snapshot) :
    tx.is_visible hd snap = false := by
  have hno : ∀ x, tx.is_committed x = false := by
    intro x
    rw [is_committed, h]
    exact decide_eq_false (Finset.notMem_empty x)
  have hbefore : tx.is_committed_before hd.xmin snap = false := by
    unfold TransactionManager.is_committed_before
    rw [hno]
    simp
  unfold is_visible
  rw [if_pos hbefore]

theorem CommittedIn.exists_mem {recs : List DecodedRecord} {x : Xid} (h : CommittedIn recs x) :
    ∃ e ∈ recs, is_commit_of x e = true ∧ e.xid = x := by
  obtain ⟨pre, e, post, rfl, he, -⟩ := h
  refine ⟨e, mem_append_right _ mem_cons_self, he, ?_⟩
  unfold is_commit_of at he
  split at he
  · exact of_decide_eq_true he
  · cases he

theorem open_recover_spec (file : List UInt8) (io : ℕ → Bool) (crc32 : Crc32) (pool : BufferPool) :
    wp (open_recover file io crc32)
      (fun r _ => undo_recover r.1 new = .ok r.2) (fun _ _ => True) pool := by
  refine wp_seq (wp_true _) (fun _ _ _ => trivial) ?_
  rintro wal s1 -
  refine wp_seq (wp_true _) (fun _ _ _ => trivial) ?_
  rintro - s2 -
  rw [wp_bind]
  cases hundo : undo_recover wal new with
  | ok tx => exact hundo
  | error e => trivial

/-- **Restart and the log.** After the recovery sequence has returned, the manager agrees
with the log exactly if every record of the log carries the invalid id 0 and none of them
commits it for good: the restart path restores neither a committed transaction nor the
id counter. -/
theorem open_recover_agrees_iff {file : List UInt8} {io : ℕ → Bool} {crc32 : Crc32}
    {pool pool' : BufferPool} {wal : WalManager} {tx : TransactionManager}
    (hrun : open_recover file io crc32 pool = .ok (wal, tx) pool') : Agrees wal.records.1 tx ↔
      (∀ e ∈ wal.records.1, e.xid = INVALID_XID) ∧ ¬ CommittedIn wal.records.1 INVALID_XID := by
  obtain ⟨hempty, hnext⟩ := undo_recover_new (wp_ok (open_recover_spec file io crc32 pool) hrun)
  have hno : ∀ x, ¬ tx.is_committed x = true := by
    intro x hx
    rw [TransactionManager.is_committed, hempty] at hx
    exact Finset.notMem_empty x (of_decide_eq_true hx)
  constructor
  · intro h
    exact ⟨(fresh_iff hnext _).mp h.fresh, fun hc => hno _ ((h.status _).mpr hc)⟩
  · rintro ⟨hzero, hcommit⟩
    refine ⟨?_, ?_, (fresh_iff hnext _).mpr hzero⟩
    · intro x
      refine ⟨fun hx => absurd hx (hno x), fun hc => ?_⟩
      -- a committed id occurs in the log, and only 0 does
      obtain ⟨e, he, -, hx⟩ := hc.exists_mem
      rw [← hx, hzero e he] at hc
      exact absurd hc hcommit
    · intro h _
      rw [not_visible_of_empty hempty]
      exact ⟨fun hh => (Bool.false_ne_true hh).elim, fun hh => absurd hh (hno _)⟩

/-- Recovery from a log of transaction records only: no page is touched. -/
theorem open_recover_of_laid (crc32 : Crc32) (es : List DecodedRecord) (hl : Laid 0 es)
    (hs : ∀ e ∈ es, Storable e.record) (hsize : (encode_all crc32 es).length ≤ MAX_FILE_SIZE)
    (hredo : ∀ e ∈ es, redo_record (seen e) = pure ()) (pool : BufferPool) :
    let wal := WalManager.open (encode_all crc32 es) (fun _ => true) crc32
    wal.records = (es.map seen, none) ∧ open_recover (encode_all crc32 es) (fun _ => true) crc32 pool
      = .ok (wal, (unfinished (es.map seen)).foldl force_abort new) pool := by
  intro wal
  have hlog := WalManager.open_logged crc32 (fun _ => rfl) hl hs hsize
  have hrec := WalManager.records_of_logged hlog
  refine ⟨hrec, ?_⟩
  have hall : ∀ l : List DecodedRecord, (∀ e ∈ l, redo_record (seen e) = pure ()) →
      redo_all (l.map seen) = pure () := by
    intro l
    induction l with
    | nil => exact fun _ => rfl
    | cons e l ih =>
      intro h
      rw [map_cons, redo_all, h e mem_cons_self, ih (fun e' he' => h e' (mem_cons_of_mem _ he'))]
      rfl
  have hredo' : redo_recover wal = pure () := by
    rw [redo_recover_eq hrec, hall es hredo]
  have hundo : undo_recover wal new = .ok ((unfinished (es.map seen)).foldl force_abort new) := by
    unfold undo_recover
    rw [hrec]
  -- an opened log has nothing to flush
  show (redo_recover wal >>= fun _ => lift (undo_recover wal new) >>= fun tx => pure (wal, tx)) pool
    = _
  rw [hredo', hundo]
  rfl

/-- A log whose only record is a checkpoint, written under the invalid id, is agreed with. -/
theorem open_recover_agrees_checkpoint :
    ∃ wal tx pool', open_recover (encode_all (fun _ => 0) [⟨0, 0, 0, .Checkpoint 0 1 1 []⟩]) (fun _ => true)
        (fun _ => 0) (BufferPool.new 1 ⟨fun _ => Page.blank, 1, 1, fun _ => true, 0⟩) = .ok (wal, tx) pool'
      ∧ Agrees wal.records.1 tx := by
  obtain ⟨hrec, hrun⟩ := open_recover_of_laid (fun _ => 0) [⟨0, 0, 0, .Checkpoint 0 1 1 []⟩]
    ⟨rfl, trivial⟩ (by simpa [Storable, WalRecord.Readable] using by decide) (by decide)
    (by simp [redo_record, seen]) (BufferPool.new 1 ⟨fun _ => Page.blank, 1, 1, fun _ => true, 0⟩)
  refine ⟨_, _, _, hrun, (open_recover_agrees_iff hrun).mpr ?_⟩
  rw [hrec]
  refine ⟨by simp [seen], fun hc => ?_⟩
  obtain ⟨e, he, hcommit, -⟩ := hc.exists_mem
  rw [mem_singleton.mp he] at hcommit
  cases hcommit

/-- **A restart forgets commits.** The log holds one commit, of transaction 1. After
recovery the manager does not know it, and the next `begin` returns id 1 again. -/
theorem open_recover_forgets_commit :
    ∃ wal tx pool', open_recover (encode_all (fun _ => 0) [⟨0, 0, 1, .XactCommit 0⟩]) (fun _ => true)
        (fun _ => 0) (BufferPool.new 1 ⟨fun _ => Page.blank, 1, 1, fun _ => true, 0⟩) = .ok (wal, tx) pool'
      ∧ wal.records = ([⟨0, 0, 1, .XactCommit 0⟩], none) ∧ CommittedIn wal.records.1 1
      ∧ tx.is_committed 1 = false ∧ tx.begin.1 = 1 ∧ ¬ Agrees wal.records.1 tx := by
  obtain ⟨hrec, hrun⟩ := open_recover_of_laid (fun _ => 0) [⟨0, 0, 1, .XactCommit 0⟩]
    ⟨rfl, trivial⟩ (by simpa [Storable, WalRecord.Readable] using by decide) (by decide)
    (by simp [redo_record, seen]) (BufferPool.new 1 ⟨fun _ => Page.blank, 1, 1, fun _ => true, 0⟩)
  have hcommitted : CommittedIn [⟨0, 0, 1, .XactCommit 0⟩] 1 :=
    ⟨[], _, [], rfl, rfl, fun _ h => absurd h not_mem_nil⟩
  refine ⟨_, _, _, hrun, hrec, ?_, rfl, rfl, ?_⟩
  · rwa [hrec]
  · rw [hrec]
    intro h
    exact absurd ((h.status 1).mpr hcommitted) (by decide)

end Oigrap.Storage
