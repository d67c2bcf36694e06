/-
`crates/storage/src/mvcc.rs`: transactions, snapshots and tuple visibility.

A transaction manager hands out transaction ids and keeps the sets of active, committed
and aborted ones. Visibility of a tuple in a snapshot is decided against the *live*
committed set, not against a copy taken with the snapshot, so that snapshots are stable is
not immediate: it rests on every id outside the snapshot's active list already having
its final status. That is the invariant `Wf` with the monotonicity `Settled` below, and
snapshot isolation is their consequence.

The serialisability check compares the read and write sets of the committing transaction
with those still stored. They are dropped when a transaction ends, so the check cannot
see a conflict with a transaction that committed before the conflict was complete. The
last section makes that precise: it is the only way two concurrent committed
transactions can each have read what the other wrote.

Transaction ids are unbounded here. The source's counter is a `u64`, but every id ever
issued stays in one of the three in-memory sets, so it cannot wrap around.
-/
import Mathlib.Data.Finset.Max
import Mathlib.Data.List.AList
import Mathlib.Logic.Relation
import Oigrap.Storage.Wal

namespace Oigrap.Storage

open ByteMem Wp List WalManager
open Finset (mem_insert mem_inter mem_of_mem_erase ne_of_mem_erase notMem_empty)

abbrev INVALID_XID : Xid := 0

abbrev TUPLE_HEADER_SIZE : ℕ := 24
abbrev HEAP_XMIN_COMMITTED : ℕ := 0x0100

/-! ## Snapshots and tuple headers -/

/-- `Snapshot`. The list of active ids is only ever asked for membership. -/
structure Snapshot where
  xmin : Xid
  xmax : Xid
  active : Finset Xid
  deriving DecidableEq

structure TupleHeader where
  xmin : Xid
  xmax : Xid
  cid : ℕ
  infomask : ℕ
  infomask2 : ℕ
  deriving DecidableEq, Repr

namespace TupleHeader

def new_insert (xid : Xid) (cid : ℕ) : TupleHeader := ⟨xid, INVALID_XID, cid, HEAP_XMIN_COMMITTED, 0⟩

def encode (h : TupleHeader) : List UInt8 :=
  le_bytes 8 h.xmin ++ (le_bytes 8 h.xmax ++ (le_bytes 4 h.cid
    ++ (le_bytes 2 h.infomask ++ le_bytes 2 h.infomask2)))

def decode (data : List UInt8) : Except Fault TupleHeader :=
  if data.length < TUPLE_HEADER_SIZE then
    throw (.err (.Corruption s!"tuple too short for header: {data.length} bytes"))
  else do
    let xmin ← le_at 8 data 0
    let xmax ← le_at 8 data 8
    let cid ← le_at 4 data 16
    let infomask ← le_at 2 data 20
    let infomask2 ← le_at 2 data 22
    return ⟨xmin, xmax, cid, infomask, infomask2⟩

end TupleHeader

/-! ## The transaction manager -/

/-- The name of a tuple in a read or write set: table, page, slot. -/
abbrev Touched := ℕ × PageId × ℕ

structure TransactionManager where
  next_xid : Xid
  committed : Finset Xid
  aborted : Finset Xid
  active : Finset Xid
  read_sets : AList (fun _ : Xid => Finset Touched)
  write_sets : AList (fun _ : Xid => Finset Touched)

namespace TransactionManager

/-- `TransactionManager::new`: id 0 is invalid. -/
def new : TransactionManager := ⟨1, ∅, ∅, ∅, ∅, ∅⟩

variable (tm : TransactionManager)

def begin : Xid × TransactionManager :=
  (tm.next_xid, { tm with next_xid := tm.next_xid + 1, active := insert tm.next_xid tm.active })

/-- `entry(xid).or_default().insert(t)`. -/
def add_to (sets : AList (fun _ : Xid => Finset Touched)) (xid : Xid) (t : Touched) :
    AList (fun _ : Xid => Finset Touched) :=
  sets.insert xid (insert t ((sets.lookup xid).getD ∅))

variable (xid : Xid)

def record_read (t : Touched) : TransactionManager :=
  { tm with read_sets := add_to tm.read_sets xid t }

def record_write (t : Touched) : TransactionManager :=
  { tm with write_sets := add_to tm.write_sets xid t }

/-- `check_ssi_conflict`: some other transaction with a stored write set wrote what `xid`
read, and read what `xid` wrote. -/
def check_ssi_conflict : Bool :=
  match tm.read_sets.lookup xid, tm.write_sets.lookup xid with
  | some my_reads, some my_writes =>
    tm.write_sets.entries.any fun e =>
      decide (e.1 ≠ xid) && decide (my_reads ∩ e.2).Nonempty &&
        match tm.read_sets.lookup e.1 with
        | some other_reads => decide (my_writes ∩ other_reads).Nonempty
        | none => false
  | _, _ => false

/-- `force_abort`; also the bookkeeping of `abort` and of a refused commit. -/
def force_abort : TransactionManager :=
  { tm with
    active := tm.active.erase xid
    aborted := insert xid tm.aborted
    read_sets := tm.read_sets.erase xid
    write_sets := tm.write_sets.erase xid }

/-- The bookkeeping of a successful commit. -/
def mark_committed : TransactionManager :=
  { tm with
    active := tm.active.erase xid
    committed := insert xid tm.committed
    read_sets := tm.read_sets.erase xid
    write_sets := tm.write_sets.erase xid }

/-- A program on the transaction manager and the log. -/
abbrev TxM := EStateM Fault (TransactionManager × WalManager)

def on_wal {α : Type} (x : EStateM Fault WalManager α) : TxM α :=
  zoom Prod.snd (fun w s => (s.1, w)) x

/-- `commit`: the check, then the commit record and a flush, then the bookkeeping. -/
def commit (xid : Xid) (timestamp : ℕ) : TxM Unit := do
  let s ← get
  if xid ∉ s.1.active then
    throw (.err (.Corruption s!"commit called for non-active transaction {xid}"))
  else if s.1.check_ssi_conflict xid then do
    set (s.1.force_abort xid, s.2)
    throw (.err (.Corruption
      s!"serialization failure: rw-anti-dependency cycle detected for xid {xid}"))
  else do
    let _ ← on_wal (WalManager.write_record xid (.XactCommit timestamp))
    let _ ← on_wal WalManager.flush
    modify fun s => (s.1.mark_committed xid, s.2)

/-- `abort`: the abort record is buffered, not flushed. -/
def abort (xid : Xid) (timestamp : ℕ) : TxM Unit := do
  let s ← get
  if xid ∉ s.1.active then
    throw (.err (.Corruption s!"abort called for non-active transaction {xid}"))
  else do
    let _ ← on_wal (WalManager.write_record xid (.XactAbort timestamp))
    modify fun s => (s.1.force_abort xid, s.2)

/-- `snapshot`: `xmin` is the smallest committed id. -/
def snapshot : Snapshot :=
  ⟨WithTop.untopD tm.next_xid tm.committed.min, tm.next_xid, tm.active⟩

def is_committed : Bool := xid ∈ tm.committed

def is_aborted : Bool := xid ∈ tm.aborted

def is_committed_before (snap : Snapshot) : Bool :=
  if xid = INVALID_XID then false
  else if xid ∈ snap.active then false
  else if xid < snap.xmin then tm.is_committed xid
  else if xid ≥ snap.xmax then false
  else tm.is_committed xid

def is_visible (header : TupleHeader) (snap : Snapshot) : Bool :=
  if tm.is_committed_before header.xmin snap = false then false
  else if header.xmax = INVALID_XID then true
  else !tm.is_committed_before header.xmax snap

/-! ## Runs

One step of a run is a call of `begin`, `commit`, `abort`, `record_read` or
`record_write`; the state after it is the state the call leaves, failed calls included. -/

inductive Call where
  | begin
  | commit (xid : Xid) (timestamp : ℕ)
  | abort (xid : Xid) (timestamp : ℕ)
  | record_read (xid : Xid) (t : Touched)
  | record_write (xid : Xid) (t : Touched)

def Call.run : Call → TxM Unit
  | .begin => modify fun s => (s.1.begin.2, s.2)
  | .commit xid timestamp => TransactionManager.commit xid timestamp
  | .abort xid timestamp => TransactionManager.abort xid timestamp
  | .record_read xid t => modify fun s => (s.1.record_read xid t, s.2)
  | .record_write xid t => modify fun s => (s.1.record_write xid t, s.2)

def Step (s s' : TransactionManager × WalManager) : Prop := ∃ c : Call, s' = after c.run s

abbrev Steps := Relation.ReflTransGen Step

section Calls

variable {s s' : TransactionManager × WalManager}

/-- The log is a separate component: whatever happens to it, the sets stay. -/
theorem on_wal_spec {α : Type} (x : EStateM Fault WalManager α) :
    wp (on_wal x) (fun _ s' => s'.1 = s.1) (fun _ s' => s'.1 = s.1) s := by
  unfold on_wal
  rw [wp_zoom]
  unfold wp
  cases x s.2 with
  | ok a w | error e w => rfl

/-- **`commit`.** It succeeds only for an active transaction that passes the check; a
refused transaction is aborted; any other failure leaves the sets alone. -/
theorem commit_spec (xid : Xid) (timestamp : ℕ) : wp (commit xid timestamp)
      (fun _ s' => xid ∈ s.1.active ∧ s.1.check_ssi_conflict xid = false
        ∧ s'.1 = s.1.mark_committed xid)
      (fun _ s' => s'.1 = s.1 ∨ (xid ∈ s.1.active ∧ s'.1 = s.1.force_abort xid)) s := by
  unfold commit
  rw [wp_bind, wp_get]
  by_cases hact : xid ∈ s.1.active
  · split_ifs with hssi
    · exact .inr ⟨hact, rfl⟩
    · refine wp_seq (on_wal_spec _) (fun _ _ he => .inl he) ?_
      rintro - s1 h1
      refine wp_seq (on_wal_spec _) (fun _ _ he => .inl (he.trans h1)) ?_
      rintro - s2 h2
      exact ⟨hact, Bool.eq_false_of_not_eq_true hssi,
        congrArg (fun tm => tm.mark_committed xid) (h2.trans h1)⟩
  · rw [if_pos hact]
    exact .inl rfl

variable {fl pend : List DecodedRecord}

theorem xact_written (h : s.2.Logged fl pend) (hq : s.2.Quiet) (xid : Xid) {record : WalRecord}
    (hst : Storable record) (hlen : record_len record = 42) :
    wp (on_wal (WalManager.write_record xid record)) (fun _ s' => s'.2.Quiet ∧
        (s'.2.Logged fl (pend ++ [⟨s.2.next_lsn, s.2.prev_lsn, xid, record⟩])
          ∨ s'.2.Logged (fl ++ (pend ++ [⟨s.2.next_lsn, s.2.prev_lsn, xid, record⟩])) []))
      (fun e _ => e = .err .Io ∧ MAX_FILE_SIZE < s.2.file.length + s.2.buffer.length + 42) s := by
  have hbuf := s.2.append_buffer_length xid record
  rw [on_wal, wp_zoom]
  refine wp_mono (write_record_spec h hq hst) ?_ ?_
  · rintro l w1 ⟨-, hq1, -, hl⟩
    exact ⟨hq1, hl⟩
  · rintro e w1 ⟨he, hfull⟩
    rw [WalManager.Overfull, hbuf, hlen] at hfull
    exact ⟨he, hfull⟩

/-- **`commit` and the log.** On a working device the commit record, and everything buffered
before it, is in the file when `commit` returns; only a full file makes it fail otherwise. -/
theorem commit_logged (h : s.2.Logged fl pend) (hq : s.2.Quiet) (xid : Xid) {timestamp : ℕ}
    (hts : timestamp < 256 ^ 8) : wp (commit xid timestamp)
      (fun _ s' => s'.2.Quiet ∧ s'.2.Logged
        (fl ++ (pend ++ [⟨s.2.next_lsn, s.2.prev_lsn, xid, .XactCommit timestamp⟩])) [])
      (fun e s' => (s'.2 = s.2 ∧ (xid ∉ s.1.active ∨ s.1.check_ssi_conflict xid = true))
        ∨ (e = .err .Io ∧ MAX_FILE_SIZE < s.2.file.length + s.2.buffer.length + 42)) s := by
  have hlen : record_len (.XactCommit timestamp) = 42 := by
    rw [record_len, serialize_body, length_le_bytes]
  unfold commit
  rw [wp_bind, wp_get]
  by_cases hact : xid ∈ s.1.active
  · split_ifs with hssi
    · exact .inl ⟨rfl, .inr hssi⟩
    · refine wp_seq (xact_written h hq xid ⟨hts, by rw [hlen]; decide⟩ hlen)
        (fun _ _ he => .inr he) ?_
      rintro - s1 ⟨hq1, hl⟩
      rw [wp_bind, on_wal, wp_zoom]
      -- whether or not the write flushed by itself, the flush leaves nothing pending
      rcases hl with hl | hl
      · refine wp_mono (flush_spec hl) ?_ ?_
        · rintro l w2 ⟨hl2, hq2, -, -⟩
          exact ⟨hq2, hl2⟩
        · rintro e w2 ⟨he, hfull⟩
          refine .inr ⟨he, ?_⟩
          rw [WalManager.Overfull, hl.file, hl.buffer, encode_all_append, length_append,
            length_encode_all_congr _ s.2.crc32 fl, length_encode_all_congr _ s.2.crc32 pend,
            ← h.file, ← h.buffer, encode_all_cons, length_append, length_encode_record, hlen] at hfull
          simpa [encode_all, add_assoc] using hfull
      · refine wp_mono (flush_spec hl) ?_ ?_
        · rintro l w2 ⟨hl2, hq2, -, -⟩
          rw [append_nil] at hl2
          exact ⟨hq2, hl2⟩
        · rintro e w2 ⟨-, hfull⟩
          rw [WalManager.Overfull, hl.buffer] at hfull
          exact absurd hl.size (by simpa [encode_all] using hfull)
  · rw [if_pos hact]
    exact .inl ⟨rfl, .inl hact⟩

/-- **`abort` and the log.** The abort record is the last entry of the log. -/
theorem abort_logged (h : s.2.Logged fl pend) (hq : s.2.Quiet) (xid : Xid) {timestamp : ℕ}
    (hts : timestamp < 256 ^ 8) : wp (abort xid timestamp)
      (fun _ s' => s'.2.Quiet ∧
        (s'.2.Logged fl (pend ++ [⟨s.2.next_lsn, s.2.prev_lsn, xid, .XactAbort timestamp⟩])
          ∨ s'.2.Logged
            (fl ++ (pend ++ [⟨s.2.next_lsn, s.2.prev_lsn, xid, .XactAbort timestamp⟩])) []))
      (fun e s' => (s'.2 = s.2 ∧ xid ∉ s.1.active)
        ∨ (e = .err .Io ∧ MAX_FILE_SIZE < s.2.file.length + s.2.buffer.length + 42)) s := by
  have hlen : record_len (.XactAbort timestamp) = 42 := by
    rw [record_len, serialize_body, length_le_bytes]
  unfold abort
  rw [wp_bind, wp_get]
  by_cases hact : xid ∈ s.1.active
  · rw [if_neg (not_not.mpr hact)]
    exact wp_seq (xact_written h hq xid ⟨hts, by rw [hlen]; decide⟩ hlen)
      (fun _ _ he => .inr he) fun _ _ h1 => h1
  · rw [if_pos hact]
    exact .inl ⟨rfl, hact⟩

/-- **`abort`.** -/
theorem abort_spec (xid : Xid) (timestamp : ℕ) : wp (abort xid timestamp)
      (fun _ s' => xid ∈ s.1.active ∧ s'.1 = s.1.force_abort xid) (fun _ s' => s'.1 = s.1) s := by
  unfold abort
  rw [wp_bind, wp_get]
  by_cases hact : xid ∈ s.1.active
  · rw [if_neg (not_not.mpr hact)]
    refine wp_seq (on_wal_spec _) (fun _ _ he => he) ?_
    rintro - s1 h1
    exact ⟨hact, congrArg (fun tm => tm.force_abort xid) h1⟩
  · rw [if_pos hact]
    rfl

/-- What one step can do to the sets of transactions. -/
def Moved (tm tm' : TransactionManager) : Prop :=
  tm' = tm.begin.2 ∨ (∃ x ∈ tm.active, tm' = tm.mark_committed x)
    ∨ (∃ x ∈ tm.active, tm' = tm.force_abort x)
    ∨ (tm'.next_xid = tm.next_xid ∧ tm'.committed = tm.committed ∧ tm'.active = tm.active
        ∧ tm'.aborted = tm.aborted)

theorem call_moved (c : Call) :
    wp c.run (fun _ s' => Moved s.1 s'.1) (fun _ s' => Moved s.1 s'.1) s := by
  cases c with
  | begin => exact .inl rfl
  | commit x ts =>
    refine wp_mono (commit_spec x ts) ?_ ?_
    · rintro - s' ⟨hact, -, heq⟩
      exact .inr (.inl ⟨x, hact, heq⟩)
    · rintro - s' (heq | ⟨hact, heq⟩)
      · exact .inr (.inr (.inr (by rw [heq]; exact ⟨rfl, rfl, rfl, rfl⟩)))
      · exact .inr (.inr (.inl ⟨x, hact, heq⟩))
  | abort x ts =>
    refine wp_mono (abort_spec x ts) ?_ ?_
    · rintro - s' ⟨hact, heq⟩
      exact .inr (.inr (.inl ⟨x, hact, heq⟩))
    · rintro - s' heq
      exact .inr (.inr (.inr (by rw [heq]; exact ⟨rfl, rfl, rfl, rfl⟩)))
  | record_read x t | record_write x t => exact .inr (.inr (.inr ⟨rfl, rfl, rfl, rfl⟩))

theorem step_moved (h : Step s s') : Moved s.1 s'.1 := by
  obtain ⟨c, rfl⟩ := h
  exact after_of_wp (P := fun s' : TransactionManager × WalManager => Moved s.1 s'.1) (call_moved c)

end Calls

/-! ## Snapshot isolation -/

/-- Every id in use has been issued, and no committed transaction is active. -/
structure Wf (tm : TransactionManager) : Prop where
  pos : 0 < tm.next_xid
  active_pos : ∀ x ∈ tm.active, 0 < x ∧ x < tm.next_xid
  committed_pos : ∀ x ∈ tm.committed, 0 < x ∧ x < tm.next_xid
  disjoint : ∀ x ∈ tm.committed, x ∉ tm.active

theorem new_wf : new.Wf :=
  ⟨Nat.one_pos, fun _ h => absurd h (notMem_empty _),
    fun _ h => absurd h (notMem_empty _), fun _ h => absurd h (notMem_empty _)⟩

/-- `tm'` is later than `tm`: ids only grow, and an issued id that is not active keeps its
status for good. -/
structure Settled (tm tm' : TransactionManager) : Prop where
  next : tm.next_xid ≤ tm'.next_xid
  inactive : ∀ x, x < tm.next_xid → x ∉ tm.active → x ∉ tm'.active
  status : ∀ x, x < tm.next_xid → x ∉ tm.active → (x ∈ tm'.committed ↔ x ∈ tm.committed)

theorem Settled.refl : Settled tm tm :=
  ⟨le_rfl, fun _ _ h => h, fun _ _ _ => Iff.rfl⟩

theorem Settled.trans {a b c : TransactionManager} (h : Settled a b) (h' : Settled b c) :
    Settled a c := by
  refine ⟨h.next.trans h'.next, ?_, ?_⟩
  · intro x hx hin
    exact h'.inactive x (lt_of_lt_of_le hx h.next) (h.inactive x hx hin)
  · intro x hx hin
    rw [h'.status x (lt_of_lt_of_le hx h.next) (h.inactive x hx hin), h.status x hx hin]

section Isolation

variable {s s' : TransactionManager × WalManager}

theorem step_wf (h : Step s s') (hw : s.1.Wf) : s'.1.Wf := by
  rcases step_moved h with heq | ⟨x, hx, heq⟩ | ⟨x, hx, heq⟩ | ⟨h1, h2, h3, -⟩
  · rw [heq]
    refine ⟨Nat.succ_pos _, ?_, ?_, ?_⟩
    · intro y hy
      rcases mem_insert.mp hy with rfl | hy
      · exact ⟨hw.pos, Nat.lt_succ_self _⟩
      · exact ⟨(hw.active_pos y hy).1, Nat.lt_succ_of_lt (hw.active_pos y hy).2⟩
    · intro y hy
      exact ⟨(hw.committed_pos y hy).1, Nat.lt_succ_of_lt (hw.committed_pos y hy).2⟩
    · intro y hy hin
      rcases mem_insert.mp hin with rfl | hin
      · exact lt_irrefl _ (hw.committed_pos _ hy).2
      · exact hw.disjoint y hy hin
  · rw [heq]
    refine ⟨hw.pos, fun y hy => hw.active_pos y (mem_of_mem_erase hy), ?_, ?_⟩
    · intro y hy
      rcases mem_insert.mp hy with rfl | hy
      · exact hw.active_pos _ hx
      · exact hw.committed_pos y hy
    · intro y hy hin
      rcases mem_insert.mp hy with rfl | hy
      · exact ne_of_mem_erase hin rfl
      · exact hw.disjoint y hy (mem_of_mem_erase hin)
  · rw [heq]
    exact ⟨hw.pos, fun y hy => hw.active_pos y (mem_of_mem_erase hy), hw.committed_pos,
      fun y hy hin => hw.disjoint y hy (mem_of_mem_erase hin)⟩
  · refine ⟨h1 ▸ hw.pos, ?_, ?_, ?_⟩
    · rw [h1, h3]
      exact hw.active_pos
    · rw [h1, h2]
      exact hw.committed_pos
    · rw [h2, h3]
      exact hw.disjoint

theorem step_settled (h : Step s s') : Settled s.1 s'.1 := by
  rcases step_moved h with heq | ⟨x, hx, heq⟩ | ⟨x, hx, heq⟩ | ⟨h1, h2, h3, -⟩
  · rw [heq]
    refine ⟨Nat.le_succ _, ?_, fun _ _ _ => Iff.rfl⟩
    intro y hy hin hin'
    rcases mem_insert.mp hin' with rfl | hin'
    · exact lt_irrefl _ hy
    · exact hin hin'
  · rw [heq]
    refine ⟨le_rfl, fun y _ hin hin' => hin (mem_of_mem_erase hin'), ?_⟩
    intro y _ hin
    -- only an active transaction commits
    have hne : y ≠ x := fun h => hin (h ▸ hx)
    show y ∈ insert x s.1.committed ↔ _
    rw [mem_insert]
    exact ⟨fun h => h.resolve_left hne, .inr⟩
  · rw [heq]
    exact ⟨le_rfl, fun y _ hin hin' => hin (mem_of_mem_erase hin'), fun _ _ _ => Iff.rfl⟩
  · exact ⟨le_of_eq h1.symm, fun y _ hin => by rw [h3]; exact hin, fun y _ _ => by rw [h2]⟩

theorem steps_wf (h : Steps s s') (hw : s.1.Wf) : s'.1.Wf := by
  induction h with
  | refl => exact hw
  | tail _ hstep ih => exact step_wf hstep ih

theorem steps_settled (h : Steps s s') : Settled s.1 s'.1 := by
  induction h with
  | refl => exact Settled.refl _
  | tail _ hstep ih => exact ih.trans (step_settled hstep)

/-- An aborted transaction has ended, and not by a commit. -/
def AbortedEnded (tm : TransactionManager) : Prop :=
  ∀ x ∈ tm.aborted, x < tm.next_xid ∧ x ∉ tm.active ∧ x ∉ tm.committed

theorem step_aborted (h : Step s s') (hw : s.1.Wf) (ha : s.1.AbortedEnded) : s'.1.AbortedEnded := by
  rcases step_moved h with heq | ⟨x, hx, heq⟩ | ⟨x, hx, heq⟩ | ⟨h1, h2, h3, h4⟩
  · rw [heq]
    intro y hy
    obtain ⟨hlt, hact, hcom⟩ := ha y hy
    refine ⟨Nat.lt_succ_of_lt hlt, fun hin => ?_, hcom⟩
    rcases mem_insert.mp hin with rfl | hin
    · exact lt_irrefl _ hlt
    · exact hact hin
  · rw [heq]
    intro y hy
    obtain ⟨hlt, hact, hcom⟩ := ha y hy
    refine ⟨hlt, fun hin => hact (mem_of_mem_erase hin), fun hin => ?_⟩
    rcases mem_insert.mp hin with rfl | hin
    · exact hact hx
    · exact hcom hin
  · rw [heq]
    intro y hy
    rcases mem_insert.mp hy with rfl | hy
    · exact ⟨(hw.active_pos y hx).2, Finset.notMem_erase _ _, fun hin => hw.disjoint y hin hx⟩
    · obtain ⟨hlt, hact, hcom⟩ := ha y hy
      exact ⟨hlt, fun hin => hact (mem_of_mem_erase hin), hcom⟩
  · unfold AbortedEnded
    rwa [h1, h2, h3, h4]

theorem snapshot_xmin_le {tm : TransactionManager} (h : tm.Wf) :
    tm.snapshot.xmin ≤ tm.next_xid := by
  show WithTop.untopD tm.next_xid tm.committed.min ≤ _
  cases hm : tm.committed.min with
  | top => exact le_rfl
  | coe m => exact le_of_lt (h.committed_pos m (Finset.mem_of_min hm)).2

/-- Asked later, `is_committed_before` still answers with the committed set of the
snapshot's moment. -/
theorem is_committed_before_iff {tm tm' : TransactionManager} (hw : tm.Wf) (hs : Settled tm tm')
    (x : Xid) : tm'.is_committed_before x tm.snapshot = true ↔ x ∈ tm.committed := by
  unfold is_committed_before
  by_cases h0 : x = INVALID_XID
  · rw [if_pos h0]
    refine ⟨fun h => (Bool.false_ne_true h).elim, fun h => ?_⟩
    exact absurd (hw.committed_pos x h).1 (by rw [h0]; exact lt_irrefl _)
  rw [if_neg h0]
  by_cases hact : x ∈ tm.active
  · rw [if_pos (show x ∈ tm.snapshot.active from hact)]
    exact ⟨fun h => (Bool.false_ne_true h).elim, fun h => absurd hact (hw.disjoint x h)⟩
  rw [if_neg (show x ∉ tm.snapshot.active from hact)]
  -- below `xmin` and between the two marks the live set is asked; `xmin ≤ xmax`
  have hlive : x < tm.next_xid → (tm'.is_committed x = true ↔ x ∈ tm.committed) := by
    intro hx
    rw [is_committed, decide_eq_true_iff]
    exact hs.status x hx hact
  by_cases hmin : x < tm.snapshot.xmin
  · rw [if_pos hmin]
    exact hlive (lt_of_lt_of_le hmin (snapshot_xmin_le hw))
  rw [if_neg hmin]
  by_cases hmax : x ≥ tm.snapshot.xmax
  · rw [if_pos hmax]
    refine ⟨fun h => (Bool.false_ne_true h).elim, fun h => ?_⟩
    exact absurd (hw.committed_pos x h).2 (not_lt.mpr hmax)
  · rw [if_neg hmax]
    exact hlive (Nat.lt_of_not_le hmax)

/-- **Snapshot isolation.** Whatever happens after a snapshot was taken, a tuple is visible
in it exactly if, when it was taken, the inserting transaction had committed and no
deleting transaction had. -/
theorem snapshot_isolation (w : WalManager) (hs : Steps (new, w) s) (ht : Steps s s')
    (h : TupleHeader) : s'.1.is_visible h s.1.snapshot = true ↔
      h.xmin ∈ s.1.committed ∧ (h.xmax = INVALID_XID ∨ h.xmax ∉ s.1.committed) := by
  have hw := steps_wf hs new_wf
  have hset := steps_settled ht
  have hmin := is_committed_before_iff hw hset h.xmin
  have hmax := is_committed_before_iff hw hset h.xmax
  unfold is_visible
  by_cases h1 : s'.1.is_committed_before h.xmin s.1.snapshot = true
  · rw [if_neg (by rw [h1]; exact Bool.true_eq_false_eq_False)]
    split_ifs with h2
    · exact ⟨fun _ => ⟨hmin.mp h1, .inl h2⟩, fun _ => rfl⟩
    · rw [Bool.not_eq_true', ← Bool.not_eq_true, hmax]
      exact ⟨fun h3 => ⟨hmin.mp h1, .inr h3⟩, fun h3 => h3.2.resolve_left h2⟩
  · rw [if_pos (Bool.eq_false_of_not_eq_true h1)]
    exact ⟨fun h3 => (Bool.false_ne_true h3).elim, fun h3 => absurd (hmin.mpr h3.1) h1⟩

/-- A transaction that was active when the snapshot was taken stays invisible in it after
its commit. -/
theorem snapshot_isolation_after_commit : is_visible
      (after (Call.commit 1 0).run (after Call.begin.run (new, .blank))).1
      (.new_insert 1 0)
      (after Call.begin.run (new, .blank)).1.snapshot ≠ true := by
  rw [ne_eq, snapshot_isolation WalManager.blank
    (Relation.ReflTransGen.single ⟨.begin, rfl⟩) (Relation.ReflTransGen.single ⟨.commit 1 0, rfl⟩)]
  exact fun h => absurd h.1 (Finset.notMem_empty 1)

/-! ### Outcomes -/

/-- Every id that was issued has a status. -/
def Issued (tm : TransactionManager) : Prop :=
  ∀ x, 0 < x → x < tm.next_xid → x ∈ tm.active ∨ x ∈ tm.committed ∨ x ∈ tm.aborted

theorem step_issued (h : Step s s') (hi : s.1.Issued) : s'.1.Issued := by
  intro y hy hlt
  rcases step_moved h with heq | ⟨x, -, heq⟩ | ⟨x, -, heq⟩ | ⟨h1, h2, h3, h4⟩
  · rw [heq] at hlt ⊢
    rcases Nat.lt_succ_iff_lt_or_eq.mp hlt with hlt | rfl
    · exact (hi y hy hlt).imp_left Finset.mem_insert_of_mem
    · exact .inl (Finset.mem_insert_self ..)
  · rw [heq] at hlt ⊢
    have := hi y hy hlt
    simp only [mark_committed, mem_insert, Finset.mem_erase]
    tauto
  · rw [heq] at hlt ⊢
    have := hi y hy hlt
    simp only [force_abort, mem_insert, Finset.mem_erase]
    tauto
  · rw [h1] at hlt
    rw [h2, h3, h4]
    exact hi y hy hlt

theorem steps_status (hs : Steps s s') (hw : s.1.Wf) (ha : s.1.AbortedEnded) (hi : s.1.Issued) :
    s'.1.AbortedEnded ∧ s'.1.Issued := by
  induction hs with
  | refl => exact ⟨ha, hi⟩
  | tail h hstep ih => exact ⟨step_aborted hstep (steps_wf h hw) ih.1, step_issued hstep ih.2⟩

/-- **Outcomes are final.** In every run an id that was issued is active, committed or aborted
and never two of them, and once committed or aborted it stays so. -/
theorem outcome_final (w : WalManager) (hs : Steps (new, w) s) (ht : Steps s s') (x : Xid)
    (hpos : 0 < x) (hx : x < s'.1.next_xid) :
    (x ∈ s'.1.active ↔ x ∉ s'.1.committed ∧ x ∉ s'.1.aborted)
      ∧ (x ∈ s'.1.committed → x ∉ s'.1.aborted)
      ∧ (x ∈ s.1.committed → x ∈ s'.1.committed) ∧ (x ∈ s.1.aborted → x ∈ s'.1.aborted) := by
  have hw := steps_wf hs new_wf
  have hissued : new.Issued := fun x h h' => absurd h (not_lt.mpr (Nat.lt_succ_iff.mp h'))
  obtain ⟨ha, hi⟩ := steps_status hs new_wf (fun _ h => absurd h (notMem_empty _)) hissued
  obtain ⟨ha', hi'⟩ := steps_status ht hw ha hi
  have hset := steps_settled ht
  have hdisj := (steps_wf ht hw).disjoint x
  have hex : x ∈ s'.1.aborted → x ∉ s'.1.active ∧ x ∉ s'.1.committed := fun h => (ha' x h).2
  refine ⟨?_, fun hc hab => (hex hab).2 hc, fun hc => ?_, fun hab => ?_⟩
  · refine ⟨fun h => ⟨fun hc => hdisj hc h, fun hab => (hex hab).1 h⟩, fun h => ?_⟩
    exact (hi' x hpos hx).resolve_right fun hor => hor.elim h.1 h.2
  · exact (hset.status x (hw.committed_pos x hc).2 (hw.disjoint x hc)).mpr hc
  · -- an aborted transaction is not active again, and has not committed
    obtain ⟨hlt, hact, hcom⟩ := ha x hab
    have hrest := (hi' x hpos hx).resolve_left (hset.inactive x hlt hact)
    exact hrest.resolve_left fun hc => hcom ((hset.status x hlt hact).mp hc)

/-- The first transaction, once it has begun. -/
theorem outcome_final_begun :
    1 ∈ (after Call.begin.run (new, .blank)).1.active :=
  (outcome_final WalManager.blank (.single ⟨.begin, rfl⟩) .refl 1 (by decide)
    (by decide)).1.mpr ⟨notMem_empty _, notMem_empty _⟩

end Isolation

/-! ## Write skew

Histories. The event of a step says what its caller learns: that a call of `commit`
succeeded, or only that it was made. -/

inductive Event where
  | began (x : Xid)
  | read (x : Xid) (t : Touched)
  | wrote (x : Xid) (t : Touched)
  | committed (x : Xid)
  | tried (x : Xid)
  | aborted (x : Xid)
  deriving DecidableEq

variable (tr : List Event)

/-- `x` has begun and has not called `commit`: it may still record reads and writes. -/
def MayRecord (x : Xid) : Prop :=
  .began x ∈ tr ∧ .committed x ∉ tr ∧ .tried x ∉ tr

instance (tr : List Event) (x : Xid) : Decidable (MayRecord tr x) :=
  inferInstanceAs (Decidable (_ ∧ _ ∧ _))

/-- `a` happened before `b`. -/
abbrev Before (a b : Event) : Prop := [a, b].Sublist tr

/-- Each of the two read something the other wrote. -/
def Conflict (x y : Xid) : Prop :=
  (∃ t, Event.read x t ∈ tr ∧ Event.wrote y t ∈ tr)
    ∧ ∃ t, Event.read y t ∈ tr ∧ Event.wrote x t ∈ tr

/-- Two committed transactions, each begun before the other committed, in conflict. -/
def WriteSkew : Prop :=
  ∃ x y, x ≠ y ∧ Before tr (.began x) (.committed y) ∧ Before tr (.began y) (.committed x)
    ∧ Conflict tr x y

/-- The runs and their histories, any number of transactions interleaved in any way. `ok`
is asked of every record step: with `fun _ _ => True` these are all runs. -/
inductive Run (ok : List Event → Event → Prop) (w : WalManager) :
    List Event → TransactionManager × WalManager → Prop where
  | init : Run ok w [] (new, w)
  | begin {tr s} : Run ok w tr s → Run ok w (tr ++ [.began s.1.next_xid]) (s.1.begin.2, s.2)
  | read {tr s} (x : Xid) (t : Touched) : Run ok w tr s → MayRecord tr x → ok tr (.read x t) →
      Run ok w (tr ++ [.read x t]) (s.1.record_read x t, s.2)
  | write {tr s} (x : Xid) (t : Touched) : Run ok w tr s → MayRecord tr x → ok tr (.wrote x t) →
      Run ok w (tr ++ [.wrote x t]) (s.1.record_write x t, s.2)
  | commit {tr s s'} (x : Xid) (ts : ℕ) : Run ok w tr s →
      TransactionManager.commit x ts s = .ok () s' → Run ok w (tr ++ [.committed x]) s'
  | commit_err {tr s s'} (x : Xid) (ts : ℕ) (e : Fault) : Run ok w tr s →
      TransactionManager.commit x ts s = .error e s' → Run ok w (tr ++ [.tried x]) s'
  | abort {tr s s'} (x : Xid) (ts : ℕ) : Run ok w tr s →
      TransactionManager.abort x ts s = .ok () s' → Run ok w (tr ++ [.aborted x]) s'
  | abort_err {tr s s'} (x : Xid) (ts : ℕ) (e : Fault) : Run ok w tr s →
      TransactionManager.abort x ts s = .error e s' → Run ok w tr s'

/-- A record step is harmless if it does not complete a conflict with a transaction that
has committed since the recording one began: the stored sets no longer show that one. This is
asked of a transaction that never commits, too. -/
def Harmless : Event → Prop
  | .read x t => ∀ y, Before tr (.began x) (.committed y) →
      ¬ (Event.wrote y t ∈ tr ∧ ∃ t', Event.read y t' ∈ tr ∧ Event.wrote x t' ∈ tr)
  | .wrote x t => ∀ y, Before tr (.began x) (.committed y) →
      ¬ (Event.read y t ∈ tr ∧ ∃ t', Event.wrote y t' ∈ tr ∧ Event.read x t' ∈ tr)
  | _ => True

theorem before_append {tr : List Event} {a b e : Event} :
    Before (tr ++ [e]) a b ↔ Before tr a b ∨ (a ∈ tr ∧ b = e) := by
  unfold Before
  rw [sublist_append_iff]
  constructor
  · rintro ⟨l₁, l₂, heq, h1, h2⟩
    rcases sublist_singleton.mp h2 with rfl | rfl
    · rw [append_nil] at heq
      exact .inl (heq ▸ h1)
    · have hsplit : [a] ++ [b] = l₁ ++ [e] := heq
      obtain ⟨rfl, hb⟩ := append_inj' hsplit rfl
      exact .inr ⟨singleton_sublist.mp h1, singleton_inj.mp hb⟩
  · rintro (h | ⟨h1, rfl⟩)
    · exact ⟨[a, b], [], (append_nil _).symm, h, nil_sublist _⟩
    · exact ⟨[a], [b], rfl, singleton_sublist.mpr h1, List.Sublist.refl _⟩

theorem Before.left {tr : List Event} {a b : Event} (h : Before tr a b) : a ∈ tr :=
  h.subset mem_cons_self

theorem Before.right {tr : List Event} {a b : Event} (h : Before tr a b) : b ∈ tr :=
  h.subset (mem_cons_of_mem _ mem_cons_self)

theorem Conflict.symm {tr : List Event} {x y : Xid} (h : Conflict tr x y) : Conflict tr y x :=
  ⟨h.2, h.1⟩

/-- What the manager knows about a history: the stored sets of an active transaction are
complete, and no conflict with a committed transaction is open. -/
structure Tracks (tr : List Event) (tm : TransactionManager) : Prop where
  issued : ∀ x, Event.began x ∈ tr → x < tm.next_xid
  active : ∀ x ∈ tm.active, Event.began x ∈ tr
  ended : ∀ x, Event.committed x ∈ tr → Event.began x ∈ tr
  recorded : ∀ x t, (Event.read x t ∈ tr ∨ Event.wrote x t ∈ tr) → Event.began x ∈ tr
  reads : ∀ x ∈ tm.active, ∀ t, Event.read x t ∈ tr → ∃ R, tm.read_sets.lookup x = some R ∧ t ∈ R
  writes : ∀ x ∈ tm.active, ∀ t, Event.wrote x t ∈ tr → ∃ W, tm.write_sets.lookup x = some W ∧ t ∈ W
  safe : ∀ x y, x ≠ y → Before tr (.began x) (.committed y) →
    (x ∈ tm.active ∨ Before tr (.began y) (.committed x)) → ¬ Conflict tr x y

section Skew

variable {tr : List Event} {tm : TransactionManager}

theorem new_tracks : Tracks [] new where
  issued := fun _ h => absurd h not_mem_nil
  active := fun _ h => absurd h (notMem_empty _)
  ended := fun _ h => absurd h not_mem_nil
  recorded := fun _ _ h => (h.elim (fun h => absurd h not_mem_nil)
    fun h => absurd h not_mem_nil)
  reads := fun _ h => absurd h (notMem_empty _)
  writes := fun _ h => absurd h (notMem_empty _)
  safe := fun _ _ _ h => absurd h.left not_mem_nil

variable {x y : Xid} {e : Event} {tm' : TransactionManager}

theorem mem_snoc {a e : Event} : a ∈ tr ++ [e] ↔ a ∈ tr ∨ e = a := by
  rw [mem_append, mem_singleton, eq_comm (a := a)]

/-- An event that is neither a read, a write nor a commit changes no conflict. -/
theorem conflict_append (hr : ∀ x t, e ≠ .read x t) (hw : ∀ x t, e ≠ .wrote x t) :
    Conflict (tr ++ [e]) x y ↔ Conflict tr x y := by
  simp only [Conflict, mem_snoc, hr, hw, or_false]

/-- The order of the commits changes with a commit only. -/
theorem before_committed {a e : Event} (he : ∀ x, e ≠ .committed x) :
    Before (tr ++ [e]) a (.committed y) ↔ Before tr a (.committed y) := by
  rw [before_append]
  exact or_iff_left fun hh => he y hh.2.symm

/-- Ending a transaction leaves the others' sets as they are. -/
theorem erase_active (hy : y ∈ tm.active.erase x) :
    y ∈ tm.active ∧ (tm.read_sets.erase x).lookup y = tm.read_sets.lookup y
      ∧ (tm.write_sets.erase x).lookup y = tm.write_sets.lookup y :=
  ⟨mem_of_mem_erase hy, AList.lookup_erase_ne (ne_of_mem_erase hy),
    AList.lookup_erase_ne (ne_of_mem_erase hy)⟩

/-- Adding to one transaction's set keeps what was stored and stores the new element. -/
theorem add_to_lookup {S : AList (fun _ : Xid => Finset Touched)} {t u : Touched}
    (h : (y = x ∧ u = t) ∨ ∃ R, S.lookup y = some R ∧ u ∈ R) :
    ∃ R, (add_to S x t).lookup y = some R ∧ u ∈ R := by
  unfold add_to
  by_cases hy : y = x
  · subst hy
    refine ⟨_, AList.lookup_insert _, mem_insert.mpr ?_⟩
    rcases h with ⟨-, rfl⟩ | ⟨R, hR, hu⟩
    · exact .inl rfl
    · exact .inr (by rw [hR]; exact hu)
  · rw [AList.lookup_insert_ne hy]
    exact h.resolve_left (fun hh => hy hh.1)

section

variable (h : Tracks tr tm)
include h

/-- The check sees a conflict between two active transactions. -/
theorem Tracks.check (hx : x ∈ tm.active) (hy : y ∈ tm.active) (hne : y ≠ x)
    (hc : Conflict tr x y) : tm.check_ssi_conflict x = true := by
  obtain ⟨⟨t, hxt, hyt⟩, t', hyt', hxt'⟩ := hc
  obtain ⟨R, hR, hRt⟩ := h.reads x hx t hxt
  obtain ⟨W, hW, hWt⟩ := h.writes x hx t' hxt'
  obtain ⟨W', hW', hWt'⟩ := h.writes y hy t hyt
  obtain ⟨R', hR', hRt'⟩ := h.reads y hy t' hyt'
  unfold check_ssi_conflict
  simp only [hR, hW]
  refine any_eq_true.mpr ⟨⟨y, W'⟩, AList.mem_lookup_iff.mp hW', ?_⟩
  simp only [hR', hne, ne_eq, not_false_eq_true, decide_true, Bool.true_and, Bool.and_eq_true,
    decide_eq_true_eq]
  exact ⟨⟨t, mem_inter.mpr ⟨hRt, hWt'⟩⟩, ⟨t', mem_inter.mpr ⟨hWt, hRt'⟩⟩⟩

/-- One more event, and the manager after it. -/
theorem Tracks.extend (hnext : tm.next_xid ≤ tm'.next_xid)
    (hbegan : ∀ x, e = .began x → x = tm.next_xid ∧ x < tm'.next_xid)
    (hactive : ∀ x ∈ tm'.active, x ∈ tm.active ∨ e = .began x)
    (hended : ∀ x, e = .committed x → .began x ∈ tr)
    (hnew : ∀ x t, e = .read x t ∨ e = .wrote x t → .began x ∈ tr)
    (hreads : ∀ x ∈ tm'.active, ∀ t, e = .read x t ∨ (∃ R, tm.read_sets.lookup x = some R ∧ t ∈ R) →
      ∃ R, tm'.read_sets.lookup x = some R ∧ t ∈ R)
    (hwrites : ∀ x ∈ tm'.active, ∀ t,
      e = .wrote x t ∨ (∃ W, tm.write_sets.lookup x = some W ∧ t ∈ W) →
      ∃ W, tm'.write_sets.lookup x = some W ∧ t ∈ W)
    (hsafe : ∀ x y, x ≠ y → Before (tr ++ [e]) (.began x) (.committed y) →
      (x ∈ tm.active ∨ Before (tr ++ [e]) (.began y) (.committed x)) →
      ¬ Conflict (tr ++ [e]) x y) :
    Tracks (tr ++ [e]) tm' := by
  -- a transaction the history names is not the one that begins
  have hold : ∀ x ∈ tm'.active, .began x ∈ tr → x ∈ tm.active := by
    intro x hx hin
    refine (hactive x hx).resolve_right fun he => ?_
    exact absurd (h.issued x hin) (not_lt.mpr (hbegan x he).1.ge)
  constructor
  case issued =>
    intro x hx
    rcases mem_snoc.mp hx with hx | he
    · exact (h.issued x hx).trans_le hnext
    · exact (hbegan x he).2
  case active => exact fun x hx => mem_snoc.mpr ((hactive x hx).imp_left (h.active x))
  case ended => exact fun x hx => mem_append_left _ ((mem_snoc.mp hx).elim (h.ended x) (hended x))
  case recorded =>
    intro x t hx
    rw [mem_snoc, mem_snoc, or_or_or_comm] at hx
    exact mem_append_left _ (hx.elim (h.recorded x t) (hnew x t))
  case reads =>
    intro x hx t ht
    refine hreads x hx t ((mem_snoc.mp ht).symm.imp_right fun ht => ?_)
    exact h.reads x (hold x hx (h.recorded x t (.inl ht))) t ht
  case writes =>
    intro x hx t ht
    refine hwrites x hx t ((mem_snoc.mp ht).symm.imp_right fun ht => ?_)
    exact h.writes x (hold x hx (h.recorded x t (.inr ht))) t ht
  case safe =>
    intro x y hne hb hor
    have hx : .began x ∈ tr := (before_append.mp hb).elim Before.left And.left
    exact hsafe x y hne hb (hor.imp_left fun ha => hold x ha hx)

/-- Without a commit the pairs are the same, so no conflict may be new. -/
theorem Tracks.pairs (he : ∀ x, e ≠ .committed x)
    (hconf : ∀ x y, Before tr (.began x) (.committed y) → Conflict (tr ++ [e]) x y → Conflict tr x y)
    (x y : Xid) (hne : x ≠ y) (hb : Before (tr ++ [e]) (.began x) (.committed y))
    (hor : x ∈ tm.active ∨ Before (tr ++ [e]) (.began y) (.committed x)) :
    ¬ Conflict (tr ++ [e]) x y := by
  rw [before_committed he] at hb hor
  exact fun hc => h.safe x y hne hb hor (hconf x y hb hc)

theorem Tracks.begin : Tracks (tr ++ [.began tm.next_xid]) tm.begin.2 := by
  refine h.extend (Nat.le_succ _) ?_ ?_ nofun (by simp) (fun _ _ _ ht => ht.resolve_left nofun)
    (fun _ _ _ ht => ht.resolve_left nofun)
    (h.pairs nofun fun _ _ _ => (conflict_append (by nofun) (by nofun)).mp)
  · rintro x ⟨⟩
    exact ⟨rfl, Nat.lt_succ_self _⟩
  · intro x hx
    rcases mem_insert.mp hx with rfl | hx
    · exact .inr rfl
    · exact .inl hx

/-- A step whose event is a failed commit or an abort: transactions may stop being active,
and the sets of the others stay. -/
theorem Tracks.quiet (he : (∃ x, e = .tried x) ∨ ∃ x, e = .aborted x)
    (hn : tm'.next_xid = tm.next_xid)
    (ha : ∀ x ∈ tm'.active, x ∈ tm.active ∧ tm'.read_sets.lookup x = tm.read_sets.lookup x
      ∧ tm'.write_sets.lookup x = tm.write_sets.lookup x) : Tracks (tr ++ [e]) tm' := by
  rcases he with ⟨x, rfl⟩ | ⟨x, rfl⟩
  all_goals
    refine h.extend hn.ge nofun (fun y hy => .inl (ha y hy).1) nofun (by simp) ?_ ?_
      (h.pairs nofun fun _ _ _ => (conflict_append (by nofun) (by nofun)).mp)
    · intro y hy t ht
      rw [(ha y hy).2.1]
      exact ht.resolve_left nofun
    · intro y hy t ht
      rw [(ha y hy).2.2]
      exact ht.resolve_left nofun

/-- A commit that passed the check. The new pairs are those of the committing transaction
with an active one, which the check looked at, and with one that committed before it,
which were safe while it was active. -/
theorem Tracks.commit (hx : x ∈ tm.active)
    (hok : tm.check_ssi_conflict x = false) :
    Tracks (tr ++ [.committed x]) (tm.mark_committed x) := by
  refine h.extend le_rfl nofun (fun y hy => .inl (erase_active hy).1) ?_ (by simp) ?_ ?_ ?_
  · rintro y ⟨⟩
    exact h.active x hx
  · intro y hy t ht
    show ∃ R, (tm.read_sets.erase x).lookup y = some R ∧ t ∈ R
    rw [(erase_active hy).2.1]
    exact ht.resolve_left nofun
  · intro y hy t ht
    show ∃ W, (tm.write_sets.erase x).lookup y = some W ∧ t ∈ W
    rw [(erase_active hy).2.2]
    exact ht.resolve_left nofun
  · intro a b hne hb hor
    rw [conflict_append (by nofun) (by nofun)]
    rcases before_append.mp hb with hb | ⟨-, heq⟩
    · refine h.safe a b hne hb (hor.elim .inl fun ha => ?_)
      rcases before_append.mp ha with ha | ⟨-, heq⟩
      · exact .inr ha
      · exact .inl (Event.committed.inj heq ▸ hx)
    · obtain rfl := Event.committed.inj heq
      intro hc
      rcases hor with ha | ha
      · have := h.check hx ha hne hc.symm
        simp [hok] at this
      · rcases before_append.mp ha with ha | ⟨-, heq'⟩
        · exact h.safe b a (Ne.symm hne) ha (.inl hx) hc.symm
        · exact hne (Event.committed.inj heq')

theorem Tracks.read {t : Touched} (hm : MayRecord tr x)
    (hok : Harmless tr (.read x t)) : Tracks (tr ++ [.read x t]) (tm.record_read x t) := by
  refine h.extend le_rfl nofun (fun _ => .inl) nofun ?_
    (fun y _ u hu => add_to_lookup (hu.imp_left ?_)) (fun _ _ _ hu => hu.resolve_left nofun)
    (h.pairs nofun ?_)
  · rintro y u (⟨⟨⟩⟩ | ⟨⟨⟩⟩)
    exact hm.1
  · rintro ⟨⟩
    exact ⟨rfl, rfl⟩
  · intro a b hb hc
    -- `b` has committed, so the new read is not its own
    have hbx : x ≠ b := by
      rintro rfl
      exact hm.2.1 hb.right
    obtain ⟨⟨u, h1, h2⟩, u', h3, h4⟩ := hc
    have h2' : Event.wrote b u ∈ tr := by simpa using h2
    have h3' := (mem_snoc.mp h3).resolve_right fun he => hbx (Event.read.inj he).1
    have h4' : Event.wrote a u' ∈ tr := by simpa using h4
    rcases mem_snoc.mp h1 with h1 | ⟨⟨⟩⟩
    · exact ⟨⟨u, h1, h2'⟩, u', h3', h4'⟩
    · exact absurd ⟨h2', u', h3', h4'⟩ (hok b hb)

theorem Tracks.write {t : Touched} (hm : MayRecord tr x)
    (hok : Harmless tr (.wrote x t)) : Tracks (tr ++ [.wrote x t]) (tm.record_write x t) := by
  refine h.extend le_rfl nofun (fun _ => .inl) nofun ?_
    (fun _ _ _ hu => hu.resolve_left nofun) (fun y _ u hu => add_to_lookup (hu.imp_left ?_))
    (h.pairs nofun ?_)
  · rintro y u (⟨⟨⟩⟩ | ⟨⟨⟩⟩)
    exact hm.1
  · rintro ⟨⟩
    exact ⟨rfl, rfl⟩
  · intro a b hb hc
    have hbx : x ≠ b := by
      rintro rfl
      exact hm.2.1 hb.right
    obtain ⟨⟨u, h1, h2⟩, u', h3, h4⟩ := hc
    have h1' : Event.read a u ∈ tr := by simpa using h1
    have h2' := (mem_snoc.mp h2).resolve_right fun he => hbx (Event.wrote.inj he).1
    have h3' : Event.read b u' ∈ tr := by simpa using h3
    rcases mem_snoc.mp h4 with h4 | ⟨⟨⟩⟩
    · exact ⟨⟨u, h1', h2'⟩, u', h3', h4⟩
    · exact absurd ⟨h3', u, h2', h1'⟩ (hok b hb)

end

variable {w : WalManager} {s : TransactionManager × WalManager}

theorem run_tracks (h : Run Harmless w tr s) : Tracks tr s.1 := by
  induction h with
  | init => exact new_tracks
  | begin _ ih => exact ih.begin
  | read x t _ hm hok ih => exact ih.read hm hok
  | write x t _ hm hok ih => exact ih.write hm hok
  | commit x ts _ hc ih =>
    obtain ⟨hact, hssi, heq⟩ := wp_ok (commit_spec x ts) hc
    rw [heq]
    exact ih.commit hact hssi
  | commit_err x ts e _ hc ih =>
    rcases wp_error (commit_spec x ts) hc with heq | ⟨-, heq⟩
    · rw [heq]
      exact ih.quiet (.inl ⟨x, rfl⟩) rfl (fun y hy => ⟨hy, rfl, rfl⟩)
    · rw [heq]
      exact ih.quiet (.inl ⟨x, rfl⟩) rfl (fun y hy => erase_active hy)
  | abort x ts _ hc ih =>
    obtain ⟨-, heq⟩ := wp_ok (abort_spec x ts) hc
    rw [heq]
    exact ih.quiet (.inr ⟨x, rfl⟩) rfl (fun y hy => erase_active hy)
  | abort_err x ts e _ hc ih =>
    rwa [show _ = _ from wp_error (abort_spec x ts) hc]

/-- **Write-skew freedom, as far as it goes.** In a run in which no recorded read or write
completes a conflict with a transaction that has committed since the recording one began,
no two concurrent committed transactions are in conflict, at any point of the run. -/
theorem no_write_skew (h : Run Harmless w tr s) : ¬ WriteSkew tr := by
  rintro ⟨x, y, hne, h1, h2, hc⟩
  exact (run_tracks h).safe x y hne h1 (.inr h2) hc

/-- On a working device with room, an active transaction that passes the check commits. -/
theorem commit_succeeds {fl pend : List DecodedRecord} (h : s.2.Logged fl pend) (hq : s.2.Quiet)
    (hx : x ∈ s.1.active) (hc : s.1.check_ssi_conflict x = false)
    (hroom : s.2.file.length + s.2.buffer.length + 42 ≤ MAX_FILE_SIZE) :
    ∃ s' es, TransactionManager.commit x 0 s = .ok () s' ∧ s'.1 = s.1.mark_committed x
      ∧ s'.2.Quiet ∧ s'.2.Logged es []
      ∧ s'.2.file.length + s'.2.buffer.length = s.2.file.length + s.2.buffer.length + 42 := by
  cases hrun : TransactionManager.commit x 0 s with
  | ok u s' =>
    obtain ⟨h1, h2⟩ := wp_ok (commit_logged h hq x (by decide)) hrun
    refine ⟨s', _, rfl, (wp_ok (commit_spec x 0) hrun).2.2, h1, h2, ?_⟩
    rw [h2.file, h2.buffer, encode_all_append, encode_all_append, length_append, length_append,
      length_encode_all_congr _ s.2.crc32 fl, length_encode_all_congr _ s.2.crc32 pend, ← h.file,
      ← h.buffer, encode_all_cons, length_append, length_encode_record, record_len, serialize_body,
      length_le_bytes]
    simp only [encode_all, flatMap_nil, length_nil]
    lia
  | error e s' =>
    exfalso
    rcases wp_error (commit_logged h hq x (by decide)) hrun with ⟨-, hn | hn⟩ | ⟨-, hn⟩
    · exact hn hx
    · simp [hc] at hn
    · exact absurd hroom (not_le.mpr hn)

/-- Of two transactions that commit, one writes what the other, a concurrent one, had read, and
no more: a one-way dependency is harmless. -/
theorem no_write_skew_one_way :
    let tr : List Event := [.began 1, .began 2, .read 1 (0, 1, 0), .committed 1, .wrote 2 (0, 1, 0),
      .committed 2]
    ∃ s, Run Harmless WalManager.blank tr s ∧ ¬ WriteSkew tr := by
  have r0 : Run Harmless WalManager.blank [] _ := Run.init
  have r3 := Run.read 1 (0, 1, 0) r0.begin.begin (by decide) (fun y hy => absurd hy.right (by simp))
  obtain ⟨s4, es, hc, htm, hq, hl, hsz⟩ := commit_succeeds
    (s := (new.begin.2.begin.2.record_read 1 (0, 1, 0), .blank))
    (WalManager.create_logged (fun _ => rfl)) (WalManager.quiet_of_nil rfl) (x := 1)
    (by decide) (by decide) (by decide)
  have r5 := Run.write 2 (0, 1, 0) (Run.commit 1 0 r3 hc) (by decide) (by
    rintro y - ⟨-, t', ht', -⟩
    simp at ht')
  obtain ⟨s6, -, hc', -⟩ := commit_succeeds (s := (s4.1.record_write 2 (0, 1, 0), s4.2)) hl hq
    (x := 2) (by rw [htm]; show 2 ∈ (insert 2 (insert 1 (∅ : Finset ℕ))).erase 1; decide)
    (by rw [htm]; rfl)
    (by show s4.2.file.length + s4.2.buffer.length + 42 ≤ _; rw [hsz]; decide)
  have r6 := Run.commit 2 0 r5 hc'
  exact ⟨_, r6, no_write_skew r6⟩

/-- **Write skew.** The check runs when the first transaction commits, before the second
has read or written anything, and again when the second commits, after the sets of the
first are gone. Both commits succeed. -/
theorem write_skew_committed :
    ∃ tr s, Run (fun _ _ => True) WalManager.blank tr s ∧ WriteSkew tr := by
  have r0 : Run (fun _ _ => True) WalManager.blank [] _ := Run.init
  have r4 := Run.write 1 (0, 2, 0) (Run.read 1 (0, 1, 0) r0.begin.begin (by decide) trivial)
    (by decide) trivial
  obtain ⟨s5, es5, hc5, htm5, hq5, hl5, hsz5⟩ := commit_succeeds
    (s := ((new.begin.2.begin.2.record_read 1 (0, 1, 0)).record_write 1 (0, 2, 0),
      .blank))
    (WalManager.create_logged (fun _ => rfl)) (WalManager.quiet_of_nil rfl) (x := 1)
    (by decide) (by decide) (by decide)
  have r7 := Run.write 2 (0, 1, 0) (Run.read 2 (0, 2, 0) (Run.commit 1 0 r4 hc5) (by decide)
    trivial) (by decide) trivial
  obtain ⟨s8, es8, hc8, -, -, -, -⟩ := commit_succeeds
    (s := ((s5.1.record_read 2 (0, 2, 0)).record_write 2 (0, 1, 0), s5.2)) hl5 hq5 (x := 2)
    (by rw [htm5]; show 2 ∈ (insert 2 (insert 1 (∅ : Finset ℕ))).erase 1; decide)
    (by rw [htm5]; rfl)
    (by show s5.2.file.length + s5.2.buffer.length + 42 ≤ _; rw [hsz5]; decide)
  refine ⟨_, s8, Run.commit 2 0 r7 hc8, 1, 2, by decide, by decide, by decide, ?_, ?_⟩
  · exact ⟨(0, 1, 0), by decide, by decide⟩
  · exact ⟨(0, 2, 0), by decide, by decide⟩

end Skew

end TransactionManager

end Oigrap.Storage
