/-
`crates/storage/src/wal.rs`: the write-ahead log, its byte format and its reader.

Records are serialised, headed and appended to a buffer; `flush` moves the buffer to the
end of the file. A record's LSN is its byte offset in the file. The reader walks the
flushed bytes. Decoding checks the stored LSN and the lengths, not the checksum, and it
has no case for `HeapUpdate`; both are the source's.

The second half states what the log is: a run of writes and flushes keeps the file and
the buffer equal to the encodings of two lists of entries, laid end to end, and reading
the file returns exactly the first list.
-/
import Oigrap.Storage.BufferPool

namespace Oigrap.Storage

open ByteMem Wp List

/-! ## Records -/

abbrev Lsn := ℕ
abbrev Xid := ℕ

abbrev INVALID_LSN : Lsn := 0

abbrev RMGR_HEAP : UInt8 := 0
abbrev RMGR_XACT : UInt8 := 1
abbrev HEAP_INSERT : UInt8 := 0
abbrev HEAP_UPDATE : UInt8 := 1
abbrev HEAP_DELETE : UInt8 := 2
abbrev XACT_COMMIT : UInt8 := 0
abbrev XACT_ABORT : UInt8 := 1
abbrev XACT_CHECKPOINT : UInt8 := 2

abbrev WAL_HEADER_SIZE : ℕ := 34

inductive WalRecord where
  | HeapInsert (table_id : ℕ) (page_id : PageId) (slot_id : ℕ) (tuple_data : List UInt8)
  | HeapUpdate (table_id : ℕ) (old_page : PageId) (old_slot : ℕ) (new_page : PageId)
      (new_slot : ℕ) (old_xmax : Xid) (new_tuple : List UInt8)
  | HeapDelete (table_id : ℕ) (page_id : PageId) (slot_id : ℕ) (old_xmax : Xid)
  | XactCommit (timestamp : ℕ)
  | XactAbort (timestamp : ℕ)
  | Checkpoint (redo_lsn : Lsn) (next_xid oldest_xid : Xid) (active_xids : List Xid)
  deriving DecidableEq, Repr

structure DecodedRecord where
  lsn : Lsn
  prev_lsn : Lsn
  xid : Xid
  record : WalRecord
  deriving DecidableEq, Repr

/-! ## Serialisation -/

def rmgr_and_type : WalRecord → UInt8 × UInt8
  | .HeapInsert .. => (RMGR_HEAP, HEAP_INSERT)
  | .HeapUpdate .. => (RMGR_HEAP, HEAP_UPDATE)
  | .HeapDelete .. => (RMGR_HEAP, HEAP_DELETE)
  | .XactCommit .. => (RMGR_XACT, XACT_COMMIT)
  | .XactAbort .. => (RMGR_XACT, XACT_ABORT)
  | .Checkpoint .. => (RMGR_XACT, XACT_CHECKPOINT)

def serialize_body : WalRecord → List UInt8
  | .HeapInsert table_id page_id slot_id tuple_data =>
    le_bytes 4 table_id ++ (le_bytes 8 page_id ++ (le_bytes 2 slot_id
      ++ (le_bytes 2 tuple_data.length ++ tuple_data)))
  | .HeapUpdate table_id old_page old_slot new_page new_slot old_xmax new_tuple =>
    le_bytes 4 table_id ++ (le_bytes 8 old_page ++ (le_bytes 2 old_slot ++ (le_bytes 8 new_page
      ++ (le_bytes 2 new_slot ++ (le_bytes 8 old_xmax
      ++ (le_bytes 2 new_tuple.length ++ new_tuple))))))
  | .HeapDelete table_id page_id slot_id old_xmax =>
    le_bytes 4 table_id ++ (le_bytes 8 page_id ++ (le_bytes 2 slot_id ++ le_bytes 8 old_xmax))
  | .XactCommit timestamp => le_bytes 8 timestamp
  | .XactAbort timestamp => le_bytes 8 timestamp
  | .Checkpoint redo_lsn next_xid oldest_xid active_xids =>
    le_bytes 8 redo_lsn ++ (le_bytes 8 next_xid ++ (le_bytes 8 oldest_xid
      ++ (le_bytes 4 active_xids.length ++ active_xids.flatMap (le_bytes 8))))

/-- A checksum function, such as the one of `crc32fast`. -/
abbrev Crc32 := List UInt8 → UInt32

variable (crc32 : Crc32) (lsn prev_lsn xid : ℕ) (body : List UInt8) {off : ℕ}

/-- The 34 header bytes in order. -/
def header_bytes (record : WalRecord) (total_len crc : ℕ) : List UInt8 :=
  le_bytes 8 lsn ++ (le_bytes 8 prev_lsn ++ (le_bytes 8 xid ++ ([(rmgr_and_type record).1]
    ++ ([(rmgr_and_type record).2] ++ (le_bytes 4 total_len ++ le_bytes 4 crc)))))

/-- `build_header`: the checksum covers the header with a zero checksum field and the body. -/
def build_header (record : WalRecord) (total_len : ℕ) (body : List UInt8) : List UInt8 :=
  header_bytes lsn prev_lsn xid record total_len
    (crc32 (header_bytes lsn prev_lsn xid record total_len 0 ++ body)).toNat

/-! ## Decoding -/

/-- The `n` transaction ids of a checkpoint, from byte `off` of the body on. -/
def decode_xids (body : List UInt8) : ℕ → ℕ → Except Fault (List Xid)
  | 0, _ => .ok []
  | n + 1, off => do
    let x ← le_at 8 body off
    let xs ← decode_xids body n (off + 8)
    return x :: xs

/-! The arms of `decode_body`. A body that is too short for a field panics where the source
slices without a check. -/

def decode_heap_insert : Except Fault WalRecord :=
  if body.length < 16 then throw (.err (.Corruption "short HeapInsert body"))
  else do
    let table_id ← le_at 4 body 0
    let page_id ← le_at 8 body 4
    let slot_id ← le_at 2 body 12
    let tuple_len ← le_at 2 body 14
    let tuple_data ← slice body 16 (16 + tuple_len)
    return .HeapInsert table_id page_id slot_id tuple_data

def decode_heap_delete : Except Fault WalRecord :=
  if body.length < 18 then throw (.err (.Corruption "short HeapDelete body"))
  else do
    let table_id ← le_at 4 body 0
    let page_id ← le_at 8 body 4
    let slot_id ← le_at 2 body 12
    let old_xmax ← le_at 8 body 14
    return .HeapDelete table_id page_id slot_id old_xmax

def decode_checkpoint : Except Fault WalRecord := do
  let redo_lsn ← le_at 8 body 0
  let next_xid ← le_at 8 body 8
  let oldest_xid ← le_at 8 body 16
  let n ← le_at 4 body 24
  let active_xids ← decode_xids body n 28
  return .Checkpoint redo_lsn next_xid oldest_xid active_xids

/-- `decode_body`. There is no arm for `(RMGR_HEAP, HEAP_UPDATE)`. -/
def decode_body (rmgr_id record_type : UInt8) (body : List UInt8) : Except Fault WalRecord :=
  if rmgr_id = RMGR_HEAP ∧ record_type = HEAP_INSERT then decode_heap_insert body
  else if rmgr_id = RMGR_HEAP ∧ record_type = HEAP_DELETE then decode_heap_delete body
  else if rmgr_id = RMGR_XACT ∧ record_type = XACT_COMMIT then
    WalRecord.XactCommit <$> le_at 8 body 0
  else if rmgr_id = RMGR_XACT ∧ record_type = XACT_ABORT then
    WalRecord.XactAbort <$> le_at 8 body 0
  else if rmgr_id = RMGR_XACT ∧ record_type = XACT_CHECKPOINT then decode_checkpoint body
  else throw (.err (.Corruption s!"unknown WAL record type rmgr={rmgr_id} type={record_type}"))

/-- `decode_record`: the record at the front of `data` and the bytes it takes. -/
def decode_record (data : List UInt8) (lsn : Lsn) : Except Fault (DecodedRecord × ℕ) :=
  if data.length < WAL_HEADER_SIZE then throw (.err (.Corruption "truncated WAL header"))
  else do
    let stored_lsn ← le_at 8 data 0
    let prev_lsn ← le_at 8 data 8
    let xid ← le_at 8 data 16
    let rmgr_id ← slice data 24 25
    let record_type ← slice data 25 26
    let total_len ← le_at 4 data 26
    if stored_lsn ≠ lsn then
      throw (.err (.Corruption s!"WAL LSN mismatch: expected {lsn}, got {stored_lsn}"))
    else if total_len < WAL_HEADER_SIZE ∨ data.length < total_len then
      throw (.err (.Corruption "truncated WAL record body"))
    else do
      let body ← slice data WAL_HEADER_SIZE total_len
      let record ← decode_body (rmgr_id.headD 0) (record_type.headD 0) body
      return (⟨lsn, prev_lsn, xid, record⟩, total_len)

/-! ## The log manager -/

/-- `WalManager`, together with the file it has open. `io` and `calls` are the device, as
for the database file. -/
structure WalManager where
  file : List UInt8
  buffer : List UInt8
  next_lsn : Lsn
  flushed_lsn : Lsn
  prev_lsn : Lsn
  io : ℕ → Bool
  calls : ℕ
  crc32 : Crc32

namespace WalManager

abbrev WalM := EStateM Fault WalManager

abbrev BUFFER_SIZE : ℕ := 4 * 1024 * 1024

/-- `WalManager::create` on a new file. -/
def create (io : ℕ → Bool) (crc32 : Crc32) : WalManager :=
  ⟨[], [], 0, INVALID_LSN, INVALID_LSN, io, 0, crc32⟩

/-- A new log on a device that never fails. -/
abbrev blank : WalManager := create (fun _ => true) fun _ => 0

/-- `WalManager::open`: `scan_wal_end` is the length of the file. -/
def «open» (file : List UInt8) (io : ℕ → Bool) (crc32 : Crc32) : WalManager :=
  ⟨file, [], file.length, file.length, INVALID_LSN, io, 0, crc32⟩

def syscall : WalM Unit := do
  let w ← get
  set { w with calls := w.calls + 1 }
  if w.io w.calls then pure () else throw (.err .Io)

/-- A positional write: a gap after the end of the file reads as zeros. -/
def overwrite (file data : List UInt8) (offset : ℕ) : List UInt8 :=
  (file ++ replicate (offset - file.length) 0).take offset ++ data
    ++ file.drop (offset + data.length)

def write_at_offset (data : List UInt8) (offset : ℕ) : WalM Unit := do
  syscall
  if offset + data.length ≤ MAX_FILE_SIZE then
    modify fun w => { w with file := overwrite w.file data offset }
  else throw (.err .Io)

/-- `flush`: write the buffer at the flushed offset and sync. -/
def flush : WalM Lsn := do
  let w ← get
  if w.buffer = [] then return w.flushed_lsn
  else
    write_at_offset w.buffer w.flushed_lsn
    syscall
    let new_flushed := w.flushed_lsn + w.buffer.length
    modify fun w => { w with flushed_lsn := new_flushed, buffer := [] }
    return new_flushed

/-- The part of `write_record` before the automatic flush: the record is in the buffer. -/
def append (w : WalManager) (xid : Xid) (record : WalRecord) : WalManager :=
  let body := serialize_body record
  let total_len := WAL_HEADER_SIZE + body.length
  { w with
    next_lsn := (w.next_lsn + total_len) % 2 ^ 64
    buffer := w.buffer ++ (build_header w.crc32 w.next_lsn w.prev_lsn xid record total_len body ++ body)
    prev_lsn := w.next_lsn }

/-- `write_record`: buffer the record, and flush once the buffer is half full. -/
def write_record (xid : Xid) (record : WalRecord) : WalM Lsn := do
  let w ← get
  set (w.append xid record)
  if (w.append xid record).buffer.length ≥ BUFFER_SIZE / 2 then
    let _ ← flush
    return w.next_lsn
  else return w.next_lsn

end WalManager

/-! ## The reader -/

structure WalReader where
  data : List UInt8
  pos : ℕ
  base_lsn : Lsn

namespace WalReader

/-- `next_record`: `None` once fewer bytes than a header are left. -/
def next_record (r : WalReader) : Option (Except Fault DecodedRecord × WalReader) :=
  if r.pos + WAL_HEADER_SIZE > r.data.length then none
  else match decode_record (r.data.drop r.pos) (r.base_lsn + r.pos) with
    | .ok (rec, consumed) => some (.ok rec, { r with pos := r.pos + consumed })
    | .error e => some (.error e, r)

/-- The loop `while let Some(res) = reader.next_record() { let rec = res?; .. }` as the
records it sees, in order, and the failure that ends it, if any. Every record takes at
least a header, so `data.length` rounds are enough. -/
def drain : ℕ → WalReader → List DecodedRecord × Option Fault
  | 0, _ => ([], some .diverge)
  | fuel + 1, r =>
    match r.next_record with
    | none => ([], none)
    | some (.error e, _) => ([], some e)
    | some (.ok rec, r') => (rec :: (drain fuel r').1, (drain fuel r').2)

end WalReader

/-- `read_from`: the flushed bytes from `start_lsn` on; a file shorter than that is an I/O
error. -/
def WalManager.read_from (w : WalManager) (start_lsn : Lsn) : Except Fault WalReader :=
  if w.flushed_lsn ≤ start_lsn then .ok ⟨[], 0, start_lsn⟩
  else if w.flushed_lsn ≤ w.file.length then
    .ok ⟨(w.file.take w.flushed_lsn).drop start_lsn, 0, start_lsn⟩
  else .error (.err .Io)

/-- Reading the whole log: the records, and the failure that ends the scan, if any. -/
def WalManager.records (w : WalManager) : List DecodedRecord × Option Fault :=
  match w.read_from INVALID_LSN with
  | .ok r => r.drain (r.data.length + 1)
  | .error e => ([], some e)

/-! ## Reading a record back -/

/-- The records a reader can give back: every field fits its width, and not `HeapUpdate`. -/
def WalRecord.Readable : WalRecord → Prop
  | .HeapInsert table_id page_id slot_id tuple_data =>
    table_id < 256 ^ 4 ∧ page_id < 256 ^ 8 ∧ slot_id < 256 ^ 2 ∧ tuple_data.length < 256 ^ 2
  | .HeapUpdate .. => False
  | .HeapDelete table_id page_id slot_id old_xmax =>
    table_id < 256 ^ 4 ∧ page_id < 256 ^ 8 ∧ slot_id < 256 ^ 2 ∧ old_xmax < 256 ^ 8
  | .XactCommit timestamp => timestamp < 256 ^ 8
  | .XactAbort timestamp => timestamp < 256 ^ 8
  | .Checkpoint redo_lsn next_xid oldest_xid active_xids =>
    redo_lsn < 256 ^ 8 ∧ next_xid < 256 ^ 8 ∧ oldest_xid < 256 ^ 8
      ∧ active_xids.length < 256 ^ 4 ∧ ∀ x ∈ active_xids, x < 256 ^ 8

theorem decode_xids_append (xs : List Xid) (h : ∀ x ∈ xs, x < 256 ^ 8) (pre : List UInt8) :
    decode_xids (pre ++ xs.flatMap (le_bytes 8)) xs.length pre.length = .ok xs := by
  induction xs generalizing pre with
  | nil => rfl
  | cons x xs ih =>
    have hx := h x mem_cons_self
    -- the ids still to read come after the prefix and this id
    have hrest := ih (fun y hy => h y (mem_cons_of_mem _ hy)) (pre ++ le_bytes 8 x)
    rw [append_assoc, length_append, length_le_bytes] at hrest
    rw [flatMap_cons, length_cons, decode_xids, le_at_skip rfl (le_rfl),
      Nat.sub_self, le_at_here _ hx, hrest]
    rfl

theorem decode_heap_insert_serialize {table_id page_id slot_id : ℕ} {tuple_data : List UInt8}
    (h : (WalRecord.HeapInsert table_id page_id slot_id tuple_data).Readable) :
    decode_heap_insert (serialize_body (.HeapInsert table_id page_id slot_id tuple_data))
      = .ok (.HeapInsert table_id page_id slot_id tuple_data) := by
  obtain ⟨h1, h2, h3, h4⟩ := h
  have hbody : 16 ≤ (serialize_body (.HeapInsert table_id page_id slot_id tuple_data)).length := by
    simp only [serialize_body, length_append, length_le_bytes]
    omega
  unfold decode_heap_insert
  rw [if_neg (not_lt.mpr hbody), serialize_body]
  -- the five fields, each at its offset
  simp (disch := omega) only [le_at_past, le_at_here, slice_past, slice_all, Nat.reduceSub, bind,
    Except.bind]
  rfl

theorem decode_heap_delete_serialize {table_id page_id slot_id old_xmax : ℕ}
    (h : (WalRecord.HeapDelete table_id page_id slot_id old_xmax).Readable) :
    decode_heap_delete (serialize_body (.HeapDelete table_id page_id slot_id old_xmax))
      = .ok (.HeapDelete table_id page_id slot_id old_xmax) := by
  obtain ⟨h1, h2, h3, h4⟩ := h
  have hbody : 18 ≤ (serialize_body (.HeapDelete table_id page_id slot_id old_xmax)).length := by
    simp only [serialize_body, length_append, length_le_bytes]
    omega
  unfold decode_heap_delete
  rw [if_neg (not_lt.mpr hbody), serialize_body]
  simp (disch := omega) only [le_at_past, le_at_here, le_at_all, Nat.reduceSub, bind, Except.bind]
  rfl

theorem decode_checkpoint_serialize {redo_lsn next_xid oldest_xid : ℕ} {active_xids : List Xid}
    (h : (WalRecord.Checkpoint redo_lsn next_xid oldest_xid active_xids).Readable) :
    decode_checkpoint (serialize_body (.Checkpoint redo_lsn next_xid oldest_xid active_xids))
      = .ok (.Checkpoint redo_lsn next_xid oldest_xid active_xids) := by
  obtain ⟨h1, h2, h3, h4, h5⟩ := h
  have e5 := decode_xids_append active_xids h5 (le_bytes 8 redo_lsn ++ (le_bytes 8 next_xid
    ++ (le_bytes 8 oldest_xid ++ le_bytes 4 active_xids.length)))
  simp only [length_append, length_le_bytes, append_assoc, Nat.reduceAdd] at e5
  unfold decode_checkpoint
  rw [serialize_body]
  simp (disch := omega) only [le_at_past, le_at_here, Nat.reduceSub, bind, Except.bind, e5]
  rfl

variable {record : WalRecord} {es : List DecodedRecord}

/-- The body round trip. -/
theorem decode_body_serialize (h : record.Readable) :
    decode_body (rmgr_and_type record).1 (rmgr_and_type record).2 (serialize_body record)
      = .ok record := by
  cases record with
  | HeapInsert table_id page_id slot_id tuple_data => exact decode_heap_insert_serialize h
  | HeapUpdate => exact h.elim
  | HeapDelete table_id page_id slot_id old_xmax => exact decode_heap_delete_serialize h
  | XactCommit timestamp =>
    show WalRecord.XactCommit <$> le_at 8 (le_bytes 8 timestamp) 0 = _
    rw [le_at_all h]
    rfl
  | XactAbort timestamp =>
    show WalRecord.XactAbort <$> le_at 8 (le_bytes 8 timestamp) 0 = _
    rw [le_at_all h]
    rfl
  | Checkpoint redo_lsn next_xid oldest_xid active_xids => exact decode_checkpoint_serialize h

/-- The bytes of one record in the log. -/
def encode_record (record : WalRecord) : List UInt8 :=
  build_header crc32 lsn prev_lsn xid record (WAL_HEADER_SIZE + (serialize_body record).length)
    (serialize_body record) ++ serialize_body record

def record_len (record : WalRecord) : ℕ := WAL_HEADER_SIZE + (serialize_body record).length

theorem length_build_header (record : WalRecord) (n : ℕ) (body : List UInt8)
    : (build_header crc32 lsn prev_lsn xid record n body).length = 34 := by
  simp [build_header, header_bytes]

theorem length_encode_record (record : WalRecord) :
    (encode_record crc32 lsn prev_lsn xid record).length = record_len record := by
  rw [encode_record, length_append, length_build_header, record_len]

/-- The bytes of a record up to the checksum, field by field. -/
theorem encode_record_fields (record : WalRecord) (rest : List UInt8) :
    ∃ tail, encode_record crc32 lsn prev_lsn xid record ++ rest
      = le_bytes 8 lsn ++ (le_bytes 8 prev_lsn ++ (le_bytes 8 xid ++ ([(rmgr_and_type record).1]
        ++ ([(rmgr_and_type record).2] ++ (le_bytes 4 (record_len record) ++ tail))))) := by
  exact ⟨_, rfl⟩

theorem le_at_total_len (ht : record_len record < 256 ^ 4) (prev_lsn xid : ℕ) (rest : List UInt8) :
    le_at 4 (encode_record crc32 lsn prev_lsn xid record ++ rest) 26 = .ok (record_len record) := by
  obtain ⟨tail, hdata⟩ := encode_record_fields crc32 lsn prev_lsn xid record rest
  exact le_at_here _ ht

variable {crc32}

/-- The header of an encoded record passes every check, so the outcome is that of its body,
whatever follows; the transaction id and the back pointer are kept modulo `2 ^ 64`. -/
theorem decode_record_of_body {lsn : ℕ} (hl : lsn < 256 ^ 8) (ht : record_len record < 256 ^ 4)
    (prev_lsn xid : ℕ) (rest : List UInt8) :
    decode_record (encode_record crc32 lsn prev_lsn xid record ++ rest) lsn
      = (fun r => (⟨lsn, prev_lsn % 256 ^ 8, xid % 256 ^ 8, r⟩, record_len record)) <$>
        decode_body (rmgr_and_type record).1 (rmgr_and_type record).2 (serialize_body record) := by
  obtain ⟨tail, hdata⟩ := encode_record_fields crc32 lsn prev_lsn xid record rest
  have hlen : (encode_record crc32 lsn prev_lsn xid record ++ rest).length
      = record_len record + rest.length := by
    rw [length_append, length_encode_record]
  have hmin : WAL_HEADER_SIZE ≤ record_len record := Nat.le_add_right _ _
  have e6 := le_at_total_len crc32 lsn ht prev_lsn xid rest
  have e7 : slice (encode_record crc32 lsn prev_lsn xid record ++ rest) WAL_HEADER_SIZE
      (record_len record) = .ok (serialize_body record) := by
    rw [encode_record, append_assoc,
      slice_skip (length_build_header _ _ _ _ _ _ _) (le_rfl) hmin, Nat.sub_self]
    exact slice_here rest (Nat.add_sub_cancel_left _ _)
  generalize encode_record crc32 lsn prev_lsn xid record ++ rest = data at *
  -- the header fields, each at its offset
  have e1 : le_at 8 data 0 = .ok lsn := by rw [hdata, le_at_here _ hl]
  have e2 : le_at 8 data 8 = .ok (prev_lsn % 256 ^ 8) := by
    rw [hdata, le_at_past le_rfl, Nat.sub_self, le_at_mod]
  have e3 : le_at 8 data 16 = .ok (xid % 256 ^ 8) := by
    simp (disch := decide) only [hdata, le_at_past, le_at_mod, Nat.reduceSub]
  have e4 : slice data 24 25 = .ok [(rmgr_and_type record).1] := by
    simp (disch := decide) only [hdata, slice_past, Nat.reduceSub]
    exact slice_here _ rfl
  have e5 : slice data 25 26 = .ok [(rmgr_and_type record).2] := by
    simp (disch := decide) only [hdata, slice_past, Nat.reduceSub]
    rw [slice_skip length_singleton (by decide) (by decide)]
    exact slice_here _ rfl
  unfold decode_record
  rw [if_neg (by rw [hlen]; omega), e1, e2, e3, e4, e5, e6]
  simp only [bind, Except.bind]
  rw [if_neg (fun hne => hne rfl), if_neg (by rw [hlen]; omega), e7]
  rfl

/-- **The record round trip.** The record at the front of the data is read back, whatever
follows it. -/
theorem decode_record_encode {lsn : ℕ} (hl : lsn < 256 ^ 8) (hr : record.Readable)
    (ht : record_len record < 256 ^ 4) (prev_lsn xid : ℕ) (rest : List UInt8) :
    decode_record (encode_record crc32 lsn prev_lsn xid record ++ rest) lsn
      = .ok (⟨lsn, prev_lsn % 256 ^ 8, xid % 256 ^ 8, record⟩, record_len record) := by
  rw [decode_record_of_body hl ht, decode_body_serialize hr]
  rfl

/-! ## What the log holds -/

/-- The bytes of consecutive entries. -/
def encode_all (crc32 : Crc32) (es : List DecodedRecord) : List UInt8 :=
  es.flatMap fun e => encode_record crc32 e.lsn e.prev_lsn e.xid e.record

theorem encode_all_append (es es' : List DecodedRecord) :
    encode_all crc32 (es ++ es') = encode_all crc32 es ++ encode_all crc32 es' := flatMap_append

theorem encode_all_cons (e : DecodedRecord) (es : List DecodedRecord) :
    encode_all crc32 (e :: es) = encode_record crc32 e.lsn e.prev_lsn e.xid e.record ++ encode_all crc32 es :=
  flatMap_cons

/-- The length of a log does not depend on the checksum function. -/
theorem length_encode_all_congr (crc32 crc32' : Crc32) (es : List DecodedRecord) :
    (encode_all crc32 es).length = (encode_all crc32' es).length := by
  simp only [encode_all, length_flatMap, length_encode_record]

/-- The entries lie end to end from offset `off` on: an entry's LSN is where it starts. -/
def Laid : ℕ → List DecodedRecord → Prop
  | _, [] => True
  | off, e :: es => e.lsn = off ∧ Laid (off + record_len e.record) es

theorem laid_append (crc32 : Crc32) {es' : List DecodedRecord} :
    Laid off (es ++ es') ↔ Laid off es ∧ Laid (off + (encode_all crc32 es).length) es' := by
  induction es generalizing off with
  | nil => simp [Laid, encode_all]
  | cons e es ih =>
    rw [cons_append, Laid, Laid, ih, encode_all_cons, length_append,
      length_encode_record, add_assoc, and_assoc]

theorem Laid.bounds (crc32 : Crc32) (h : Laid off es) :
    ∀ e ∈ es, off ≤ e.lsn ∧ e.lsn < off + (encode_all crc32 es).length := by
  induction es generalizing off with
  | nil => exact fun e he => absurd he not_mem_nil
  | cons a es ih =>
    intro e he
    have hmin : 34 ≤ record_len a.record := Nat.le_add_right _ _
    rw [encode_all_cons, length_append, length_encode_record]
    rcases mem_cons.mp he with rfl | he
    · have := h.1
      lia
    · have := ih h.2 e he
      lia

theorem Laid.le_lsn (h : Laid off es) : ∀ e ∈ es, off ≤ e.lsn :=
  fun e he => (h.bounds (fun _ => 0) e he).1

theorem Laid.pairwise (h : Laid off es) : es.Pairwise (fun e e' => e.lsn < e'.lsn) := by
  induction es generalizing off with
  | nil => exact List.Pairwise.nil
  | cons a es ih =>
    refine List.Pairwise.cons ?_ (ih h.2)
    intro e he
    have hle := h.2.le_lsn e he
    have h1 := h.1
    rw [record_len] at hle
    lia

/-- An entry as the reader sees it: ids come back modulo `2 ^ 64`. -/
def seen (e : DecodedRecord) : DecodedRecord :=
  ⟨e.lsn, e.prev_lsn % 256 ^ 8, e.xid % 256 ^ 8, e.record⟩

/-- A record the log can hold and give back. -/
def Storable (record : WalRecord) : Prop := record.Readable ∧ record_len record < 256 ^ 4

/-- Less than a header is left. -/
theorem drain_end {data : List UInt8} {pos base fuel : ℕ} (h : data.length < pos + 34)
    (hfuel : 0 < fuel) : WalReader.drain fuel ⟨data, pos, base⟩ = ([], none) := by
  obtain ⟨fuel, rfl⟩ := Nat.exists_eq_succ_of_ne_zero (ne_of_gt hfuel)
  rw [WalReader.drain, WalReader.next_record, if_pos h]

/-- **The scan.** Draining the bytes of entries laid end to end yields exactly them, and goes
on behind them. The induction is on the entries still to be read; `pre` are the bytes already
consumed. -/
theorem drain_encode_all (crc32 : Crc32) (base : Lsn) (rest : List UInt8) (fuel : ℕ) (es : List DecodedRecord) :
    ∀ (pre : List UInt8), Laid (base + pre.length) es → (∀ e ∈ es, Storable e.record) →
      base + (pre ++ encode_all crc32 es).length ≤ 256 ^ 8 →
      WalReader.drain (es.length + fuel) ⟨pre ++ (encode_all crc32 es ++ rest), pre.length, base⟩
        = (es.map seen ++ (WalReader.drain fuel
            ⟨pre ++ (encode_all crc32 es ++ rest), (pre ++ encode_all crc32 es).length, base⟩).1,
          (WalReader.drain fuel
            ⟨pre ++ (encode_all crc32 es ++ rest), (pre ++ encode_all crc32 es).length, base⟩).2) := by
  induction es with
  | nil =>
    intro pre _ _ _
    rw [length_nil, zero_add, map_nil, nil_append, show encode_all crc32 [] = [] from rfl, append_nil]
  | cons e es ih =>
    intro pre hl hs hsize
    obtain ⟨hlsn, hl'⟩ := hl
    obtain ⟨hread, hlen⟩ := hs e mem_cons_self
    have hmin : 34 ≤ record_len e.record := Nat.le_add_right _ _
    have htot : (pre ++ encode_all crc32 (e :: es)).length
        = pre.length + (record_len e.record + (encode_all crc32 es).length) := by
      rw [length_append, encode_all_cons, length_append, length_encode_record]
    have hlt : e.lsn < 256 ^ 8 := by
      lia
    have hdata : pre ++ (encode_all crc32 (e :: es) ++ rest)
        = pre ++ encode_record crc32 e.lsn e.prev_lsn e.xid e.record ++ (encode_all crc32 es ++ rest) := by
      rw [encode_all_cons, append_assoc, append_assoc]
    have hdec : decode_record ((pre ++ (encode_all crc32 (e :: es) ++ rest)).drop pre.length)
        (base + pre.length) = .ok (seen e, record_len e.record) := by
      rw [drop_left, encode_all_cons, append_assoc, ← hlsn]
      exact decode_record_encode hlt hread hlen _ _ _
    have hrest := ih (pre ++ encode_record crc32 e.lsn e.prev_lsn e.xid e.record)
      (by rw [length_append, length_encode_record, ← add_assoc]; exact hl')
      (fun e' he' => hs e' (mem_cons_of_mem _ he'))
      (by rw [append_assoc, ← encode_all_cons]; exact hsize)
    rw [← hdata, append_assoc, ← encode_all_cons, length_append, length_encode_record]
      at hrest
    have hmore : ¬ pre.length + WAL_HEADER_SIZE > (pre ++ (encode_all crc32 (e :: es) ++ rest)).length := by
      rw [← append_assoc, length_append, htot]
      lia
    rw [length_cons, Nat.add_right_comm, WalReader.drain, WalReader.next_record, if_neg hmore, hdec]
    simp only []
    rw [hrest]
    rfl

/-- Each entry takes at least a byte, so the bytes bound the rounds of a scan. -/
theorem length_le_encode_all (crc32 : Crc32) (es : List DecodedRecord) :
    es.length ≤ (encode_all crc32 es).length := by
  induction es with
  | nil => exact Nat.zero_le _
  | cons e es ih =>
    rw [encode_all_cons, length_append, length_encode_record, record_len, length_cons]
    lia

/-- A scan of entries laid end to end, with less than a header behind them. -/
theorem drain_all (crc32 : Crc32) {base : Lsn} {rest : List UInt8} (hl : Laid base es)
    (hs : ∀ e ∈ es, Storable e.record) (hsize : base + (encode_all crc32 es).length ≤ 256 ^ 8)
    (hrest : rest.length < 34) :
    WalReader.drain ((encode_all crc32 es ++ rest).length + 1) ⟨encode_all crc32 es ++ rest, 0, base⟩
      = (es.map seen, none) := by
  have hcount := length_le_encode_all crc32 es
  obtain ⟨k, hk⟩ : ∃ k, (encode_all crc32 es ++ rest).length + 1 = es.length + (k + 1) := by
    refine ⟨(encode_all crc32 es ++ rest).length - es.length, ?_⟩
    rw [length_append]
    omega
  have hdrain := drain_encode_all crc32 base rest (k + 1) es [] hl hs hsize
  rw [nil_append, nil_append] at hdrain
  have hend : WalReader.drain (k + 1) ⟨encode_all crc32 es ++ rest, (encode_all crc32 es).length, base⟩
      = ([], none) := by
    refine drain_end ?_ (Nat.succ_pos k)
    rw [length_append]
    omega
  rw [hk]
  refine hdrain.trans ?_
  rw [hend, append_nil]

namespace WalManager

/-- The log on a working device: the file holds the entries `fl`, the buffer the entries
`pend`, laid end to end. -/
structure Logged (w : WalManager) (fl pend : List DecodedRecord) : Prop where
  io : ∀ n, w.io n = true
  file : w.file = encode_all w.crc32 fl
  buffer : w.buffer = encode_all w.crc32 pend
  flushed : w.flushed_lsn = w.file.length
  next : w.next_lsn = w.file.length + w.buffer.length
  laid : Laid 0 (fl ++ pend)
  storable : ∀ e ∈ fl ++ pend, Storable e.record
  size : w.file.length ≤ MAX_FILE_SIZE

/-- The buffer is not yet due for an automatic flush. -/
def Quiet (w : WalManager) : Prop := w.buffer.length < BUFFER_SIZE / 2

/-- What has not been flushed does not fit the file any more. -/
def Overfull (w : WalManager) : Prop := MAX_FILE_SIZE < w.file.length + w.buffer.length

variable {w : WalManager} {fl pend : List DecodedRecord}

theorem create_logged {io : ℕ → Bool} (h : ∀ n, io n = true) :
    (create io crc32).Logged [] [] :=
  ⟨h, rfl, rfl, rfl, rfl, trivial, fun _ he => absurd he not_mem_nil, Nat.zero_le _⟩

theorem open_logged (crc32 : Crc32) {io : ℕ → Bool} (h : ∀ n, io n = true) {es : List DecodedRecord}
    (hl : Laid 0 es) (hs : ∀ e ∈ es, Storable e.record)
    (hsize : (encode_all crc32 es).length ≤ MAX_FILE_SIZE) :
    (WalManager.open (encode_all crc32 es) io crc32).Logged es [] :=
  ⟨h, rfl, rfl, rfl, rfl, by rwa [append_nil], by rwa [append_nil], hsize⟩

theorem quiet_of_nil (h : w.buffer = []) : w.Quiet := by
  rw [Quiet, h]
  decide

theorem syscall_spec (h : ∀ n, w.io n = true) :
    wp syscall (fun _ w' => w' = { w with calls := w.calls + 1 }) never w := by
  simp only [syscall, wp_bind, wp_get, wp_set]
  rw [if_pos (h _)]
  rfl

theorem overwrite_end (file data : List UInt8) : overwrite file data file.length = file ++ data := by
  unfold overwrite
  rw [Nat.sub_self, replicate_zero, append_nil, take_length,
    drop_eq_nil_of_le (Nat.le_add_right _ _), append_nil]

/-- A manager on a working device that has appended to a file: behind the bytes `base` stand
the entries `fl`, in the buffer the entries `pend`, laid end to end. -/
structure Extends (crc32 : Crc32) (w : WalManager) (base : List UInt8)
    (fl pend : List DecodedRecord) : Prop where
  crc : w.crc32 = crc32
  io : ∀ n, w.io n = true
  file : w.file = base ++ encode_all crc32 fl
  buffer : w.buffer = encode_all crc32 pend
  flushed : w.flushed_lsn = w.file.length
  next : w.next_lsn = w.file.length + w.buffer.length
  laid : Laid base.length (fl ++ pend)
  size : w.file.length ≤ MAX_FILE_SIZE

theorem Logged.extends (h : w.Logged fl pend) : w.Extends w.crc32 [] fl pend :=
  ⟨rfl, h.io, h.file, h.buffer, h.flushed, h.next, h.laid, h.size⟩

theorem Extends.logged (h : w.Extends crc32 [] fl pend) (hs : ∀ e ∈ fl ++ pend, Storable e.record) :
    w.Logged fl pend := by
  obtain rfl := h.crc
  exact ⟨h.io, h.file, h.buffer, h.flushed, h.next, h.laid, hs, h.size⟩

theorem encode_all_eq_nil {es : List DecodedRecord} (h : encode_all crc32 es = []) : es = [] := by
  have hlen := length_le_encode_all crc32 es
  rw [h] at hlen
  exact length_eq_zero_iff.mp (Nat.le_zero.mp hlen)

variable {base : List UInt8}

/-- **`flush`** moves the buffered entries to the file, or the file is full. -/
theorem flush_extends (h : w.Extends crc32 base fl pend) :
    wp flush (fun l w' => w'.Extends crc32 base (fl ++ pend) [] ∧ w'.Quiet ∧ l = w'.flushed_lsn
        ∧ w'.prev_lsn = w.prev_lsn) (fun e _ => e = .err .Io ∧ w.Overfull) w := by
  unfold flush
  rw [wp_bind, wp_get]
  by_cases hb : w.buffer = []
  · -- nothing buffered
    obtain rfl : pend = [] := encode_all_eq_nil (by rw [← h.buffer, hb])
    rw [if_pos hb, wp_pure, append_nil]
    exact ⟨h, quiet_of_nil hb, rfl, rfl⟩
  · rw [if_neg hb, wp_bind]
    refine wp_then (syscall_spec h.io) ?_
    rintro - w1 rfl
    split_ifs with hroom
    · rw [wp_modify]
      refine wp_then (syscall_spec (by exact h.io)) ?_
      rintro - w2 rfl
      have hfile : overwrite w.file w.buffer w.flushed_lsn = base ++ encode_all crc32 (fl ++ pend) := by
        rw [h.flushed, overwrite_end, encode_all_append, h.file, h.buffer, append_assoc]
      have hlen : (base ++ encode_all crc32 (fl ++ pend)).length = w.file.length + w.buffer.length := by
        rw [encode_all_append, ← append_assoc, length_append, h.file, h.buffer]
      refine ⟨⟨h.crc, h.io, hfile, rfl, ?_, ?_, ?_, ?_⟩, quiet_of_nil rfl, rfl, rfl⟩
      · rw [hfile, hlen, h.flushed]
      · show w.next_lsn = (overwrite w.file w.buffer w.flushed_lsn).length + 0
        rw [hfile, hlen, h.next, add_zero]
      · rw [append_nil]
        exact h.laid
      · rwa [hfile, hlen, ← h.flushed]
    · exact ⟨rfl, by rw [Overfull, ← h.flushed]; exact Nat.lt_of_not_le hroom⟩

theorem append_buffer_length (w : WalManager) (xid : Xid) (record : WalRecord) :
    (w.append xid record).buffer.length = w.buffer.length + record_len record := by
  show (w.buffer ++ encode_record w.crc32 w.next_lsn w.prev_lsn xid record).length = _
  rw [length_append, length_encode_record]

theorem append_extends (h : w.Extends crc32 base fl pend) (hq : w.Quiet) (xid : Xid)
    {record : WalRecord} (hlen : record_len record < 2 ^ 62) : (w.append xid record).Extends crc32 base fl
      (pend ++ [⟨w.next_lsn, w.prev_lsn, xid, record⟩]) := by
  have hnext := h.next
  have hsize := h.size
  have hquiet : w.buffer.length < BUFFER_SIZE / 2 := hq
  have hbuf : (w.append xid record).buffer
      = encode_all crc32 (pend ++ [⟨w.next_lsn, w.prev_lsn, xid, record⟩]) := by
    rw [encode_all_append, ← h.buffer, encode_all_cons]
    show _ = w.buffer ++ (encode_record crc32 w.next_lsn w.prev_lsn xid record ++ [])
    rw [append_nil, ← h.crc]
    rfl
  have hbl := w.append_buffer_length xid record
  refine ⟨h.crc, h.io, h.file, hbuf, h.flushed, ?_, ?_, h.size⟩
  · rw [hbl]
    show (w.next_lsn + record_len record) % 2 ^ 64 = w.file.length + _
    rw [Nat.mod_eq_of_lt (by lia), hnext, add_assoc]
  · rw [← append_assoc, laid_append crc32]
    refine ⟨h.laid, ?_, trivial⟩
    rw [encode_all_append, length_append, ← add_assoc, ← length_append, ← h.file, ← h.buffer, hnext]

/-- **`write_record`.** The new entry ends the log. It stays in the buffer, or everything
buffered goes to the file with it. -/
theorem write_record_extends (h : w.Extends crc32 base fl pend) (hq : w.Quiet) {xid : Xid}
    {record : WalRecord} (hlen : record_len record < 2 ^ 62) : wp (write_record xid record)
      (fun l w' => l = w.next_lsn ∧ w'.Quiet ∧ w'.prev_lsn = w.next_lsn ∧
        (w'.Extends crc32 base fl (pend ++ [⟨w.next_lsn, w.prev_lsn, xid, record⟩])
          ∨ w'.Extends crc32 base (fl ++ (pend ++ [⟨w.next_lsn, w.prev_lsn, xid, record⟩])) []))
      (fun e _ => e = .err .Io ∧ (w.append xid record).Overfull) w := by
  have happ := append_extends h hq xid hlen
  unfold write_record
  rw [wp_bind, wp_get, wp_bind, wp_set]
  split_ifs with hbig
  · refine wp_seq (flush_extends happ) (fun _ _ he => he) ?_
    rintro l w' ⟨hl, hq', -, hp⟩
    exact ⟨rfl, hq', hp, .inr hl⟩
  · exact ⟨rfl, Nat.lt_of_not_le hbig, rfl, .inl happ⟩

/-! A log that holds nothing else: `base` is empty and every entry can be read back. -/

section

variable (h : w.Logged fl pend)
include h

theorem flush_spec : wp flush (fun l w' => w'.Logged (fl ++ pend) [] ∧ w'.Quiet ∧ l = w'.flushed_lsn
        ∧ w'.prev_lsn = w.prev_lsn) (fun e _ => e = .err .Io ∧ w.Overfull) w := by
  refine wp_imp (flush_extends h.extends) ?_
  rintro l w' ⟨hl, hrest⟩
  exact ⟨hl.logged (by rw [append_nil]; exact h.storable), hrest⟩

theorem write_record_spec (hq : w.Quiet) {xid : Xid} {record : WalRecord}
    (hs : Storable record) : wp (write_record xid record)
      (fun l w' => l = w.next_lsn ∧ w'.Quiet ∧ w'.prev_lsn = w.next_lsn ∧
        (w'.Logged fl (pend ++ [⟨w.next_lsn, w.prev_lsn, xid, record⟩])
          ∨ w'.Logged (fl ++ (pend ++ [⟨w.next_lsn, w.prev_lsn, xid, record⟩])) []))
      (fun e _ => e = .err .Io ∧ (w.append xid record).Overfull) w := by
  have hall : ∀ e ∈ fl ++ (pend ++ [⟨w.next_lsn, w.prev_lsn, xid, record⟩]), Storable e.record := by
    intro e he
    rw [← append_assoc, mem_append, mem_singleton] at he
    rcases he with he | rfl
    · exact h.storable e he
    · exact hs
  refine wp_imp (write_record_extends h.extends hq (lt_trans hs.2 (by decide))) ?_
  rintro l w' ⟨hl, hq', hp, hw⟩
  refine ⟨hl, hq', hp, hw.imp (fun hw => hw.logged hall) (fun hw => hw.logged ?_)⟩
  rwa [append_nil]

/-- **Reading the log.** What a reader of the flushed file sees is what was flushed. -/
theorem records_of_logged : w.records = (fl.map seen, none) := by
  have hsize := h.size
  have hdrain := drain_all w.crc32 ((laid_append w.crc32).mp h.laid).1
    (fun e he => h.storable e (mem_append_left _ he)) (by rw [← h.file]; lia)
    (show ([] : List UInt8).length < 34 by decide)
  rw [append_nil] at hdrain
  unfold records read_from
  rw [h.flushed, take_length, h.file]
  by_cases hz : (encode_all w.crc32 fl).length ≤ INVALID_LSN
  · rw [if_pos hz]
    have hnil : encode_all w.crc32 fl = [] := length_eq_zero_iff.mp (Nat.le_zero.mp hz)
    rwa [hnil] at hdrain
  · rwa [if_neg hz, if_pos (le_rfl)]

theorem Logged.reopened : (WalManager.open w.file (fun _ => true) w.crc32).Logged fl [] := by
  have hsize := h.size
  rw [h.file] at hsize ⊢
  exact open_logged w.crc32 (fun _ => rfl) ((laid_append w.crc32).mp h.laid).1
    (fun e he => h.storable e (mem_append_left _ he)) hsize

end

theorem Logged.lsn_lt (h : w.Logged fl []) : ∀ e ∈ fl, e.lsn < 2 ^ 64 := by
  intro e he
  have hlaid := h.laid
  rw [append_nil] at hlaid
  have hlt := (hlaid.bounds w.crc32 e he).2
  have hsize := h.size
  rw [← h.file, zero_add] at hlt
  lia

end WalManager

end Oigrap.Storage
