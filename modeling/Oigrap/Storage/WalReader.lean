/-
The decoder of the log, on bytes it did not write.

`decode_record` checks that a header is complete, that it carries the LSN of its position
and that the length it gives fits. `decode_body` then knows five of the six record types,
checks the length of two of them, and slices. So there are bodies on which it panics, and
the checksum that `build_header` stores is never looked at.

The first section says for which records decoding inverts encoding, the second for which
bytes a call of `next_record` is safe. Both are equivalences; the second is about all calls
of a reader, one after the other, on any file.
-/
import Oigrap.Storage.Wal

namespace Oigrap.Storage

open ByteMem List

/-! ## Encoding and decoding -/

/-- Every field fits its width. -/
def WalRecord.Typed : WalRecord → Prop
  | .HeapUpdate table_id old_page old_slot new_page new_slot old_xmax new_tuple =>
    table_id < 256 ^ 4 ∧ old_page < 256 ^ 8 ∧ old_slot < 256 ^ 2 ∧ new_page < 256 ^ 8
      ∧ new_slot < 256 ^ 2 ∧ old_xmax < 256 ^ 8 ∧ new_tuple.length < 256 ^ 2
  | record => record.Readable

def WalRecord.is_update : WalRecord → Bool
  | .HeapUpdate .. => true
  | _ => false

theorem WalRecord.Typed.readable {record : WalRecord} (h : record.Typed)
    (hu : record.is_update = false) : record.Readable := by
  cases record with
  | HeapUpdate => cases hu
  | HeapInsert | HeapDelete | XactCommit | XactAbort | Checkpoint => exact h

theorem WalRecord.Readable.typed {record : WalRecord} (h : record.Readable) : record.Typed := by
  cases record with
  | HeapUpdate => exact h.elim
  | HeapInsert | HeapDelete | XactCommit | XactAbort | Checkpoint => exact h

/-- The decoder has no case for an update. -/
theorem decode_body_update (record : WalRecord) (hu : record.is_update = true) (body : List UInt8) :
    decode_body (rmgr_and_type record).1 (rmgr_and_type record).2 body
      = .error (.err (.Corruption s!"unknown WAL record type rmgr={RMGR_HEAP} type={HEAP_UPDATE}")) := by
  cases record with
  | HeapUpdate => rfl
  | HeapInsert | HeapDelete | XactCommit | XactAbort | Checkpoint => cases hu

/-- **Decoding what was encoded.** The bytes of a record, followed by anything, decode to the
record, its LSN, its back pointer, its transaction id and its length, exactly if the record
is not an update. -/
theorem decode_record_encode_iff (crc32 : Crc32) {lsn prev_lsn xid : ℕ} {record : WalRecord}
    (hl : lsn < 256 ^ 8) (hp : prev_lsn < 256 ^ 8) (hx : xid < 256 ^ 8) (hr : record.Typed)
    (ht : record_len record < 256 ^ 4) (rest : List UInt8) :
    decode_record (build_header crc32 lsn prev_lsn xid record
        (WAL_HEADER_SIZE + (serialize_body record).length) (serialize_body record)
        ++ serialize_body record ++ rest) lsn
      = .ok (⟨lsn, prev_lsn, xid, record⟩, WAL_HEADER_SIZE + (serialize_body record).length)
    ↔ record.is_update = false := by
  change decode_record (encode_record crc32 lsn prev_lsn xid record ++ rest) lsn = _ ↔ _
  rw [decode_record_of_body hl ht, Nat.mod_eq_of_lt hp, Nat.mod_eq_of_lt hx]
  cases hu : record.is_update with
  | true =>
    rw [decode_body_update record hu]
    exact iff_of_false nofun nofun
  | false =>
    rw [decode_body_serialize (hr.readable hu)]
    exact ⟨fun _ => rfl, fun _ => rfl⟩

/-- A delete of slot 3 of page 7, followed by two bytes of something else. -/
theorem decode_record_encode_iff_delete :
    decode_record (build_header (fun _ => 0) 120 86 5 (.HeapDelete 1 7 3 0) 56
        (serialize_body (.HeapDelete 1 7 3 0)) ++ serialize_body (.HeapDelete 1 7 3 0) ++ [9, 9]) 120
      = .ok (⟨120, 86, 5, .HeapDelete 1 7 3 0⟩, 56) :=
  (@decode_record_encode_iff (fun _ => 0) 120 86 5 (.HeapDelete 1 7 3 0) (by decide) (by decide)
    (by decide) ⟨by decide, by decide, by decide, by decide⟩ (by decide) [9, 9]).mpr rfl

/-- The log writer accepts an update, and no reader gets it back: here the update that moves
slot 0 of page 2 to slot 1 of page 2. -/
theorem heap_update_unreadable :
    decode_record (build_header (fun _ => 0) 0 0 5 (.HeapUpdate 1 2 0 2 1 0 [7])
        (WAL_HEADER_SIZE + (serialize_body (.HeapUpdate 1 2 0 2 1 0 [7])).length)
        (serialize_body (.HeapUpdate 1 2 0 2 1 0 [7]))
        ++ serialize_body (.HeapUpdate 1 2 0 2 1 0 [7])) 0
      = .error (.err (.Corruption "unknown WAL record type rmgr=0 type=1")) := by
  have h := @decode_record_of_body (fun _ => 0) (.HeapUpdate 1 2 0 2 1 0 [7]) 0 (by decide)
    (by decide) 0 5 []
  rwa [decode_body_update _ rfl, append_nil] at h

/-! ## Arbitrary bytes -/

/-- The `w`-byte number at `off`; bytes that are not there count as zero. -/
def field (w : ℕ) (bs : List UInt8) (off : ℕ) : ℕ := le_nat ((bs.drop off).take w)

theorem le_at_of_le {w off : ℕ} {bs : List UInt8} (h : off + w ≤ bs.length) :
    le_at w bs off = .ok (field w bs off) := by
  rw [le_at, slice?, if_pos ⟨Nat.le_add_right _ _, h⟩, Nat.add_sub_cancel_left, field]

theorem le_at_of_lt {w off : ℕ} {bs : List UInt8} (h : bs.length < off + w) :
    le_at w bs off = .error .panic := by
  rw [le_at, slice?, if_neg (by omega)]

theorem slice_of_le {a b : ℕ} {bs : List UInt8} (hab : a ≤ b) (h : b ≤ bs.length) :
    slice bs a b = .ok ((bs.drop a).take (b - a)) := by
  rw [slice, slice?, if_pos ⟨hab, h⟩]

theorem slice_of_lt {a b : ℕ} {bs : List UInt8} (h : bs.length < b) :
    slice bs a b = .error .panic := by
  rw [slice, slice?, if_neg (by omega)]

/-- How many bytes of the body the fields of a record take; `none` for a type the decoder does
not know and for a body its own check refuses. The check on a delete asks for 18 bytes. -/
def demand (rmgr_id record_type : UInt8) (body : List UInt8) : Option ℕ :=
  if rmgr_id = RMGR_HEAP ∧ record_type = HEAP_INSERT then
    if body.length < 16 then none else some (16 + field 2 body 14)
  else if rmgr_id = RMGR_HEAP ∧ record_type = HEAP_DELETE then
    if body.length < 18 then none else some 22
  else if rmgr_id = RMGR_XACT ∧ (record_type = XACT_COMMIT ∨ record_type = XACT_ABORT) then some 8
  else if rmgr_id = RMGR_XACT ∧ record_type = XACT_CHECKPOINT then some (28 + 8 * field 4 body 24)
  else none

/-- An outcome of the decoder on `len` bytes when it needs `need` of them. -/
def Decides {α : Type} (need : Option ℕ) (len : ℕ) (x : Except Fault α) : Prop :=
  match need with
  | none => ∃ e, x = .error (.err e)
  | some n => (n ≤ len → ∃ a, x = .ok a) ∧ (len < n → x = .error .panic)

section

variable (body : List UInt8)

theorem decode_heap_insert_decides :
    Decides (if body.length < 16 then none else some (16 + field 2 body 14)) body.length
      (decode_heap_insert body) := by
  unfold decode_heap_insert
  by_cases h : body.length < 16
  · rw [if_pos h, if_pos h]
    exact ⟨_, rfl⟩
  · rw [if_neg h, if_neg h, le_at_of_le (by omega), le_at_of_le (by omega), le_at_of_le (by omega),
      le_at_of_le (by omega)]
    simp only [bind, Except.bind]
    refine ⟨fun hn => ?_, fun hn => ?_⟩
    · rw [slice_of_le (Nat.le_add_right _ _) hn]
      exact ⟨_, rfl⟩
    · rw [slice_of_lt hn]

theorem decode_heap_delete_decides :
    Decides (if body.length < 18 then none else some 22) body.length (decode_heap_delete body) := by
  unfold decode_heap_delete
  by_cases h : body.length < 18
  · rw [if_pos h, if_pos h]
    exact ⟨_, rfl⟩
  · rw [if_neg h, if_neg h, le_at_of_le (by omega), le_at_of_le (by omega), le_at_of_le (by omega)]
    simp only [bind, Except.bind]
    refine ⟨fun hn => ?_, fun hn => ?_⟩
    · rw [le_at_of_le (by omega)]
      exact ⟨_, rfl⟩
    · rw [le_at_of_lt (by omega)]

theorem decode_timestamp_decides (c : ℕ → WalRecord) :
    Decides (some 8) body.length (c <$> le_at 8 body 0) := by
  refine ⟨fun hn => ?_, fun hn => ?_⟩
  · rw [le_at_of_le (by omega)]
    exact ⟨_, rfl⟩
  · rw [le_at_of_lt (by omega)]
    rfl

/-- The ids of a checkpoint are read if all of them are there. -/
theorem decode_xids_decides (n off : ℕ) (h : off ≤ body.length) :
    Decides (some (off + 8 * n)) body.length (decode_xids body n off) := by
  induction n generalizing off with
  | zero => exact ⟨fun _ => ⟨_, rfl⟩, fun hn => by omega⟩
  | succ n ih =>
    rw [decode_xids]
    by_cases hx : off + 8 ≤ body.length
    · obtain ⟨hok, hpanic⟩ := ih (off + 8) hx
      rw [le_at_of_le hx]
      simp only [bind, Except.bind]
      refine ⟨fun hn => ?_, fun hn => ?_⟩
      · obtain ⟨xs, hxs⟩ := hok (by omega)
        rw [hxs]
        exact ⟨_, rfl⟩
      · rw [hpanic (by omega)]
    · rw [le_at_of_lt (by omega)]
      exact ⟨fun hn => by omega, fun _ => rfl⟩

theorem decode_checkpoint_decides :
    Decides (some (28 + 8 * field 4 body 24)) body.length (decode_checkpoint body) := by
  unfold decode_checkpoint
  by_cases h : 28 ≤ body.length
  · obtain ⟨hok, hpanic⟩ := decode_xids_decides body (field 4 body 24) 28 h
    rw [le_at_of_le (by omega), le_at_of_le (by omega), le_at_of_le (by omega),
      le_at_of_le (by omega)]
    simp only [bind, Except.bind]
    refine ⟨fun hn => ?_, fun hn => ?_⟩
    · obtain ⟨xs, hxs⟩ := hok hn
      rw [hxs]
      exact ⟨_, rfl⟩
    · rw [hpanic hn]
  · refine ⟨fun hn => by omega, fun _ => ?_⟩
    -- whichever field is cut off, reading it panics
    rw [@le_at_of_lt 4 24 body (by omega)]
    by_cases h8 : 8 ≤ body.length
    · rw [le_at_of_le (by omega)]
      by_cases h16 : 16 ≤ body.length
      · rw [le_at_of_le (by omega)]
        by_cases h24 : 24 ≤ body.length
        · rw [le_at_of_le (by omega)]
          rfl
        · rw [le_at_of_lt (by omega)]
          rfl
      · rw [@le_at_of_lt 8 8 body (by omega)]
        rfl
    · rw [@le_at_of_lt 8 0 body (by omega)]
      rfl

end

/-- **The decoder of a body.** It reports what it refuses, reads what is complete, and panics
on a body it accepted that is shorter than its fields. -/
theorem decode_body_decides (rmgr_id record_type : UInt8) (body : List UInt8) :
    Decides (demand rmgr_id record_type body) body.length
      (decode_body rmgr_id record_type body) := by
  unfold demand decode_body
  by_cases h1 : rmgr_id = RMGR_HEAP ∧ record_type = HEAP_INSERT
  · rw [if_pos h1, if_pos h1]
    exact decode_heap_insert_decides body
  rw [if_neg h1, if_neg h1]
  by_cases h2 : rmgr_id = RMGR_HEAP ∧ record_type = HEAP_DELETE
  · rw [if_pos h2, if_pos h2]
    exact decode_heap_delete_decides body
  rw [if_neg h2, if_neg h2]
  by_cases h3 : rmgr_id = RMGR_XACT ∧ record_type = XACT_COMMIT
  · rw [if_pos ⟨h3.1, .inl h3.2⟩, if_pos h3]
    exact decode_timestamp_decides body _
  rw [if_neg h3]
  by_cases h4 : rmgr_id = RMGR_XACT ∧ record_type = XACT_ABORT
  · rw [if_pos ⟨h4.1, .inr h4.2⟩, if_pos h4]
    exact decode_timestamp_decides body _
  rw [if_neg h4, if_neg (fun h => h.2.elim (fun h' => h3 ⟨h.1, h'⟩) (fun h' => h4 ⟨h.1, h'⟩))]
  by_cases h5 : rmgr_id = RMGR_XACT ∧ record_type = XACT_CHECKPOINT
  · rw [if_pos h5, if_pos h5]
    exact decode_checkpoint_decides body
  rw [if_neg h5, if_neg h5]
  exact ⟨_, rfl⟩

/-! ### Frames -/

/-- The header is complete, it carries the LSN of its position and its length fits. -/
def Framed (data : List UInt8) (lsn : Lsn) : Prop :=
  WAL_HEADER_SIZE ≤ data.length ∧ field 8 data 0 = lsn ∧ WAL_HEADER_SIZE ≤ field 4 data 26
    ∧ field 4 data 26 ≤ data.length

instance (data : List UInt8) (lsn : Lsn) : Decidable (Framed data lsn) :=
  inferInstanceAs (Decidable (_ ∧ _))

def frame_body (data : List UInt8) : List UInt8 :=
  (data.drop WAL_HEADER_SIZE).take (field 4 data 26 - WAL_HEADER_SIZE)

/-- How many bytes of the body the record at the front of the data needs; `none` if the
decoder refuses it. -/
def frame_demand (data : List UInt8) (lsn : Lsn) : Option ℕ :=
  if Framed data lsn then demand (data.getD 24 0) (data.getD 25 0) (frame_body data) else none

/-- The stored checksum is the checksum of the header, its own field zeroed, and the body. -/
def ChecksumOk (sum : List UInt8 → UInt32) (data : List UInt8) : Prop :=
  field 4 data 30 = (sum (data.take 30 ++ le_bytes 4 0 ++ frame_body data)).toNat

instance (sum : List UInt8 → UInt32) (data : List UInt8) : Decidable (ChecksumOk sum data) :=
  inferInstanceAs (Decidable (_ = _))

/-- A record the decoder accepts has all of its fields inside its body, and the right
checksum. -/
def Sane (sum : List UInt8 → UInt32) (data : List UInt8) (lsn : Lsn) : Prop :=
  ∀ n, frame_demand data lsn = some n → n ≤ (frame_body data).length ∧ ChecksumOk sum data

/-- The positions where records start: after a complete record comes the next one. -/
inductive Reached (data : List UInt8) (base_lsn : Lsn) : ℕ → Prop
  | start : Reached data base_lsn 0
  | next {p n : ℕ} : Reached data base_lsn p → frame_demand (data.drop p) (base_lsn + p) = some n →
      n ≤ (frame_body (data.drop p)).length →
      Reached data base_lsn (p + field 4 (data.drop p) 26)

variable {data : List UInt8}

theorem slice_byte {i : ℕ} (h : i < data.length) :
    slice data i (i + 1) = .ok [data.getD i 0] := by
  rw [slice_of_le (Nat.le_add_right i 1) h, Nat.add_sub_cancel_left, drop_eq_getElem_cons h,
    take_succ_cons, take_zero, getD_eq_getElem _ _ h]

/-- The fields of a complete header are all there; the checks follow. -/
theorem decode_record_header (lsn : Lsn) (h : 34 ≤ data.length) :
    decode_record data lsn = if field 8 data 0 ≠ lsn then
          throw (.err (.Corruption s!"WAL LSN mismatch: expected {lsn}, got {field 8 data 0}"))
        else if field 4 data 26 < 34 ∨ data.length < field 4 data 26 then
          throw (.err (.Corruption "truncated WAL record body"))
        else do
          let body ← slice data 34 (field 4 data 26)
          let record ← decode_body (data.getD 24 0) (data.getD 25 0) body
          return (⟨lsn, field 8 data 8, field 8 data 16, record⟩, field 4 data 26) := by
  unfold decode_record
  rw [if_neg (not_lt.mpr h), le_at_of_le (by omega), le_at_of_le (by omega),
    le_at_of_le (by omega), slice_byte (by omega), slice_byte (by omega), le_at_of_le (by omega)]
  rfl

theorem decode_record_framed {lsn : Lsn} (h : Framed data lsn) :
    decode_record data lsn
      = (fun r => (⟨lsn, field 8 data 8, field 8 data 16, r⟩, field 4 data 26)) <$>
        decode_body (data.getD 24 0) (data.getD 25 0) (frame_body data) := by
  obtain ⟨hlen, hlsn, hmin, hfit⟩ := h
  have hchecks : ¬ (field 4 data 26 < 34 ∨ data.length < field 4 data 26) :=
    not_or.mpr ⟨not_lt.mpr hmin, not_lt.mpr hfit⟩
  rw [decode_record_header lsn hlen, if_neg (not_not.mpr hlsn), if_neg hchecks,
    slice_of_le hmin hfit]
  rfl

theorem decode_record_unframed {lsn : Lsn} (h : ¬ Framed data lsn) :
    ∃ e, decode_record data lsn = .error (.err e) := by
  by_cases hlen : 34 ≤ data.length
  · rw [decode_record_header lsn hlen]
    by_cases hlsn : field 8 data 0 ≠ lsn
    · rw [if_pos hlsn]
      exact ⟨_, rfl⟩
    · -- the one check that is left has to be the failing one
      have hfit : field 4 data 26 < 34 ∨ data.length < field 4 data 26 := by
        by_contra hfit
        obtain ⟨hmin, hmax⟩ := not_or.mp hfit
        exact h ⟨hlen, not_not.mp hlsn, not_lt.mp hmin, not_lt.mp hmax⟩
      rw [if_neg hlsn, if_pos hfit]
      exact ⟨_, rfl⟩
  · unfold decode_record
    rw [if_pos (Nat.lt_of_not_le hlen)]
    exact ⟨_, rfl⟩

/-! ### The reader -/

namespace WalReader

/-- The reader after a call of `next_record`. -/
def advance (r : WalReader) : WalReader :=
  match r.next_record with
  | none => r
  | some (_, r') => r'

/-- A call that returns `None`, `Err`, or a record with the right checksum. -/
def CallSafe (sum : List UInt8 → UInt32) (r : WalReader) : Prop :=
  match r.next_record with
  | none => True
  | some (.ok _, _) => ChecksumOk sum (r.data.drop r.pos)
  | some (.error (.err _), _) => True
  | some (.error _, _) => False

variable (r : WalReader)

/-- What one call can do, by what stands at the reader's position. -/
theorem next_record_cases :
    (frame_demand (r.data.drop r.pos) (r.base_lsn + r.pos) = none
        ∧ (r.next_record = none ∨ ∃ e, r.next_record = some (.error (.err e), r)))
    ∨ ∃ n, frame_demand (r.data.drop r.pos) (r.base_lsn + r.pos) = some n
      ∧ ((n ≤ (frame_body (r.data.drop r.pos)).length ∧ ∃ d, r.next_record
                = some (.ok d, { r with pos := r.pos + field 4 (r.data.drop r.pos) 26 }))
        ∨ ((frame_body (r.data.drop r.pos)).length < n
            ∧ r.next_record = some (.error .panic, r))) := by
  unfold frame_demand next_record
  by_cases hf : Framed (r.data.drop r.pos) (r.base_lsn + r.pos)
  · have hlen : ¬ r.pos + WAL_HEADER_SIZE > r.data.length := by
      have hmin : 34 ≤ (r.data.drop r.pos).length := hf.1
      rw [length_drop] at hmin
      show ¬ r.pos + 34 > r.data.length
      omega
    rw [if_pos hf, if_neg hlen, decode_record_framed hf]
    have hbody := decode_body_decides ((r.data.drop r.pos).getD 24 0)
      ((r.data.drop r.pos).getD 25 0) (frame_body (r.data.drop r.pos))
    cases hd : demand ((r.data.drop r.pos).getD 24 0) ((r.data.drop r.pos).getD 25 0)
        (frame_body (r.data.drop r.pos)) with
    | none =>
      rw [hd] at hbody
      obtain ⟨e, he⟩ := hbody
      rw [he]
      exact .inl ⟨rfl, .inr ⟨e, rfl⟩⟩
    | some n =>
      rw [hd] at hbody
      obtain ⟨hok, hpanic⟩ := hbody
      refine .inr ⟨n, rfl, ?_⟩
      by_cases hn : n ≤ (frame_body (r.data.drop r.pos)).length
      · obtain ⟨d, hd⟩ := hok hn
        rw [hd]
        exact .inl ⟨hn, _, rfl⟩
      · rw [hpanic (Nat.lt_of_not_le hn)]
        exact .inr ⟨Nat.lt_of_not_le hn, rfl⟩
  · rw [if_neg hf]
    refine .inl ⟨rfl, ?_⟩
    by_cases hlen : r.pos + WAL_HEADER_SIZE > r.data.length
    · exact .inl (if_pos hlen)
    · obtain ⟨e, he⟩ := decode_record_unframed hf
      rw [if_neg hlen, he]
      exact .inr ⟨e, rfl⟩

theorem callSafe_iff (sum : List UInt8 → UInt32) :
    r.CallSafe sum ↔ Sane sum (r.data.drop r.pos) (r.base_lsn + r.pos) := by
  unfold CallSafe Sane
  obtain ⟨hnone, hcall⟩ | ⟨n, hsome, ⟨hn, d, hcall⟩ | ⟨hn, hcall⟩⟩ := r.next_record_cases
  · rw [hnone]
    obtain hcall | ⟨e, hcall⟩ := hcall <;> rw [hcall] <;> exact iff_of_true trivial nofun
  · rw [hcall, hsome]
    simp only [Option.some.injEq, forall_eq']
    exact ⟨fun h => ⟨hn, h⟩, fun h => h.2⟩
  · rw [hcall, hsome]
    simp only [Option.some.injEq, forall_eq']
    exact iff_of_false id (fun h => Nat.not_le_of_lt hn h.1)

/-- One call moves the reader past a complete record, or leaves it where it is. -/
theorem advance_reached (h : Reached r.data r.base_lsn r.pos) :
    Reached r.data r.base_lsn r.advance.pos ∧ r.advance = { r with pos := r.advance.pos } := by
  unfold advance
  obtain ⟨-, hcall⟩ | ⟨n, hsome, ⟨hn, d, hcall⟩ | ⟨-, hcall⟩⟩ := r.next_record_cases
  · obtain hcall | ⟨e, hcall⟩ := hcall <;> rw [hcall] <;> exact ⟨h, rfl⟩
  · rw [hcall]
    exact ⟨h.next hsome hn, rfl⟩
  · rw [hcall]
    exact ⟨h, rfl⟩

end WalReader

open WalReader in
theorem iterate_advance_reached (data : List UInt8) (base_lsn : Lsn) (k : ℕ) :
    ∃ p, Reached data base_lsn p ∧ advance^[k] ⟨data, 0, base_lsn⟩ = ⟨data, p, base_lsn⟩ := by
  induction k with
  | zero => exact ⟨0, .start, rfl⟩
  | succ k ih =>
    obtain ⟨p, hp, hk⟩ := ih
    obtain ⟨hp', hadv⟩ := advance_reached ⟨data, p, base_lsn⟩ hp
    refine ⟨_, hp', ?_⟩
    rwa [Function.iterate_succ_apply', hk]

open WalReader in
theorem Reached.exists_iterate {base_lsn : Lsn} {p : ℕ} (h : Reached data base_lsn p) :
    ∃ k, advance^[k] ⟨data, 0, base_lsn⟩ = ⟨data, p, base_lsn⟩ := by
  induction h with
  | start => exact ⟨0, rfl⟩
  | @next p n hp hsome hn ih =>
    obtain ⟨k, hk⟩ := ih
    refine ⟨k + 1, ?_⟩
    rw [Function.iterate_succ_apply', hk, advance]
    obtain ⟨hnone, -⟩ | ⟨m, hm, ⟨-, d, hcall⟩ | ⟨hlt, -⟩⟩ :=
      next_record_cases ⟨data, p, base_lsn⟩
    · exact absurd (hnone.symm.trans hsome) nofun
    · rw [hcall]
    · -- a record whose fields fit does not panic
      obtain rfl := Option.some.inj (hm.symm.trans hsome)
      exact absurd hn (Nat.not_le_of_lt hlt)

/-- **Reading any file.** From any start LSN, all calls of `next_record` return, and return
only records whose checksum is right, exactly if every record the decoder accepts has its
fields inside its body and the right checksum. -/
theorem next_record_safe_iff (sum : List UInt8 → UInt32) (file : List UInt8) (io : ℕ → Bool)
    (start_lsn : Lsn) : ∃ r, (WalManager.open file io sum).read_from start_lsn = .ok r
      ∧ ((∀ k, (WalReader.advance^[k] r).CallSafe sum)
        ↔ ∀ p, Reached (file.drop start_lsn) start_lsn p →
            Sane sum ((file.drop start_lsn).drop p) (start_lsn + p)) := by
  refine ⟨⟨file.drop start_lsn, 0, start_lsn⟩, ?_, fun h p hp => ?_, fun h k => ?_⟩
  · unfold WalManager.read_from WalManager.open
    by_cases hs : file.length ≤ start_lsn
    · rw [if_pos hs, drop_eq_nil_of_le hs]
    · rw [if_neg hs, if_pos (le_rfl), take_length]
  · obtain ⟨k, hk⟩ := hp.exists_iterate
    have hsafe := h k
    rw [hk] at hsafe
    exact (WalReader.callSafe_iff _ sum).mp hsafe
  · obtain ⟨p, hp, hk⟩ := iterate_advance_reached (file.drop start_lsn) start_lsn k
    rw [hk]
    exact (WalReader.callSafe_iff _ sum).mpr (h p hp)

/-- The frame of a commit record of transaction 5 with the length `len` and the checksum `sum`,
then `body`. -/
def commit_frame (sum len : ℕ) (body : List UInt8) : List UInt8 :=
  header_bytes 0 0 5 (.XactCommit 0) len sum ++ body

/-- Whatever the checksum function, a commit record with a wrong checksum is returned; a commit
record that ends after its header makes the call panic. -/
theorem corruption_unreported :
    (∀ crc32 : Crc32, ∃ sum r d r',
      (WalManager.open (commit_frame sum 42 (le_bytes 8 77)) (fun _ => true) crc32).read_from 0 = .ok r
        ∧ r.next_record = some (.ok d, r') ∧ ¬ ChecksumOk crc32 (r.data.drop r.pos))
    ∧ ∃ r, (WalManager.open (commit_frame 0 34 []) (fun _ => true) fun _ => 0).read_from 0 = .ok r
        ∧ r.next_record = some (.error .panic, r) := by
  refine ⟨fun crc32 => ?_, ⟨commit_frame 0 34 [], 0, 0⟩, rfl, rfl⟩
  -- the same frame is returned with the checksums 0 and 1, and they cannot both be right
  have hzeroed : ∀ sum ∈ [0, 1], field 4 (commit_frame sum 42 (le_bytes 8 77)) 30 = sum
      ∧ (commit_frame sum 42 (le_bytes 8 77)).take 30 ++ le_bytes 4 0
        ++ frame_body (commit_frame sum 42 (le_bytes 8 77)) = commit_frame 0 42 (le_bytes 8 77) := by
    decide +kernel
  have hwrong : ∀ sum ∈ [0, 1], sum ≠ (crc32 (commit_frame 0 42 (le_bytes 8 77))).toNat →
      ¬ ChecksumOk crc32 (commit_frame sum 42 (le_bytes 8 77)) := by
    intro sum hsum hne hok
    obtain ⟨hfield, hbytes⟩ := hzeroed sum hsum
    rw [ChecksumOk, hfield, hbytes] at hok
    exact hne hok
  by_cases hc : (crc32 (commit_frame 0 42 (le_bytes 8 77))).toNat = 0
  · exact ⟨1, ⟨_, 0, 0⟩, ⟨0, 0, 5, .XactCommit 77⟩, ⟨_, 42, 0⟩, rfl, rfl,
      hwrong 1 (by decide) (by rw [hc]; decide)⟩
  · exact ⟨0, ⟨_, 0, 0⟩, ⟨0, 0, 5, .XactCommit 77⟩, ⟨_, 42, 0⟩, rfl, rfl,
      hwrong 0 (by decide) (Ne.symm hc)⟩

end Oigrap.Storage
