/-
Runs of a log manager: any sequence of `write_record` and `flush` calls.

The writer's side is one invariant, `WalManager.Extends`: behind the bytes a manager found
in its file stand the entries it wrote, the last of them still in the buffer. The reader's
side is `drain_encode_all`. Two results come from putting them together.

On a new file, reading from any LSN that `write_record` returned gives the flushed entries
from there on. On a file that is reopened after a torn write, the append position is the end
of the file, torn bytes included, while the reader expects a record where they start; so the
log goes on being readable only if nothing was torn, or nothing is written any more.
-/
import Oigrap.Storage.WalReader

namespace Oigrap.Storage

open ByteMem Wp WalManager List
open WalReader (drain next_record)

/-! ## Calls -/

inductive WalCall where
  | write (xid : Xid) (record : WalRecord)
  | flush

namespace WalManager

/-- The calls one after the other, up to the first that fails; the LSNs the writes returned. -/
def run : List WalCall → WalM (List Lsn)
  | [] => pure []
  | .write xid record :: cs => do
    let lsn ← write_record xid record
    let lsns ← run cs
    return lsn :: lsns
  | .flush :: cs => do
    let _ ← flush
    run cs

end WalManager

variable (cs : List WalCall) (prev_lsn : Lsn) (lsns : List Lsn) (ws : List (Xid × WalRecord))
  {data : List UInt8}

/-- What the calls write. -/
def writes : List (Xid × WalRecord) :=
  cs.filterMap fun
    | .write xid record => some (xid, record)
    | .flush => none

/-- The entries of writes that returned `lsns`; each names the one before it. -/
def entries : Lsn → List Lsn → List (Xid × WalRecord) → List DecodedRecord
  | prev_lsn, lsn :: lsns, (xid, record) :: ws => ⟨lsn, prev_lsn, xid, record⟩ :: entries lsn lsns ws
  | _, _, _ => []

/-- The bytes the calls append. -/
def bytes : ℕ := ((writes cs).map fun w => record_len w.2).sum

/-- A value of the source's type: a 64-bit transaction id and a record whose fields fit. -/
def TypedWrite (w : Xid × WalRecord) : Prop := w.1 < 256 ^ 8 ∧ w.2.Typed

theorem entries_lsn (h : lsns.length = ws.length)
    : (entries prev_lsn lsns ws).map (·.lsn) = lsns := by
  induction lsns generalizing prev_lsn ws with
  | nil => rfl
  | cons lsn lsns ih =>
    cases ws with
    | nil => cases h
    | cons w ws => exact congrArg (lsn :: ·) (ih lsn ws (Nat.succ.inj h))

theorem entries_record (h : lsns.length = ws.length) :
    (entries prev_lsn lsns ws).map (fun e => (e.xid, e.record)) = ws := by
  induction lsns generalizing prev_lsn ws with
  | nil =>
    cases ws with
    | nil => rfl
    | cons w ws => cases h
  | cons lsn lsns ih =>
    cases ws with
    | nil => cases h
    | cons w ws => exact congrArg (w :: ·) (ih lsn ws (Nat.succ.inj h))

theorem length_encode_entries (crc32 : Crc32) (h : lsns.length = ws.length) :
    (encode_all crc32 (entries prev_lsn lsns ws)).length = (ws.map fun w => record_len w.2).sum := by
  rw [← entries_record prev_lsn lsns ws h, map_map, encode_all, length_flatMap]
  simp only [length_encode_record]
  rw [entries_record prev_lsn lsns ws h]
  rfl

variable {crc32 : Crc32} {e : DecodedRecord} {w : WalManager} {base : List UInt8} {fl pend es : List DecodedRecord}
  {xs : List Xid}

/-- A back pointer is the given one or the LSN of another entry. -/
theorem entries_prev {prev_lsn : Lsn} {lsns : List Lsn} {ws : List (Xid × WalRecord)}
    (he : e ∈ entries prev_lsn lsns ws) :
    e.prev_lsn = prev_lsn ∨ ∃ e' ∈ entries prev_lsn lsns ws, e.prev_lsn = e'.lsn := by
  induction lsns generalizing prev_lsn ws with
  | nil => cases he
  | cons lsn lsns ih =>
    cases ws with
    | nil => cases he
    | cons w ws =>
      rcases mem_cons.mp he with rfl | he
      · exact .inl rfl
      · rcases ih he with hp | ⟨e', he', hp⟩
        · exact .inr ⟨_, mem_cons_self, hp⟩
        · exact .inr ⟨e', mem_cons_of_mem _ he', hp⟩

theorem WalManager.Extends.length_eq (h : w.Extends crc32 base fl pend) :
    w.file.length + w.buffer.length = base.length + (encode_all crc32 (fl ++ pend)).length := by
  rw [h.file, h.buffer, encode_all_append, length_append, length_append, add_assoc]

/-- **What a run appends.** Behind whatever the manager held stand the entries of the run's
writes; a run stops only because the file would get too large. -/
theorem run_extends (hlen : ∀ x ∈ writes cs, record_len x.2 < 2 ^ 62) :
    ∀ {w : WalManager} {fl pend : List DecodedRecord}, w.Extends crc32 base fl pend → w.Quiet →
      wp (run cs) (fun lsns w' => lsns.length = (writes cs).length ∧ w'.Quiet
          ∧ ∃ fl' pend', w'.Extends crc32 base fl' pend'
            ∧ fl' ++ pend' = (fl ++ pend) ++ entries w.prev_lsn lsns (writes cs))
        (fun e _ => e = .err .Io ∧ MAX_FILE_SIZE < w.file.length + w.buffer.length + bytes cs) w := by
  induction cs with
  | nil =>
    intro w fl pend h hq
    exact ⟨rfl, hq, fl, pend, h, (append_nil _).symm⟩
  | cons c cs ih =>
    intro w fl pend h hq
    have hw := h.length_eq
    cases c with
    | flush =>
      rw [run]
      refine wp_seq (flush_extends h) ?_ ?_
      · rintro e w' ⟨rfl, hover⟩
        exact ⟨rfl, lt_of_lt_of_le hover (Nat.le_add_right _ _)⟩
      · rintro l w' ⟨h', hq', -, hp⟩
        have hw' := h'.length_eq
        rw [append_nil] at hw'
        refine wp_mono (ih hlen h' hq') ?_ ?_
        · rintro lsns w'' ⟨hcount, hq'', fl', pend', h'', heq⟩
          rw [append_nil, hp] at heq
          exact ⟨hcount, hq'', fl', pend', h'', heq⟩
        · rintro e w'' ⟨rfl, hover⟩
          rw [hw', ← hw] at hover
          exact ⟨rfl, hover⟩
    | write xid record =>
      have hrec : record_len record < 2 ^ 62 := hlen (xid, record) mem_cons_self
      have hcs : ∀ x ∈ writes cs, record_len x.2 < 2 ^ 62 :=
        fun x hx => hlen x (mem_cons_of_mem _ hx)
      have hsum : bytes (.write xid record :: cs) = record_len record + bytes cs := rfl
      refine wp_seq (write_record_extends h hq hrec) ?_ ?_
      · rintro e w' ⟨rfl, hover⟩
        rw [Overfull, append_buffer_length] at hover
        change MAX_FILE_SIZE < w.file.length + _ at hover
        exact ⟨rfl, by rw [hsum]; omega⟩
      · rintro l w' ⟨rfl, hq', hp, hcase⟩
        -- in the buffer or in the file, the new entry comes last
        obtain ⟨fl1, pend1, h1, heq1⟩ : ∃ fl1 pend1, w'.Extends crc32 base fl1 pend1 ∧ fl1 ++ pend1
            = (fl ++ pend) ++ [⟨w.next_lsn, w.prev_lsn, xid, record⟩] := by
          rcases hcase with h1 | h1
          · exact ⟨_, _, h1, (append_assoc _ _ _).symm⟩
          · exact ⟨_, _, h1, by rw [append_nil, append_assoc]⟩
        have hw' := h1.length_eq
        rw [heq1, encode_all_append, length_append, encode_all_cons, length_append,
          length_encode_record] at hw'
        refine wp_seq (ih hcs h1 hq') ?_ ?_
        · rintro e w'' ⟨rfl, hover⟩
          refine ⟨rfl, ?_⟩
          change _ = _ + (_ + (record_len record + 0)) at hw'
          omega
        · rintro lsns w'' ⟨hcount, hq'', fl', pend', h'', heq⟩
          refine ⟨congrArg Nat.succ hcount, hq'', fl', pend', h'', ?_⟩
          rw [heq, heq1, append_assoc, hp]
          rfl

/-! ## Reading back -/

/-- A scan from `start_lsn` on: the records, and the failure that ends it, if any. -/
def WalManager.read_all (w : WalManager) (start_lsn : Lsn) : List DecodedRecord × Option Fault :=
  match w.read_from start_lsn with
  | .ok r => r.drain (r.data.length + 1)
  | .error e => ([], some e)

/-- All bytes of the file are flushed, so a scan reads to its end. -/
theorem read_all_eq (h : w.flushed_lsn = w.file.length) (start_lsn : Lsn) :
    w.read_all start_lsn = drain ((w.file.drop start_lsn).length + 1)
      ⟨w.file.drop start_lsn, 0, start_lsn⟩ := by
  unfold read_all read_from
  rw [h, take_length]
  by_cases hs : w.file.length ≤ start_lsn
  · rw [if_pos hs, drop_eq_nil_of_le hs]
  · rw [if_neg hs, if_pos (le_rfl)]

variable {es' : List DecodedRecord}

theorem read_all_entry (h : w.Extends crc32 [] (es ++ e :: es') pend)
    (hs : ∀ x ∈ e :: es', Storable x.record) : w.read_all e.lsn = ((e :: es').map seen, none) := by
  have hlaid := ((laid_append crc32).mp ((laid_append crc32).mp h.laid).1).2
  have hlsn : e.lsn = (encode_all crc32 es).length := hlaid.1.trans (zero_add _)
  have hfile : w.file = encode_all crc32 es ++ encode_all crc32 (e :: es') := by
    rw [h.file, encode_all_append, nil_append]
  have hsize := h.size
  rw [hfile, length_append] at hsize
  have hdrain := drain_all crc32 hlaid hs (by simp only [length_nil]; lia)
    (show ([] : List UInt8).length < 34 by decide)
  rw [append_nil] at hdrain
  rw [read_all_eq h.flushed, hfile, hlsn, drop_left]
  exact (zero_add (encode_all crc32 es).length ▸ hdrain :)

/-- The entries of a log laid end to end that start between an entry and the end of the
file. -/
theorem filter_laid (h : Laid 0 (es ++ e :: es' ++ pend)) :
    (es ++ e :: es' ++ pend).filter
        (fun x => e.lsn ≤ x.lsn ∧ x.lsn < (encode_all crc32 (es ++ e :: es')).length) = e :: es' := by
  obtain ⟨hfl, hpend⟩ := (laid_append crc32).mp h
  obtain ⟨hes, he⟩ := (laid_append crc32).mp hfl
  have hlsn : e.lsn = 0 + (encode_all crc32 es).length := he.1
  have hlen : (encode_all crc32 (es ++ e :: es')).length
      = (encode_all crc32 es).length + (encode_all crc32 (e :: es')).length := by
    rw [encode_all_append, length_append]
  rw [filter_append, filter_append, (filter_eq_nil_iff (l := es)).mpr fun x hx => ?_,
    filter_eq_self.mpr fun x hx => ?_, (filter_eq_nil_iff (l := pend)).mpr fun x hx => ?_, append_nil,
    nil_append]
  all_goals rw [decide_eq_true_eq]
  · have := hpend.le_lsn x hx
    lia
  · obtain ⟨h1, h2⟩ := he.bounds crc32 x hx
    lia
  · have := (hes.bounds crc32 x hx).2
    lia

/-- An entry as a file can hold one: the ids are 64-bit numbers, the fields of the record fit
and its length can be stored. -/
def DecodedRecord.Typed (e : DecodedRecord) : Prop :=
  e.prev_lsn < 256 ^ 8 ∧ e.xid < 256 ^ 8 ∧ e.record.Typed ∧ record_len e.record < 256 ^ 4

theorem DecodedRecord.Typed.storable (h : e.Typed) (hu : e.record.is_update = false) :
    Storable e.record :=
  ⟨h.2.2.1.readable hu, h.2.2.2⟩

theorem DecodedRecord.Typed.seen_eq (h : e.Typed) : seen e = e := by
  rw [seen, Nat.mod_eq_of_lt h.1, Nat.mod_eq_of_lt h.2.1]

theorem map_seen (h : ∀ e ∈ es, e.Typed) : es.map seen = es :=
  (map_congr_left fun e he => (h e he).seen_eq).trans (map_id _)

/-- The entries of calls on a manager that has room for them. -/
theorem entries_typed {cs : List WalCall} {lsns : List Lsn}
    (hcs : ∀ x ∈ writes cs, TypedWrite x ∧ record_len x.2 < 256 ^ 4)
    (hcount : lsns.length = (writes cs).length) (h : w.Extends crc32 base fl pend) (hq : w.Quiet)
    (heq : fl ++ pend = entries INVALID_LSN lsns (writes cs)) : ∀ e ∈ fl ++ pend, e.Typed := by
  have hbound : ∀ e ∈ fl ++ pend, e.lsn < 256 ^ 8 := by
    intro e he
    have hsize := h.size
    have hquiet : w.buffer.length < BUFFER_SIZE / 2 := hq
    have hlt := (h.laid.bounds crc32 e he).2
    rw [← h.length_eq] at hlt
    lia
  intro e he
  have hw : (e.xid, e.record) ∈ writes cs := by
    rw [← entries_record INVALID_LSN lsns (writes cs) hcount, ← heq]
    exact mem_map_of_mem he
  refine ⟨?_, (hcs _ hw).1.1, (hcs _ hw).1.2, (hcs _ hw).2⟩
  rw [heq] at he hbound
  rcases entries_prev he with hp | ⟨e', he', hp⟩
  · rw [hp]
    decide
  · rw [hp]
    exact hbound e' he'

/-- **Writer and reader agree.** After any calls on a new log the next LSN is the flushed one
plus what is buffered, the LSNs returned increase, and a scan from any of them that is flushed
gives the flushed entries from it on: with the LSNs that were returned, each naming the one
before it. A call fails only if the file would exceed what a file can hold. -/
theorem run_read_back {io : ℕ → Bool} (crc32 : Crc32) (hio : ∀ n, io n = true) {cs : List WalCall}
    (hcs : ∀ x ∈ writes cs, x.1 < 256 ^ 8 ∧ Storable x.2) : wp (run cs)
      (fun lsns w => w.next_lsn = w.flushed_lsn + w.buffer.length
        ∧ lsns.length = (writes cs).length ∧ lsns.Pairwise (· < ·)
        ∧ ∀ l ∈ lsns, l < w.flushed_lsn → w.read_all l
          = ((entries INVALID_LSN lsns (writes cs)).filter
              (fun e => l ≤ e.lsn ∧ e.lsn < w.flushed_lsn), none))
      (fun e _ => e = .err .Io ∧ MAX_FILE_SIZE < bytes cs) (create io crc32) := by
  have hlen : ∀ x ∈ writes cs, record_len x.2 < 2 ^ 62 :=
    fun x hx => lt_trans (hcs x hx).2.2 (by decide)
  refine wp_mono (run_extends cs hlen (create_logged hio).extends (quiet_of_nil rfl)) ?_ ?_
  · rintro lsns w ⟨hcount, hq, fl, pend, h, heq⟩
    change fl ++ pend = entries INVALID_LSN lsns (writes cs) at heq
    change w.Extends crc32 [] fl pend at h
    have hlsns := entries_lsn INVALID_LSN lsns (writes cs) hcount
    rw [← heq] at hlsns ⊢
    have hst : ∀ e ∈ fl ++ pend, Storable e.record := by
      intro e he
      refine (hcs (e.xid, e.record) ?_).2
      rw [← entries_record INVALID_LSN lsns (writes cs) hcount, ← heq]
      exact mem_map_of_mem he
    have htyped := entries_typed (fun x hx => ⟨⟨(hcs x hx).1, (hcs x hx).2.1.typed⟩, (hcs x hx).2.2⟩)
      hcount h hq heq
    have hfl : w.flushed_lsn = (encode_all crc32 fl).length := by
      rw [h.flushed, h.file, nil_append]
    refine ⟨by rw [h.next, h.flushed], hcount, ?_, ?_⟩
    · rw [← hlsns, pairwise_map]
      exact h.laid.pairwise
    · intro l hl hflushed
      rw [← hlsns] at hl
      obtain ⟨e, he, rfl⟩ := mem_map.mp hl
      -- a flushed LSN belongs to an entry of the file
      have hmem : e ∈ fl := by
        rcases mem_append.mp he with he | he
        · exact he
        · have := ((laid_append crc32).mp h.laid).2.le_lsn e he
          lia
      obtain ⟨es, es', rfl⟩ := append_of_mem hmem
      rw [read_all_entry h (fun x hx => hst x
        (mem_append_left _ (mem_append_right _ hx))), hfl, filter_laid h.laid]
      exact congrArg (·, none) (map_seen fun x hx => htyped x
        (mem_append_left _ (mem_append_right _ hx)))
  · rintro e w ⟨rfl, hover⟩
    refine ⟨rfl, ?_⟩
    rwa [← zero_add (bytes cs)]

/-- Two commits, a flush and an abort: the abort is still in the buffer. -/
theorem run_read_back_commits :
    wp (run [.write 1 (.XactCommit 7), .write 2 (.XactCommit 8), .flush, .write 3 (.XactAbort 9)])
      (fun lsns w => lsns = [0, 42, 84] ∧ w.flushed_lsn = 84
        ∧ w.read_all 42 = ([⟨42, 0, 2, .XactCommit 8⟩], none)) never blank := by
  have h := @run_read_back (fun _ => true) (fun _ => 0) (fun _ => rfl)
    [.write 1 (.XactCommit 7), .write 2 (.XactCommit 8), .flush, .write 3 (.XactAbort 9)]
    (by simp [writes, Storable, WalRecord.Readable, record_len, serialize_body, WAL_HEADER_SIZE])
  exact ⟨rfl, rfl, h.2.2.2 42 (by decide) (by decide)⟩

theorem drain_error {pos base fuel : ℕ} {e : Fault} (h : pos + 34 ≤ data.length)
    (hdec : decode_record (data.drop pos) (base + pos) = .error e) :
    drain (fuel + 1) ⟨data, pos, base⟩ = ([], some e) := by
  rw [drain, next_record, if_neg (not_lt.mpr h), hdec]

/-! ### A record longer than its length field

The length of a record is stored in 32 bits. A checkpoint of `2 ^ 29` active transactions is
62 bytes longer than they can say, so its frame ends before the ids, and decoding the first
of them runs off the body. -/

theorem length_flatMap_xids (xs : List Xid) : (xs.flatMap (le_bytes 8)).length = 8 * xs.length := by
  induction xs with
  | nil => rfl
  | cons x xs ih =>
    rw [flatMap_cons, length_append, length_le_bytes, ih, length_cons]
    omega

theorem record_len_checkpoint (hx : xs.length = 2 ^ 29) :
    record_len (.Checkpoint 0 0 0 xs) = 4294967358 := by
  rw [record_len, serialize_body]
  simp only [length_append, length_le_bytes, length_flatMap_xids, hx]
  norm_num

/-- The frame: a length of 62, and a body that announces `2 ^ 29` ids. -/
theorem encode_checkpoint (hx : xs.length = 2 ^ 29) :
    ∃ crc : List UInt8, crc.length = 4 ∧ encode_record crc32 0 0 0 (.Checkpoint 0 0 0 xs)
      = (le_bytes 24 0 ++ ([1, 2] ++ le_bytes 4 62))
        ++ (crc ++ ((le_bytes 24 0 ++ le_bytes 4 536870912) ++ xs.flatMap (le_bytes 8))) := by
  have hlen : WAL_HEADER_SIZE + (serialize_body (.Checkpoint 0 0 0 xs)).length = 4294967358 :=
    record_len_checkpoint hx
  have hzero : ∀ ys : List UInt8,
      le_bytes 8 0 ++ (le_bytes 8 0 ++ (le_bytes 8 0 ++ ys)) = le_bytes 24 0 ++ ys := fun _ => rfl
  have htrunc : le_bytes 4 4294967358 = le_bytes 4 62 := by decide
  rw [encode_record, hlen, build_header]
  generalize (crc32 _).toNat = c
  refine ⟨le_bytes 4 c, length_le_bytes _ _, ?_⟩
  rw [header_bytes, serialize_body, hx, hzero, hzero, htrunc]
  simp only [rmgr_and_type, append_assoc, cons_append, nil_append]
  norm_num

/-- A body that ends where the ids should start. -/
theorem decode_body_no_ids {body : List UInt8} (hlen : body.length = 28)
    (hn : field 4 body 24 = 536870912) : decode_body 1 2 body = .error .panic := by
  have h := decode_body_decides 1 2 body
  exact h.2 (by omega)

theorem decode_checkpoint_panic (hx : xs.length = 2 ^ 29) :
    decode_record (encode_record crc32 0 0 0 (.Checkpoint 0 0 0 xs)) 0 = .error .panic := by
  obtain ⟨crc, hcrc, hdata⟩ := encode_checkpoint hx
  have hlen : (encode_record crc32 0 0 0 (.Checkpoint 0 0 0 xs)).length = 4294967358 := by
    rw [length_encode_record, record_len_checkpoint hx]
  generalize hbytes : encode_record crc32 0 0 0 (.Checkpoint 0 0 0 xs) = data at hdata hlen ⊢
  generalize hbody : le_bytes 24 0 ++ le_bytes 4 536870912 = body at hdata
  have hblen : body.length = 28 := by rw [← hbody]; rfl
  have hids : field 4 body 24 = 536870912 := by rw [← hbody]; decide
  have htot : field 4 data 26 = 62 := by
    rw [hdata]
    change le_nat (le_bytes 4 62) = 62
    decide
  have hlsn : field 8 data 0 = 0 := by
    rw [hdata]
    change le_nat ((le_bytes 24 0).take 8) = 0
    decide
  have hrmgr : data.getD 24 0 = 1 := by rw [hdata]; rfl
  have htype : data.getD 25 0 = 2 := by rw [hdata]; rfl
  -- the frame ends before the ids
  have hfb : frame_body data = body := by
    rw [frame_body, htot, hdata, ← append_assoc, drop_left' (by rw [length_append, hcrc]; rfl)]
    exact take_left' hblen
  rw [decode_record_framed ⟨by rw [hlen]; decide, hlsn, by rw [htot]; decide,
    by rw [hlen, htot]; decide⟩, hrmgr, htype, hfb, decode_body_no_ids hblen hids]
  rfl

/-- A new log accepts and flushes the checkpoint, and a scan of it panics. -/
def Unreadable (xs : List Xid) (crc32 : Crc32) : Prop :=
  wp (run [.write 0 (.Checkpoint 0 0 0 xs)])
    (fun lsns w => lsns = [0] ∧ 0 < w.flushed_lsn ∧ w.read_all 0 = ([], some .panic)) never
    (create (fun _ => true) crc32)

theorem write_checkpoint_panic (crc32 : Crc32) (hx : xs.length = 2 ^ 29) : Unreadable xs crc32 := by
  have hlen := record_len_checkpoint hx
  have hbytes : bytes [.write 0 (.Checkpoint 0 0 0 xs)] = 4294967358 + 0 :=
    congrArg (· + 0) hlen
  have hsmall : ∀ x ∈ writes [.write 0 (.Checkpoint 0 0 0 xs)], record_len x.2 < 2 ^ 62 := by
    intro x hx
    rw [mem_singleton.mp hx, hlen]
    decide
  refine wp_mono (run_extends _ hsmall (create_logged fun _ => rfl).extends (quiet_of_nil rfl)) ?_ ?_
  · rintro lsns w ⟨hcount, hq, fl, pend, h, heq⟩
    obtain ⟨lsn, rfl⟩ := length_eq_one_iff.mp hcount
    have hlaid := h.laid
    rw [heq] at hlaid
    obtain rfl : lsn = 0 := hlaid.1
    -- it is too long to stay in the buffer
    have hfl : fl = [⟨0, INVALID_LSN, 0, .Checkpoint 0 0 0 xs⟩] := by
      rcases append_eq_singleton_iff.mp heq with ⟨-, hpend⟩ | ⟨hfl, -⟩
      · have hquiet : w.buffer.length < BUFFER_SIZE / 2 := hq
        rw [h.buffer, hpend, encode_all_cons, length_append, length_encode_record, hlen]
          at hquiet
        lia
      · exact hfl
    have hfile : w.file = encode_record crc32 0 0 0 (.Checkpoint 0 0 0 xs) := by
      rw [h.file, hfl, encode_all_cons]
      exact append_nil _
    have hflen : w.file.length = 4294967358 := by
      rw [hfile, length_encode_record, hlen]
    refine ⟨rfl, by rw [h.flushed, hflen]; decide, ?_⟩
    rw [read_all_eq h.flushed, drop_zero]
    refine drain_error (by rw [hflen]; decide) ?_
    rw [drop_zero, hfile]
    exact decode_checkpoint_panic hx
  · rintro e w ⟨-, hover⟩
    rw [hbytes] at hover
    change MAX_FILE_SIZE < 0 + 0 + (4294967358 + 0) at hover
    exact absurd hover (by decide)

/-- What is written is not always read back: an entry that was flushed is not returned. -/
theorem checkpoint_unreadable : ∃ xs : List Xid, ∀ crc32, Unreadable xs crc32 := by
  have hany : ∀ n, ∃ xs : List Xid, xs.length = n :=
    fun n => ⟨replicate n 0, length_replicate⟩
  obtain ⟨xs, hx⟩ := hany (2 ^ 29)
  exact ⟨xs, fun crc32 => write_checkpoint_panic crc32 hx⟩

/-! ## Reopening after a torn write -/

/-- A strict prefix of one further record at `lsn`. -/
def Torn (crc32 : Crc32) (lsn : Lsn) (torn : List UInt8) : Prop :=
  ∃ (prev_lsn xid : ℕ) (record : WalRecord) (lost : List UInt8), record_len record < 256 ^ 4
    ∧ lost ≠ [] ∧ encode_record crc32 lsn prev_lsn xid record = torn ++ lost

/-- The reopened log reads as the complete records, and at every moment of the further calls,
and of a flush behind them, as these and the new ones that are flushed. -/
def Reopens (crc32 : Crc32) (io : ℕ → Bool) (es : List DecodedRecord) (torn : List UInt8)
    (cs : List WalCall) : Prop :=
  (WalManager.open (encode_all crc32 es ++ torn) io crc32).read_all INVALID_LSN = (es, none)
    ∧ ∀ cs', cs' <+: cs ++ [.flush] → ∀ lsns w,
      (run cs').run (WalManager.open (encode_all crc32 es ++ torn) io crc32) = .ok lsns w →
      w.read_all INVALID_LSN = (es ++ (entries INVALID_LSN lsns (writes cs')).filter
        (fun e => e.lsn < w.flushed_lsn), none)

theorem decode_record_lsn {lsn : Lsn} {d : DecodedRecord} {n : ℕ}
    (h : decode_record data lsn = .ok (d, n)) : d.lsn = lsn := by
  by_cases hf : Framed data lsn
  · rw [decode_record_framed hf] at h
    cases hb : decode_body (data.getD 24 0) (data.getD 25 0) (frame_body data) with
    | ok r =>
      rw [hb] at h
      cases h
      rfl
    | error e =>
      rw [hb] at h
      cases h
  · obtain ⟨e, he⟩ := decode_record_unframed hf
    simp [he] at h

variable {ds : List DecodedRecord}

/-- A scan that comes to a header at offset `pos` reads a record with that LSN, or fails. -/
theorem drain_lsn {pos base fuel : ℕ} (h : pos + 34 ≤ data.length)
    (hd : drain fuel ⟨data, pos, base⟩ = (ds, none)) :
    ∃ d ds', ds = d :: ds' ∧ d.lsn = base + pos := by
  cases fuel with
  | zero => cases hd
  | succ fuel =>
    rw [drain, next_record, if_neg (not_lt.mpr h)] at hd
    cases hdec : decode_record (data.drop pos) (base + pos) with
    | error e =>
      simp [hdec] at hd
    | ok r =>
      rw [hdec] at hd
      exact ⟨r.1, _, (congrArg Prod.fst hd).symm, decode_record_lsn hdec⟩

theorem field_append {w off : ℕ} {xs ys : List UInt8} (h : off + w ≤ xs.length) :
    field w (xs ++ ys) off = field w xs off := by
  rw [field, drop_append_of_le_length (by omega), take_append_of_le_length, field]
  rw [length_drop]
  omega

theorem field_encode_record {lsn prev_lsn xid : ℕ} {record : WalRecord}
    (ht : record_len record < 256 ^ 4) :
    field 4 (encode_record crc32 lsn prev_lsn xid record) 26 = record_len record := by
  have hlen : 26 + 4 ≤ (encode_record crc32 lsn prev_lsn xid record).length := by
    rw [length_encode_record, record_len]
    show 30 ≤ 34 + _
    omega
  have hread := le_at_total_len crc32 lsn ht prev_lsn xid []
  rw [append_nil, le_at_of_le hlen] at hread
  exact Except.ok.inj hread

theorem decode_record_torn {lsn : Lsn} {torn : List UInt8} (h : Torn crc32 lsn torn)
    (hlen : 34 ≤ torn.length) : ∃ e, decode_record torn lsn = .error (.err e) := by
  obtain ⟨prev_lsn, xid, record, lost, ht, hlost, heq⟩ := h
  refine decode_record_unframed (fun hf => ?_)
  have htot : field 4 torn 26 = record_len record := by
    rw [← field_encode_record ht, heq, field_append (by omega)]
  have hsum := congrArg List.length heq
  rw [length_encode_record, length_append] at hsum
  have hpos : 0 < lost.length := length_pos_of_ne_nil hlost
  have := hf.2.2.2
  omega

theorem decode_update {lsn : Lsn} {record : WalRecord} (hl : lsn < 256 ^ 8)
    (hu : record.is_update = true) (ht : record_len record < 256 ^ 4) (prev_lsn xid : ℕ)
    (rest : List UInt8) : decode_record (encode_record crc32 lsn prev_lsn xid record ++ rest) lsn
      = .error (.err (.Corruption
        s!"unknown WAL record type rmgr={RMGR_HEAP} type={HEAP_UPDATE}")) := by
  rw [decode_record_of_body hl ht, decode_body_update record hu]
  rfl

/-- An update that is come to ends the scan with an error. -/
theorem drain_update {base : Lsn} {rest : List UInt8} {fuel : ℕ} (hl : Laid base es)
    (ht : ∀ e ∈ es, e.Typed) (hsize : base + (encode_all crc32 es).length ≤ 256 ^ 8)
    (hfuel : es.length ≤ fuel) (hd : drain fuel ⟨encode_all crc32 es ++ rest, 0, base⟩ = (ds, none)) :
    ∀ e ∈ es, e.record.is_update = false := by
  by_contra hbad
  obtain ⟨u, hu⟩ : ∃ u, es.find? (fun e => e.record.is_update) = some u := by
    refine Option.isSome_iff_exists.mp (find?_isSome.mpr ?_)
    by_contra hnone
    exact hbad fun e he => Bool.eq_false_iff.mpr fun h => hnone ⟨e, he, h⟩
  -- the entries before the first update are read, and the update is not
  obtain ⟨hupd, front, back, rfl, hfront⟩ := find?_eq_some_iff_append.mp hu
  obtain ⟨hl1, hl2⟩ := (laid_append crc32).mp hl
  have htu := ht u (mem_append_right _ mem_cons_self)
  have hst : ∀ e ∈ front, Storable e.record := by
    intro e he
    have hte := ht e (mem_append_left _ he)
    have hnot : e.record.is_update = false := by
      have := hfront e he
      rwa [Bool.not_eq_true'] at this
    exact ⟨hte.2.2.1.readable hnot, hte.2.2.2⟩
  have hbytes : encode_all crc32 (front ++ u :: back) ++ rest = encode_all crc32 front
      ++ (encode_record crc32 u.lsn u.prev_lsn u.xid u.record ++ (encode_all crc32 back ++ rest)) := by
    rw [encode_all_append, encode_all_cons, append_assoc, append_assoc]
  have hlen : (encode_all crc32 (front ++ u :: back)).length
      = (encode_all crc32 front).length + (record_len u.record + (encode_all crc32 back).length) := by
    rw [encode_all_append, length_append, encode_all_cons, length_append, length_encode_record]
  obtain ⟨k, rfl⟩ : ∃ k, fuel = front.length + (k + 1) := by
    rw [length_append, length_cons] at hfuel
    exact ⟨fuel - front.length - 1, by omega⟩
  have hlsn : u.lsn = base + (encode_all crc32 front).length := hl2.1
  have hmin : 34 ≤ record_len u.record := Nat.le_add_right _ _
  rw [hlen] at hsize
  have hdrain := drain_encode_all crc32 base (encode_record crc32 u.lsn u.prev_lsn u.xid u.record
    ++ (encode_all crc32 back ++ rest)) (k + 1) front [] hl1 hst (by rw [nil_append]; lia)
  have hstop := @drain_error (encode_all crc32 front ++ (encode_record crc32 u.lsn u.prev_lsn u.xid u.record
    ++ (encode_all crc32 back ++ rest))) (encode_all crc32 front).length base k _
    (by rw [length_append, length_append, length_encode_record]; omega)
    (by rw [drop_left, ← hlsn]; exact decode_update (by lia) hupd htu.2.2.2 _ _ _)
  rw [nil_append, nil_append, hstop] at hdrain
  rw [hbytes] at hd
  exact Option.some_ne_none _ (congrArg Prod.snd (hdrain.symm.trans hd))

theorem run_append (cs' : List WalCall) :
    run (cs ++ cs') = (do
      let lsns ← run cs
      let lsns' ← run cs'
      return lsns ++ lsns') := by
  induction cs with
  | nil =>
    exact (bind_pure _).symm
  | cons c cs ih =>
    cases c with
    | write xid record =>
      rw [cons_append, run, run, ih]
      simp only [bind_assoc, pure_bind, cons_append]
    | flush =>
      rw [cons_append, run, run, ih]
      simp only [bind_assoc]

theorem run_flush_extends {cs : List WalCall} (hlen : ∀ x ∈ writes cs, record_len x.2 < 2 ^ 62)
    (h : w.Extends crc32 base [] []) (hq : w.Quiet) : wp (run (cs ++ [.flush]))
      (fun lsns w' => lsns.length = (writes cs).length
        ∧ w'.Extends crc32 base (entries w.prev_lsn lsns (writes cs)) [])
      (fun e _ => e = .err .Io ∧ MAX_FILE_SIZE < w.file.length + w.buffer.length + bytes cs) w := by
  rw [run_append]
  refine wp_seq (run_extends cs hlen h hq) (fun _ _ he => he) ?_
  rintro lsns w1 ⟨hcount, -, fl, pend, h1, heq⟩
  change fl ++ pend = entries w.prev_lsn lsns (writes cs) at heq
  have hall := h1.length_eq
  rw [heq, length_encode_entries _ _ _ _ hcount] at hall
  have hstart : w.file.length + w.buffer.length = base.length + 0 := h.length_eq
  have hflush : run [.flush] = (do let _ ← flush; return []) := rfl
  rw [hflush, bind_assoc]
  refine wp_seq (flush_extends h1) ?_ ?_
  · rintro e w2 ⟨rfl, hover⟩
    rw [Overfull, hall] at hover
    exact ⟨rfl, by rw [hstart]; exact hover⟩
  · rintro l w2 ⟨h2, -, -, -⟩
    rw [heq] at h2
    show (lsns ++ []).length = _ ∧ w2.Extends crc32 base (entries w.prev_lsn (lsns ++ []) _) []
    rw [append_nil]
    exact ⟨hcount, h2⟩

theorem filter_flushed (crc32 : Crc32) {base : ℕ} (h : Laid base (fl ++ pend)) :
    (fl ++ pend).filter (fun e => e.lsn < base + (encode_all crc32 fl).length) = fl := by
  obtain ⟨hfl, hpend⟩ := (laid_append crc32).mp h
  rw [filter_append, filter_eq_self.mpr fun e he => ?_,
    (filter_eq_nil_iff (l := pend)).mpr fun e he => ?_, append_nil]
  all_goals rw [decide_eq_true_eq]
  · exact not_lt.mpr (hpend.le_lsn e he)
  · exact (hfl.bounds crc32 e he).2

theorem open_extends (crc32 : Crc32) {io : ℕ → Bool} (hio : ∀ n, io n = true) {file : List UInt8}
    (hsize : file.length ≤ MAX_FILE_SIZE) : (WalManager.open file io crc32).Extends crc32 file [] [] :=
  ⟨rfl, hio, (append_nil _).symm, rfl, rfl, rfl, trivial, hsize⟩

section Reopening

variable {io : ℕ → Bool} {es : List DecodedRecord} {torn : List UInt8} {cs : List WalCall}

/-! What a scan of a file that starts with the entries `es` can return. -/

section Scan

variable {w : WalManager} {rest : List UInt8} {ds : List DecodedRecord}
  (hf : w.flushed_lsn = w.file.length) (hfile : w.file = encode_all crc32 es ++ rest)
  (hsize : w.file.length ≤ MAX_FILE_SIZE) (hl : Laid 0 es) (ht : ∀ e ∈ es, e.Typed)
include hf hfile hsize hl ht

/-- All of them, if nothing that looks like a header follows. -/
theorem read_all_complete (hu : ∀ e ∈ es, e.record.is_update = false) (hrest : rest.length < 34) :
    w.read_all INVALID_LSN = (es, none) := by
  have hbytes : (encode_all crc32 es).length + rest.length = w.file.length := by
    rw [hfile, length_append]
  rw [read_all_eq hf, drop_zero, hfile,
    drain_all crc32 hl (fun e he => (ht e he).storable (hu e he)) (by lia) hrest, map_seen ht]

theorem no_update_of_read (hd : w.read_all INVALID_LSN = (ds, none)) :
    ∀ e ∈ es, e.record.is_update = false := by
  have hbytes : (encode_all crc32 es).length + rest.length = w.file.length := by
    rw [hfile, length_append]
  have hcount := length_le_encode_all crc32 es
  rw [read_all_eq hf, drop_zero, hfile] at hd
  exact drain_update hl ht (by lia) (by rw [length_append]; omega) hd

/-- If more follows, the scan goes on where they end. -/
theorem read_all_behind (hu : ∀ e ∈ es, e.record.is_update = false) : ∃ k, w.read_all INVALID_LSN
      = (es ++ (drain (k + 1) ⟨w.file, (encode_all crc32 es).length, 0⟩).1,
        (drain (k + 1) ⟨w.file, (encode_all crc32 es).length, 0⟩).2) := by
  have hbytes : (encode_all crc32 es).length + rest.length = w.file.length := by
    rw [hfile, length_append]
  have hcount := length_le_encode_all crc32 es
  obtain ⟨k, hk⟩ : ∃ k, w.file.length + 1 = es.length + (k + 1) :=
    ⟨w.file.length - es.length, by omega⟩
  refine ⟨k, ?_⟩
  have hdrain := drain_encode_all crc32 0 rest (k + 1) es [] (by simpa using hl)
    (fun e he => (ht e he).storable (hu e he)) (by rw [nil_append]; lia)
  rw [nil_append, nil_append, ← hfile, map_seen ht] at hdrain
  rwa [read_all_eq hf, drop_zero, hk]

end Scan

/-- A scan comes to the torn bytes where they start, the new records carry LSNs from where
they end. -/
theorem torn_nil_of_read {w : WalManager} {new : List DecodedRecord} (hl : Laid 0 es)
    (ht : ∀ e ∈ es, e.Typed) (hext : w.Extends crc32 (encode_all crc32 es ++ torn) new []) (hne : new ≠ [])
    (hu : ∀ e ∈ es, e.record.is_update = false)
    (hread : w.read_all INVALID_LSN = (es ++ new, none)) : torn = [] := by
  obtain ⟨d, new', rfl⟩ := exists_cons_of_ne_nil hne
  have hfile := hext.file
  rw [append_assoc] at hfile
  have hmin : 34 ≤ record_len d.record := Nat.le_add_right _ _
  have hmore : (encode_all crc32 es).length + 34 ≤ w.file.length := by
    rw [hfile, encode_all_cons]
    simp only [length_append, length_encode_record]
    omega
  obtain ⟨k, hk⟩ := read_all_behind hext.flushed hfile hext.size hl ht hu
  rw [hread] at hk
  obtain ⟨hds, hend⟩ := Prod.mk.inj hk
  have hds := append_cancel_left hds
  obtain ⟨d', ds', hd', hlsn⟩ := drain_lsn hmore (Prod.ext hds.symm hend.symm)
  obtain ⟨rfl, -⟩ := cons.inj hd'
  have hat := hext.laid.1
  rw [hlsn, length_append] at hat
  exact length_eq_zero_iff.mp (by lia)

theorem writes_append (cs cs' : List WalCall) : writes (cs ++ cs') = writes cs ++ writes cs' :=
  filterMap_append

theorem mem_writes_of_prefix_flush {cs' : List WalCall} (h : cs' <+: cs ++ [.flush])
    {x : Xid × WalRecord} (hx : x ∈ writes cs') : x ∈ writes cs := by
  obtain ⟨rest, hrest⟩ := h
  have hall : x ∈ writes (cs ++ [.flush]) := by
    rw [← hrest, writes_append]
    exact mem_append_left _ hx
  rwa [writes_append, show writes [.flush] = [] from rfl, append_nil] at hall

variable (hio : ∀ n, io n = true) (hl : Laid 0 es) (ht : ∀ e ∈ es, e.Typed)
  (hcs : ∀ x ∈ writes cs, TypedWrite x ∧ record_len x.2 < 256 ^ 4)
  (hroom : (encode_all crc32 es ++ torn).length + bytes cs ≤ MAX_FILE_SIZE)
include hio hl ht hcs hroom

/-- Behind complete records, or with nothing new, every scan is right. -/
theorem reopens_of_clean (hu : ∀ e ∈ es, e.record.is_update = false) (hshort : torn.length < 34)
    (hclean : writes cs = [] ∨ torn = [] ∧ ∀ x ∈ writes cs, x.2.is_update = false) :
    Reopens crc32 io es torn cs := by
  have hsize : (encode_all crc32 es ++ torn).length ≤ MAX_FILE_SIZE := by omega
  have hopen := open_extends crc32 hio hsize
  refine ⟨read_all_complete rfl rfl hsize hl ht hu hshort, ?_⟩
  intro cs' hpre lsns w hrun
  have hsub : ∀ x ∈ writes cs', x ∈ writes cs := fun x hx => mem_writes_of_prefix_flush hpre hx
  obtain ⟨hcount, hq, fl, pend, h, heq⟩ := wp_ok (run_extends cs'
    (fun x hx => lt_trans (hcs x (hsub x hx)).2 (by decide)) hopen (quiet_of_nil rfl)) hrun
  change fl ++ pend = entries INVALID_LSN lsns (writes cs') at heq
  have htyped := entries_typed (fun x hx => hcs x (hsub x hx)) hcount h hq heq
  have hflushed : w.flushed_lsn = (encode_all crc32 es ++ torn).length + (encode_all crc32 fl).length := by
    rw [h.flushed, h.file, length_append]
  rw [← heq, hflushed, filter_flushed crc32 h.laid]
  rcases hclean with hnone | ⟨rfl, hnew⟩
  · -- nothing was written
    have hfl : fl = [] := by
      have hw : writes cs' = [] := eq_nil_iff_forall_not_mem.mpr
        fun x hx => absurd (hsub x hx) (by rw [hnone]; exact not_mem_nil)
      rw [hw, length_nil, length_eq_zero_iff] at hcount
      rw [hcount] at heq
      exact (append_eq_nil_iff.mp heq).1
    rw [hfl, append_nil]
    refine @read_all_complete crc32 _ _ _ h.flushed ?_ h.size hl ht hu hshort
    rw [h.file, hfl]
    exact append_nil _
  · -- the new entries continue the old ones
    have hlaid : Laid 0 (es ++ fl) := by
      refine (laid_append crc32).mpr ⟨hl, ?_⟩
      have := ((laid_append crc32).mp h.laid).1
      rwa [append_nil, ← zero_add (encode_all crc32 es).length] at this
    have hfile : w.file = encode_all crc32 (es ++ fl) ++ [] := by
      rw [h.file, encode_all_append, append_nil, append_nil]
    refine read_all_complete h.flushed hfile h.size hlaid ?_ ?_ (by decide)
    · intro e he
      rcases mem_append.mp he with he | he
      · exact ht e he
      · exact htyped e (mem_append_left _ he)
    · intro e he
      rcases mem_append.mp he with he | he
      · exact hu e he
      · refine hnew (e.xid, e.record) (hsub _ ?_)
        rw [← entries_record INVALID_LSN lsns (writes cs') hcount, ← heq]
        exact mem_map_of_mem (mem_append_left _ he)

/-- If a scan is right after everything written is flushed, nothing was torn. -/
theorem clean_of_reopens (htorn : Torn crc32 (encode_all crc32 es).length torn)
    (h : Reopens crc32 io es torn cs) :
    (∀ e ∈ es, e.record.is_update = false) ∧ torn.length < 34
      ∧ (writes cs = [] ∨ torn = [] ∧ ∀ x ∈ writes cs, x.2.is_update = false) := by
  have hsize : (encode_all crc32 es ++ torn).length ≤ MAX_FILE_SIZE := by omega
  have hopen := open_extends crc32 hio hsize
  obtain ⟨hnow, hlater⟩ := h
  have hu := no_update_of_read rfl rfl hsize hl ht hnow
  refine ⟨hu, ?_, ?_⟩
  · -- a complete header without its record ends the first scan with an error
    by_contra hlong
    obtain ⟨e, he⟩ := decode_record_torn htorn (not_lt.mp hlong)
    obtain ⟨k, hk⟩ := read_all_behind (w := WalManager.open (encode_all crc32 es ++ torn) io crc32) rfl rfl
      hsize hl ht hu
    rw [hnow, drain_error (e := .err e) ?_ ?_] at hk
    · exact Option.some_ne_none _ (congrArg Prod.snd hk).symm
    · show _ ≤ (encode_all crc32 es ++ torn).length
      rw [length_append]
      omega
    · show decode_record ((encode_all crc32 es ++ torn).drop _) _ = _
      rwa [drop_left, zero_add]
  · rw [or_iff_not_imp_left]
    intro hsome
    -- run all calls and flush
    have hlen : ∀ x ∈ writes cs, record_len x.2 < 2 ^ 62 :=
      fun x hx => lt_trans (hcs x hx).2 (by decide)
    obtain ⟨lsns, w, hrun, hcount, hext⟩ := exists_ok_of_wp (wp_mono
      (run_flush_extends hlen hopen (quiet_of_nil rfl)) (fun _ _ h => h)
      (fun _ _ he => absurd he.2 (not_lt.mpr hroom)))
    have hread := hlater _ (prefix_refl _) lsns w hrun
    rw [writes_append, show writes [.flush] = [] from rfl, append_nil] at hread
    change w.Extends crc32 _ (entries INVALID_LSN lsns (writes cs)) [] at hext
    generalize hnew : entries INVALID_LSN lsns (writes cs) = new at hread hext
    have hrecords : new.map (fun e => (e.xid, e.record)) = writes cs := by
      rw [← hnew]
      exact entries_record _ _ _ hcount
    have htyped := entries_typed hcs hcount hext (quiet_of_nil hext.buffer)
      (by rw [append_nil, hnew])
    have hlaid := hext.laid
    rw [append_nil] at htyped hlaid
    have hflushed : w.flushed_lsn = (encode_all crc32 es ++ torn).length + (encode_all crc32 new).length := by
      rw [hext.flushed, hext.file, length_append]
    have hfilter := filter_flushed crc32 hext.laid
    rw [append_nil] at hfilter
    rw [hflushed, hfilter] at hread
    have hne : new ≠ [] := by
      rintro rfl
      exact hsome hrecords.symm
    have htorn0 := torn_nil_of_read hl ht hext hne hu hread
    subst htorn0
    refine ⟨rfl, ?_⟩
    have hall : ∀ e ∈ es ++ new, e.record.is_update = false := by
      have hfile : w.file = encode_all crc32 (es ++ new) ++ [] := by
        rw [hext.file, encode_all_append, append_nil, append_nil]
      refine no_update_of_read hext.flushed hfile hext.size ((laid_append crc32).mpr ⟨hl, ?_⟩) ?_ hread
      · rwa [append_nil, ← zero_add (encode_all crc32 es).length] at hlaid
      · intro e he
        rcases mem_append.mp he with he | he
        · exact ht e he
        · exact htyped e he
    intro x hx
    rw [← hrecords] at hx
    obtain ⟨e, he, rfl⟩ := mem_map.mp hx
    exact hall e (mem_append_right _ he)

/-- **Reopening a log.** A file of complete records and a part of one more goes on being
readable, through all further calls, exactly if none of the records is an update, less than a
header was torn, and nothing is written any more or nothing was torn. -/
theorem reopens_iff (htorn : Torn crc32 (encode_all crc32 es).length torn) :
    Reopens crc32 io es torn cs ↔ (∀ e ∈ es, e.record.is_update = false) ∧ torn.length < 34
      ∧ (writes cs = [] ∨ torn = [] ∧ ∀ x ∈ writes cs, x.2.is_update = false) :=
  ⟨clean_of_reopens hio hl ht hcs hroom htorn,
    fun ⟨hu, hshort, hclean⟩ => reopens_of_clean hio hl ht hcs hroom hu hshort hclean⟩

end Reopening

/-- A log of one commit, nothing torn: after another commit it reads as both. -/
theorem reopens_iff_commit :
    Reopens (fun _ => 0) (fun _ => true) [⟨0, 0, 5, .XactCommit 7⟩] [] [.write 6 (.XactCommit 8)] := by
  have hlaid : Laid 0 [⟨0, 0, 5, .XactCommit 7⟩] := ⟨rfl, trivial⟩
  refine (reopens_iff (fun _ => rfl) hlaid ?_ ?_ (by decide +kernel) ?_).mpr
    ⟨?_, by decide, .inr ⟨rfl, ?_⟩⟩
  · simp [DecodedRecord.Typed, WalRecord.Typed, WalRecord.Readable, record_len, serialize_body,
      WAL_HEADER_SIZE]
  · simp [writes, TypedWrite, WalRecord.Typed, WalRecord.Readable, record_len, serialize_body,
      WAL_HEADER_SIZE]
  · exact ⟨0, 6, .XactCommit 8, _, by decide, ne_nil_of_length_pos (by decide +kernel),
      (nil_append _).symm⟩
  · simp [WalRecord.is_update]
  · simp [writes, WalRecord.is_update]

/-- A log of one commit and the first `k` bytes of a second one, all checksums 0. -/
def torn_log (k : ℕ) : WalManager :=
  WalManager.open (encode_record (fun _ => 0) 0 0 5 (.XactCommit 7)
    ++ (encode_record (fun _ => 0) 42 0 6 (.XactCommit 8)).take k) (fun _ => true) fun _ => 0

/-- A torn tail is not the end of the log: with 40 of 42 bytes written the scan of the reopened
log fails, and with 10 of them it fails once a further commit is flushed. -/
theorem torn_tail_unreadable : (torn_log 40).read_all 0
      = ([⟨0, 0, 5, .XactCommit 7⟩], some (.err (.Corruption "truncated WAL record body")))
    ∧ wp (run [.write 6 (.XactCommit 9), .flush])
      (fun lsns w => lsns = [52] ∧ ∃ e, w.read_all 0 = ([⟨0, 0, 5, .XactCommit 7⟩], some e)) never
      (torn_log 10) := by
  refine ⟨by rfl, by rfl, _, by rfl⟩

end Oigrap.Storage
