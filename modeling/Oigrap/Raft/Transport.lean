/-
`crates/raft/src/transport.rs`: the wire format of the consensus messages.

Each of the six messages is a tag byte and its fields in a row, integers little-endian and
byte strings and lists behind a 32-bit count. The decoders check the tag, so a message is
only ever read as what it was written as.
-/
import Oigrap.Lib.Cursor
import Oigrap.Raft.Node

namespace Oigrap.Raft

open ByteMem Cursor Reads

/-! ## Encoding -/

abbrev MSG_APPEND_ENTRIES_REQ : UInt8 := 1
abbrev MSG_APPEND_ENTRIES_RESP : UInt8 := 2
abbrev MSG_REQUEST_VOTE_REQ : UInt8 := 3
abbrev MSG_REQUEST_VOTE_RESP : UInt8 := 4
abbrev MSG_INSTALL_SNAPSHOT_REQ : UInt8 := 5
abbrev MSG_INSTALL_SNAPSHOT_RESP : UInt8 := 6

def write_u8 (v : UInt8) : List UInt8 := [v]

def write_u32_le (v : ℕ) : List UInt8 := le_bytes 4 v

def write_u64_le (v : ℕ) : List UInt8 := le_bytes 8 v

def write_bool (v : Bool) : List UInt8 := [if v then 1 else 0]

/-- The length is cast to a `u32`, which keeps its low 32 bits. -/
def write_bytes (data : List UInt8) : List UInt8 := write_u32_le data.length ++ data

def write_log_entry (e : LogEntry) : List UInt8 :=
  write_u64_le e.term ++ (write_u64_le e.index ++ write_bytes e.data)

def write_log_entries (entries : List LogEntry) : List UInt8 :=
  write_u32_le entries.length ++ entries.flatMap write_log_entry

def encode_append_entries_req (req : AppendEntriesReq) : List UInt8 :=
  write_u8 MSG_APPEND_ENTRIES_REQ ++ (write_u64_le req.term ++ (write_u64_le req.leader_id
    ++ (write_u64_le req.prev_log_index ++ (write_u64_le req.prev_log_term
    ++ (write_log_entries req.entries ++ write_u64_le req.leader_commit)))))

def encode_append_entries_resp (resp : AppendEntriesResp) : List UInt8 :=
  write_u8 MSG_APPEND_ENTRIES_RESP ++ (write_u64_le resp.term ++ (write_bool resp.success
    ++ write_u64_le resp.match_index))

def encode_request_vote_req (req : RequestVoteReq) : List UInt8 :=
  write_u8 MSG_REQUEST_VOTE_REQ ++ (write_u64_le req.term ++ (write_u64_le req.candidate_id
    ++ (write_u64_le req.last_log_index ++ write_u64_le req.last_log_term)))

def encode_request_vote_resp (resp : RequestVoteResp) : List UInt8 :=
  write_u8 MSG_REQUEST_VOTE_RESP ++ (write_u64_le resp.term ++ write_bool resp.vote_granted)

def encode_install_snapshot_req (req : InstallSnapshotReq) : List UInt8 :=
  write_u8 MSG_INSTALL_SNAPSHOT_REQ ++ (write_u64_le req.term ++ (write_u64_le req.leader_id
    ++ (write_u64_le req.last_included_index ++ (write_u64_le req.last_included_term
    ++ write_bytes req.data))))

def encode_install_snapshot_resp (resp : InstallSnapshotResp) : List UInt8 :=
  write_u8 MSG_INSTALL_SNAPSHOT_RESP ++ write_u64_le resp.term

/-! ## Decoding

The position never comes near the end of `usize`, so its checked additions succeed. -/

def read_u8 : Cursor UInt8 := fun data pos => (data[pos]?).map fun v => (v, pos + 1)

def read_u32_le : Cursor ℕ := le 4

def read_u64_le : Cursor ℕ := le 8

def read_bool : Cursor Bool := do
  let v ← read_u8
  return v != 0

def read_bytes : Cursor (List UInt8) := do
  let len ← read_u32_le
  take len

def read_log_entry : Cursor LogEntry := do
  let term ← read_u64_le
  let index ← read_u64_le
  let entry_data ← read_bytes
  return ⟨term, index, entry_data⟩

def read_log_entries : Cursor (List LogEntry) := do
  let count ← read_u32_le
  many read_log_entry count

/-- The start of every decoder: `if tag != .. { return None; }`. -/
def expect_tag {α : Type} (msg : UInt8) (body : Cursor α) (data : List UInt8) : Option α :=
  Prod.fst <$> (do
    let tag ← read_u8
    if tag ≠ msg then fun _ _ => none else body : Cursor α) data 0

def append_entries_req_body : Cursor AppendEntriesReq := do
  let term ← read_u64_le
  let leader_id ← read_u64_le
  let prev_log_index ← read_u64_le
  let prev_log_term ← read_u64_le
  let entries ← read_log_entries
  let leader_commit ← read_u64_le
  return ⟨term, leader_id, prev_log_index, prev_log_term, entries, leader_commit⟩

def append_entries_resp_body : Cursor AppendEntriesResp := do
  let term ← read_u64_le
  let success ← read_bool
  let match_index ← read_u64_le
  return ⟨term, success, match_index⟩

def request_vote_req_body : Cursor RequestVoteReq := do
  let term ← read_u64_le
  let candidate_id ← read_u64_le
  let last_log_index ← read_u64_le
  let last_log_term ← read_u64_le
  return ⟨term, candidate_id, last_log_index, last_log_term⟩

def request_vote_resp_body : Cursor RequestVoteResp := do
  let term ← read_u64_le
  let vote_granted ← read_bool
  return ⟨term, vote_granted⟩

def install_snapshot_req_body : Cursor InstallSnapshotReq := do
  let term ← read_u64_le
  let leader_id ← read_u64_le
  let last_included_index ← read_u64_le
  let last_included_term ← read_u64_le
  let snap_data ← read_bytes
  return ⟨term, leader_id, last_included_index, last_included_term, snap_data⟩

def install_snapshot_resp_body : Cursor InstallSnapshotResp := do
  let term ← read_u64_le
  return ⟨term⟩

def decode_append_entries_req := expect_tag MSG_APPEND_ENTRIES_REQ append_entries_req_body
def decode_append_entries_resp := expect_tag MSG_APPEND_ENTRIES_RESP append_entries_resp_body
def decode_request_vote_req := expect_tag MSG_REQUEST_VOTE_REQ request_vote_req_body
def decode_request_vote_resp := expect_tag MSG_REQUEST_VOTE_RESP request_vote_resp_body
def decode_install_snapshot_req := expect_tag MSG_INSTALL_SNAPSHOT_REQ install_snapshot_req_body
def decode_install_snapshot_resp := expect_tag MSG_INSTALL_SNAPSHOT_RESP install_snapshot_resp_body

/-! ## The messages as one type -/

inductive RpcKind where
  | AppendEntriesReq
  | AppendEntriesResp
  | RequestVoteReq
  | RequestVoteResp
  | InstallSnapshotReq
  | InstallSnapshotResp
  deriving DecidableEq, Repr

def RpcKind.tag : RpcKind → UInt8
  | .AppendEntriesReq => MSG_APPEND_ENTRIES_REQ
  | .AppendEntriesResp => MSG_APPEND_ENTRIES_RESP
  | .RequestVoteReq => MSG_REQUEST_VOTE_REQ
  | .RequestVoteResp => MSG_REQUEST_VOTE_RESP
  | .InstallSnapshotReq => MSG_INSTALL_SNAPSHOT_REQ
  | .InstallSnapshotResp => MSG_INSTALL_SNAPSHOT_RESP

inductive RpcMessage where
  | append_entries_req (req : AppendEntriesReq)
  | append_entries_resp (resp : AppendEntriesResp)
  | request_vote_req (req : RequestVoteReq)
  | request_vote_resp (resp : RequestVoteResp)
  | install_snapshot_req (req : InstallSnapshotReq)
  | install_snapshot_resp (resp : InstallSnapshotResp)
  deriving DecidableEq, Repr

namespace RpcMessage

def kind : RpcMessage → RpcKind
  | append_entries_req _ => .AppendEntriesReq
  | append_entries_resp _ => .AppendEntriesResp
  | request_vote_req _ => .RequestVoteReq
  | request_vote_resp _ => .RequestVoteResp
  | install_snapshot_req _ => .InstallSnapshotReq
  | install_snapshot_resp _ => .InstallSnapshotResp

def encode : RpcMessage → List UInt8
  | append_entries_req req => encode_append_entries_req req
  | append_entries_resp resp => encode_append_entries_resp resp
  | request_vote_req req => encode_request_vote_req req
  | request_vote_resp resp => encode_request_vote_resp resp
  | install_snapshot_req req => encode_install_snapshot_req req
  | install_snapshot_resp resp => encode_install_snapshot_resp resp

/-- The decoder of each kind. -/
def decode : RpcKind → List UInt8 → Option RpcMessage
  | .AppendEntriesReq, data => (decode_append_entries_req data).map append_entries_req
  | .AppendEntriesResp, data => (decode_append_entries_resp data).map append_entries_resp
  | .RequestVoteReq, data => (decode_request_vote_req data).map request_vote_req
  | .RequestVoteResp, data => (decode_request_vote_resp data).map request_vote_resp
  | .InstallSnapshotReq, data => (decode_install_snapshot_req data).map install_snapshot_req
  | .InstallSnapshotResp, data => (decode_install_snapshot_resp data).map install_snapshot_resp

/-- The values the source's types admit, with lengths that fit their counts: numbers are
`u64`s, lists and byte strings shorter than `2 ^ 32`. -/
def Fits : RpcMessage → Prop
  | append_entries_req req =>
    (req.term < 2 ^ 64 ∧ req.leader_id < 2 ^ 64 ∧ req.prev_log_index < 2 ^ 64
      ∧ req.prev_log_term < 2 ^ 64 ∧ req.leader_commit < 2 ^ 64) ∧ req.entries.length < 2 ^ 32
      ∧ ∀ e ∈ req.entries, e.term < 2 ^ 64 ∧ e.index < 2 ^ 64 ∧ e.data.length < 2 ^ 32
  | append_entries_resp resp => resp.term < 2 ^ 64 ∧ resp.match_index < 2 ^ 64
  | request_vote_req req => req.term < 2 ^ 64 ∧ req.candidate_id < 2 ^ 64
      ∧ req.last_log_index < 2 ^ 64 ∧ req.last_log_term < 2 ^ 64
  | request_vote_resp resp => resp.term < 2 ^ 64
  | install_snapshot_req req => (req.term < 2 ^ 64 ∧ req.leader_id < 2 ^ 64
      ∧ req.last_included_index < 2 ^ 64 ∧ req.last_included_term < 2 ^ 64)
      ∧ req.data.length < 2 ^ 32
  | install_snapshot_resp resp => resp.term < 2 ^ 64

end RpcMessage

/-! ## The round trip -/

section RoundTrip

variable {α : Type} {msg t : UInt8} {body : Cursor α} {bs : List UInt8} {x : α}

theorem reads_u8 (v : UInt8) : Reads read_u8 (write_u8 v) v := by
  intro front rest
  show (front ++ v :: rest)[front.length]?.map _ = _
  rw [List.getElem?_append_right (le_rfl), Nat.sub_self]
  rfl

theorem reads_u64 {v : ℕ} (h : v < 2 ^ 64) : Reads read_u64_le (write_u64_le v) v :=
  reads_le (by norm_num at h ⊢; exact h)

theorem reads_u32 {v : ℕ} (h : v < 2 ^ 32) : Reads read_u32_le (write_u32_le v) v :=
  reads_le (by norm_num at h ⊢; exact h)

theorem reads_bool (v : Bool) : Reads read_bool (write_bool v) v := by
  have h := (reads_u8 (if v then 1 else 0)).bind (f := fun b => pure (b != 0)) (reads_pure _)
  cases v <;> exact h

theorem reads_bytes {data : List UInt8} (h : data.length < 2 ^ 32) :
    Reads read_bytes (write_bytes data) data :=
  (reads_u32 h).bind (reads_take data)

/-- The last field of a record. -/
theorem Reads.last {β : Type} {r : Cursor α} {f : α → β} (h : Reads r bs x) :
    Reads (do let a ← r; return f a) bs (f x) := by
  have hlast := h.bind (f := fun a => pure (f a)) (reads_pure (f x))
  rwa [List.append_nil] at hlast

theorem reads_log_entry {e : LogEntry}
    (h : e.term < 2 ^ 64 ∧ e.index < 2 ^ 64 ∧ e.data.length < 2 ^ 32) :
    Reads read_log_entry (write_log_entry e) e :=
  (reads_u64 h.1).bind ((reads_u64 h.2.1).bind (Reads.last (reads_bytes h.2.2)))

theorem reads_log_entries {entries : List LogEntry} (hlen : entries.length < 2 ^ 32)
    (h : ∀ e ∈ entries, e.term < 2 ^ 64 ∧ e.index < 2 ^ 64 ∧ e.data.length < 2 ^ 32) :
    Reads read_log_entries (write_log_entries entries) entries :=
  (reads_u32 hlen).bind (reads_many fun e he => reads_log_entry (h e he))

/-! What follows the tag is read by the decoder of the same kind. -/

theorem tail_write_u8 (tag : UInt8) (bs : List UInt8) : (write_u8 tag ++ bs).tail = bs := rfl

theorem reads_append_entries_req {req : AppendEntriesReq}
    (h : (RpcMessage.append_entries_req req).Fits) :
    Reads append_entries_req_body (encode_append_entries_req req).tail req := by
  obtain ⟨⟨h1, h2, h3, h4, h5⟩, hlen, hes⟩ := h
  rw [encode_append_entries_req, tail_write_u8]
  refine bind (reads_u64 h1) ?_
  refine bind (reads_u64 h2) ?_
  refine bind (reads_u64 h3) ?_
  refine bind (reads_u64 h4) ?_
  refine bind (reads_log_entries hlen hes) ?_
  exact Reads.last (reads_u64 h5)

theorem reads_append_entries_resp {resp : AppendEntriesResp}
    (h : (RpcMessage.append_entries_resp resp).Fits) :
    Reads append_entries_resp_body (encode_append_entries_resp resp).tail resp := by
  rw [encode_append_entries_resp, tail_write_u8]
  refine bind (reads_u64 h.1) ?_
  refine bind (reads_bool _) ?_
  exact Reads.last (reads_u64 h.2)

theorem reads_request_vote_req {req : RequestVoteReq} (h : (RpcMessage.request_vote_req req).Fits) :
    Reads request_vote_req_body (encode_request_vote_req req).tail req := by
  obtain ⟨h1, h2, h3, h4⟩ := h
  rw [encode_request_vote_req, tail_write_u8]
  refine bind (reads_u64 h1) ?_
  refine bind (reads_u64 h2) ?_
  refine bind (reads_u64 h3) ?_
  exact Reads.last (reads_u64 h4)

theorem reads_request_vote_resp {resp : RequestVoteResp}
    (h : (RpcMessage.request_vote_resp resp).Fits) :
    Reads request_vote_resp_body (encode_request_vote_resp resp).tail resp := by
  rw [encode_request_vote_resp, tail_write_u8]
  refine bind (reads_u64 h) ?_
  exact Reads.last (reads_bool _)

theorem reads_install_snapshot_req {req : InstallSnapshotReq}
    (h : (RpcMessage.install_snapshot_req req).Fits) :
    Reads install_snapshot_req_body (encode_install_snapshot_req req).tail req := by
  obtain ⟨⟨h1, h2, h3, h4⟩, hlen⟩ := h
  rw [encode_install_snapshot_req, tail_write_u8]
  refine bind (reads_u64 h1) ?_
  refine bind (reads_u64 h2) ?_
  refine bind (reads_u64 h3) ?_
  refine bind (reads_u64 h4) ?_
  exact Reads.last (reads_bytes hlen)

theorem reads_install_snapshot_resp {resp : InstallSnapshotResp}
    (h : (RpcMessage.install_snapshot_resp resp).Fits) :
    Reads install_snapshot_resp_body (encode_install_snapshot_resp resp).tail resp := by
  rw [encode_install_snapshot_resp, tail_write_u8]
  exact Reads.last (reads_u64 h)

/-! The tags tell the kinds apart. -/

theorem expect_tag_same (msg : UInt8) (h : Reads body bs x) (rest : List UInt8) :
    expect_tag msg body ((write_u8 msg ++ bs) ++ rest) = some x := by
  have hmsg := (reads_u8 msg).bind (f := fun tag => if tag ≠ msg then fun _ _ => none else body)
    (by rw [if_neg (not_not.mpr rfl)]; exact h)
  exact congrArg (Option.map Prod.fst) (hmsg.run rest)

theorem expect_tag_other (h : t ≠ msg) (bs rest : List UInt8) :
    expect_tag msg body ((write_u8 t ++ bs) ++ rest) = none := by
  have hbind : ∀ data : List UInt8, (do
      let tag ← read_u8
      if tag ≠ msg then fun _ _ => none else body : Cursor α) (t :: data) 0
      = (if t ≠ msg then fun _ _ => none else body : Cursor α) (t :: data) 1 := fun _ => rfl
  show Option.map Prod.fst _ = none
  rw [show (write_u8 t ++ bs) ++ rest = t :: (bs ++ rest) from rfl, hbind, if_pos h]
  rfl

theorem RpcKind.tag_injective : Function.Injective RpcKind.tag := by
  intro k k' h
  revert h
  cases k <;> cases k' <;> decide

theorem RpcMessage.encode_eq (m : RpcMessage) : m.encode = write_u8 m.kind.tag ++ m.encode.tail := by
  cases m <;> rfl

theorem decode_other {k : RpcKind} (h : t ≠ k.tag) (bs rest : List UInt8) :
    RpcMessage.decode k ((write_u8 t ++ bs) ++ rest) = none := by
  cases k <;> exact congrArg (Option.map _) (expect_tag_other h bs rest)

theorem decode_same (m : RpcMessage) (h : m.Fits) (rest : List UInt8) :
    RpcMessage.decode m.kind ((write_u8 m.kind.tag ++ m.encode.tail) ++ rest) = some m := by
  cases m with
  | append_entries_req req =>
    exact congrArg (Option.map RpcMessage.append_entries_req)
      (expect_tag_same MSG_APPEND_ENTRIES_REQ (reads_append_entries_req h) rest)
  | append_entries_resp resp =>
    exact congrArg (Option.map RpcMessage.append_entries_resp)
      (expect_tag_same MSG_APPEND_ENTRIES_RESP (reads_append_entries_resp h) rest)
  | request_vote_req req =>
    exact congrArg (Option.map RpcMessage.request_vote_req)
      (expect_tag_same MSG_REQUEST_VOTE_REQ (reads_request_vote_req h) rest)
  | request_vote_resp resp =>
    exact congrArg (Option.map RpcMessage.request_vote_resp)
      (expect_tag_same MSG_REQUEST_VOTE_RESP (reads_request_vote_resp h) rest)
  | install_snapshot_req req =>
    exact congrArg (Option.map RpcMessage.install_snapshot_req)
      (expect_tag_same MSG_INSTALL_SNAPSHOT_REQ (reads_install_snapshot_req h) rest)
  | install_snapshot_resp resp =>
    exact congrArg (Option.map RpcMessage.install_snapshot_resp)
      (expect_tag_same MSG_INSTALL_SNAPSHOT_RESP (reads_install_snapshot_resp h) rest)

/-- **The round trip.** Whatever follows it, a message is read back by the decoder of its
kind and refused by the five others. -/
theorem decode_encode (m : RpcMessage) (h : m.Fits) (rest : List UInt8) (k : RpcKind) :
    RpcMessage.decode k (m.encode ++ rest) = if k = m.kind then some m else none := by
  rw [m.encode_eq]
  split_ifs with hk
  · rw [hk]
    exact decode_same m h rest
  · exact decode_other (fun htag => hk (RpcKind.tag_injective htag.symm)) _ _

/-- A heartbeat with one entry and a byte after it. -/
theorem decode_encode_heartbeat : RpcMessage.decode .AppendEntriesReq
      ((RpcMessage.append_entries_req ⟨2, 1, 4, 1, [⟨2, 5, [7, 8]⟩], 3⟩).encode ++ [9])
      = some (.append_entries_req ⟨2, 1, 4, 1, [⟨2, 5, [7, 8]⟩], 3⟩) :=
  decode_encode (.append_entries_req ⟨2, 1, 4, 1, [⟨2, 5, [7, 8]⟩], 3⟩)
    ⟨⟨by decide, by decide, by decide, by decide, by decide⟩, by decide, by
      intro e he
      rw [List.mem_singleton.mp he]
      exact ⟨by decide, by decide, by decide⟩⟩ [9] .AppendEntriesReq

end RoundTrip

end Oigrap.Raft
