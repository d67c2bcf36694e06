/-
A consensus node: `log.rs`, `rpc.rs` and `node.rs`.

A node is a record and each of its methods a function from the record and the request to
the new record and what the method returns. Terms are `u64`s that a request may set to anything;
the one addition to a term, in `start_election`, wraps as it does in a release build. Indices and
vote counts are natural numbers: only an index of `u64::MAX` could make one wrap. The timeouts and
the node's own `last_applied`, which no method reads, are left out.
-/
import Mathlib.Algebra.Order.Ring.Nat
import Mathlib.Data.List.Basic

namespace Oigrap.Raft

abbrev LogIndex := ℕ
abbrev Term := ℕ
abbrev NodeId := ℕ

/-! ## `log.rs` -/

structure LogEntry where
  term : Term
  index : LogIndex
  data : List UInt8
  deriving DecidableEq, Repr

structure Snapshot where
  last_included_index : LogIndex
  last_included_term : Term
  data : List UInt8
  deriving DecidableEq, Repr

structure RaftLog where
  entries : List LogEntry
  commit_index : LogIndex
  last_applied : LogIndex
  snapshot : Option Snapshot
  /-- the index of the first entry, which is the sentinel or stands for a snapshot -/
  base_index : LogIndex
  deriving DecidableEq, Repr

namespace RaftLog

/-- The entry at index 0. -/
def sentinel : LogEntry := ⟨0, 0, []⟩

def new : RaftLog := ⟨[sentinel], 0, 0, none, 0⟩

variable (log : RaftLog) (index : LogIndex)

def append (term : Term) (data : List UInt8) : RaftLog × LogIndex :=
  let index := log.base_index + log.entries.length
  ({ log with entries := log.entries ++ [⟨term, index, data⟩] }, index)

def get : Option LogEntry :=
  if index < log.base_index then none else log.entries[index - log.base_index]?

def last_index : LogIndex := log.base_index + (log.entries.length - 1)

def last_term : Term := (log.entries.getLast?.map LogEntry.term).getD 0

def truncate_after : RaftLog :=
  if index < log.base_index then log
  else
    let truncate_at := index - log.base_index + 1
    if truncate_at < log.entries.length then
      { log with entries := log.entries.take truncate_at,
                 commit_index := if log.commit_index > index then index else log.commit_index }
    else log

def advance_commit : RaftLog :=
  if index > log.commit_index then { log with commit_index := min index log.last_index } else log

def entries_from : List LogEntry :=
  if index < log.base_index then []
  else
    let start := index - log.base_index
    if log.entries.length ≤ start then [] else log.entries.drop start

/-- `n` rounds of the loop of `take_applicable`: the entries taken and the new `last_applied`. -/
def apply_up_to (log : RaftLog) : ℕ → List LogEntry × LogIndex
  | 0 => ([], log.last_applied)
  | n + 1 =>
    let before := apply_up_to log n
    (before.1 ++ (log.get (before.2 + 1)).toList, before.2 + 1)

def take_applicable : List LogEntry × RaftLog :=
  let run := log.apply_up_to (log.commit_index - log.last_applied)
  (run.1, { log with last_applied := run.2 })

/-- What `compact` keeps of the entries. -/
def compact_entries (snap_index : LogIndex) (snap_term : Term) : List LogEntry :=
  if log.base_index + log.entries.length ≤ snap_index then [⟨snap_term, snap_index, []⟩]
  else
    match log.entries.drop (snap_index - log.base_index) with
    | [] => []
    | _ :: rest => ⟨snap_term, snap_index, []⟩ :: rest

def compact (snapshot : Snapshot) : RaftLog :=
  let snap_index := snapshot.last_included_index
  if snap_index ≤ log.base_index then log
  else
    { entries := log.compact_entries snap_index snapshot.last_included_term
      base_index := snap_index
      last_applied := if log.last_applied < snap_index then snap_index else log.last_applied
      commit_index := if log.commit_index < snap_index then snap_index else log.commit_index
      snapshot := some snapshot }

end RaftLog

/-! ## `rpc.rs` -/

structure AppendEntriesReq where
  term : Term
  leader_id : NodeId
  prev_log_index : LogIndex
  prev_log_term : Term
  entries : List LogEntry
  leader_commit : LogIndex
  deriving DecidableEq, Repr

structure AppendEntriesResp where
  term : Term
  success : Bool
  match_index : LogIndex
  deriving DecidableEq, Repr

structure RequestVoteReq where
  term : Term
  candidate_id : NodeId
  last_log_index : LogIndex
  last_log_term : Term
  deriving DecidableEq, Repr

structure RequestVoteResp where
  term : Term
  vote_granted : Bool
  deriving DecidableEq, Repr

structure InstallSnapshotReq where
  term : Term
  leader_id : NodeId
  last_included_index : LogIndex
  last_included_term : Term
  data : List UInt8
  deriving DecidableEq, Repr

structure InstallSnapshotResp where
  term : Term
  deriving DecidableEq, Repr

/-! ## `node.rs` -/

inductive RaftRole where
  | Leader
  | Follower
  | Candidate
  deriving DecidableEq, Repr

structure RaftConfig where
  node_id : NodeId
  peers : List NodeId
  deriving DecidableEq, Repr

structure RaftNode where
  config : RaftConfig
  role : RaftRole
  current_term : Term
  voted_for : Option NodeId
  log : RaftLog
  commit_index : LogIndex
  next_index : List (NodeId × LogIndex)
  match_index : List (NodeId × LogIndex)
  votes_received : ℕ
  deriving DecidableEq, Repr

namespace RaftNode

def new (config : RaftConfig) : RaftNode where
  config := config
  role := .Follower
  current_term := 0
  voted_for := none
  log := RaftLog.new
  commit_index := 0
  next_index := config.peers.map (fun p => (p, 1))
  match_index := config.peers.map (fun p => (p, 0))
  votes_received := 0

/-- `config.peers.len().div_ceil(2) + 1`. -/
def quorum (self : RaftNode) : ℕ := (self.config.peers.length + 1) / 2 + 1

/-! ### Helpers -/

/-- `set_next_index` and `set_match_index`: the first pair with the key gets the value. -/
def set_index : List (NodeId × LogIndex) → NodeId → LogIndex → List (NodeId × LogIndex)
  | [], _, _ => []
  | (p, i) :: rest, peer, index =>
    if p = peer then (p, index) :: rest else (p, i) :: set_index rest peer index

def set_next_index (self : RaftNode) (peer : NodeId) (index : LogIndex) : RaftNode :=
  { self with next_index := set_index self.next_index peer index }

def set_match_index (self : RaftNode) (peer : NodeId) (index : LogIndex) : RaftNode :=
  { self with match_index := set_index self.match_index peer index }

def next_index_for (self : RaftNode) (peer : NodeId) : LogIndex :=
  ((self.next_index.find? (fun e => e.1 = peer)).map Prod.snd).getD 1

def become_leader (self : RaftNode) : RaftNode :=
  let last := self.log.last_index
  { self with role := .Leader,
              next_index := self.next_index.map (fun e => (e.1, last + 1)),
              match_index := self.match_index.map (fun e => (e.1, 0)) }

/-- Adopting the later term of a message. -/
def step_down (self : RaftNode) (term : Term) : RaftNode :=
  { self with current_term := term, voted_for := none, role := .Follower }

/-! ### Handlers -/

/-- Rule 3 and 4 for one entry. -/
def append_entry (log : RaftLog) (entry : LogEntry) : RaftLog :=
  match log.get entry.index with
  | some existing =>
    if existing.term ≠ entry.term then
      ((log.truncate_after (entry.index - 1)).append entry.term entry.data).1
    else log
  | none => (log.append entry.term entry.data).1

/-- Rule 5. -/
def update_commit (self : RaftNode) (leader_commit : LogIndex) : RaftNode :=
  if leader_commit > self.commit_index then
    let new_commit := min leader_commit self.log.last_index
    { self with commit_index := new_commit, log := self.log.advance_commit new_commit }
  else self

/-- Rules 3 to 5: the request continues the log. -/
def accept_entries (self : RaftNode) (req : AppendEntriesReq) : RaftNode × AppendEntriesResp :=
  let self := { self with log := req.entries.foldl append_entry self.log }
  let self := self.update_commit req.leader_commit
  (self, ⟨self.current_term, true, self.log.last_index⟩)

def reject_entries (self : RaftNode) : RaftNode × AppendEntriesResp :=
  (self, ⟨self.current_term, false, self.log.last_index⟩)

/-- Rule 2: the entry before the new ones has to be there. -/
def check_entries (self : RaftNode) (req : AppendEntriesReq) : RaftNode × AppendEntriesResp :=
  if req.prev_log_index > 0 then
    match self.log.get req.prev_log_index with
    | none => self.reject_entries
    | some entry =>
      if entry.term ≠ req.prev_log_term then
        reject_entries { self with log := self.log.truncate_after (req.prev_log_index - 1) }
      else self.accept_entries req
  else self.accept_entries req

/-- The recipient of a request that is not stale: a follower in the request's term. -/
def follow (self : RaftNode) (term : Term) : RaftNode :=
  let self :=
    if term > self.current_term then { self with current_term := term, voted_for := none }
    else self
  { self with role := .Follower }

def handle_append_entries (self : RaftNode) (req : AppendEntriesReq) :
    RaftNode × AppendEntriesResp :=
  if req.term < self.current_term then self.reject_entries
  else (self.follow req.term).check_entries req

/-- The vote itself, in the term of the request. -/
def vote (self : RaftNode) (req : RequestVoteReq) : RaftNode × RequestVoteResp :=
  let can_vote := self.voted_for = none ∨ self.voted_for = some req.candidate_id
  let log_ok := req.last_log_term > self.log.last_term
    ∨ (req.last_log_term = self.log.last_term ∧ req.last_log_index ≥ self.log.last_index)
  if can_vote ∧ log_ok then
    ({ self with voted_for := some req.candidate_id }, ⟨self.current_term, true⟩)
  else (self, ⟨self.current_term, false⟩)

def handle_request_vote (self : RaftNode) (req : RequestVoteReq) : RaftNode × RequestVoteResp :=
  if req.term < self.current_term then (self, ⟨self.current_term, false⟩)
  else if req.term > self.current_term then (self.step_down req.term).vote req
  else self.vote req

def propose (self : RaftNode) (data : List UInt8) : RaftNode × Except String LogIndex :=
  if self.role ≠ .Leader then (self, .error "not leader")
  else
    let (log, index) := self.log.append self.current_term data
    ({ self with log := log }, .ok index)

/-- The request `heartbeat` builds for one peer. -/
def append_request (self : RaftNode) (peer : NodeId) : AppendEntriesReq :=
  let next := self.next_index_for peer
  let prev_log_index := next - 1
  { term := self.current_term
    leader_id := self.config.node_id
    prev_log_index := prev_log_index
    prev_log_term := ((self.log.get prev_log_index).map LogEntry.term).getD 0
    entries := self.log.entries_from next
    leader_commit := self.commit_index }

def heartbeat (self : RaftNode) : List (NodeId × AppendEntriesReq) :=
  if self.role ≠ .Leader then []
  else self.config.peers.map (fun peer => (peer, self.append_request peer))

/-- Whether the leader may commit up to `n`: the entry is of its term, and a quorum has it. -/
def committable (self : RaftNode) (n : LogIndex) : Bool :=
  decide (((self.log.get n).map LogEntry.term).getD 0 = self.current_term) &&
    decide (self.quorum ≤ 1 + self.match_index.countP (fun e => decide (n ≤ e.2)))

/-- The commit loop: the highest index that can be committed. -/
def advance_commit_index (self : RaftNode) : RaftNode :=
  let last := self.log.last_index
  match ((List.range' (self.commit_index + 1) (last - self.commit_index)).reverse).find?
      self.committable with
  | some n => { self with commit_index := n, log := self.log.advance_commit n }
  | none => self

def handle_append_response (self : RaftNode) (from_id : NodeId) (resp : AppendEntriesResp) :
    RaftNode :=
  if resp.term > self.current_term then self.step_down resp.term
  else if self.role ≠ .Leader then self
  else if resp.success then
    ((self.set_match_index from_id resp.match_index).set_next_index from_id
      (resp.match_index + 1)).advance_commit_index
  else
    let new_next := resp.match_index + 1
    let current_next := self.next_index_for from_id
    if new_next < current_next then self.set_next_index from_id (max new_next 1)
    else self.set_next_index from_id (max (current_next - 1) 1)

/-- The candidate `start_election` makes of a node; the term is a `u64`. -/
def candidate (self : RaftNode) : RaftNode :=
  { self with current_term := (self.current_term + 1) % 2 ^ 64, role := .Candidate,
              voted_for := some self.config.node_id, votes_received := 1 }

def start_election (self : RaftNode) : RaftNode × List (NodeId × RequestVoteReq) :=
  let self := self.candidate
  if self.quorum ≤ self.votes_received then (self.become_leader, [])
  else
    (self, self.config.peers.map fun peer =>
      (peer, ⟨self.current_term, self.config.node_id, self.log.last_index, self.log.last_term⟩))

def handle_vote_response (self : RaftNode) (_from_id : NodeId) (resp : RequestVoteResp) :
    RaftNode × Bool :=
  if resp.term > self.current_term then (self.step_down resp.term, false)
  else if self.role ≠ .Candidate then (self, false)
  else if resp.vote_granted then
    let self := { self with votes_received := self.votes_received + 1 }
    if self.quorum ≤ self.votes_received then (self.become_leader, true) else (self, false)
  else (self, false)

/-! ### Snapshots -/

def create_snapshot (self : RaftNode) (index : LogIndex) (snapshot_data : List UInt8) : RaftNode :=
  let term := ((self.log.get index).map LogEntry.term).getD self.current_term
  let snapshot : Snapshot := ⟨index, term, snapshot_data⟩
  { self with log := self.log.compact snapshot }

def handle_install_snapshot (self : RaftNode) (req : InstallSnapshotReq) :
    RaftNode × InstallSnapshotResp :=
  if req.term < self.current_term then (self, ⟨self.current_term⟩)
  else
    let self := self.follow req.term
    if req.last_included_index ≤ self.log.last_applied then (self, ⟨self.current_term⟩)
    else
      let snapshot : Snapshot := ⟨req.last_included_index, req.last_included_term, req.data⟩
      -- the log's commit index moves with the snapshot, the node's own does not
      ({ self with log := self.log.compact snapshot }, ⟨self.current_term⟩)

def maybe_install_snapshot (self : RaftNode) (peer : NodeId) :
    Option (NodeId × InstallSnapshotReq) :=
  if self.role ≠ .Leader then none
  else
    self.log.snapshot.bind fun snap =>
      if self.next_index_for peer ≤ snap.last_included_index then
        some (peer, ⟨self.current_term, self.config.node_id, snap.last_included_index,
          snap.last_included_term, snap.data⟩)
      else none

def take_applicable (self : RaftNode) : List LogEntry × RaftNode :=
  (self.log.take_applicable.1, { self with log := self.log.take_applicable.2 })

def advance_commit_if_solo (self : RaftNode) : RaftNode :=
  if self.role ≠ .Leader ∨ self.config.peers ≠ [] then self
  else
    let last := self.log.last_index
    if self.commit_index < last then
      { self with commit_index := last, log := self.log.advance_commit last }
    else self

/-! ## What an election step can do -/

/-- The up-to-date check of `handle_request_vote`. -/
def LogOk (self : RaftNode) (req : RequestVoteReq) : Prop :=
  req.last_log_term > self.log.last_term
    ∨ (req.last_log_term = self.log.last_term ∧ req.last_log_index ≥ self.log.last_index)

variable (self : RaftNode)

/-- A vote is refused, or granted in the term of the request. -/
theorem handle_request_vote_cases (req : RequestVoteReq) :
    ((self.handle_request_vote req).2.vote_granted = false
        ∧ ((self.handle_request_vote req).1 = self ∨ (self.current_term < req.term
          ∧ (self.handle_request_vote req).1 = self.step_down req.term)))
      ∨ ((self.handle_request_vote req).2 = ⟨req.term, true⟩ ∧ self.LogOk req
        ∧ ((req.term = self.current_term
            ∧ (self.voted_for = none ∨ self.voted_for = some req.candidate_id)
            ∧ (self.handle_request_vote req).1 = { self with voted_for := some req.candidate_id })
          ∨ (self.current_term < req.term ∧ (self.handle_request_vote req).1
            = { self.step_down req.term with voted_for := some req.candidate_id }))) := by
  unfold handle_request_vote
  split
  case isTrue => exact .inl ⟨rfl, .inl rfl⟩
  case isFalse hge =>
    split
    case isTrue hgt =>
      unfold vote
      dsimp only
      split
      case isTrue hok => exact .inr ⟨rfl, hok.2, .inr ⟨hgt, rfl⟩⟩
      case isFalse => exact .inl ⟨rfl, .inr ⟨hgt, rfl⟩⟩
    case isFalse hle =>
      have hterm : req.term = self.current_term :=
        le_antisymm (not_lt.mp hle) (not_lt.mp hge)
      unfold vote
      dsimp only
      split
      case isTrue hok =>
        exact .inr ⟨by rw [hterm], hok.2, .inl ⟨hterm, hok.1, rfl⟩⟩
      case isFalse => exact .inl ⟨rfl, .inl rfl⟩

/-- The node is not in the last term, so an election begins in the next one. -/
def TermFits (self : RaftNode) : Prop := self.current_term + 1 < 2 ^ 64

instance : Decidable self.TermFits := inferInstanceAs (Decidable (_ < _))

theorem candidate_term {self : RaftNode} (h : self.TermFits) :
    self.candidate.current_term = self.current_term + 1 := Nat.mod_eq_of_lt h

theorem term_lt_candidate {self : RaftNode} (h : self.TermFits) :
    self.current_term < self.candidate.current_term := by
  rw [candidate_term h]
  exact Nat.lt_succ_self _

/-- An election in the last term leads to a smaller one. -/
theorem candidate_term_lt {self : RaftNode} (h : ¬ self.TermFits) :
    self.candidate.current_term < self.current_term := by
  have hwrap : ∀ t : ℕ, ¬ t + 1 < 2 ^ 64 → (t + 1) % 2 ^ 64 < t := by omega
  exact hwrap self.current_term h

/-- The request a candidate sends. -/
def vote_request (self : RaftNode) : RequestVoteReq :=
  ⟨self.current_term, self.config.node_id, self.log.last_index, self.log.last_term⟩

/-- An election starts, and is over at once when no other vote is needed. -/
theorem start_election_cases :
    (self.candidate.quorum ≤ 1 ∧ self.start_election = (self.candidate.become_leader, []))
      ∨ (1 < self.candidate.quorum ∧ self.start_election = (self.candidate,
        self.config.peers.map fun peer => (peer, self.candidate.vote_request))) := by
  unfold start_election
  dsimp only
  split
  case isTrue h => exact .inl ⟨h, rfl⟩
  case isFalse h => exact .inr ⟨not_le.mp h, rfl⟩

/-- A vote response is ignored, ends the candidacy, or is counted. -/
theorem handle_vote_response_cases (src : NodeId) (resp : RequestVoteResp) :
    (self.handle_vote_response src resp).1 = self
      ∨ (self.current_term < resp.term
        ∧ (self.handle_vote_response src resp).1 = self.step_down resp.term)
      ∨ (resp.term ≤ self.current_term ∧ self.role = .Candidate ∧ resp.vote_granted = true
        ∧ ((self.votes_received + 1 < self.quorum ∧ (self.handle_vote_response src resp).1
            = { self with votes_received := self.votes_received + 1 })
          ∨ (self.quorum ≤ self.votes_received + 1 ∧ (self.handle_vote_response src resp).1
            = become_leader { self with votes_received := self.votes_received + 1 }))) := by
  unfold handle_vote_response
  split
  case isTrue hgt => exact .inr (.inl ⟨hgt, rfl⟩)
  case isFalse hle =>
    split
    case isTrue => exact .inl rfl
    case isFalse hrole =>
      split
      case isTrue hgrant =>
        right
        right
        refine ⟨not_lt.mp hle, not_not.mp hrole, hgrant, ?_⟩
        dsimp only
        split
        case isTrue hq => exact .inr ⟨hq, rfl⟩
        case isFalse hq => exact .inl ⟨not_le.mp hq, rfl⟩
      case isFalse => exact .inl rfl

/-- The node takes no part in an election: at most it adopts a later term or steps down. -/
structure Quiet (n n' : RaftNode) : Prop where
  config : n'.config = n.config
  votes : n'.votes_received = n.votes_received
  moves : (n'.current_term = n.current_term ∧ n'.voted_for = n.voted_for
      ∧ (n'.role = n.role ∨ n'.role = .Follower))
    ∨ (n.current_term < n'.current_term ∧ n'.voted_for = none ∧ n'.role = .Follower)

theorem Quiet.refl (n : RaftNode) : Quiet n n := ⟨rfl, rfl, .inl ⟨rfl, rfl, .inl rfl⟩⟩

theorem quiet_step_down {n : RaftNode} {term : Term} (h : n.current_term < term) :
    Quiet n (n.step_down term) := ⟨rfl, rfl, .inr ⟨h, rfl, rfl⟩⟩

theorem Quiet.term_le {n n' : RaftNode} (h : Quiet n n') : n.current_term ≤ n'.current_term := by
  rcases h.moves with ⟨heq, -, -⟩ | ⟨hlt, -, -⟩
  · exact heq.ge
  · exact hlt.le

/-- Changes of the log and the indices are no concern of elections. -/
theorem Quiet.of_same {n n' : RaftNode} (h1 : n'.config = n.config)
    (h2 : n'.votes_received = n.votes_received) (h3 : n'.current_term = n.current_term)
    (h4 : n'.voted_for = n.voted_for) (h5 : n'.role = n.role) : Quiet n n' :=
  ⟨h1, h2, .inl ⟨h3, h4, .inl h5⟩⟩

/-- A request is refused, with the log cut before the previous entry at most, or that entry is
there and the entry loop runs. -/
theorem check_entries_cases (req : AppendEntriesReq) :
    (∃ log, self.check_entries req = reject_entries { self with log := log }
        ∧ (log = self.log ∨ ∃ e, self.log.get req.prev_log_index = some e
          ∧ e.term ≠ req.prev_log_term ∧ 0 < req.prev_log_index
          ∧ log = self.log.truncate_after (req.prev_log_index - 1)))
      ∨ ((0 < req.prev_log_index → ∃ e, self.log.get req.prev_log_index = some e
          ∧ e.term = req.prev_log_term)
        ∧ self.check_entries req = self.accept_entries req) := by
  unfold check_entries
  split_ifs with hpos
  · cases hget : self.log.get req.prev_log_index with
    | none => exact .inl ⟨_, rfl, .inl rfl⟩
    | some e =>
      by_cases hterm : e.term = req.prev_log_term
      · exact .inr ⟨fun _ => ⟨e, rfl, hterm⟩, if_neg (not_not.mpr hterm)⟩
      · exact .inl ⟨_, if_pos hterm, .inr ⟨e, rfl, hterm, hpos, rfl⟩⟩
  · exact .inr ⟨fun h => absurd h hpos, rfl⟩

theorem check_entries_fields (req : AppendEntriesReq) :
    ∃ log commit, (self.check_entries req).1 = { self with log := log, commit_index := commit }
      ∧ (self.check_entries req).2.term = self.current_term := by
  rcases check_entries_cases self req with ⟨log, heq, -⟩ | ⟨-, heq⟩
  · exact ⟨log, _, by rw [heq]; exact ⟨rfl, rfl⟩⟩
  · rw [heq]
    unfold accept_entries update_commit
    dsimp only
    split <;> exact ⟨_, _, rfl, rfl⟩

theorem handle_append_entries_quiet (req : AppendEntriesReq) :
    Quiet self (self.handle_append_entries req).1 := by
  unfold handle_append_entries
  split
  case isTrue => exact Quiet.refl self
  case isFalse hge =>
    obtain ⟨log, commit, heq, -⟩ := check_entries_fields (self.follow req.term) req
    rw [heq]
    unfold follow
    split
    case isTrue hgt => exact ⟨rfl, rfl, .inr ⟨hgt, rfl, rfl⟩⟩
    case isFalse => exact ⟨rfl, rfl, .inl ⟨rfl, rfl, .inr rfl⟩⟩

theorem handle_append_entries_follower {n : RaftNode} {req : AppendEntriesReq}
    (h : n.current_term ≤ req.term) : (n.handle_append_entries req).1.current_term = req.term
      ∧ (n.handle_append_entries req).1.role = .Follower := by
  obtain ⟨log, commit, heq, -⟩ := check_entries_fields (n.follow req.term) req
  unfold handle_append_entries
  rw [if_neg (not_lt.mpr h), heq]
  unfold follow
  split
  case isTrue => exact ⟨rfl, rfl⟩
  case isFalse hge => exact ⟨le_antisymm h (not_lt.mp hge), rfl⟩

/-- What is kept for the peers does not change, and the answer is in the node's term. -/
theorem handle_append_entries_fields (n : RaftNode) (req : AppendEntriesReq) :
    (n.handle_append_entries req).1.next_index = n.next_index
      ∧ (n.handle_append_entries req).1.match_index = n.match_index
      ∧ (n.handle_append_entries req).2.term = (n.handle_append_entries req).1.current_term := by
  obtain ⟨log, commit, heq, hresp⟩ := check_entries_fields (n.follow req.term) req
  unfold handle_append_entries
  split
  · exact ⟨rfl, rfl, rfl⟩
  · rw [heq, hresp]
    unfold follow
    split <;> exact ⟨rfl, rfl, rfl⟩

theorem propose_quiet (data : List UInt8) : Quiet self (self.propose data).1 := by
  unfold propose
  split
  case isTrue => exact Quiet.refl self
  case isFalse => exact Quiet.of_same rfl rfl rfl rfl rfl

theorem handle_append_response_quiet (src : NodeId) (resp : AppendEntriesResp) :
    Quiet self (self.handle_append_response src resp) := by
  unfold handle_append_response
  split
  case isTrue hgt => exact quiet_step_down hgt
  case isFalse =>
    split
    case isTrue => exact Quiet.refl self
    case isFalse =>
      split
      case isTrue =>
        unfold advance_commit_index
        dsimp only
        split <;> exact Quiet.of_same rfl rfl rfl rfl rfl
      case isFalse =>
        dsimp only
        split <;> exact Quiet.of_same rfl rfl rfl rfl rfl

end RaftNode

end Oigrap.Raft
