/-
Runs of one node: what its own log and commit index go through.

A node takes its methods in any order, with any messages. Two things are shown here about
such runs. `commit_index_iff`: the node and its log each keep a commit index, and they stay
equal exactly as long as no `InstallSnapshot` ahead of the commit index is accepted, which
moves the log's only. `propose_committed`: a proposal that waits for the commit index to
reach its entry is answered for that entry as long as no other leader's entry takes its
place; `propose` does not look at the log again, so otherwise it answers for the entry of
somebody else (`acknowledged_but_replaced`).
-/
import Oigrap.Lib.Runs
import Oigrap.Raft.Log

namespace Oigrap.Raft

open List RaftLog Option

/-- The public operations of a node. -/
inductive NodeOp where
  | start_election
  | propose (data : List UInt8)
  | heartbeat
  | handle_request_vote (req : RequestVoteReq)
  | handle_vote_response (src : NodeId) (resp : RequestVoteResp)
  | handle_append_entries (req : AppendEntriesReq)
  | handle_append_response (src : NodeId) (resp : AppendEntriesResp)
  | handle_install_snapshot (req : InstallSnapshotReq)
  | create_snapshot (index : LogIndex) (data : List UInt8)
  | maybe_install_snapshot (peer : NodeId)
  | take_applicable
  | advance_commit_if_solo

namespace RaftNode

/-- The node after an operation. -/
def apply (self : RaftNode) : NodeOp → RaftNode
  | .start_election => self.start_election.1
  | .propose data => (self.propose data).1
  | .heartbeat => self
  | .handle_request_vote req => (self.handle_request_vote req).1
  | .handle_vote_response src resp => (self.handle_vote_response src resp).1
  | .handle_append_entries req => (self.handle_append_entries req).1
  | .handle_append_response src resp => self.handle_append_response src resp
  | .handle_install_snapshot req => (self.handle_install_snapshot req).1
  | .create_snapshot index data => self.create_snapshot index data
  | .maybe_install_snapshot _ => self
  | .take_applicable => self.take_applicable.2
  | .advance_commit_if_solo => self.advance_commit_if_solo

variable {n n' : RaftNode}

/-! ## What an operation does to the log -/

/-- The log and the commit index are as before. -/
def Untouched (n n' : RaftNode) : Prop := n'.log = n.log ∧ n'.commit_index = n.commit_index

/-- The commit index is set, in the node and in the log. -/
def Commits (n n' : RaftNode) : Prop :=
  ∃ k, k ≤ n.log.last_index ∧ (n.commit_index ≤ k ∨ k = n.log.last_index)
    ∧ n'.commit_index = k ∧ n'.log = n.log.advance_commit k

variable (n)

theorem untouched_follow (term : Term) : Untouched n (n.follow term) := by
  unfold follow
  split <;> exact ⟨rfl, rfl⟩

theorem untouched_start_election : Untouched n n.start_election.1 := by
  unfold start_election
  dsimp only
  split <;> exact ⟨rfl, rfl⟩

theorem untouched_vote (req : RequestVoteReq) : Untouched n (n.vote req).1 := by
  unfold vote
  dsimp only
  split <;> exact ⟨rfl, rfl⟩

theorem untouched_handle_request_vote (req : RequestVoteReq) :
    Untouched n (n.handle_request_vote req).1 := by
  unfold handle_request_vote
  split
  · exact ⟨rfl, rfl⟩
  · split
    · exact untouched_vote (n.step_down req.term) req
    · exact untouched_vote n req

theorem untouched_handle_vote_response (src : NodeId) (resp : RequestVoteResp) :
    Untouched n (n.handle_vote_response src resp).1 := by
  unfold handle_vote_response
  split
  · exact ⟨rfl, rfl⟩
  · split
    · exact ⟨rfl, rfl⟩
    · split
      · dsimp only
        split <;> exact ⟨rfl, rfl⟩
      · exact ⟨rfl, rfl⟩

theorem commits_advance_commit_index :
    Untouched n n.advance_commit_index ∨ Commits n n.advance_commit_index := by
  unfold advance_commit_index
  dsimp only
  split
  · rename_i k hk
    have hmem := mem_of_find?_eq_some hk
    rw [mem_reverse, mem_range'_1] at hmem
    refine .inr ⟨k, ?_, .inl ?_, rfl, rfl⟩ <;> lia
  · exact .inl ⟨rfl, rfl⟩

theorem commits_handle_append_response (src : NodeId) (resp : AppendEntriesResp) :
    Untouched n (n.handle_append_response src resp)
      ∨ Commits n (n.handle_append_response src resp) := by
  unfold handle_append_response
  split
  · exact .inl ⟨rfl, rfl⟩
  · split
    · exact .inl ⟨rfl, rfl⟩
    · split
      · exact commits_advance_commit_index ((n.set_match_index src resp.match_index).set_next_index
          src (resp.match_index + 1))
      · dsimp only
        split <;> exact .inl ⟨rfl, rfl⟩

theorem commits_advance_commit_if_solo :
    Untouched n n.advance_commit_if_solo ∨ Commits n n.advance_commit_if_solo := by
  unfold advance_commit_if_solo
  split
  · exact .inl ⟨rfl, rfl⟩
  · dsimp only
    split
    · exact .inr ⟨_, le_rfl, .inr rfl, rfl, rfl⟩
    · exact .inl ⟨rfl, rfl⟩

theorem commits_update_commit (k : LogIndex) :
    Untouched n (n.update_commit k) ∨ Commits n (n.update_commit k) := by
  unfold update_commit
  split_ifs with hlt
  · refine .inr ⟨_, Nat.min_le_right _ _, ?_, rfl, rfl⟩
    rcases le_total k n.log.last_index with hk | hk
    · rw [min_eq_left hk]
      exact .inl (le_of_lt hlt)
    · exact .inr (Nat.min_eq_right hk)
  · exact .inl ⟨rfl, rfl⟩

variable {n}

/-- Up to index `i` the log stays as it is, and then the commit index may be set. -/
def Spared (i : LogIndex) (n n' : RaftNode) : Prop :=
  ∃ log, RaftLog.Keeps i n.log log ∧ (Untouched { n with log := log } n'
    ∨ Commits { n with log := log } n')

variable {i : LogIndex} {req : AppendEntriesReq} {op : NodeOp} {ops : List NodeOp}

/-- The request contradicts no term of the log up to index `i`. -/
def NoConflict (i : LogIndex) (log : RaftLog) (req : AppendEntriesReq) : Prop :=
  (0 < req.prev_log_index → RaftLog.Agrees i log ⟨req.prev_log_term, req.prev_log_index, []⟩)
    ∧ ∀ entry ∈ req.entries, RaftLog.Agrees i log entry

instance (i : LogIndex) (log : RaftLog) (req : AppendEntriesReq) :
    Decidable (NoConflict i log req) := inferInstanceAs (Decidable (_ ∧ _))

section Spared

variable (h : n.log.Wf) (hi : i ≤ n.log.last_index)
include h hi

theorem Spared.of_commits (hn : Untouched n n' ∨ Commits n n') : Spared i n n' :=
  ⟨n.log, RaftLog.Keeps.refl h hi, hn⟩

variable (hb : n.log.base_index ≤ i)
include hb

theorem spared_check_entries (hreq : NoConflict i n.log req) :
    Spared i n (n.check_entries req).1 := by
  have haccept : Spared i n (n.accept_entries req).1 :=
    ⟨_, keeps_append_entries h hb hi hreq.2, commits_update_commit _ _⟩
  rcases check_entries_cases n req with ⟨log, heq, rfl | ⟨e, he, hne, hprev, rfl⟩⟩ | ⟨-, heq⟩
  · exact heq ▸ Spared.of_commits h hi (.inl ⟨rfl, rfl⟩)
  · -- the entry that is cut off disagrees, so it stands beyond `i`
    have hlt : i < req.prev_log_index := by
      by_contra hle
      exact hne (hreq.1 hprev (not_lt.mp hle) e he)
    exact heq ▸ ⟨_, keeps_truncate_after h hb hi (Nat.le_sub_one_of_lt hlt), .inl ⟨rfl, rfl⟩⟩
  · exact heq ▸ haccept

theorem spared_handle_append_entries
    (hreq : req.term < n.current_term ∨ NoConflict i n.log req) :
    Spared i n (n.handle_append_entries req).1 := by
  unfold handle_append_entries
  split
  case isTrue => exact Spared.of_commits h hi (.inl ⟨rfl, rfl⟩)
  case isFalse hge =>
    obtain ⟨hlog, hcommit⟩ := untouched_follow n req.term
    have hreq := hreq.resolve_left hge
    rw [← hlog] at h hb hi hreq
    obtain ⟨log, hkeeps, hcommits⟩ := spared_check_entries h hi hb hreq
    rw [hlog] at hkeeps
    refine ⟨log, hkeeps, hcommits.imp ?_ ?_⟩
    · rintro ⟨h1, h2⟩
      exact ⟨h1, h2.trans hcommit⟩
    · rintro ⟨k, h1, h2, h3, h4⟩
      exact ⟨k, h1, h2.imp_left (fun hk => hcommit ▸ hk), h3, h4⟩

/-- Every operation but those of snapshots and of the state machine spares the log up to `i`,
if a request it handles does not contradict it there. -/
theorem spared_apply
    (hreq : ∀ req, op = .handle_append_entries req → req.term < n.current_term ∨ NoConflict i n.log req)
    (hinstall : ∀ req, op ≠ .handle_install_snapshot req)
    (hcreate : ∀ index data, op ≠ .create_snapshot index data) (htake : op ≠ .take_applicable) :
    Spared i n (n.apply op) := by
  cases op with
  | start_election => exact Spared.of_commits h hi (.inl (untouched_start_election n))
  | propose data =>
    show Spared i n (n.propose data).1
    unfold propose
    split
    · exact Spared.of_commits h hi (.inl ⟨rfl, rfl⟩)
    · exact ⟨_, keeps_append h hi n.current_term data, .inl ⟨rfl, rfl⟩⟩
  | heartbeat => exact Spared.of_commits h hi (.inl ⟨rfl, rfl⟩)
  | handle_request_vote req =>
    exact Spared.of_commits h hi (.inl (untouched_handle_request_vote n req))
  | handle_vote_response src resp =>
    exact Spared.of_commits h hi (.inl (untouched_handle_vote_response n src resp))
  | handle_append_entries req => exact spared_handle_append_entries h hi hb (hreq req rfl)
  | handle_append_response src resp =>
    exact Spared.of_commits h hi (commits_handle_append_response n src resp)
  | handle_install_snapshot req => exact absurd rfl (hinstall req)
  | create_snapshot index data => exact absurd rfl (hcreate index data)
  | maybe_install_snapshot peer => exact Spared.of_commits h hi (.inl ⟨rfl, rfl⟩)
  | take_applicable => exact absurd rfl htake
  | advance_commit_if_solo => exact Spared.of_commits h hi (commits_advance_commit_if_solo n)

end Spared

theorem handle_install_snapshot_cases (n : RaftNode) (req : InstallSnapshotReq) :
    ((req.term < n.current_term ∨ req.last_included_index ≤ n.log.last_applied)
        ∧ Untouched n (n.handle_install_snapshot req).1)
      ∨ (n.current_term ≤ req.term ∧ n.log.last_applied < req.last_included_index
        ∧ (n.handle_install_snapshot req).1.commit_index = n.commit_index
        ∧ (n.handle_install_snapshot req).1.log
          = n.log.compact ⟨req.last_included_index, req.last_included_term, req.data⟩) := by
  obtain ⟨hlog, hcommit⟩ := untouched_follow n req.term
  unfold handle_install_snapshot
  split
  case isTrue hlt => exact .inl ⟨.inl hlt, rfl, rfl⟩
  case isFalse hge =>
    dsimp only
    split
    case isTrue hle =>
      rw [hlog] at hle
      exact .inl ⟨.inr hle, hlog, hcommit⟩
    case isFalse hgt =>
      rw [hlog] at hgt
      exact .inr ⟨not_lt.mp hge, not_le.mp hgt, hcommit, by rw [hlog]⟩

/-! ## The two commit indices -/

/-- The node and its log agree on what is committed, and it is there. -/
def Consistent (n : RaftNode) : Prop :=
  n.commit_index = n.log.commit_index ∧ n.commit_index ≤ n.log.last_index

instance (n : RaftNode) : Decidable n.Consistent := inferInstanceAs (Decidable (_ ∧ _))

/-- What leaders and the state machine above the node guarantee: a request that is not stale
contradicts nothing committed, and only what is committed is put into a snapshot. -/
def Admissible (n : RaftNode) : NodeOp → Prop
  | .handle_append_entries req => req.term < n.current_term ∨ NoConflict n.commit_index n.log req
  | .create_snapshot index _ => index ≤ n.commit_index
  | _ => True

instance (n : RaftNode) : ∀ op, Decidable (n.Admissible op)
  | .handle_append_entries _ => inferInstanceAs (Decidable (_ ∨ _))
  | .create_snapshot _ _ => inferInstanceAs (Decidable (_ ≤ _))
  | .start_election | .propose _ | .heartbeat | .handle_request_vote _
  | .handle_vote_response _ _ | .handle_append_response _ _ | .handle_install_snapshot _
  | .maybe_install_snapshot _ | .take_applicable | .advance_commit_if_solo => isTrue trivial

/-- A snapshot that is not stale covers no more than what the node knows to be committed. -/
def NotAhead (n : RaftNode) : NodeOp → Prop
  | .handle_install_snapshot req =>
    req.term < n.current_term ∨ req.last_included_index ≤ n.commit_index
  | _ => True

instance (n : RaftNode) : ∀ op, Decidable (n.NotAhead op)
  | .handle_install_snapshot _ => inferInstanceAs (Decidable (_ ∨ _))
  | .start_election | .propose _ | .heartbeat | .handle_request_vote _
  | .handle_vote_response _ _ | .handle_append_entries _ | .handle_append_response _ _
  | .create_snapshot _ _ | .maybe_install_snapshot _ | .take_applicable
  | .advance_commit_if_solo => isTrue trivial

/-- What holds of a node whose two commit indices agree. -/
structure Settled (n : RaftNode) : Prop where
  wf : n.log.Wf
  commit : n.log.commit_index = n.commit_index
  last : n.commit_index ≤ n.log.last_index
  applied : n.log.last_applied ≤ n.commit_index
  base : n.log.base_index ≤ n.commit_index

theorem settled_new (config : RaftConfig) : (new config).Settled :=
  ⟨new_wf, rfl, le_rfl, le_rfl, le_rfl⟩

section

variable (h : n.Settled)
include h

theorem Settled.consistent : n.Consistent := ⟨h.commit.symm, h.last⟩

theorem Settled.untouched (hn : Untouched n n') : n'.Settled := by
  obtain ⟨hlog, hcommit⟩ := hn
  refine ⟨?_, ?_, ?_, ?_, ?_⟩
  all_goals rw [hlog]; try rw [hcommit]
  · exact h.wf
  · exact h.commit
  · exact h.last
  · exact h.applied
  · exact h.base

theorem Settled.commits (hn : Commits n n') : n'.Settled ∧ n.commit_index ≤ n'.commit_index := by
  obtain ⟨k, hlast, hk, hcommit, hlog⟩ := hn
  have hle : n.commit_index ≤ k := by
    rcases hk with hk | rfl
    · exact hk
    · exact h.last
  obtain ⟨hents, hbase, happlied⟩ := advance_commit_fields n.log k
  rw [← hlog] at hents hbase happlied
  refine ⟨⟨h.wf.congr hents hbase, ?_, ?_, ?_, ?_⟩, by rw [hcommit]; exact hle⟩
  · rw [hlog, hcommit]
    exact advance_commit_commit (by rw [h.commit]; exact hle) hlast
  · rwa [last_index_congr hents hbase, hcommit]
  · rw [happlied, hcommit]
    exact le_trans h.applied hle
  · rw [hbase, hcommit]
    exact le_trans h.base hle

theorem Settled.spared (hn : Spared n.commit_index n n') :
    n'.Settled ∧ n.commit_index ≤ n'.commit_index := by
  obtain ⟨log, hkeeps, hn⟩ := hn
  have hmid : Settled { n with log := log } := by
    refine ⟨hkeeps.wf, ?_, hkeeps.last, ?_, ?_⟩
    · exact (hkeeps.commit (le_of_eq h.commit)).trans h.commit
    · exact le_trans (le_of_eq hkeeps.applied) h.applied
    · exact le_trans (le_of_eq hkeeps.base) h.base
  rcases hn with hn | hn
  · exact ⟨hmid.untouched hn, le_of_eq hn.2.symm⟩
  · exact hmid.commits hn

theorem Settled.compact {snapshot : Snapshot}
    (hs : snapshot.last_included_index ≤ n.commit_index) (hcommit : n'.commit_index = n.commit_index)
    (hlog : n'.log = n.log.compact snapshot) : n'.Settled := by
  by_cases hb : snapshot.last_included_index ≤ n.log.base_index
  · exact h.untouched ⟨by rw [hlog, compact_of_le hb], hcommit⟩
  · obtain ⟨hbase, -, hc, happlied⟩ := compact_fields (not_le.mp hb)
    rw [← hlog] at hbase hc happlied
    refine ⟨?_, ?_, ?_, ?_, ?_⟩
    · rw [hlog]
      exact compact_wf h.wf
    · rw [hc, h.commit, hcommit, Nat.max_eq_left hs]
    · rw [hlog, last_index_compact (le_trans hs h.last), hcommit]
      exact h.last
    · rw [happlied, hcommit]
      exact Nat.max_le.mpr ⟨h.applied, hs⟩
    · rwa [hbase, hcommit]

theorem Settled.take_applicable : n.take_applicable.2.Settled := by
  have happlied : n.take_applicable.2.log.last_applied = n.commit_index := by
    show (n.log.apply_up_to (n.log.commit_index - n.log.last_applied)).2 = n.commit_index
    rw [apply_up_to_snd, h.commit]
    exact Nat.add_sub_cancel' h.applied
  exact ⟨h.wf.congr rfl rfl, h.commit, h.last, le_of_eq happlied, h.base⟩

/-- One operation keeps the two commit indices equal and does not move them back. -/
theorem Settled.step (hadm : n.Admissible op) (hahead : n.NotAhead op) :
    (n.apply op).Settled ∧ n.commit_index ≤ (n.apply op).commit_index := by
  by_cases hop : (∃ req, op = .handle_install_snapshot req)
      ∨ (∃ index data, op = .create_snapshot index data) ∨ op = .take_applicable
  · rcases hop with ⟨req, rfl⟩ | ⟨index, data, rfl⟩ | rfl
    · rcases handle_install_snapshot_cases n req with ⟨-, hn⟩ | ⟨hterm, -, hcommit, hlog⟩
      · exact ⟨h.untouched hn, le_of_eq hn.2.symm⟩
      · have hle := hahead.resolve_left (not_lt.mpr hterm)
        exact ⟨h.compact hle hcommit hlog, le_of_eq hcommit.symm⟩
    · have hle : index ≤ n.commit_index := hadm
      have hsettled : (n.create_snapshot index data).Settled := h.compact hle rfl rfl
      exact ⟨hsettled, le_rfl⟩
    · exact ⟨h.take_applicable, le_rfl⟩
  · push Not at hop
    refine h.spared (spared_apply h.wf h.last h.base ?_ hop.1 hop.2.1 hop.2.2)
    rintro req rfl
    exact hadm

/-- A snapshot ahead of the commit index moves the log's copy only. -/
theorem Settled.not_ahead (hc : (n.apply op).Consistent) : n.NotAhead op := by
  cases op with
  | handle_install_snapshot req =>
    rcases handle_install_snapshot_cases n req with ⟨hlt | hle, -⟩ | ⟨-, -, hcommit, hlog⟩
    · exact .inl hlt
    · exact .inr (le_trans hle h.applied)
    · right
      by_contra hgt
      have hlt : n.commit_index < req.last_included_index := not_le.mp hgt
      have hbase : n.log.base_index < (Snapshot.mk req.last_included_index
          req.last_included_term req.data).last_included_index := lt_of_le_of_lt h.base hlt
      obtain ⟨-, -, hmax, -⟩ := compact_fields hbase
      rw [← hlog] at hmax
      have heq : n.commit_index = max n.log.commit_index req.last_included_index :=
        hcommit.symm.trans (hc.1.trans hmax)
      lia
  | _ => trivial

end

/-- In every state of the run the two commit indices agree, and they never go back. -/
def CommitConsistent (n : RaftNode) (ops : List NodeOp) : Prop :=
  (∀ pre, pre <+: ops → (pre.foldl apply n).Consistent) ∧ ∀ pre pre', pre <+: pre' → pre' <+: ops →
      (pre.foldl apply n).commit_index ≤ (pre'.foldl apply n).commit_index

theorem Settled.run (h : n.Settled)
    (hops : Along apply (fun n op => n.Admissible op ∧ n.NotAhead op) n ops) :
    (ops.foldl apply n).Settled ∧ n.commit_index ≤ (ops.foldl apply n).commit_index := by
  refine hops.invariant (P := fun m => m.Settled ∧ n.commit_index ≤ m.commit_index)
    ⟨h, le_rfl⟩ ?_
  rintro m op ⟨hm, hle⟩ ⟨hadm, hahead⟩
  obtain ⟨hm', hle'⟩ := hm.step hadm hahead
  exact ⟨hm', le_trans hle hle'⟩

theorem Settled.commitConsistent (h : n.Settled)
    (hops : Along apply (fun n op => n.Admissible op ∧ n.NotAhead op) n ops) :
    CommitConsistent n ops := by
  constructor
  · intro pre hpre
    exact (h.run (hops.initial hpre)).1.consistent
  · rintro pre _ ⟨ext, rfl⟩ hpre'
    obtain ⟨hpre, hext⟩ := Along.append_iff.mp (hops.initial hpre')
    rw [foldl_append]
    exact ((h.run hpre).1.run hext).2

theorem Settled.notAhead_of_consistent (h : n.Settled) (hadm : Along apply Admissible n ops)
    (hc : ∀ pre, pre <+: ops → (pre.foldl apply n).Consistent) : Along apply NotAhead n ops := by
  induction ops generalizing n with
  | nil => exact Along.nil
  | cons op ops ih =>
    obtain ⟨hop, hadm⟩ := Along.cons_iff.mp hadm
    have hahead : n.NotAhead op := h.not_ahead (hc [op] (by simp))
    refine Along.cons_iff.mpr ⟨hahead, ih (h.step hop hahead).1 hadm fun pre hpre => ?_⟩
    exact hc (op :: pre) (cons_prefix_cons.mpr ⟨rfl, hpre⟩)

/-- Along a run in which no request contradicts what is committed, the two commit indices agree
throughout exactly if no snapshot is accepted that is ahead of the node's. -/
theorem commit_index_iff (config : RaftConfig) (ops : List NodeOp)
    (hadm : Along apply Admissible (new config) ops) :
    CommitConsistent (new config) ops ↔ Along apply NotAhead (new config) ops := by
  constructor
  · rintro ⟨hc, -⟩
    exact (settled_new config).notAhead_of_consistent hadm hc
  · intro hahead
    exact (settled_new config).commitConsistent (hadm.and hahead)

/-- A node in a cluster of two elects itself leader with one vote, replicates an entry and takes
a snapshot of it. -/
def snapshot_run : List NodeOp :=
  [.start_election, .handle_vote_response 2 ⟨1, true⟩, .propose [7], .heartbeat,
    .handle_append_response 2 ⟨1, true, 1⟩, .take_applicable, .create_snapshot 1 [],
    .handle_install_snapshot ⟨2, 2, 1, 1, []⟩]

theorem commit_index_snapshot_run : CommitConsistent (new ⟨1, [2]⟩) snapshot_run :=
  (commit_index_iff ⟨1, [2]⟩ snapshot_run (by decide)).mpr (by decide)

/-- A new node that installs a snapshot still reports commit index 0. -/
theorem snapshot_ahead_of_commit_index :
    Along apply Admissible (new ⟨2, [1]⟩) [.handle_install_snapshot ⟨1, 1, 5, 1, []⟩]
      ∧ ((new ⟨2, [1]⟩).apply (.handle_install_snapshot ⟨1, 1, 5, 1, []⟩)).commit_index = 0
      ∧ ((new ⟨2, [1]⟩).apply (.handle_install_snapshot ⟨1, 1, 5, 1, []⟩)).log.commit_index = 5
      ∧ ¬ CommitConsistent (new ⟨2, [1]⟩) [.handle_install_snapshot ⟨1, 1, 5, 1, []⟩] := by
  refine ⟨by decide, by decide, by decide, fun h => ?_⟩
  have hc := h.1 _ (prefix_refl _)
  revert hc
  decide

/-! ## The log along a run -/

section

variable (h : n.log.Wf)
include h

theorem wf_of_commits (hn : Untouched n n' ∨ Commits n n') : n'.log.Wf := by
  rcases hn with hn | ⟨k, -, -, -, hlog⟩
  · rwa [hn.1]
  · obtain ⟨hents, hbase, -⟩ := advance_commit_fields n.log k
    rw [hlog]
    exact h.congr hents hbase

theorem check_entries_wf : (n.check_entries req).1.log.Wf := by
  have haccept : (n.accept_entries req).1.log.Wf :=
    wf_of_commits (append_entries_wf h) (commits_update_commit _ _)
  rcases check_entries_cases n req with ⟨log, heq, rfl | ⟨-, -, -, -, rfl⟩⟩ | ⟨-, heq⟩
  · exact heq ▸ h
  · exact heq ▸ truncate_after_wf h _
  · exact heq ▸ haccept

/-- Whatever messages arrive, the log stays a log. -/
theorem apply_wf : (n.apply op).log.Wf := by
  cases op with
  | start_election => exact wf_of_commits h (.inl (untouched_start_election n))
  | propose data =>
    show (n.propose data).1.log.Wf
    unfold propose
    split
    · exact h
    · exact append_wf _ _ h
  | heartbeat => exact h
  | handle_request_vote req => exact wf_of_commits h (.inl (untouched_handle_request_vote n req))
  | handle_vote_response src resp =>
    exact wf_of_commits h (.inl (untouched_handle_vote_response n src resp))
  | handle_append_entries req =>
    show (n.handle_append_entries req).1.log.Wf
    unfold handle_append_entries
    split
    · exact h
    · exact check_entries_wf (wf_of_commits h (.inl (untouched_follow n req.term)))
  | handle_append_response src resp =>
    exact wf_of_commits h (commits_handle_append_response n src resp)
  | handle_install_snapshot req =>
    rcases handle_install_snapshot_cases n req with ⟨-, hn⟩ | ⟨-, -, -, hlog⟩
    · exact wf_of_commits h (.inl hn)
    · show (n.handle_install_snapshot req).1.log.Wf
      rw [hlog]
      exact compact_wf h
  | create_snapshot index data => exact compact_wf h
  | maybe_install_snapshot peer => exact h
  | take_applicable => exact h.congr rfl rfl
  | advance_commit_if_solo => exact wf_of_commits h (commits_advance_commit_if_solo n)

theorem run_wf : (ops.foldl apply n).log.Wf := by
  induction ops generalizing n with
  | nil => exact h
  | cons op ops ih => exact ih (apply_wf h)

end

/-- The operation leaves the entry at index `i` alone: a request that is not stale contradicts
nothing up to `i`, and snapshots end before it. -/
def Leaves (i : LogIndex) (n : RaftNode) : NodeOp → Prop
  | .handle_append_entries req => req.term < n.current_term ∨ NoConflict i n.log req
  | .handle_install_snapshot req => req.term < n.current_term ∨ req.last_included_index < i
  | .create_snapshot index _ => index < i
  | _ => True

instance (i : LogIndex) (n : RaftNode) : ∀ op, Decidable (n.Leaves i op)
  | .handle_append_entries _ => inferInstanceAs (Decidable (_ ∨ _))
  | .handle_install_snapshot _ => inferInstanceAs (Decidable (_ ∨ _))
  | .create_snapshot _ _ => inferInstanceAs (Decidable (_ < _))
  | .start_election | .propose _ | .heartbeat | .handle_request_vote _
  | .handle_vote_response _ _ | .handle_append_response _ _ | .maybe_install_snapshot _
  | .take_applicable | .advance_commit_if_solo => isTrue trivial

theorem get_of_spared {j : LogIndex} (hn : Spared i n n') (hj : j ≤ i) :
    n'.log.get j = n.log.get j := by
  obtain ⟨log, hkeeps, hn⟩ := hn
  rw [← hkeeps.get j hj]
  rcases hn with ⟨hlog, -⟩ | ⟨k, -, -, -, hlog⟩
  · rw [hlog]
  · obtain ⟨hents, hbase, -⟩ := advance_commit_fields log k
    rw [hlog]
    exact get_congr hents hbase

theorem get_apply {e : LogEntry} (h : n.log.Wf) (he : n.log.get i = some e) (hop : n.Leaves i op) :
    (n.apply op).log.get i = some e := by
  obtain ⟨hb, hi⟩ := h.bounds he
  have hcompact {snapshot : Snapshot} (hs : snapshot.last_included_index < i) :
      (n.log.compact snapshot).get i = some e := by
    rwa [get_compact (le_of_lt (lt_of_lt_of_le hs hi)) hs]
  by_cases hsnap : (∃ req, op = .handle_install_snapshot req)
      ∨ (∃ index data, op = .create_snapshot index data) ∨ op = .take_applicable
  · rcases hsnap with ⟨req, rfl⟩ | ⟨index, data, rfl⟩ | rfl
    · show (n.handle_install_snapshot req).1.log.get i = some e
      rcases handle_install_snapshot_cases n req with ⟨-, hlog, -⟩ | ⟨hterm, -, -, hlog⟩
      · rwa [hlog]
      · rw [hlog]
        exact hcompact (hop.resolve_left (not_lt.mpr hterm))
    · exact hcompact hop
    · exact he
  · push Not at hsnap
    rw [get_of_spared (spared_apply h hi hb ?_ hsnap.1 hsnap.2.1 hsnap.2.2) (Nat.le_refl i)]
    · exact he
    · rintro req rfl
      exact hop

/-- The entry at index `i` outlives a run that leaves it alone. -/
theorem get_run {e : LogEntry} (h : n.log.Wf) (he : n.log.get i = some e)
    (hops : Along apply (Leaves i) n ops) : (ops.foldl apply n).log.get i = some e := by
  have hinv := hops.invariant (P := fun m => m.log.Wf ∧ m.log.get i = some e) ⟨h, he⟩
    fun m op hm hop => ⟨apply_wf hm.1, get_apply hm.1 hm.2 hop⟩
  exact hinv.2

/-! ## Votes -/

/-- The vote a node casts in an operation: for a candidate that asked, or for itself when it
stands for election. -/
def cast (n : RaftNode) : NodeOp → Option (Term × NodeId)
  | .handle_request_vote req =>
    if (n.handle_request_vote req).2.vote_granted then
      some ((n.handle_request_vote req).1.current_term, req.candidate_id)
    else none
  | .start_election => some (n.start_election.1.current_term, n.config.node_id)
  | _ => none

/-- The votes of a run, with their terms. -/
def votes_cast (n : RaftNode) : List NodeOp → List (Term × NodeId)
  | [] => []
  | op :: ops => (n.cast op).toList ++ (n.apply op).votes_cast ops

/-- A vote lasts as long as the term. -/
def KeepsVote (n n' : RaftNode) : Prop :=
  n.current_term < n'.current_term
    ∨ n'.current_term = n.current_term ∧ ∀ v, n.voted_for = some v → n'.voted_for = some v

theorem KeepsVote.of_same (hterm : n'.current_term = n.current_term)
    (hvote : n'.voted_for = n.voted_for) : KeepsVote n n' := .inr ⟨hterm, fun _ h => hvote.trans h⟩

theorem Quiet.keepsVote (h : Quiet n n') : KeepsVote n n' := by
  rcases h.moves with ⟨hterm, hvote, -⟩ | ⟨hlt, -⟩
  · exact .of_same hterm hvote
  · exact .inl hlt

/-- No election begins in the last term. -/
def NoWrap (n : RaftNode) : NodeOp → Prop
  | .start_election => n.TermFits
  | _ => True

theorem keepsVote_apply (n : RaftNode) (op : NodeOp) (hfits : n.NoWrap op) :
    KeepsVote n (n.apply op) := by
  cases op with
  | start_election =>
    rw [apply]
    rcases start_election_cases n with ⟨-, heq⟩ | ⟨-, heq⟩ <;> rw [heq]
    · exact .inl (term_lt_candidate hfits)
    · exact .inl (term_lt_candidate hfits)
  | propose data => exact (propose_quiet n data).keepsVote
  | handle_request_vote req =>
    rw [apply]
    rcases handle_request_vote_cases n req with
      ⟨-, heq | ⟨hlt, heq⟩⟩ | ⟨-, -, ⟨-, hfree, heq⟩ | ⟨hlt, heq⟩⟩ <;> rw [heq]
    · exact .of_same rfl rfl
    · exact .inl hlt
    · -- a vote that was given before was given to the same candidate
      refine .inr ⟨rfl, fun v hv => ?_⟩
      rw [hv] at hfree
      exact (hfree.resolve_left nofun).symm
    · exact .inl hlt
  | handle_vote_response src resp =>
    rw [apply]
    rcases handle_vote_response_cases n src resp with
      heq | ⟨hlt, heq⟩ | ⟨-, -, -, ⟨-, heq⟩ | ⟨-, heq⟩⟩ <;> rw [heq]
    · exact .of_same rfl rfl
    · exact .inl hlt
    · exact .of_same rfl rfl
    · exact .of_same rfl rfl
  | handle_append_entries req => exact (handle_append_entries_quiet n req).keepsVote
  | handle_append_response src resp => exact (handle_append_response_quiet n src resp).keepsVote
  | handle_install_snapshot req =>
    unfold apply handle_install_snapshot follow
    dsimp only
    split_ifs with hold hlt <;> first | exact .of_same rfl rfl | exact .inl hlt
  | advance_commit_if_solo =>
    unfold apply advance_commit_if_solo
    dsimp only
    split_ifs <;> exact .of_same rfl rfl
  | heartbeat | create_snapshot _ _ | maybe_install_snapshot _ | take_applicable =>
    exact .of_same rfl rfl

/-- A vote that is cast is the vote of the term. -/
theorem voted_of_cast {x : Term × NodeId} (h : n.cast op = some x) :
    (n.apply op).current_term = x.1 ∧ (n.apply op).voted_for = some x.2 := by
  cases op with
  | start_election =>
    cases h
    refine ⟨rfl, ?_⟩
    rw [apply]
    rcases start_election_cases n with ⟨-, heq⟩ | ⟨-, heq⟩ <;> rw [heq] <;> rfl
  | handle_request_vote req =>
    obtain ⟨hyes, h⟩ := ite_none_right_eq_some.mp h
    cases h
    refine ⟨rfl, ?_⟩
    rw [apply]
    rcases handle_request_vote_cases n req with ⟨hno, -⟩ | ⟨-, -, ⟨-, -, heq⟩ | ⟨-, heq⟩⟩
    · rw [hno] at hyes
      cases hyes
    · rw [heq]
    · rw [heq]
  | _ => cases h

/-- The terms of a run only grow, and a vote given before the run is given again only to the
same candidate. -/
theorem term_le_of_mem_votes_cast {x : Term × NodeId} (hops : Along apply NoWrap n ops)
    (h : x ∈ n.votes_cast ops) :
    n.current_term ≤ x.1 ∧ (x.1 = n.current_term → ∀ v, n.voted_for = some v → x.2 = v) := by
  induction ops generalizing n with
  | nil => cases h
  | cons op ops ih =>
    obtain ⟨hop, hops⟩ := Along.cons_iff.mp hops
    obtain ⟨hle, hsame⟩ : (n.apply op).current_term ≤ x.1 ∧ (x.1 = (n.apply op).current_term →
        ∀ v, (n.apply op).voted_for = some v → x.2 = v) := by
      rcases mem_append.mp h with h | h
      · obtain ⟨hterm, hvote⟩ := voted_of_cast (mem_toList.mp h)
        exact ⟨hterm.le, fun _ v hv => some.inj (hvote.symm.trans hv)⟩
      · exact ih hops h
    rcases keepsVote_apply n op hop with hlt | ⟨hterm, hkept⟩
    · exact ⟨hlt.le.trans hle, fun heq => absurd hlt (by lia)⟩
    · exact ⟨hterm ▸ hle, fun heq v hv => hsame (heq.trans hterm.symm) v (hkept v hv)⟩

theorem votes_cast_unique {x y : Term × NodeId} (hops : Along apply NoWrap n ops)
    (hx : x ∈ n.votes_cast ops) (hy : y ∈ n.votes_cast ops) (h : x.1 = y.1) : x.2 = y.2 := by
  induction ops generalizing n x y with
  | nil => cases hx
  | cons op ops ih =>
    replace hops := (Along.cons_iff.mp hops).2
    -- a vote cast now binds all later ones of the term
    have hlater {x y : Term × NodeId} (hx : n.cast op = some x)
        (hy : y ∈ (n.apply op).votes_cast ops) (h : x.1 = y.1) : y.2 = x.2 := by
      obtain ⟨hterm, hvote⟩ := voted_of_cast hx
      exact (term_le_of_mem_votes_cast hops hy).2 (h.symm.trans hterm.symm) _ hvote
    rcases mem_append.mp hx with hx | hx <;> rcases mem_append.mp hy with hy | hy
    · rw [some.inj ((mem_toList.mp hx).symm.trans (mem_toList.mp hy))]
    · exact (hlater (mem_toList.mp hx) hy h).symm
    · exact hlater (mem_toList.mp hy) hx h.symm
    · exact ih hops hx hy h

theorem term_le_run (hops : Along apply NoWrap n ops) :
    n.current_term ≤ (ops.foldl apply n).current_term := by
  refine hops.invariant (P := fun m => n.current_term ≤ m.current_term) le_rfl ?_
  intro m op hle hop
  rcases keepsVote_apply m op hop with hlt | ⟨hterm, -⟩
  · exact hle.trans hlt.le
  · exact hle.trans hterm.ge

/-- **One vote per term.** In a run of a node its term never decreases, and all votes it gives in a
term go to one candidate, which is the node itself if it stood for election then, exactly if no
election begins in the last term. -/
theorem one_vote_per_term (n : RaftNode) (ops : List NodeOp) :
    ((∀ pre more, pre ++ more <+: ops →
        (pre.foldl apply n).current_term ≤ ((pre ++ more).foldl apply n).current_term)
      ∧ ∀ x ∈ n.votes_cast ops, ∀ y ∈ n.votes_cast ops, x.1 = y.1 → x.2 = y.2)
    ↔ Along apply NoWrap n ops := by
  constructor
  · rintro ⟨hmono, -⟩ pre op hpre
    cases op with
    | start_election =>
      by_contra hlast
      have hle := hmono pre [.start_election] hpre
      rw [foldl_append] at hle
      have hlt := candidate_term_lt hlast
      rcases start_election_cases (pre.foldl apply n) with ⟨-, heq⟩ | ⟨-, heq⟩ <;>
        rw [foldl_cons, apply, heq] at hle <;> exact absurd hlt (not_lt.mpr hle)
    | _ => trivial
  · intro h
    refine ⟨fun pre more hpre => ?_, fun x hx y hy => votes_cast_unique h hx hy⟩
    rw [foldl_append]
    exact term_le_run (Along.append_iff.mp (h.initial hpre)).2

/-- Node 1 votes for node 2 in term 1. A request of term `u64::MAX` and two elections later it is
in term 1 again and votes for itself. -/
theorem two_votes_in_a_term :
    let ops : List NodeOp := [.handle_request_vote ⟨1, 2, 0, 0⟩,
      .handle_append_entries ⟨2 ^ 64 - 1, 2, 0, 0, [], 0⟩, .start_election, .start_election]
    let n := RaftNode.new ⟨1, [2, 3]⟩
    ((ops.take 2).foldl apply n).current_term = 2 ^ 64 - 1
      ∧ ((ops.take 3).foldl apply n).current_term = 0
      ∧ (1, 2) ∈ n.votes_cast ops ∧ (1, 1) ∈ n.votes_cast ops := by
  decide +kernel

end RaftNode

/-! ## `RaftCluster::propose` -/

namespace RaftCluster

open RaftNode

/-- The polls. Before each of them the node takes the operations of one list; the deadline has
passed when there are no more. -/
def poll (idx : LogIndex) : RaftNode → List (List NodeOp) → RaftNode × Except String LogIndex
  | node, [] => (node, .error "propose timed out waiting for commit")
  | node, ops :: rest =>
    let node := ops.foldl apply node
    if idx ≤ node.commit_index then (node, .ok idx)
    else if node.role ≠ .Leader then (node, .error "lost leadership")
    else poll idx node rest

/-- The proposal, with what the node does before the first poll and between later ones. -/
def propose (node : RaftNode) (data : List UInt8) (before : List NodeOp)
    (between : List (List NodeOp)) : RaftNode × Except String LogIndex :=
  match (node.propose data).2 with
  | .error e => ((node.propose data).1, .error e)
  | .ok idx => poll idx (node.propose data).1 (before :: between)

variable {node : RaftNode} {idx : LogIndex}

/-- A poll that answers `Ok` has seen the commit index, after the operations before it. -/
theorem poll_ok {k : LogIndex} {between : List (List NodeOp)}
    (h : (poll idx node between).2 = .ok k) : k = idx ∧ idx ≤ (poll idx node between).1.commit_index
      ∧ ∃ ops, ops <+: between.flatten ∧ (poll idx node between).1 = ops.foldl apply node := by
  induction between generalizing node with
  | nil => simp [poll] at h
  | cons ops rest ih =>
    rw [poll] at h ⊢
    split at h
    case isTrue hle =>
      rw [if_pos hle]
      refine ⟨(Except.ok.inj h).symm, hle, ops, ?_, rfl⟩
      exact prefix_append ops rest.flatten
    case isFalse hlt =>
      rw [if_neg hlt]
      split at h
      case isTrue => cases h
      case isFalse hrole =>
        rw [if_neg hrole]
        obtain ⟨hk, hle, ops', hpre, heq⟩ := ih h
        refine ⟨hk, hle, ops ++ ops', ?_, ?_⟩
        · exact (prefix_append_right_inj ops).mpr hpre
        · rwa [foldl_append]

theorem node_propose_ok {data : List UInt8} (h : (node.propose data).2 = .ok idx)
    (hwf : node.log.Wf) : idx = node.log.last_index + 1 ∧ (node.propose data).1.log.Wf
      ∧ (node.propose data).1.log.get idx = some ⟨node.current_term, idx, data⟩ := by
  unfold RaftNode.propose at h ⊢
  split at h
  case isTrue => cases h
  case isFalse hrole =>
    rw [if_neg hrole]
    obtain rfl : node.log.last_index + 1 = idx := by
      rw [← append_snd node.current_term data hwf]
      exact Except.ok.inj h
    exact ⟨rfl, append_wf _ _ hwf, get_append_last _ _ hwf⟩

/-- An acknowledged proposal is committed with its own data and term, as long as no request
that the node accepts contradicts its log up to the proposed entry, be it before or after the answering poll. -/
theorem propose_committed (config : RaftConfig) (ops : List NodeOp) (data : List UInt8)
    (before : List NodeOp) (between : List (List NodeOp)) (idx : LogIndex) (node : RaftNode)
    (hnode : node = ops.foldl apply (RaftNode.new config))
    (hleaves : Along apply (Leaves (node.log.last_index + 1)) (node.propose data).1
      (before ++ between.flatten)) (hok : (propose node data before between).2 = .ok idx) :
    (propose node data before between).1.log.get idx = some ⟨node.current_term, idx, data⟩
      ∧ idx ≤ (propose node data before between).1.commit_index := by
  have hwf : node.log.Wf := by
    rw [hnode]
    exact run_wf RaftLog.new_wf
  unfold propose at hok ⊢
  cases hp : (node.propose data).2 with
  | error e =>
    simp [hp] at hok
  | ok i =>
    simp only [hp] at hok ⊢
    obtain ⟨hi, hwf', hget⟩ := node_propose_ok hp hwf
    obtain ⟨rfl, hle, ops', hpre, heq⟩ := poll_ok hok
    refine ⟨?_, hle⟩
    rw [heq]
    rw [← hi] at hleaves
    exact get_run hwf' hget (hleaves.initial hpre)

/-- Node 1 of three, made leader of term 1 by the vote of node 2. -/
def leader : RaftNode :=
  [NodeOp.start_election, .handle_vote_response 2 ⟨1, true⟩].foldl apply (RaftNode.new ⟨1, [2, 3]⟩)

theorem propose_committed_leader :
    let acks : List (List NodeOp) :=
      [[.handle_append_response 2 ⟨1, true, 1⟩, .handle_append_response 3 ⟨1, true, 1⟩]]
    let n := (propose leader [7] [.heartbeat] acks).1
    n.log.get 1 = some ⟨1, 1, [7]⟩ ∧ 1 ≤ n.commit_index :=
  propose_committed ⟨1, [2, 3]⟩ [.start_election, .handle_vote_response 2 ⟨1, true⟩] [7]
    [.heartbeat] _ 1 leader rfl (by decide) (by decide)

/-- The leader of term 2 puts another entry in the place of the proposed one and commits it
before the next poll, which then answers for the proposal. -/
theorem acknowledged_but_replaced :
    (propose leader [7] [.handle_append_entries ⟨2, 2, 0, 0, [⟨2, 1, [9]⟩], 1⟩] []).2 = .ok 1
      ∧ (propose leader [7] [.handle_append_entries ⟨2, 2, 0, 0, [⟨2, 1, [9]⟩], 1⟩] []).1.log.get 1
        = some ⟨2, 1, [9]⟩ := by
  constructor <;> rfl

end RaftCluster

end Oigrap.Raft
