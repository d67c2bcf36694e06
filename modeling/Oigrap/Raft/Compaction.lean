/-
Replication from a compacted log.

After `create_snapshot` the leader no longer has the entries before the base of its log, and
`heartbeat` then reports term 0 for a previous entry that is gone. A follower whose entry at
that index is committed takes this for a conflict and cuts the entry off.
`replication_after_compaction_iff` says when that happens; otherwise the committed entries of
the follower survive the request, wherever `next_index` stands.
-/
import Oigrap.Raft.NodeRuns

namespace Oigrap.Raft.RaftNode

open List RaftLog

variable {n L F : RaftNode} {i j : LogIndex} {data : List UInt8} {peer : NodeId}

/-! ## The next index -/

/-- No peer is to be sent the sentinel. -/
def NextPos (n : RaftNode) : Prop := ∀ p ∈ n.next_index, 1 ≤ p.2

theorem nextPos_new (config : RaftConfig) : (new config).NextPos := by
  intro p hp
  obtain ⟨q, -, rfl⟩ := mem_map.mp hp
  exact Nat.le_refl 1

theorem nextPos_become_leader (n : RaftNode) : n.become_leader.NextPos := by
  intro p hp
  obtain ⟨q, -, rfl⟩ := mem_map.mp hp
  exact Nat.le_add_left 1 _

theorem mem_set_index {l : List (NodeId × LogIndex)} {p : NodeId × LogIndex}
    (hp : p ∈ set_index l peer i) : p ∈ l ∨ p = (peer, i) := by
  induction l with
  | nil => cases hp
  | cons q l ih =>
    rw [set_index] at hp
    split at hp
    case isTrue hq =>
      rcases mem_cons.mp hp with rfl | hp
      · exact .inr (by rw [hq])
      · exact .inl (mem_cons_of_mem _ hp)
    case isFalse =>
      rcases mem_cons.mp hp with rfl | hp
      · exact .inl mem_cons_self
      · exact (ih hp).imp_left (mem_cons_of_mem _)

theorem keys_set_index (l : List (NodeId × LogIndex)) (peer : NodeId) (i : LogIndex) :
    (set_index l peer i).map Prod.fst = l.map Prod.fst := by
  induction l with
  | nil => rfl
  | cons q l ih =>
    rw [set_index]
    split
    · rfl
    · rw [map_cons, map_cons, ih]

theorem nextPos_set_next_index (h : n.NextPos) (hi : 1 ≤ i) :
    (n.set_next_index peer i).NextPos := by
  intro p hp
  rcases mem_set_index hp with hp | rfl
  · exact h p hp
  · exact hi

theorem next_index_for_pos (h : n.NextPos) : 1 ≤ n.next_index_for peer := by
  unfold next_index_for
  cases hfind : n.next_index.find? (fun e => e.1 = peer) with
  | none => exact Nat.le_refl 1
  | some p => exact h p (mem_of_find?_eq_some hfind)

theorem advance_commit_index_next_index (n : RaftNode) :
    n.advance_commit_index.next_index = n.next_index := by
  unfold advance_commit_index
  dsimp only
  split <;> rfl

theorem nextPos_apply {op : NodeOp} (h : n.NextPos) : (n.apply op).NextPos := by
  cases op with
  | start_election =>
    rw [apply]
    rcases start_election_cases n with ⟨-, heq⟩ | ⟨-, heq⟩ <;> rw [heq]
    · exact nextPos_become_leader n.candidate
    · exact h
  | propose data =>
    show NextPos (n.propose data).1
    unfold propose
    split <;> exact h
  | handle_request_vote req =>
    rw [apply]
    rcases handle_request_vote_cases n req with
      ⟨-, heq | ⟨-, heq⟩⟩ | ⟨-, -, ⟨-, -, heq⟩ | ⟨-, heq⟩⟩ <;> rwa [heq]
  | handle_vote_response src resp =>
    rw [apply]
    rcases handle_vote_response_cases n src resp with
      heq | ⟨-, heq⟩ | ⟨-, -, -, ⟨-, heq⟩ | ⟨-, heq⟩⟩ <;> rw [heq]
    · exact h
    · exact h
    · exact h
    · exact nextPos_become_leader _
  | handle_append_entries req =>
    intro p hp
    exact h p (by rwa [← (handle_append_entries_fields n req).1])
  | handle_append_response src resp =>
    show NextPos (n.handle_append_response src resp)
    unfold handle_append_response
    split
    · exact h
    · split
      · exact h
      · split
        · intro p hp
          rw [advance_commit_index_next_index] at hp
          have hset : NextPos ((n.set_match_index src resp.match_index).set_next_index src
              (resp.match_index + 1)) := nextPos_set_next_index h (Nat.le_add_left 1 _)
          exact hset p hp
        · dsimp only
          split <;> exact nextPos_set_next_index h (le_max_right _ 1)
  | handle_install_snapshot req =>
    unfold apply handle_install_snapshot follow
    dsimp only
    split_ifs <;> exact h
  | heartbeat | create_snapshot index data | maybe_install_snapshot peer | take_applicable =>
    exact h
  | advance_commit_if_solo =>
    unfold apply advance_commit_if_solo
    dsimp only
    split_ifs <;> exact h

theorem nextPos_run {ops : List NodeOp} (h : n.NextPos) : (ops.foldl apply n).NextPos := by
  induction ops generalizing n with
  | nil => exact h
  | cons op ops ih => exact ih (nextPos_apply h)

/-! ## The request of a leader with a compacted log -/

/-- Up to its commit index the follower has only entries the leader has. -/
def Shared (L F : RaftNode) : Prop :=
  ∀ j e, 1 ≤ j → j ≤ F.commit_index → F.log.get j = some e → L.log.get j = some e

/-- What the follower has up to its commit index it still has. -/
def Retained (F F' : RaftNode) : Prop :=
  ∀ j e, 1 ≤ j → j ≤ F.commit_index → F.log.get j = some e → F'.log.get j = some e

/-- The request of `L` will not be stale, the entry before the next one of the peer is gone from
the log of `L`, and `F` has it and has it committed. -/
def PrevCompacted (L F : RaftNode) (peer : NodeId) : Prop :=
  F.current_term ≤ L.current_term ∧ 1 < L.next_index_for peer
    ∧ L.next_index_for peer ≤ L.log.base_index ∧ L.next_index_for peer - 1 ≤ F.commit_index
    ∧ ∃ e ∈ F.log.get (L.next_index_for peer - 1), e.term ≠ 0

instance (L F : RaftNode) (peer : NodeId) : Decidable (PrevCompacted L F peer) :=
  inferInstanceAs (Decidable (_ ∧ _))

/-- Compaction keeps the terms from the new base on. -/
theorem term_create_snapshot {e : LogEntry} (h : L.log.Wf) (he : L.log.get j = some e)
    (hj : (L.create_snapshot i data).log.base_index ≤ j) :
    ∃ e', (L.create_snapshot i data).log.get j = some e' ∧ e'.term = e.term := by
  obtain ⟨-, hlast⟩ := h.bounds he
  rcases le_or_gt i L.log.base_index with hb | hb
  · refine ⟨e, ?_, rfl⟩
    show (L.log.compact _).get j = some e
    rwa [compact_of_le (by exact hb)]
  · have hbase : (L.create_snapshot i data).log.base_index = i :=
      (compact_fields (by exact hb)).1
    rw [hbase] at hj
    rcases Nat.eq_or_lt_of_le hj with rfl | hlt
    · -- the entry at the base is the snapshot's, made with the term of the one it stands for
      refine ⟨_, get_compact_self hlast hb, ?_⟩
      simp [he]
    · refine ⟨e, ?_, rfl⟩
      show (L.log.compact _).get j = some e
      rwa [get_compact (le_trans hj hlast) hlt]

variable {req : AppendEntriesReq}

theorem eq_append_request (h : (peer, req) ∈ n.heartbeat) :
    req = n.append_request peer := by
  unfold heartbeat at h
  split at h
  · cases h
  · obtain ⟨p, -, heq⟩ := mem_map.mp h
    cases heq
    rfl

/-- The request contradicts nothing that the follower shares with the leader, unless the previous
entry is lost to compaction. -/
theorem noConflict_append_request (h : L.log.Wf) (hnext : L.NextPos) (hshared : Shared L F)
    (hterm : F.current_term ≤ L.current_term)
    (hprev : ¬ PrevCompacted (L.create_snapshot i data) F peer) (hj : j ≤ F.commit_index) :
    NoConflict j F.log ((L.create_snapshot i data).append_request peer) := by
  have hwf : (L.create_snapshot i data).log.Wf := compact_wf h
  constructor
  · intro hpos hle e he
    have hget : L.log.get ((L.create_snapshot i data).next_index_for peer - 1) = some e :=
      hshared _ e hpos (le_trans hle hj) he
    show e.term = (((L.create_snapshot i data).log.get _).map LogEntry.term).getD 0
    by_cases hb : (L.create_snapshot i data).log.base_index
        ≤ (L.create_snapshot i data).next_index_for peer - 1
    · obtain ⟨e', he', hsame⟩ := term_create_snapshot h hget hb
      rw [he']
      exact hsame.symm
    · have hlt := not_le.mp hb
      rw [get_of_lt hlt]
      by_contra hne
      have hgt : 1 < (L.create_snapshot i data).next_index_for peer := Nat.lt_of_sub_pos hpos
      refine hprev ⟨hterm, hgt, ?_, le_trans hle hj, e, he, hne⟩
      exact Nat.le_of_pred_lt hlt
  · intro entry hmem hle e he
    obtain ⟨hfrom, hself⟩ := hwf.mem_entries_from hmem
    have hpos : 1 ≤ entry.index :=
      le_trans (next_index_for_pos (n := L.create_snapshot i data) hnext) hfrom
    have hget := hshared _ e hpos (le_trans hle hj) he
    have hb := (hwf.bounds hself).1
    obtain ⟨e', he', hsame⟩ := term_create_snapshot h hget hb
    obtain rfl : e' = entry := Option.some.inj (he'.symm.trans hself)
    exact hsame.symm

/-- A request whose previous entry disagrees cuts the log before it. -/
theorem handle_append_entries_mismatch {e : LogEntry} (hterm : F.current_term ≤ req.term)
    (hpos : 0 < req.prev_log_index) (he : F.log.get req.prev_log_index = some e)
    (hne : e.term ≠ req.prev_log_term) :
    (F.handle_append_entries req).1.log = F.log.truncate_after (req.prev_log_index - 1) := by
  have hlog := (untouched_follow F req.term).1
  unfold handle_append_entries check_entries
  rw [if_neg (not_lt.mpr hterm), if_pos hpos, hlog]
  simp only [he, if_pos hne]
  rfl

/-- The follower cuts off its entry at the index where the leader reports term 0. -/
theorem not_retained_of_prevCompacted (hbase : F.log.base_index = 0)
    (h : PrevCompacted L F peer) : ¬ Retained F (F.handle_append_entries (L.append_request peer)).1 := by
  obtain ⟨hterm, hnext, hgone, hcommit, e, he, hne⟩ := h
  have hpos : 0 < L.next_index_for peer - 1 := Nat.sub_pos_of_lt hnext
  have hlt : L.next_index_for peer - 1 < L.log.base_index :=
    lt_of_lt_of_le (Nat.sub_lt (Nat.zero_lt_of_lt hnext) Nat.one_pos) hgone
  have hzero : (L.append_request peer).prev_log_term = 0 := by
    show ((L.log.get _).map LogEntry.term).getD 0 = 0
    rw [get_of_lt hlt]
    rfl
  have hcut := handle_append_entries_mismatch hterm hpos he
    (by rw [hzero]; exact hne)
  intro hret
  have hkept : (F.handle_append_entries (L.append_request peer)).1.log.get
      (L.append_request peer).prev_log_index = some e := hret _ e hpos hcommit he
  have hprev : (L.append_request peer).prev_log_index - 1
      < (L.append_request peer).prev_log_index := Nat.sub_lt hpos Nat.one_pos
  rw [hcut, get_truncate_after_gt (by rw [hbase]; exact Nat.zero_le _) hprev] at hkept
  cases hkept

/-- After a leader has compacted its log at any index, the entries that a follower has committed
survive the request `heartbeat` builds for it, unless the entry before the next one it is to get
is among those the leader has dropped. -/
theorem replication_after_compaction_iff (config config' : RaftConfig) (ops ops' : List NodeOp)
    (L F : RaftNode) (hL : L = ops.foldl apply (new config))
    (hF : F = ops'.foldl apply (new config')) (hbase : F.log.base_index = 0)
    (hshared : Shared L F) (i : LogIndex) (data : List UInt8) (peer : NodeId)
    (req : AppendEntriesReq) (hreq : (peer, req) ∈ (L.create_snapshot i data).heartbeat) :
    Retained F (F.handle_append_entries req).1
      ↔ ¬ PrevCompacted (L.create_snapshot i data) F peer := by
  have hLwf : L.log.Wf := by
    rw [hL]
    exact run_wf RaftLog.new_wf
  have hFwf : F.log.Wf := by
    rw [hF]
    exact run_wf RaftLog.new_wf
  have hnext : L.NextPos := by
    rw [hL]
    exact nextPos_run (nextPos_new config)
  obtain rfl := eq_append_request hreq
  constructor
  · intro hret hprev
    exact not_retained_of_prevCompacted hbase hprev hret
  · intro hprev j e _ hcommit he
    -- the part of the log that is both there and committed
    have hj : j ≤ min F.commit_index F.log.last_index := by
      obtain ⟨-, hlast⟩ := hFwf.bounds he
      exact Nat.le_min.mpr ⟨hcommit, hlast⟩
    have hconflict : ((L.create_snapshot i data).append_request peer).term < F.current_term
        ∨ NoConflict (min F.commit_index F.log.last_index) F.log
          ((L.create_snapshot i data).append_request peer) := by
      by_cases hterm : L.current_term < F.current_term
      · exact .inl hterm
      · exact .inr (noConflict_append_request hLwf hnext hshared (not_lt.mp hterm) hprev
          (Nat.min_le_left _ _))
    have hspared := spared_handle_append_entries hFwf (Nat.min_le_right _ _)
      (by rw [hbase]; exact Nat.zero_le _) hconflict
    rwa [get_of_spared hspared hj]

/-- A leader of two nodes with two committed entries. -/
def compaction_leader_run : List NodeOp :=
  [.start_election, .handle_vote_response 2 ⟨1, true⟩, .propose [7], .propose [8],
    .handle_append_response 2 ⟨1, true, 2⟩]

/-- Its follower, which has both. -/
def compaction_follower_run : List NodeOp :=
  [.handle_append_entries ⟨1, 1, 0, 0, [⟨1, 1, [7]⟩, ⟨1, 2, [8]⟩], 0⟩,
    .handle_append_entries ⟨1, 1, 2, 1, [], 2⟩]

theorem shared_of_entries (he : L.log.entries = F.log.entries)
    (hb : L.log.base_index = F.log.base_index) : Shared L F := by
  intro j e _ _ hget
  rwa [get_congr he hb]

theorem replication_after_compaction_up_to_date :
    Retained (compaction_follower_run.foldl apply (new ⟨2, [1]⟩))
      ((compaction_follower_run.foldl apply (new ⟨2, [1]⟩)).handle_append_entries
        ⟨1, 1, 2, 1, [], 2⟩).1 :=
  (replication_after_compaction_iff ⟨1, [2]⟩ ⟨2, [1]⟩ compaction_leader_run
    compaction_follower_run _ _ rfl rfl (by decide)
    (shared_of_entries (by decide) (by decide)) 2 [] 2
    ⟨1, 1, 2, 1, [], 2⟩ (by decide)).mpr (by decide)

/-- The leader compacts at its commit index 2 while it would still send entry 2, because a late
response has set the next index back: the follower cuts off entry 1 and with it all it has
committed. -/
theorem committed_entry_cut_off :
    let L := (compaction_leader_run ++ [NodeOp.handle_append_response 2 ⟨1, true, 1⟩]).foldl apply
      (new ⟨1, [2]⟩)
    let F := compaction_follower_run.foldl apply (new ⟨2, [1]⟩)
    let req : AppendEntriesReq := ⟨1, 1, 1, 0, [⟨1, 2, []⟩], 2⟩
    2 ≤ L.commit_index ∧ F.log.base_index = 0 ∧ Shared L F
      ∧ (2, req) ∈ (L.create_snapshot 2 []).heartbeat
      ∧ F.commit_index = 2 ∧ F.log.get 1 = some ⟨1, 1, [7]⟩
      ∧ (F.handle_append_entries req).1.log.get 1 = none
      ∧ ¬ Retained F (F.handle_append_entries req).1 := by
  refine ⟨by decide, by decide, shared_of_entries (by decide) (by decide), by decide, by decide,
    by decide, by decide, fun hret => ?_⟩
  have hkept := hret 1 ⟨1, 1, [7]⟩ (by decide) (by decide) (by decide)
  revert hkept
  decide

/-! ## A snapshot from the leader -/

section Install

variable {req : InstallSnapshotReq}

/-- Log Matching of the entries above `s`. -/
def MatchAbove (s : LogIndex) (a b : RaftLog) : Prop :=
  ∀ i j e e' x y, s < j → j ≤ i → a.get i = some e → b.get i = some e' → e.term = e'.term →
    a.get j = some x → b.get j = some y → x = y

/-- The follower's entry at the snapshot's index is of another term. -/
def Diverges (F : RaftNode) (req : InstallSnapshotReq) : Prop :=
  ∃ e ∈ F.log.get req.last_included_index, e.term ≠ req.last_included_term

/-- Whatever becomes of the request, the entries above its index stay. -/
theorem get_handle_install_snapshot (hj : req.last_included_index < j) :
    (F.handle_install_snapshot req).1.log.get j = F.log.get j := by
  rcases handle_install_snapshot_cases F req with ⟨-, hlog, -⟩ | ⟨-, -, -, hlog⟩
  · rw [hlog]
  · rw [hlog]
    rcases le_or_gt req.last_included_index F.log.last_index with hl | hl
    · exact get_compact hl hj
    · -- the snapshot covers the whole log, and neither log reaches `j`
      have hlast : F.log.base_index < req.last_included_index :=
        lt_of_le_of_lt (Nat.le_add_right _ _) hl
      rw [get_of_le ((compact_fields (by exact hlast)).1.trans_le hj.le),
        compact_all hl, (compact_fields (by exact hlast)).1,
        get_of_le (by lia)]
      rw [getElem?_eq_none (by simp only [length_singleton]; lia),
        getElem?_eq_none (by unfold last_index at hl; lia)]

/-- **Installing a snapshot.** The logs match above the snapshot, but what follows a diverging
entry is never cut off: none of it survives only if there was none. -/
theorem install_snapshot_consistent_iff (hF : F.log.Wf)
    (hm : MatchAbove req.last_included_index L.log F.log) :
    (MatchAbove req.last_included_index L.log (F.handle_install_snapshot req).1.log
      ∧ (Diverges F req → ∀ j, req.last_included_index < j →
        (F.handle_install_snapshot req).1.log.get j = none))
      ↔ (Diverges F req → F.log.last_index ≤ req.last_included_index) := by
  constructor
  · rintro ⟨-, hcut⟩ hd
    by_contra hlt
    have hnone := hcut hd F.log.last_index (not_le.mp hlt)
    rw [get_handle_install_snapshot (not_le.mp hlt)] at hnone
    have hsome := (hF.get_isSome (i := F.log.last_index)).mpr ⟨Nat.le_add_right _ _, le_rfl⟩
    simp [hnone] at hsome
  · intro hlast
    refine ⟨fun i j e e' x y hj hi he he' ht hx hy => ?_, fun hd j hj => ?_⟩
    · rw [get_handle_install_snapshot (lt_of_lt_of_le hj hi)] at he'
      rw [get_handle_install_snapshot hj] at hy
      exact hm i j e e' x y hj hi he he' ht hx hy
    · rw [get_handle_install_snapshot hj, Option.eq_none_iff_forall_ne_some]
      intro e he
      have hend := (hF.bounds he).2
      exact absurd (lt_of_lt_of_le hj hend) (not_lt.mpr (hlast hd))

/-- A follower with one entry, of another term than the snapshot that ends there. -/
theorem install_snapshot_no_tail :
    let F := [NodeOp.start_election, .handle_vote_response 3 ⟨1, true⟩, .propose [1]].foldl apply
      (new ⟨2, [1, 3]⟩)
    let req : InstallSnapshotReq := ⟨2, 1, 1, 2, []⟩
    ∀ j, 1 < j → (F.handle_install_snapshot req).1.log.get j = none := by
  intro F req
  have hF : F.log.Wf := run_wf RaftLog.new_wf
  have hm : MatchAbove req.last_included_index (new ⟨1, [2, 3]⟩).log F.log := by
    intro i j e _ _ _ hj hi he
    have hend := (RaftLog.new_wf.bounds he).2
    exact absurd (lt_of_lt_of_le hj (le_trans hi hend)) (Nat.not_lt_zero _)
  exact ((install_snapshot_consistent_iff hF hm).mpr fun _ => by decide).2
    ⟨⟨1, 1, [1]⟩, by decide, by decide⟩

/-- Node 2 led term 1 and has two entries no one else has; node 1 leads term 2, has one entry
committed with node 3, and compacts its log. Of the two entries the second one survives. -/
theorem diverging_tail_survives :
    let L := [NodeOp.start_election, .start_election, .handle_vote_response 3 ⟨2, true⟩,
      .propose [7], .handle_append_response 3 ⟨2, true, 1⟩, .create_snapshot 1 []].foldl apply
      (new ⟨1, [2, 3]⟩)
    let F := [NodeOp.start_election, .handle_vote_response 3 ⟨1, true⟩, .propose [1],
      .propose [2]].foldl apply (new ⟨2, [1, 3]⟩)
    let req : InstallSnapshotReq := ⟨2, 1, 1, 2, []⟩
    L.maybe_install_snapshot 2 = some (2, req) ∧ MatchAbove 0 L.log F.log
      ∧ F.log.get 1 = some ⟨1, 1, [1]⟩
      ∧ (F.handle_install_snapshot req).1.log.get 2 = some ⟨1, 2, [2]⟩ := by
  refine ⟨by decide, ?_, by decide, by decide⟩
  -- the compacted log has the entry at 1 only, and there the terms differ
  intro i j e e' x y hj hi he he' ht hx
  have hi1 := (run_wf RaftLog.new_wf).bounds he
  obtain rfl : i = 1 := le_antisymm hi1.2 hi1.1
  cases he
  cases he'
  cases ht

end Install

end Oigrap.Raft.RaftNode
