/-
What `handle_append_entries` does to the receiver's log.

`append` writes at the end of the log, whatever index an entry carries, so an entry lands where
it says only if the log reaches the index before it. For entries with consecutive indices that
is an invariant of the entry loop (`append_entry_holds`): each round leaves a log that reaches
the index of the entry just handled, and the later rounds do not touch it again.
-/
import Oigrap.Raft.NodeRuns

namespace Oigrap.Raft

open List RaftLog RaftNode

variable {log : RaftLog} {entry : LogEntry} {entries : List LogEntry} {prev : LogIndex}

/-- The entries carry the indices `prev + 1`, `prev + 2`, ... -/
def Consecutive : LogIndex → List LogEntry → Prop
  | _, [] => True
  | prev, entry :: entries => entry.index = prev + 1 ∧ Consecutive (prev + 1) entries

theorem Consecutive.lt_index (h : Consecutive prev entries) (he : entry ∈ entries) :
    prev < entry.index := by
  induction entries generalizing prev with
  | nil => cases he
  | cons first entries ih =>
    obtain rfl | he := mem_cons.mp he
    · rw [h.1]
      exact Nat.lt_succ_self prev
    · exact (Nat.lt_succ_self prev).trans (ih h.2 he)

/-- Entries beyond `prev` contradict nothing up to it. -/
theorem Consecutive.agrees (h : Consecutive prev entries) : ∀ e ∈ entries, Agrees prev log e :=
  fun _ he hle => absurd hle (not_le.mpr (h.lt_index he))

section Loop

variable (h : log.Wf) (hb : log.base_index ≤ prev) (hp : prev ≤ log.last_index)
include h hb hp

/-- One round of the loop, over a log that reaches the index before the entry. -/
theorem append_entry_holds (hidx : entry.index = prev + 1) :
    ∃ e, (append_entry log entry).get entry.index = some e ∧ e.term = entry.term := by
  unfold append_entry
  rw [hidx]
  cases hget : log.get (prev + 1) with
  | none =>
    -- the log ends at `prev`, and the entry is appended right after it
    have hlast : log.last_index = prev := by
      by_contra hne
      have hsome := h.get_isSome.mpr ⟨Nat.le_succ_of_le hb, show prev + 1 ≤ log.last_index by lia⟩
      rw [hget] at hsome
      cases hsome
    have happend := get_append_last entry.term entry.data h
    rw [hlast] at happend
    exact ⟨_, happend, rfl⟩
  | some existing =>
    dsimp only
    split_ifs with hne
    · -- the conflicting entry and all after it are cut off first
      have hlast : (log.truncate_after prev).last_index = prev := by
        rw [last_index_truncate_after h hb, min_eq_left hp]
      have happend := get_append_last entry.term entry.data (truncate_after_wf h prev)
      rw [hlast] at happend
      exact ⟨_, happend, rfl⟩
    · exact ⟨existing, hget, not_not.mp hne⟩

/-- The whole loop. What one round writes the later ones keep, as their entries lie beyond it. -/
theorem append_entries_hold (hes : Consecutive prev entries) : ∀ entry ∈ entries,
    ∃ e, (entries.foldl append_entry log).get entry.index = some e ∧ e.term = entry.term := by
  induction entries generalizing log prev with
  | nil => exact fun _ he => absurd he not_mem_nil
  | cons first entries ih =>
    obtain ⟨e, he, hterm⟩ := append_entry_holds h hb hp hes.1
    have hwf : (append_entry log first).Wf := append_entry_wf h
    obtain ⟨hb', hp'⟩ := hwf.bounds he
    rw [hes.1] at he hb' hp'
    intro entry hmem
    obtain rfl | hmem := mem_cons.mp hmem
    · refine ⟨e, ?_, hterm⟩
      rw [foldl_cons, hes.1, (keeps_append_entries hwf hb' hp' hes.2.agrees).get _ le_rfl, he]
    · exact ih hwf hb' hp' hes.2 entry hmem

end Loop

/-- The commit rule leaves the entries alone. -/
theorem get_update_commit (n : RaftNode) (k i : LogIndex) :
    (n.update_commit k).log.get i = n.log.get i := by
  unfold update_commit
  split_ifs
  · obtain ⟨hents, hbase, -⟩ := advance_commit_fields n.log (min k n.log.last_index)
    exact get_congr hents hbase
  · rfl

/-- The log after a request: refused, and cut off before the previous entry at most, or the
entry loop has run on a log that reaches the previous entry. -/
theorem handle_append_entries_log {n n' : RaftNode} {req : AppendEntriesReq}
    {resp : AppendEntriesResp} (h : n.log.Wf) (hr : n.handle_append_entries req = (n', resp)) :
    (resp.success = false ∧ ∀ i < req.prev_log_index, n'.log.get i = n.log.get i)
      ∨ (resp.success = true ∧ req.prev_log_index ≤ n.log.last_index
        ∧ ∀ i, n'.log.get i = (req.entries.foldl append_entry n.log).get i) := by
  obtain ⟨hlog, -⟩ := untouched_follow n req.term
  unfold handle_append_entries at hr
  split_ifs at hr
  · cases hr
    exact .inl ⟨rfl, fun _ _ => rfl⟩
  · rcases check_entries_cases (n.follow req.term) req with
      ⟨log, heq, rfl | ⟨e, -, -, hpos, rfl⟩⟩ | ⟨hprev, heq⟩
    · cases heq.symm.trans hr
      exact .inl ⟨rfl, fun i _ => congrArg (get · i) hlog⟩
    · cases heq.symm.trans hr
      rw [hlog]
      exact .inl ⟨rfl, fun i hi => get_truncate_after (Nat.le_sub_one_of_lt hi)⟩
    · cases heq.symm.trans hr
      refine .inr ⟨rfl, ?_, fun i => (get_update_commit _ _ i).trans (by rw [hlog])⟩
      obtain hzero | hpos := Nat.eq_zero_or_pos req.prev_log_index
      · exact hzero ▸ Nat.zero_le _
      · obtain ⟨e, he, -⟩ := hprev hpos
        rw [hlog] at he
        exact (h.bounds he).2

/-- **AppendEntries.** A request that a follower accepts stands in its log afterwards, with
nothing changed up to the previous entry, and nothing at all where no term conflicts; one that
it refuses changes nothing before the previous entry. -/
theorem append_entries_post (config : RaftConfig) (ops : List NodeOp) (n n' : RaftNode)
    (hn : n = ops.foldl apply (new config)) (hbase : n.log.base_index = 0)
    (req : AppendEntriesReq) (hreq : Consecutive req.prev_log_index req.entries)
    (resp : AppendEntriesResp) (hr : n.handle_append_entries req = (n', resp)) :
    (resp.success = true →
      (∀ entry ∈ req.entries, ∃ e, n'.log.get entry.index = some e ∧ e.term = entry.term) ∧
      (∀ i ≤ req.prev_log_index, n'.log.get i = n.log.get i) ∧
      ((∀ entry ∈ req.entries, ∀ e, n.log.get entry.index = some e → e.term = entry.term) →
        ∀ i e, n.log.get i = some e → n'.log.get i = some e)) ∧
    (resp.success = false → ∀ i < req.prev_log_index, n'.log.get i = n.log.get i) := by
  have hwf : n.log.Wf := hn ▸ run_wf RaftLog.new_wf
  have hzero (i : LogIndex) : n.log.base_index ≤ i := hbase ▸ Nat.zero_le i
  obtain ⟨hno, hkept⟩ | ⟨hyes, hprev, hlog⟩ := handle_append_entries_log hwf hr
  · exact ⟨fun hyes => absurd (hno.symm.trans hyes) Bool.false_ne_true, fun _ => hkept⟩
  · refine ⟨fun _ => ⟨fun entry he => ?_, fun i hi => ?_, fun hsame i e he => ?_⟩,
      fun hno => absurd (hno.symm.trans hyes) Bool.false_ne_true⟩
    · rw [hlog]
      exact append_entries_hold hwf (hzero _) hprev hreq entry he
    · rw [hlog, (keeps_append_entries hwf (hzero _) hprev hreq.agrees).get i hi]
    · obtain ⟨-, hi⟩ := hwf.bounds he
      have hkeeps := keeps_append_entries hwf (hzero _) le_rfl fun entry hmem _ => hsame entry hmem
      rw [hlog, hkeeps.get i hi, he]

/-- A follower with two entries of term 1. -/
def overlap_run : List NodeOp :=
  [.handle_append_entries ⟨1, 1, 0, 0, [⟨1, 1, [7]⟩, ⟨1, 2, [8]⟩], 0⟩]

/-- A request that overlaps the log: entry 1 stays, entry 2 is replaced and entry 3 is new. -/
theorem append_entries_post_overlap :
    let n := overlap_run.foldl apply (new ⟨2, [1]⟩)
    let r := n.handle_append_entries ⟨2, 1, 1, 1, [⟨2, 2, [9]⟩, ⟨2, 3, []⟩], 0⟩
    r.2.success = true ∧ (∃ e, r.1.log.get 2 = some e ∧ e.term = 2)
      ∧ (∃ e, r.1.log.get 3 = some e ∧ e.term = 2) ∧ r.1.log.get 1 = n.log.get 1 := by
  have hpost := (append_entries_post ⟨2, [1]⟩ overlap_run _ _ rfl (by decide)
    ⟨2, 1, 1, 1, [⟨2, 2, [9]⟩, ⟨2, 3, []⟩], 0⟩ ⟨rfl, rfl, trivial⟩ _ rfl).1 (by decide)
  exact ⟨by decide, hpost.1 ⟨2, 2, [9]⟩ (by decide), hpost.1 ⟨2, 3, []⟩ (by decide),
    hpost.2.1 1 le_rfl⟩

end Oigrap.Raft
