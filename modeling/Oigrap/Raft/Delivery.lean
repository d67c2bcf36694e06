/-
Runs of one log: what its owner is handed to apply.

Any of the log's operations may come in any order and with any arguments. Truncating can
take the commit index below `last_applied`, and a snapshot can be ahead of the whole log;
neither takes `last_applied` back, nor leaves the base above it or above the commit index.
-/
import Mathlib.Data.List.Induction
import Oigrap.Raft.Log

namespace Oigrap.Raft

open List RaftLog

inductive LogOp where
  | append (term : Term) (data : List UInt8)
  | truncate_after (index : LogIndex)
  | advance_commit (index : LogIndex)
  | compact (snapshot : Snapshot)
  | take_applicable

namespace RaftLog

/-- The log after an operation, and the entries it returns. -/
def apply (log : RaftLog) : LogOp → List LogEntry × RaftLog
  | .append term data => ([], (log.append term data).1)
  | .truncate_after index => ([], log.truncate_after index)
  | .advance_commit index => ([], log.advance_commit index)
  | .compact snapshot => ([], log.compact snapshot)
  | .take_applicable => log.take_applicable

/-- All entries returned in a run of operations, and the log after it. -/
def run (ops : List LogOp) : List LogEntry × RaftLog :=
  ops.foldl (fun r op => (r.1 ++ (r.2.apply op).1, (r.2.apply op).2)) ([], new)

/-- The entries carry the indices from the base on, and base and commit index are in order. -/
structure Bounded (log : RaftLog) : Prop where
  wf : log.Wf
  base : log.base_index ≤ log.commit_index
  last : log.commit_index ≤ log.last_index
  applied : log.base_index ≤ log.last_applied

variable {log : RaftLog}

/-! ## One operation -/

/-- The induction is on the rounds of the loop; every index it passes has an entry. -/
theorem Bounded.apply_up_to (h : log.Bounded) (k : ℕ)
    (hk : k ≤ log.last_index - log.last_applied) :
    (log.apply_up_to k).1.map LogEntry.index = range' (log.last_applied + 1) k := by
  induction k with
  | zero => rfl
  | succ k ih =>
    have happlied := h.applied
    obtain ⟨e, he⟩ := Option.isSome_iff_exists.mp
      (h.wf.get_isSome.mpr ⟨by lia, (by lia : log.last_applied + k + 1 ≤ log.last_index)⟩)
    have hindex : e.index = log.last_applied + 1 + k := by
      rw [get_of_le (by lia)] at he
      rw [h.wf.index _ _ he]
      lia
    simp only [RaftLog.apply_up_to, apply_up_to_snd, he, Option.toList_some, map_append, map_cons,
      map_nil, ih (by lia), hindex, range'_1_concat]

theorem Bounded.take_applicable (h : log.Bounded) : log.take_applicable.1.map LogEntry.index
    = range' (log.last_applied + 1) (log.commit_index - log.last_applied) :=
  h.apply_up_to _ (Nat.sub_le_sub_right h.last _)

theorem take_applicable_applied (log : RaftLog) :
    log.take_applicable.2.last_applied = max log.last_applied log.commit_index := by
  simp only [RaftLog.take_applicable, apply_up_to_snd]
  lia

/-- Whatever the operation, `last_applied` does not go back. -/
theorem Bounded.after (h : log.Bounded) (op : LogOp) : (log.apply op).2.Bounded
    ∧ log.last_applied ≤ (log.apply op).2.last_applied := by
  have hpos := h.wf.length_pos
  obtain ⟨hwf, hbase, hlast, happlied⟩ := h
  cases op with
  | append term data =>
    have hlast' := (Nat.le_succ _).trans (last_index_append term data hwf).ge
    exact ⟨⟨append_wf term data hwf, hbase, hlast.trans hlast', happlied⟩, le_rfl⟩
  | truncate_after index =>
    suffices hs : (log.truncate_after index).base_index ≤ (log.truncate_after index).commit_index
        ∧ (log.truncate_after index).commit_index ≤ (log.truncate_after index).last_index by
      refine ⟨⟨truncate_after_wf hwf index, hs.1, hs.2, ?_⟩, (truncate_after_applied _ _).ge⟩
      simpa [RaftLog.apply] using happlied
    simp only [truncate_after, last_index] at hlast ⊢
    -- the entry at the base always stays, and the commit index is cut to what is left
    split
    · lia
    · split
      · simp only [length_take]
        split <;> lia
      · lia
  | advance_commit index =>
    obtain ⟨hentries, hb, ha⟩ := advance_commit_fields log index
    suffices hs : log.commit_index ≤ (log.advance_commit index).commit_index
        ∧ (log.advance_commit index).commit_index ≤ log.last_index by
      have hlast' := last_index_congr hentries hb
      exact ⟨⟨hwf.congr hentries hb, hb.trans_le (hbase.trans hs.1), hs.2.trans hlast'.ge,
        hb.trans_le (happlied.trans ha.ge)⟩, ha.ge⟩
    unfold advance_commit
    -- never past the last entry
    split
    · exact ⟨le_min (by lia) hlast, min_le_right _ _⟩
    · exact ⟨le_rfl, hlast⟩
  | compact snapshot =>
    rw [RaftLog.apply]
    by_cases hb : snapshot.last_included_index ≤ log.base_index
    · rw [compact_of_le hb]
      exact ⟨⟨hwf, hbase, hlast, happlied⟩, le_rfl⟩
    · obtain ⟨hbase', -, hcommit', happlied'⟩ := compact_fields (not_le.mp hb)
      -- ahead of the log, the snapshot's stand-in is the only entry left
      have hlast' : max log.last_index snapshot.last_included_index
          ≤ (log.compact snapshot).last_index := by
        by_cases hl : snapshot.last_included_index ≤ log.last_index
        · rw [last_index_compact hl, max_eq_left hl]
        · rw [max_eq_right (not_le.mp hl).le, last_index, hbase']
          exact Nat.le_add_right _ _
      refine ⟨⟨compact_wf hwf, ?_, ?_, ?_⟩, ?_⟩ <;> dsimp only <;> lia
  | take_applicable =>
    have hgrow : log.last_applied ≤ log.take_applicable.2.last_applied :=
      (le_max_left _ _).trans (take_applicable_applied _).ge
    exact ⟨⟨hwf.congr rfl rfl, hbase, hlast, happlied.trans hgrow⟩, hgrow⟩

/-! ## A run -/

/-- What an operation returns lies between `last_applied` before and after it, in order. -/
theorem Bounded.returned (h : log.Bounded) (op : LogOp) :
    ((log.apply op).1.map LogEntry.index).Pairwise (· < ·)
      ∧ ∀ i ∈ (log.apply op).1.map LogEntry.index,
        log.last_applied < i ∧ i ≤ (log.apply op).2.last_applied := by
  cases op with
  | take_applicable =>
    rw [RaftLog.apply, h.take_applicable, take_applicable_applied]
    refine ⟨pairwise_lt_range', fun i hi => ?_⟩
    rw [mem_range'_1] at hi
    lia
  | _ => exact ⟨.nil, fun i hi => absurd hi not_mem_nil⟩

theorem run_inv (ops : List LogOp) : (run ops).2.Bounded
    ∧ ((run ops).1.map LogEntry.index).Pairwise (· < ·)
    ∧ ∀ i ∈ (run ops).1.map LogEntry.index, i ≤ (run ops).2.last_applied := by
  -- on the run from its end: what the last call returns is above all that was returned before
  induction ops using List.reverseRecOn with
  | nil =>
    exact ⟨⟨new_wf, le_rfl, le_rfl, le_rfl⟩, .nil, fun i hi => absurd hi not_mem_nil⟩
  | append_singleton ops op ih =>
    obtain ⟨hbounded, hsorted, hpast⟩ := ih
    obtain ⟨hbounded', hgrow⟩ := hbounded.after op
    obtain ⟨hsorted', hnew⟩ := hbounded.returned op
    have hrun : run (ops ++ [op])
        = ((run ops).1 ++ ((run ops).2.apply op).1, ((run ops).2.apply op).2) := foldl_concat ..
    rw [hrun, map_append]
    refine ⟨hbounded', pairwise_append.mpr ⟨hsorted, hsorted', fun i hi j hj =>
      (hpast i hi).trans_lt (hnew j hj).1⟩, fun i hi => ?_⟩
    rcases mem_append.mp hi with hi | hi
    · exact (hpast i hi).trans hgrow
    · exact (hnew i hi).2

/-- The representation holds after every run, and what a run returns is each index at most
once and in order; the next call returns the indices from `last_applied` to the commit index,
every one of them and none at or below the base. -/
theorem run_delivers (ops : List LogOp) :
    (∀ i e, (run ops).2.entries[i]? = some e → e.index = (run ops).2.base_index + i)
      ∧ (run ops).2.base_index ≤ (run ops).2.commit_index
      ∧ (run ops).2.commit_index ≤ (run ops).2.last_index
      ∧ ((run ops).1.map LogEntry.index).Pairwise (· < ·)
      ∧ (run ops).2.take_applicable.1.map LogEntry.index = range' ((run ops).2.last_applied + 1)
        ((run ops).2.commit_index - (run ops).2.last_applied)
      ∧ ∀ e ∈ (run ops).2.take_applicable.1,
        (run ops).2.base_index < e.index ∧ e.index ≤ (run ops).2.commit_index := by
  obtain ⟨h, hsorted, -⟩ := run_inv ops
  refine ⟨h.wf.index, h.base, h.last, hsorted, h.take_applicable, fun e he => ?_⟩
  have happlied := h.applied
  have hmem := mem_map_of_mem (f := LogEntry.index) he
  rw [h.take_applicable, mem_range'_1] at hmem
  lia

end RaftLog

end Oigrap.Raft
