/-
Lookups in a log that has been appended to, truncated or compacted.

`Wf` is what the operations of `RaftLog` keep by themselves, whatever a request says: there
is a first entry, and the entry at position `k` carries the index `base_index + k`, because
`append` numbers the entries itself. `Keeps i` says that a change of the log left the part
up to index `i` alone; the entry loop of `AppendEntries` does when none of its entries
disagrees with the log in term at or below `i`.
-/
import Oigrap.Raft.Node

namespace Oigrap.Raft

open List

namespace RaftLog

variable {log log' : RaftLog} {i j : LogIndex} {e : LogEntry}

/-- The log is never empty, and an entry carries the index it stands at. -/
structure Wf (log : RaftLog) : Prop where
  nonempty : log.entries ≠ []
  index : ∀ k e, log.entries[k]? = some e → e.index = log.base_index + k

theorem new_wf : new.Wf := by
  refine ⟨by simp [new], fun k e h => ?_⟩
  cases k with
  | zero =>
    obtain rfl : sentinel = e := by simpa [new] using h
    rfl
  | succ k => simp [new] at h

theorem Wf.length_pos (h : log.Wf) : 0 < log.entries.length := length_pos_iff.mpr h.nonempty

theorem get_of_lt (h : i < log.base_index) : log.get i = none := if_pos h

theorem get_of_le (h : log.base_index ≤ i) : log.get i = log.entries[i - log.base_index]? :=
  if_neg (not_lt.mpr h)

/-- The log has an entry for the indices from the base to the last. -/
theorem Wf.get_isSome (h : log.Wf) :
    (log.get i).isSome = true ↔ log.base_index ≤ i ∧ i ≤ log.last_index := by
  have hpos := h.length_pos
  by_cases hi : i < log.base_index
  · rw [get_of_lt hi]
    refine iff_of_false (by simp) ?_
    lia
  · rw [get_of_le (not_lt.mp hi), isSome_getElem?, last_index]
    lia

theorem Wf.bounds (h : log.Wf) (he : log.get i = some e) :
    log.base_index ≤ i ∧ i ≤ log.last_index :=
  h.get_isSome.mp (by rw [he]; rfl)

/-! ## Appending -/

section Append

variable (term : Term) (data : List UInt8)

variable (h : log.Wf)
include h

theorem append_wf : (log.append term data).1.Wf := by
  refine ⟨by simp [append], fun k e hk => ?_⟩
  simp only [append] at hk ⊢
  rw [getElem?_append] at hk
  split_ifs at hk with hlt
  · exact h.index k e hk
  · have hk0 : k - log.entries.length = 0 := by
      by_contra hne
      rw [getElem?_eq_none (by simp only [length_singleton]; lia)] at hk
      cases hk
    rw [hk0] at hk
    obtain rfl : (⟨term, log.base_index + log.entries.length, data⟩ : LogEntry) = e := by
      simpa using hk
    lia

theorem last_index_append : (log.append term data).1.last_index = log.last_index + 1 := by
  have := h.length_pos
  simp only [append, last_index, length_append, length_singleton]
  lia

theorem append_snd : (log.append term data).2 = log.last_index + 1 := by
  have := h.length_pos
  simp only [append, last_index]
  lia

/-- The new entry stands behind the last one. -/
theorem get_append_last : (log.append term data).1.get (log.last_index + 1)
      = some ⟨term, log.last_index + 1, data⟩ := by
  have hlen := h.length_pos
  have hidx : log.last_index + 1 = log.base_index + log.entries.length := by
    simp only [last_index]
    lia
  rw [hidx, get_of_le (by simp [append])]
  simp [append]

theorem get_append (hi : i ≤ log.last_index) : (log.append term data).1.get i = log.get i := by
  by_cases hb : i < log.base_index
  · rw [get_of_lt hb, get_of_lt (by exact hb)]
  · have hlen := h.length_pos
    rw [get_of_le (not_lt.mp hb), get_of_le (by exact not_lt.mp hb)]
    refine getElem?_append_left ?_
    simp only [last_index] at hi
    change i - log.base_index < _
    lia

end Append

/-! ## Truncation -/

@[simp] theorem truncate_after_base (log : RaftLog) (i : LogIndex) :
    (log.truncate_after i).base_index = log.base_index := by
  unfold truncate_after
  split
  · rfl
  · dsimp only
    split <;> rfl

theorem truncate_after_commit (h : log.commit_index ≤ i) :
    (log.truncate_after i).commit_index = log.commit_index := by
  unfold truncate_after
  split
  · rfl
  · dsimp only
    split
    · exact if_neg (not_lt.mpr h)
    · rfl

@[simp] theorem truncate_after_applied (log : RaftLog) (i : LogIndex) :
    (log.truncate_after i).last_applied = log.last_applied := by
  unfold truncate_after
  split
  · rfl
  · dsimp only
    split <;> rfl

theorem truncate_after_entries (h : log.base_index ≤ i) :
    (log.truncate_after i).entries = log.entries.take (i - log.base_index + 1) := by
  unfold truncate_after
  rw [if_neg (not_lt.mpr h)]
  dsimp only
  split
  · rfl
  · rename_i hlen
    exact (take_of_length_le (not_lt.mp hlen)).symm

theorem truncate_after_wf (h : log.Wf) (i : LogIndex) : (log.truncate_after i).Wf := by
  by_cases hi : i < log.base_index
  · rwa [truncate_after, if_pos hi]
  · have he := truncate_after_entries (not_lt.mp hi)
    have hpos := h.length_pos
    refine ⟨?_, fun k e hk => ?_⟩
    · rw [he, ← length_pos_iff, length_take]
      lia
    · rw [he, getElem?_take] at hk
      rw [truncate_after_base]
      split at hk
      · exact h.index k e hk
      · cases hk

/-- Nothing up to the index is cut off. -/
theorem get_truncate_after (h : j ≤ i) : (log.truncate_after i).get j = log.get j := by
  by_cases hj : j < log.base_index
  · rw [get_of_lt hj, get_of_lt (by rw [truncate_after_base]; exact hj)]
  · have hb := not_lt.mp hj
    rw [get_of_le hb, get_of_le (by rw [truncate_after_base]; exact hb), truncate_after_base,
      truncate_after_entries (le_trans hb h), getElem?_take_of_lt]
    lia

theorem get_truncate_after_gt (hb : log.base_index ≤ i) (h : i < j) :
    (log.truncate_after i).get j = none := by
  rw [get_of_le (by rw [truncate_after_base]; lia), truncate_after_base,
    truncate_after_entries hb, getElem?_take, if_neg]
  lia

/-- Truncation never makes the log longer. -/
theorem last_index_truncate_after (h : log.Wf) (hb : log.base_index ≤ i) :
    (log.truncate_after i).last_index = min i log.last_index := by
  have := h.length_pos
  simp only [last_index, truncate_after_base, truncate_after_entries hb, length_take]
  lia

/-! ## What a change leaves alone -/

/-- The log up to index `i`, and the bookkeeping, are as before. -/
structure Keeps (i : LogIndex) (log log' : RaftLog) : Prop where
  base : log'.base_index = log.base_index
  get : ∀ j, j ≤ i → log'.get j = log.get j
  last : i ≤ log'.last_index
  wf : log'.Wf
  commit : log.commit_index ≤ i → log'.commit_index = log.commit_index
  applied : log'.last_applied = log.last_applied

theorem Keeps.trans {log'' : RaftLog} (h : Keeps i log log') (h' : Keeps i log' log'') :
    Keeps i log log'' where
  base := h'.base.trans h.base
  get j hj := (h'.get j hj).trans (h.get j hj)
  last := h'.last
  wf := h'.wf
  commit hc := (h'.commit (by rw [h.commit hc]; exact hc)).trans (h.commit hc)
  applied := h'.applied.trans h.applied

/-- The entry does not disagree in term with the log at or below `i`. -/
def Agrees (i : LogIndex) (log : RaftLog) (entry : LogEntry) : Prop :=
  entry.index ≤ i → ∀ e, log.get entry.index = some e → e.term = entry.term

instance (i : LogIndex) (log : RaftLog) (entry : LogEntry) : Decidable (Agrees i log entry) :=
  decidable_of_iff (entry.index ≤ i → ∀ e ∈ (log.get entry.index).toList, e.term = entry.term) <| by
    simp only [Agrees, Option.mem_toList]

section

variable (h : log.Wf) (hb : log.base_index ≤ i) (hi : i ≤ log.last_index)
include h hi

theorem Keeps.refl : Keeps i log log :=
  ⟨rfl, fun _ _ => rfl, hi, h, fun _ => rfl, rfl⟩

theorem keeps_append (term : Term) (data : List UInt8) : Keeps i log (log.append term data).1 :=
  ⟨rfl, fun _ hj => get_append term data h (le_trans hj hi),
    by rw [last_index_append term data h]; exact Nat.le_succ_of_le hi, append_wf term data h,
    fun _ => rfl, rfl⟩

include hb

theorem keeps_truncate_after (hij : i ≤ j) : Keeps i log (log.truncate_after j) := by
  refine ⟨by simp, fun k hk => get_truncate_after (le_trans hk hij), ?_,
    truncate_after_wf h j, fun hc => truncate_after_commit (le_trans hc hij), by simp⟩
  rw [last_index_truncate_after h (le_trans hb hij)]
  exact Nat.le_min.mpr ⟨hij, hi⟩

/-! ## The entry loop of `AppendEntries` -/

/-- A follower takes one entry of a request without touching what is not contradicted by it. -/
theorem keeps_append_entry {entry : LogEntry} (ha : Agrees i log entry) :
    Keeps i log (RaftNode.append_entry log entry) := by
  unfold RaftNode.append_entry
  cases hg : log.get entry.index with
  | none => exact keeps_append h hi _ _
  | some existing =>
    dsimp only
    split_ifs with hne
    · -- a conflict is above `i`, so the truncation is not below it
      have hij : i ≤ entry.index - 1 := by
        have : ¬ entry.index ≤ i := fun hle => hne (ha hle existing hg)
        lia
      have hkeep := keeps_truncate_after h hb hi hij
      exact hkeep.trans (keeps_append hkeep.wf hkeep.last _ _)
    · exact Keeps.refl h hi

/-- The loop over the entries of a request does no more than its steps. -/
theorem keeps_append_entries {es : List LogEntry} (ha : ∀ entry ∈ es, Agrees i log entry) :
    Keeps i log (es.foldl RaftNode.append_entry log) := by
  induction es generalizing log with
  | nil => exact Keeps.refl h hi
  | cons entry es ih =>
    have hfirst := keeps_append_entry h hb hi (ha entry mem_cons_self)
    refine hfirst.trans (ih hfirst.wf (by rw [hfirst.base]; exact hb) hfirst.last ?_)
    intro entry' he' hle e hg
    rw [hfirst.get _ hle] at hg
    exact ha entry' (mem_cons_of_mem _ he') hle e hg

end

theorem append_entry_wf {entry : LogEntry} (h : log.Wf) : (RaftNode.append_entry log entry).Wf := by
  unfold RaftNode.append_entry
  cases log.get entry.index with
  | none => exact append_wf _ _ h
  | some existing =>
    dsimp only
    split
    · exact append_wf _ _ (truncate_after_wf h _)
    · exact h

theorem append_entries_wf {es : List LogEntry} (h : log.Wf) :
    (es.foldl RaftNode.append_entry log).Wf := by
  induction es generalizing log with
  | nil => exact h
  | cons entry es ih => exact ih (append_entry_wf h)

/-! ## Committing -/

theorem advance_commit_fields (log : RaftLog) (i : LogIndex) :
    (log.advance_commit i).entries = log.entries
      ∧ (log.advance_commit i).base_index = log.base_index
      ∧ (log.advance_commit i).last_applied = log.last_applied := by
  unfold advance_commit
  split <;> exact ⟨rfl, rfl, rfl⟩

section

variable (h : log.Wf) (he : log'.entries = log.entries) (hb : log'.base_index = log.base_index)
include he hb

theorem get_congr : log'.get i = log.get i := by
  simp only [get, he, hb]

theorem last_index_congr : log'.last_index = log.last_index := by
  simp only [last_index, he, hb]

include h in
theorem Wf.congr : log'.Wf := by
  refine ⟨by rw [he]; exact h.nonempty, fun k e hk => ?_⟩
  rw [he] at hk
  rw [hb]
  exact h.index k e hk

end

/-- Commitment moves forward, and not past the end of the log. -/
theorem advance_commit_commit (hc : log.commit_index ≤ i) (hi : i ≤ log.last_index) :
    (log.advance_commit i).commit_index = i := by
  unfold advance_commit
  split
  · exact min_eq_left hi
  · lia

/-- What a leader sends from an index on stands in its log from there on. -/
theorem Wf.mem_entries_from (h : log.Wf) (he : e ∈ log.entries_from i) :
    i ≤ e.index ∧ log.get e.index = some e := by
  unfold entries_from at he
  split at he
  case isTrue => simp at he
  case isFalse hb =>
    dsimp only at he
    split at he
    case isTrue => simp at he
    case isFalse =>
      obtain ⟨k, hk⟩ := mem_iff_getElem?.mp he
      rw [getElem?_drop] at hk
      have hidx := h.index _ _ hk
      refine ⟨by lia, ?_⟩
      rwa [get_of_le (by lia), hidx, Nat.add_sub_cancel_left]

theorem apply_up_to_snd (log : RaftLog) (k : ℕ) : (log.apply_up_to k).2 = log.last_applied + k := by
  induction k with
  | zero => rfl
  | succ k ih =>
    simp only [apply_up_to, ih]
    lia

/-! ## Compaction -/

/-- An old snapshot changes nothing. -/
theorem compact_of_le {snapshot : Snapshot} (h : snapshot.last_included_index ≤ log.base_index) :
    log.compact snapshot = log := by
  exact if_pos h

variable {snapshot : Snapshot}

theorem compact_fields (h : log.base_index < snapshot.last_included_index) :
    (log.compact snapshot).base_index = snapshot.last_included_index
      ∧ (log.compact snapshot).entries
        = log.compact_entries snapshot.last_included_index snapshot.last_included_term
      ∧ (log.compact snapshot).commit_index = max log.commit_index snapshot.last_included_index
      ∧ (log.compact snapshot).last_applied
        = max log.last_applied snapshot.last_included_index := by
  unfold compact
  rw [if_neg (not_le.mpr h)]
  refine ⟨rfl, rfl, ?_, ?_⟩ <;> dsimp only <;> split <;> lia

/-- Of a log that ends before the snapshot, only a marker for the snapshot is left. -/
theorem compact_all (hl : log.last_index < snapshot.last_included_index) :
    (log.compact snapshot).entries
      = [⟨snapshot.last_included_term, snapshot.last_included_index, []⟩] := by
  simp only [last_index] at hl
  rw [(compact_fields (by lia)).2.1]
  exact if_pos (by lia)

section

variable (hl : snapshot.last_included_index ≤ log.last_index)
include hl

theorem compact_part (hb : log.base_index < snapshot.last_included_index) :
    (log.compact snapshot).entries
      = ⟨snapshot.last_included_term, snapshot.last_included_index, []⟩
        :: log.entries.drop (snapshot.last_included_index - log.base_index + 1) := by
  simp only [last_index] at hl
  rw [(compact_fields hb).2.1, compact_entries, if_neg (by lia), drop_eq_getElem_cons (by lia)]

theorem last_index_compact : (log.compact snapshot).last_index = log.last_index := by
  rcases le_or_gt snapshot.last_included_index log.base_index with hb | hb
  · rw [compact_of_le hb]
  · rw [last_index, (compact_fields hb).1, compact_part hl hb]
    simp only [last_index, length_cons, length_drop] at hl ⊢
    lia

theorem get_compact (hj : snapshot.last_included_index < j) :
    (log.compact snapshot).get j = log.get j := by
  rcases le_or_gt snapshot.last_included_index log.base_index with hb | hb
  · rw [compact_of_le hb]
  · have hpos : j - snapshot.last_included_index = (j - snapshot.last_included_index - 1) + 1 := by
      lia
    rw [get_of_le ((compact_fields hb).1.trans_le hj.le), get_of_le (by lia), compact_part hl hb,
      (compact_fields hb).1, hpos, getElem?_cons_succ, getElem?_drop]
    congr 1
    lia

/-- At the snapshot's own index there is a stand-in without data. -/
theorem get_compact_self (hb : log.base_index < snapshot.last_included_index) :
    (log.compact snapshot).get snapshot.last_included_index
      = some ⟨snapshot.last_included_term, snapshot.last_included_index, []⟩ := by
  have hbase := (compact_fields hb).1
  rw [get_of_le hbase.le, compact_part hl hb, hbase, Nat.sub_self]
  rfl

end

theorem compact_wf (h : log.Wf) : (log.compact snapshot).Wf := by
  rcases le_or_gt snapshot.last_included_index log.base_index with hb | hb
  · rwa [compact_of_le hb]
  · obtain ⟨rest, hcons, hrest⟩ : ∃ rest, (log.compact snapshot).entries
        = ⟨snapshot.last_included_term, snapshot.last_included_index, []⟩ :: rest
          ∧ ∀ k e, rest[k]? = some e → e.index = snapshot.last_included_index + (k + 1) := by
      by_cases hl : snapshot.last_included_index ≤ log.last_index
      · refine ⟨_, compact_part hl hb, fun k e hk => ?_⟩
        rw [getElem?_drop] at hk
        have := h.index _ _ hk
        lia
      · exact ⟨[], compact_all (not_le.mp hl), fun k e hk => by simp at hk⟩
    refine ⟨by rw [hcons]; exact cons_ne_nil _ _, fun k e hk => ?_⟩
    rw [hcons] at hk
    rw [(compact_fields hb).1]
    cases k with
    | zero => rw [← Option.some.inj hk, Nat.add_zero]
    | succ k => exact hrest k e hk

end RaftLog

end Oigrap.Raft
