/-
What one `AppendEntries` request does to a log that was never compacted.

Such a log is the list of its entries, each at its own index, behind the sentinel. The
request of a leader is a part of such a list: the term at one index and all that follows.
The loop of `handle_append_entries` over the entries either finds the leader's list in the
log and leaves the log alone, or ends with exactly the leader's list
(`append_entries_whole`), provided that entries of one term in one place are the same, which
is log matching.
-/
import Oigrap.Lib.ReplicatedLog
import Oigrap.Raft.Compaction

namespace Oigrap.Raft

open List RaftNode

/-- A list of entries from the sentinel on, each at its own index. -/
structure Whole (l : List LogEntry) : Prop where
  head : l[0]? = some RaftLog.sentinel
  index : ∀ (k : ℕ) (e : LogEntry), l[k]? = some e → e.index = k

/-- Entries of one term in one place stand in equal lists. -/
def Match (l l' : List LogEntry) : Prop :=
  ∀ (k : ℕ) (e e' : LogEntry), l[k]? = some e → l'[k]? = some e' → e.term = e'.term →
    l.take (k + 1) = l'.take (k + 1)

theorem Match.eq {l l' : List LogEntry} (h : Match l l') {k : ℕ} {e e' : LogEntry}
    (he : l[k]? = some e) (he' : l'[k]? = some e') (ht : e.term = e'.term) : e = e' := by
  have htake := congrArg (fun m : List LogEntry => m[k]?) (h k e e' he he' ht)
  simpa only [getElem?_take_of_lt (Nat.lt_succ_self k), he, he', Option.some.injEq] using htake

theorem Whole.length_pos {l : List LogEntry} (h : Whole l) : 0 < l.length :=
  (List.getElem?_eq_some_iff.mp h.head).1

theorem Whole.take {l : List LogEntry} (h : Whole l) {k : ℕ} (hk : 0 < k) : Whole (l.take k) := by
  refine ⟨by rw [getElem?_take_of_lt hk]; exact h.head, fun j e he => h.index j e ?_⟩
  rw [getElem?_take] at he
  split at he
  · exact he
  · cases he

namespace RaftLog

/-- The log was never compacted. -/
structure Plain (log : RaftLog) : Prop where
  base : log.base_index = 0
  whole : Whole log.entries

variable {log : RaftLog} {i : LogIndex} {e : LogEntry}

theorem plain_new : new.Plain := by
  refine ⟨rfl, rfl, fun k e he => ?_⟩
  cases k with
  | zero =>
    obtain rfl : sentinel = e := by simpa [new] using he
    rfl
  | succ k => simp [new] at he

section

variable (h : log.Plain)
include h

theorem Plain.wf : log.Wf := by
  refine ⟨ne_nil_of_length_pos h.whole.length_pos, fun k e he => ?_⟩
  rw [h.base, Nat.zero_add]
  exact h.whole.index k e he

theorem Plain.get (i : LogIndex) : log.get i = log.entries[i]? := by
  rw [get_of_le (by rw [h.base]; exact Nat.zero_le i), h.base, Nat.sub_zero]

theorem Plain.last_index : log.last_index + 1 = log.entries.length := by
  have := h.whole.length_pos
  rw [RaftLog.last_index, h.base]
  lia

theorem Plain.congr {log' : RaftLog} (he : log'.entries = log.entries)
    (hb : log'.base_index = log.base_index) : log'.Plain :=
  ⟨hb.trans h.base, he ▸ h.whole⟩

theorem Plain.append_entries (term : Term) (data : List UInt8) :
    (log.append term data).1.entries = log.entries ++ [⟨term, log.entries.length, data⟩] := by
  simp [append, h.base]

theorem Plain.append (term : Term) (data : List UInt8) : (log.append term data).1.Plain := by
  have hwf := append_wf term data h.wf
  refine ⟨h.base, ?_, fun k e he => ?_⟩
  · rw [h.append_entries, getElem?_append_left h.whole.length_pos]
    exact h.whole.head
  · rw [hwf.index k e he]
    show log.base_index + k = k
    rw [h.base, Nat.zero_add]

theorem Plain.truncate_after_entries (i : LogIndex) :
    (log.truncate_after i).entries = log.entries.take (i + 1) := by
  rw [RaftLog.truncate_after_entries (by rw [h.base]; exact Nat.zero_le i), h.base, Nat.sub_zero]

theorem Plain.truncate_after (i : LogIndex) : (log.truncate_after i).Plain := by
  refine ⟨(truncate_after_base ..).trans h.base, ?_⟩
  rw [h.truncate_after_entries]
  exact h.whole.take (Nat.succ_pos i)

theorem Plain.entries_from (i : LogIndex) : log.entries_from i = log.entries.drop i := by
  unfold RaftLog.entries_from
  rw [h.base, if_neg (Nat.not_lt_zero i), Nat.sub_zero]
  dsimp only
  split
  case isTrue hlen => exact (drop_eq_nil_of_le hlen).symm
  case isFalse => rfl

/-- One entry of a request, at the end of what is already the leader's. -/
theorem append_entry_whole {pre : List LogEntry} (hpre : pre <+: log.entries)
    (hpos : 0 < pre.length) (hidx : e.index = pre.length)
    (hsame : ∀ x, log.entries[pre.length]? = some x → x.term = e.term → x = e) :
    (append_entry log e).Plain ∧ ((append_entry log e = log ∧ pre ++ [e] <+: log.entries)
        ∨ ((append_entry log e).entries = pre ++ [e] ∧ ¬ pre ++ [e] <+: log.entries)) := by
  have htake : log.entries.take pre.length = pre := (prefix_iff_eq_take.mp hpre).symm
  have hnext : ∀ x, pre ++ [x] <+: log.entries ↔ log.entries[pre.length]? = some x := by
    intro x
    constructor
    · intro hx
      exact ReplicatedLog.prefix_getElem? hx getElem?_concat_length
    · intro hx
      obtain ⟨hlt, rfl⟩ := List.getElem?_eq_some_iff.mp hx
      rw [prefix_iff_eq_take, length_append, length_singleton,
        take_succ_eq_append_getElem hlt, htake]
  unfold append_entry
  rw [h.get, hidx]
  cases hx : log.entries[pre.length]? with
  | none =>
    -- the log ends where the leader's entries go on
    have hlen : log.entries = pre := by
      rw [← htake]
      exact (take_of_length_le (getElem?_eq_none_iff.mp hx)).symm
    refine ⟨h.append e.term e.data, .inr ⟨?_, ?_⟩⟩
    · rw [h.append_entries, hlen, ← hidx]
    · rw [hnext, hx]
      exact nofun
  | some x =>
    dsimp only
    split
    case isFalse hne =>
      refine ⟨h, .inl ⟨rfl, (hnext e).mpr ?_⟩⟩
      rw [hx, hsame x hx (not_not.mp hne)]
    case isTrue hne =>
      have hcut := h.truncate_after (pre.length - 1)
      refine ⟨hcut.append e.term e.data, .inr ⟨?_, ?_⟩⟩
      · rw [hcut.append_entries, h.truncate_after_entries, Nat.sub_add_cancel hpos, htake, ← hidx]
      · rw [hnext, hx]
        rintro ⟨⟩
        exact hne rfl

end

/-- The whole loop: the leader's list is there already, or is what is there afterwards. -/
theorem append_entries_whole (es : List LogEntry) : ∀ {log : RaftLog} {pre : List LogEntry},
    log.Plain → pre <+: log.entries → 0 < pre.length →
    (∀ (k : ℕ) (e : LogEntry), (pre ++ es)[k]? = some e → e.index = k) →
    (∀ (k : ℕ) (x y : LogEntry), log.entries[k]? = some x → (pre ++ es)[k]? = some y →
      x.term = y.term → x = y) → (es.foldl append_entry log).Plain ∧
      (((es.foldl append_entry log).entries = log.entries ∧ pre ++ es <+: log.entries)
        ∨ ((es.foldl append_entry log).entries = pre ++ es
          ∧ ¬ pre ++ es <+: log.entries)) := by
  -- `pre` is what the loop has dealt with
  induction es with
  | nil =>
    intro log pre h hpre hpos hidx hsame
    rw [append_nil]
    exact ⟨h, .inl ⟨rfl, hpre⟩⟩
  | cons e es ih =>
    intro log pre h hpre hpos hidx hsame
    have hassoc : pre ++ e :: es = pre ++ [e] ++ es := by simp
    have hat : (pre ++ e :: es)[pre.length]? = some e := by simp
    obtain ⟨hplain, hcase⟩ := append_entry_whole h hpre hpos (hidx _ e hat)
      fun x hx => hsame _ x e hx hat
    have hpos' : 0 < (pre ++ [e]).length := by simp
    rw [hassoc] at hidx hsame ⊢
    rw [foldl_cons]
    rcases hcase with ⟨heq, hpre'⟩ | ⟨heq, hnot⟩
    · rw [heq]
      exact ih h hpre' hpos' hidx hsame
    · -- from here on the log is the leader's
      have hnot' : ¬ pre ++ [e] ++ es <+: log.entries :=
        fun hin => hnot ((prefix_append _ _).trans hin)
      have hall := ih hplain (by rw [heq]) hpos' hidx fun k x y hx hy _ => by
        rw [heq] at hx
        have hx' := ReplicatedLog.prefix_getElem? (prefix_append _ es) hx
        exact Option.some.inj (hx'.symm.trans hy)
      refine ⟨hall.1, .inr ⟨?_, hnot'⟩⟩
      rcases hall.2 with ⟨hkept, hin⟩ | ⟨hnew, -⟩
      · rw [hkept]
        rw [heq] at hin ⊢
        exact (prefix_append _ es).eq_of_length_le hin.length_le
      · exact hnew

end RaftLog

/-! ## A request that carries a leader's log -/

/-- The request has the term of `l` at the previous index and all the entries that follow. -/
structure Carries (l : List LogEntry) (req : AppendEntriesReq) : Prop where
  prev : req.prev_log_term = ((l[req.prev_log_index]?).map LogEntry.term).getD 0
  entries : req.entries = l.drop (req.prev_log_index + 1)

namespace RaftNode

variable {n : RaftNode} {req : AppendEntriesReq} {l : List LogEntry}

theorem carries_append_request (h : n.log.Plain) (hnext : n.NextPos) (peer : NodeId) :
    Carries n.log.entries (n.append_request peer) := by
  have hpos : n.next_index_for peer - 1 + 1 = n.next_index_for peer :=
    Nat.sub_add_cancel (next_index_for_pos hnext)
  refine ⟨?_, ?_⟩
  · show ((n.log.get _).map LogEntry.term).getD 0 = _
    rw [h.get]
    rfl
  · show n.log.entries_from _ = n.log.entries.drop (n.next_index_for peer - 1 + 1)
    rw [h.entries_from, hpos]

/-- What the loop over the entries leaves, when the log continues at the previous entry. -/
theorem append_entries_carried (h : n.log.Plain) (hl : Whole l) (hreq : Carries l req)
    (hm : Match n.log.entries l) (hlen : req.prev_log_index < l.length)
    (hprev : n.log.entries.take (req.prev_log_index + 1) = l.take (req.prev_log_index + 1)) :
    (req.entries.foldl append_entry n.log).Plain ∧
      (((req.entries.foldl append_entry n.log).entries = n.log.entries ∧ l <+: n.log.entries)
        ∨ ((req.entries.foldl append_entry n.log).entries = l ∧ ¬ l <+: n.log.entries)) := by
  have hsplit : l.take (req.prev_log_index + 1) ++ req.entries = l := by
    rw [hreq.entries, take_append_drop]
  have hpre : l.take (req.prev_log_index + 1) <+: n.log.entries := by
    rw [← hprev]
    exact take_prefix _ _
  have hpos : 0 < (l.take (req.prev_log_index + 1)).length := by
    rw [length_take]
    exact lt_min (Nat.succ_pos _) (Nat.zero_lt_of_lt hlen)
  have hall := RaftLog.append_entries_whole req.entries h hpre hpos
    (by rw [hsplit]; exact hl.index) (by rw [hsplit]; exact fun k x y hx hy ht => hm.eq hx hy ht)
  rwa [hsplit] at hall

/-- The node refuses the request: at most it cuts its log before an entry that disagrees. -/
def Refuses (n n' : RaftNode) (req : AppendEntriesReq) : Prop :=
  n'.commit_index = n.commit_index ∧ (n'.log.entries = n.log.entries
    ∨ ∃ x, n.log.entries[req.prev_log_index]? = some x ∧ x.term ≠ req.prev_log_term
      ∧ n'.log.entries = n.log.entries.take req.prev_log_index)

/-- The node accepts the request, which carries `l`. -/
def Accepts (n n' : RaftNode) (req : AppendEntriesReq) (l : List LogEntry) : Prop :=
  n'.commit_index = (if req.leader_commit > n.commit_index
      then min req.leader_commit n'.log.last_index else n.commit_index)
    ∧ (req.prev_log_index < l.length → (n'.log.entries = n.log.entries ∧ l <+: n.log.entries)
        ∨ (n'.log.entries = l ∧ ¬ l <+: n.log.entries))
    ∧ (l.length ≤ req.prev_log_index → n'.log.entries = n.log.entries)

theorem update_commit_log (n : RaftNode) (k : LogIndex) :
    (n.update_commit k).log.entries = n.log.entries
      ∧ (n.update_commit k).log.base_index = n.log.base_index ∧ (n.update_commit k).commit_index
        = if k > n.commit_index then min k n.log.last_index else n.commit_index := by
  unfold update_commit
  split
  · obtain ⟨he, hb, -⟩ := RaftLog.advance_commit_fields n.log (min k n.log.last_index)
    exact ⟨he, hb, rfl⟩
  · exact ⟨rfl, rfl, rfl⟩

theorem accepts_accept_entries (h : n.log.Plain) (hl : Whole l) (hreq : Carries l req)
    (hm : Match n.log.entries l) (hprev : req.prev_log_index < l.length →
      n.log.entries.take (req.prev_log_index + 1) = l.take (req.prev_log_index + 1)) :
    (n.accept_entries req).1.log.Plain ∧ Accepts n (n.accept_entries req).1 req l := by
  obtain ⟨he, hb, hc⟩ := update_commit_log
    { n with log := req.entries.foldl append_entry n.log } req.leader_commit
  have hlast := RaftLog.last_index_congr he hb
  have hcommit : (n.accept_entries req).1.commit_index = if req.leader_commit > n.commit_index
      then min req.leader_commit (n.accept_entries req).1.log.last_index else n.commit_index := by
    refine hc.trans ?_
    rw [← hlast]
    rfl
  rcases lt_or_ge req.prev_log_index l.length with hlt | hge
  · obtain ⟨hplain, hcase⟩ := append_entries_carried h hl hreq hm hlt (hprev hlt)
    refine ⟨hplain.congr he hb, hcommit, fun _ => ?_, fun hge => absurd hlt (not_lt.mpr hge)⟩
    rcases hcase with ⟨heq, hin⟩ | ⟨heq, hin⟩
    · exact .inl ⟨he.trans heq, hin⟩
    · exact .inr ⟨he.trans heq, hin⟩
  · have hnil : req.entries = [] := by
      rw [hreq.entries]
      exact drop_eq_nil_of_le (Nat.le_succ_of_le hge)
    have hsame : req.entries.foldl append_entry n.log = n.log := by
      rw [hnil]
      rfl
    have hplain : (req.entries.foldl append_entry n.log).Plain := by
      rwa [hsame]
    refine ⟨hplain.congr he hb, hcommit, fun hlt => absurd hge (not_le.mpr hlt), fun _ => ?_⟩
    exact he.trans (congrArg RaftLog.entries hsame)

/-- **What a request does to an uncompacted log.** A request that is not stale is refused or
accepted; the log stays whole. -/
theorem handle_append_entries_cases (h : n.log.Plain) (hl : Whole l) (hreq : Carries l req)
    (hm : Match n.log.entries l) (hterm : n.current_term ≤ req.term) :
    (n.handle_append_entries req).1.log.Plain ∧ (((n.handle_append_entries req).2.success = false
          ∧ Refuses n (n.handle_append_entries req).1 req)
        ∨ ((n.handle_append_entries req).2.success = true
          ∧ (n.handle_append_entries req).2.match_index
            = (n.handle_append_entries req).1.log.last_index
          ∧ Accepts n (n.handle_append_entries req).1 req l)) := by
  obtain ⟨hlog, hcommit⟩ := untouched_follow n req.term
  have haccept (hprev : req.prev_log_index < l.length →
      n.log.entries.take (req.prev_log_index + 1) = l.take (req.prev_log_index + 1)) :
      ((n.follow req.term).accept_entries req).1.log.Plain
        ∧ Accepts n ((n.follow req.term).accept_entries req).1 req l := by
    rw [← hlog] at h hm hprev
    obtain ⟨hplain, hacc⟩ := accepts_accept_entries h hl hreq hm hprev
    unfold Accepts at hacc ⊢
    rw [hlog, hcommit] at hacc
    exact ⟨hplain, hacc⟩
  unfold handle_append_entries
  rw [if_neg (not_lt.mpr hterm)]
  rcases check_entries_cases (n.follow req.term) req with
    ⟨log, heq, rfl | ⟨x, hx, hne, hpos, rfl⟩⟩ | ⟨hprev, heq⟩
  · rw [heq]
    exact ⟨hlog ▸ h, .inl ⟨rfl, hcommit, .inl (congrArg RaftLog.entries hlog)⟩⟩
  · rw [hlog] at heq hx
    rw [heq]
    refine ⟨h.truncate_after _, .inl ⟨rfl, hcommit, .inr ⟨x, h.get _ ▸ hx, hne, ?_⟩⟩⟩
    show (n.log.truncate_after (req.prev_log_index - 1)).entries = _
    rw [h.truncate_after_entries, Nat.sub_add_cancel hpos]
  · rw [heq]
    obtain ⟨hplain, hacc⟩ := haccept fun hlt => by
      rcases Nat.eq_zero_or_pos req.prev_log_index with hzero | hpos
      · rw [hzero]
        exact hm 0 _ _ h.whole.head hl.head rfl
      · obtain ⟨x, hx, hsame⟩ := hprev hpos
        rw [hlog, h.get] at hx
        have hy : l[req.prev_log_index]? = some (l[req.prev_log_index]) :=
          getElem?_eq_getElem hlt
        refine hm _ x _ hx hy ?_
        rw [hsame, hreq.prev, hy]
        rfl
    exact ⟨hplain, .inr ⟨rfl, rfl, hacc⟩⟩

end RaftNode

end Oigrap.Raft
