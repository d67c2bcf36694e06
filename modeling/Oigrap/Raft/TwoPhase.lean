/-
The coordinator of a two-phase commit: `TwoPhaseCoordinator` of `twopc.rs`.

The coordinator derives its decision three times: `record_vote` says abort at the first
`PrepareAbort` and commit as soon as every participant has *some* vote on record,
`begin_finalize` asks whether every vote on record is a yes, and nothing remembers what was
said before. The two results below say exactly when the three agree: `decision_sound_iff`
for a sequence of votes of the participants, `irrevocable_isolated_iff` for any sequence of
calls with any messages.

The two hash maps are only read and written by key, so they are functions here.
-/
import Mathlib.Data.List.Induction
import Mathlib.Data.Fintype.EquivFin
import Mathlib.Logic.Function.Basic
import Oigrap.Raft.Shard

namespace Oigrap.Raft

open Function List

abbrev TxnId := ℕ

inductive TxnState where
  | Preparing
  | Committed
  | Aborted
  deriving DecidableEq, Repr

structure Participant where
  shard_id : ShardId
  node_id : NodeId
  deriving DecidableEq, Repr

inductive CoordinatorMsg where
  | Prepare (txn_id : TxnId)
  | Commit (txn_id : TxnId)
  | Abort (txn_id : TxnId)
  deriving DecidableEq, Repr

inductive ParticipantMsg where
  | PrepareOk (txn_id : TxnId) (shard_id : ShardId)
  | PrepareAbort (txn_id : TxnId) (shard_id : ShardId)
  | CommitAck (txn_id : TxnId) (shard_id : ShardId)
  | AbortAck (txn_id : TxnId) (shard_id : ShardId)
  deriving DecidableEq, Repr

namespace ParticipantMsg

def txn_id : ParticipantMsg → TxnId
  | PrepareOk t _ | PrepareAbort t _ | CommitAck t _ | AbortAck t _ => t

def shard_id : ParticipantMsg → ShardId
  | PrepareOk _ s | PrepareAbort _ s | CommitAck _ s | AbortAck _ s => s

/-- The vote of a phase 1 message. -/
def vote : ParticipantMsg → Option Bool
  | PrepareOk _ _ => some true
  | PrepareAbort _ _ => some false
  | CommitAck _ _ | AbortAck _ _ => none

/-- Whether this is a phase 2 message. -/
def is_ack : ParticipantMsg → Bool
  | CommitAck _ _ | AbortAck _ _ => true
  | PrepareOk _ _ | PrepareAbort _ _ => false

end ParticipantMsg

structure TwoPhaseCoordinator where
  txn_id : TxnId
  state : TxnState
  participants : List Participant
  prepare_votes : ShardId → Option Bool
  finalize_acks : ShardId → Option Bool

namespace TwoPhaseCoordinator

open ParticipantMsg

def new (txn_id : TxnId) (participants : List Participant) : TwoPhaseCoordinator :=
  ⟨txn_id, .Preparing, participants, fun _ => none, fun _ => none⟩

variable (self : TwoPhaseCoordinator)

def begin_prepare : List (Participant × CoordinatorMsg) :=
  self.participants.map fun p => (p, .Prepare self.txn_id)

/-- `prepare_votes.insert(shard_id, vote)`. -/
def insert_vote (shard_id : ShardId) (vote : Bool) :
    TwoPhaseCoordinator :=
  { self with prepare_votes := update self.prepare_votes shard_id (some vote) }

def all_voted : Bool :=
  self.participants.all fun p => (self.prepare_votes p.shard_id).isSome

def record_vote (msg : ParticipantMsg) :
    TwoPhaseCoordinator × Option Bool :=
  match msg.vote with
  | none => (self, none)
  | some vote =>
    let self := self.insert_vote msg.shard_id vote
    if !vote then (self, some false)
    else if self.all_voted then (self, some true)
    else (self, none)

/-- The decision `begin_finalize` takes from the votes on record. -/
def commit : Bool :=
  self.participants.all fun p => (self.prepare_votes p.shard_id).getD false

def begin_finalize :
    TwoPhaseCoordinator × List (Participant × CoordinatorMsg) :=
  ({ self with state := if self.commit then .Committed else .Aborted },
    self.participants.map fun p =>
      (p, if self.commit then .Commit self.txn_id else .Abort self.txn_id))

def record_ack (msg : ParticipantMsg) : TwoPhaseCoordinator :=
  if msg.is_ack then
    { self with finalize_acks := update self.finalize_acks msg.shard_id (some true) }
  else self

def is_complete : Bool :=
  self.participants.all fun p => (self.finalize_acks p.shard_id).isSome

/-! ## What one vote does -/

variable (c : TwoPhaseCoordinator)

theorem record_vote_of_none {m : ParticipantMsg} (h : m.vote = none) :
    c.record_vote m = (c, none) := by
  simp only [record_vote, h]

theorem record_vote_fst {m : ParticipantMsg} {v : Bool} (h : m.vote = some v) :
    (c.record_vote m).1 = c.insert_vote m.shard_id v := by
  simp only [record_vote, h]
  split_ifs <;> rfl

variable (m : ParticipantMsg)

/-- Abort is said for a `PrepareAbort`, whatever was said before. -/
theorem record_vote_eq_false : (c.record_vote m).2 = some false ↔ m.vote = some false := by
  cases h : m.vote with
  | none => simp [record_vote, h]
  | some v =>
    cases v
    · simp [record_vote, h]
    · simp only [record_vote, h]
      split_ifs <;> simp_all

/-- Commit is said for a `PrepareOk` that leaves no participant without a vote, whatever the
votes on record are. -/
theorem record_vote_eq_true : (c.record_vote m).2 = some true
      ↔ m.vote = some true ∧ (c.record_vote m).1.all_voted = true := by
  cases h : m.vote with
  | none => simp [record_vote, h]
  | some v =>
    cases v
    · simp [record_vote, h]
    · simp only [record_vote, h]
      split_ifs <;> simp_all

@[simp] theorem record_vote_keeps : (c.record_vote m).1.participants = c.participants
      ∧ (c.record_vote m).1.txn_id = c.txn_id := by
  cases h : m.vote with
  | none => simp [record_vote_of_none c h]
  | some v => rw [record_vote_fst c h]; exact ⟨rfl, rfl⟩

/-- A message that is no vote of shard `s` leaves what is on record for `s`. -/
theorem record_vote_votes (s : ShardId) : (c.record_vote m).1.prepare_votes s
      = (if s = m.shard_id then m.vote else none).or (c.prepare_votes s) := by
  cases h : m.vote with
  | none => simp [record_vote_of_none c h]
  | some v =>
    simp only [record_vote_fst c h, insert_vote, update_apply]
    split_ifs <;> rfl

/-! ## A sequence of votes -/

variable (ms : List ParticipantMsg)

def recorded : TwoPhaseCoordinator :=
  ms.foldl (fun c m => (c.record_vote m).1) c

@[simp] theorem recorded_concat (m : ParticipantMsg) :
    c.recorded (ms ++ [m]) = ((c.recorded ms).record_vote m).1 := by
  simp [recorded]

@[simp] theorem recorded_keeps : (c.recorded ms).participants = c.participants
      ∧ (c.recorded ms).txn_id = c.txn_id := by
  induction ms using reverseRecOn with
  | nil => exact ⟨rfl, rfl⟩
  | append_singleton ms m ih => simp [ih]

variable {txn : TxnId} {ps : List Participant} {s : ShardId} {ms}

theorem vote_received {b : Bool}
    (h : ((new txn ps).recorded ms).prepare_votes s = some b) :
    ∃ m ∈ ms, m.shard_id = s ∧ m.vote = some b := by
  induction ms using reverseRecOn with
  | nil => simp [recorded, new] at h
  | append_singleton ms m ih =>
    rw [recorded_concat, record_vote_votes, Option.or_eq_some_iff] at h
    obtain h | ⟨-, h⟩ := h
    · split_ifs at h with hs
      exact ⟨m, by simp, hs.symm, h⟩
    · obtain ⟨m', hm', hv⟩ := ih h
      exact ⟨m', by simp [hm'], hv⟩

theorem vote_recorded {m : ParticipantMsg} (hm : m ∈ ms)
    (hv : m.vote ≠ none) : ((c.recorded ms).prepare_votes m.shard_id).isSome = true := by
  induction ms using reverseRecOn with
  | nil => simp at hm
  | append_singleton ms m' ih =>
    rw [recorded_concat, record_vote_votes, Option.isSome_or, Bool.or_eq_true]
    rcases mem_append.mp hm with h | h
    · exact .inr (ih h)
    · obtain rfl := mem_singleton.mp h
      exact .inl (by simpa [Option.isSome_iff_ne_none] using hv)

/-- The message is a vote of one of the participants in this transaction. -/
def VoteOf (txn : TxnId) (ps : List Participant) (m : ParticipantMsg) : Prop :=
  ∃ p ∈ ps, m = .PrepareOk txn p.shard_id ∨ m = .PrepareAbort txn p.shard_id

theorem VoteOf.ne_none {m : ParticipantMsg} (h : VoteOf txn ps m) : m.vote ≠ none := by
  obtain ⟨p, -, rfl | rfl⟩ := h <;> simp [ParticipantMsg.vote]

theorem VoteOf.of_true {m : ParticipantMsg} (h : VoteOf txn ps m) (hv : m.vote ≠ some false) :
    m = .PrepareOk txn m.shard_id := by
  obtain ⟨p, -, rfl | rfl⟩ := h
  · rfl
  · exact absurd rfl hv

/-- What the coordinator says and does while it records `ms` is one decision: it says commit
only when the votes are unanimous, never says two different things, and finalises as it
said. -/
structure Sound (c : TwoPhaseCoordinator) (ms : List ParticipantMsg) : Prop where
  unanimous : ∀ pre m, pre ++ [m] <+: ms → ((c.recorded pre).record_vote m).2 = some true →
    (∀ p ∈ c.participants, .PrepareOk c.txn_id p.shard_id ∈ pre ++ [m])
      ∧ ∀ m' ∈ pre ++ [m], m'.vote ≠ some false
  agree : ∀ pre m pre' m' d d', pre ++ [m] <+: pre' → pre' ++ [m'] <+: ms →
    ((c.recorded pre).record_vote m).2 = some d →
    ((c.recorded pre').record_vote m').2 = some d' → d' = d
  finalize : ∀ pre m later d, pre ++ [m] <+: later → later <+: ms →
    ((c.recorded pre).record_vote m).2 = some d →
    (c.recorded later).begin_finalize.2
      = c.participants.map fun p => (p, if d then .Commit c.txn_id else .Abort c.txn_id)

/-- No vote is a no, or no yes arrives when every participant has a vote. -/
def OneSided (ps : List Participant) (ms : List ParticipantMsg) : Prop :=
  (∀ m ∈ ms, m.vote ≠ some false) ∨ ∀ pre m, pre ++ [m] <+: ms → m.vote = some true →
        ∃ p ∈ ps, ∀ m' ∈ pre ++ [m], m'.shard_id ≠ p.shard_id

section OneDecision

variable (hms : ∀ m ∈ ms, VoteOf txn ps m)

include hms

theorem all_voted_iff : ((new txn ps).recorded ms).all_voted = true
      ↔ ∀ p ∈ ps, ∃ m ∈ ms, m.shard_id = p.shard_id := by
  simp only [all_voted, recorded_keeps, all_eq_true]
  constructor
  · intro h p hp
    obtain ⟨b, hb⟩ := Option.isSome_iff_exists.mp (h p hp)
    obtain ⟨m, hm, hs, -⟩ := vote_received hb
    exact ⟨m, hm, hs⟩
  · intro h p hp
    obtain ⟨m, hm, hs⟩ := h p hp
    rw [← hs]
    exact vote_recorded _ hm (hms m hm).ne_none

/-- Without a no, the votes of all participants amount to commit. -/
theorem commit_of_all_voted (hno : ∀ m ∈ ms, m.vote ≠ some false)
    (hall : ∀ p ∈ ps, ∃ m ∈ ms, m.shard_id = p.shard_id) :
    ((new txn ps).recorded ms).commit = true := by
  simp only [commit, recorded_keeps, all_eq_true]
  intro p hp
  obtain ⟨m, hm, hs⟩ := hall p hp
  obtain ⟨b, hb⟩ := Option.isSome_iff_exists.mp
    (vote_recorded (new txn ps) hm (hms m hm).ne_none)
  obtain ⟨m', hm', -, hv⟩ := vote_received hb
  rw [← hs, hb]
  cases b
  · exact absurd hv (hno m' hm')
  · rfl

/-- When every yes leaves a participant without a vote, the votes never amount to commit: the
last vote is a no, or somebody's vote is missing. -/
theorem commit_of_never_all (hne : ms ≠ [])
    (hyes : ∀ pre m, pre ++ [m] <+: ms → m.vote = some true →
      ∃ p ∈ ps, ∀ m' ∈ pre ++ [m], m'.shard_id ≠ p.shard_id) :
    ((new txn ps).recorded ms).commit = false := by
  by_contra hc
  simp only [Bool.not_eq_false, commit, recorded_keeps, all_eq_true] at hc
  obtain ⟨pre, m, rfl⟩ := eq_nil_or_concat' ms |>.resolve_left hne
  obtain ⟨p, hp, hm⟩ := hms m (by simp)
  cases hv : m.vote with
  | none => exact (hms m (by simp)).ne_none hv
  | some v =>
    cases v with
    | false =>
      have hs : m.shard_id = p.shard_id := by rcases hm with rfl | rfl <;> rfl
      have := hc p hp
      rw [recorded_concat, record_vote_fst _ hv, hs] at this
      simp [insert_vote] at this
    | true =>
      obtain ⟨q, hq, hnone⟩ := hyes pre m (prefix_refl _) hv
      have hsome : (((new txn ps).recorded (pre ++ [m])).prepare_votes q.shard_id) = some true := by
        have := hc q hq
        revert this
        cases ((new txn ps).recorded (pre ++ [m])).prepare_votes q.shard_id <;> simp
      obtain ⟨m', hm', hs, -⟩ := vote_received hsome
      exact hnone m' hm' hs

end OneDecision

section

variable (hms : ∀ m ∈ ms, VoteOf txn ps m)
include hms

theorem Sound.of_unanimous (hno : ∀ m ∈ ms, m.vote ≠ some false) : Sound (new txn ps) ms := by
  have never_false {pre m d} (hpre : pre ++ [m] <+: ms)
      (h : (((new txn ps).recorded pre).record_vote m).2 = some d) : d = true := by
    cases d with
    | true => rfl
    | false => exact absurd ((record_vote_eq_false _ _).mp h) (hno m (hpre.subset (by simp)))
  have all_of_true {pre m} (hpre : pre ++ [m] <+: ms)
      (h : (((new txn ps).recorded pre).record_vote m).2 = some true) :
      ∀ p ∈ ps, ∃ m' ∈ pre ++ [m], m'.shard_id = p.shard_id := by
    have := ((record_vote_eq_true _ _).mp h).2
    rw [← recorded_concat] at this
    exact (all_voted_iff fun m' hm' => hms m' (hpre.subset hm')).mp this
  refine ⟨?_, ?_, ?_⟩
  · intro pre m hpre h
    refine ⟨?_, fun m' hm' => hno m' (hpre.subset hm')⟩
    intro p hp
    obtain ⟨m', hm', hs⟩ := all_of_true hpre h p hp
    have := (hms m' (hpre.subset hm')).of_true (hno m' (hpre.subset hm'))
    rw [hs] at this
    exact this ▸ hm'
  · intro pre m pre' m' d d' hpre hpre' h h'
    have hle : pre ++ [m] <+: ms := hpre.trans ((prefix_append _ _).trans hpre')
    rw [never_false hle h, never_false hpre' h']
  · intro pre m later d hpre hlater h
    obtain rfl := never_false (hpre.trans hlater) h
    have hc := commit_of_all_voted (fun m' hm' => hms m' (hlater.subset hm'))
      (fun m' hm' => hno m' (hlater.subset hm')) (fun p hp => by
        obtain ⟨m', hm', hs⟩ := all_of_true (hpre.trans hlater) h p hp
        exact ⟨m', hpre.subset hm', hs⟩)
    simp [begin_finalize, hc]

theorem Sound.of_never_all (hyes : ∀ pre m, pre ++ [m] <+: ms → m.vote = some true →
      ∃ p ∈ ps, ∀ m' ∈ pre ++ [m], m'.shard_id ≠ p.shard_id) : Sound (new txn ps) ms := by
  have never_true {pre m d} (hpre : pre ++ [m] <+: ms)
      (h : (((new txn ps).recorded pre).record_vote m).2 = some d) : d = false := by
    cases d with
    | false => rfl
    | true =>
      obtain ⟨hv, hall⟩ := (record_vote_eq_true _ _).mp h
      rw [← recorded_concat, all_voted_iff fun m' hm' => hms m' (hpre.subset hm')] at hall
      obtain ⟨p, hp, hnone⟩ := hyes pre m hpre hv
      obtain ⟨m', hm', hs⟩ := hall p hp
      exact absurd hs (hnone m' hm')
  refine ⟨?_, ?_, ?_⟩
  · intro pre m hpre h
    exact absurd (never_true hpre h) (by simp)
  · intro pre m pre' m' d d' hpre hpre' h h'
    have hle : pre ++ [m] <+: ms := hpre.trans ((prefix_append _ _).trans hpre')
    rw [never_true hle h, never_true hpre' h']
  · intro pre m later d hpre hlater h
    obtain rfl := never_true (hpre.trans hlater) h
    have hne : later ≠ [] := by
      rintro rfl
      simp at hpre
    have hc := commit_of_never_all (fun m' hm' => hms m' (hlater.subset hm')) hne
      (fun pre m hp => hyes pre m (hp.trans hlater))
    simp [begin_finalize, hc]

/-- A yes that finds every participant with a vote is answered with commit; so there must be
no other answer to any vote. -/
theorem Sound.one_sided (h : Sound (new txn ps) ms) : OneSided ps ms := by
  by_contra hnot
  simp only [OneSided, not_or, not_forall, not_exists, not_and, not_not] at hnot
  obtain ⟨⟨n, hn, hfalse⟩, pre, m, hpre, hv, hall⟩ := hnot
  have hsaid : (((new txn ps).recorded pre).record_vote m).2 = some true := by
    refine (record_vote_eq_true _ _).mpr ⟨hv, ?_⟩
    rw [← recorded_concat, all_voted_iff fun m' hm' => hms m' (hpre.subset hm')]
    intro p hp
    obtain ⟨m', hm', hs⟩ := hall p hp
    exact ⟨m', hm', hs⟩
  obtain ⟨rest, rfl⟩ := hpre
  rcases mem_append.mp hn with hbefore | hafter
  · exact (h.unanimous pre m (prefix_append _ _) hsaid).2 n hbefore hfalse
  · obtain ⟨r₁, r₂, rfl⟩ := append_of_mem hafter
    have := h.agree pre m (pre ++ [m] ++ r₁) n true false (prefix_append _ _)
      ⟨r₂, by simp⟩ hsaid ((record_vote_eq_false _ _).mpr hfalse)
    simp at this

end

/-- The coordinator's answers and messages are one decision exactly when the votes are
one-sided. -/
theorem decision_sound_iff (txn : TxnId) (ps : List Participant) (ms : List ParticipantMsg)
    (hms : ∀ m ∈ ms, VoteOf txn ps m) : Sound (new txn ps) ms ↔ OneSided ps ms := by
  constructor
  · exact Sound.one_sided hms
  · rintro (hno | hyes)
    · exact Sound.of_unanimous hms hno
    · exact Sound.of_never_all hms hyes

theorem decision_sound_two_shards : (∀ m ∈ [ParticipantMsg.PrepareOk 7 2, .PrepareOk 7 1],
        VoteOf 7 [⟨1, 10⟩, ⟨2, 20⟩] m)
      ∧ Sound (new 7 [⟨1, 10⟩, ⟨2, 20⟩]) [.PrepareOk 7 2, .PrepareOk 7 1] := by
  have hms : ∀ m ∈ [ParticipantMsg.PrepareOk 7 2, .PrepareOk 7 1],
      VoteOf 7 [⟨1, 10⟩, ⟨2, 20⟩] m := by
    simp [VoteOf]
  refine ⟨hms, (decision_sound_iff _ _ _ hms).mpr (.inl ?_)⟩
  simp [ParticipantMsg.vote]

/-- Shard 1 votes no and shard 2 yes: the answers are abort and then commit. -/
theorem no_then_yes_commits :
    ((new 7 [⟨1, 10⟩, ⟨2, 20⟩]).record_vote (.PrepareAbort 7 1)).2 = some false
      ∧ (((new 7 [⟨1, 10⟩, ⟨2, 20⟩]).recorded [.PrepareAbort 7 1]).record_vote
          (.PrepareOk 7 2)).2 = some true
      ∧ ¬ Sound (new 7 [⟨1, 10⟩, ⟨2, 20⟩]) [.PrepareAbort 7 1, .PrepareOk 7 2] := by
  have hyes : (((new 7 [⟨1, 10⟩, ⟨2, 20⟩]).recorded [.PrepareAbort 7 1]).record_vote
      (.PrepareOk 7 2)).2 = some true := by decide
  refine ⟨by decide, hyes, fun h => ?_⟩
  exact (h.unanimous [.PrepareAbort 7 1] (.PrepareOk 7 2) (prefix_refl _) hyes).2
    (.PrepareAbort 7 1) (by simp) rfl

/-! ## Any sequence of calls -/

inductive Call where
  | record_vote (msg : ParticipantMsg)
  | begin_finalize
  | record_ack (msg : ParticipantMsg)
  deriving DecidableEq, Repr

inductive Returned where
  | vote (decision : Option Bool)
  | sent (msgs : List (Participant × CoordinatorMsg))
  | acked
  deriving DecidableEq, Repr

def call : Call → TwoPhaseCoordinator × Returned
  | .record_vote msg => ((self.record_vote msg).1, .vote (self.record_vote msg).2)
  | .begin_finalize => (self.begin_finalize.1, .sent self.begin_finalize.2)
  | .record_ack msg => (self.record_ack msg, .acked)

variable (ks : List Call)

def after : TwoPhaseCoordinator :=
  ks.foldl (fun c k => (c.call k).1) c

/-- What is seen of a sequence of calls: what each returns, and after each the state and
whether the transaction is complete. -/
def results (c : TwoPhaseCoordinator) : List Call → List (Returned × TxnState × Bool)
  | [] => []
  | k :: ks =>
    ((c.call k).2, (c.call k).1.state, (c.call k).1.is_complete) :: (c.call k).1.results ks

def shards : List ShardId := c.participants.map Participant.shard_id

/-- A message of another transaction, or of a shard that is no participant. -/
def Foreign : Prop :=
  m.txn_id ≠ c.txn_id ∨ m.shard_id ∉ c.shards

/-- No foreign message recorded in `ks` has an influence on anything that is seen later. -/
def Isolated : Prop :=
  ∀ pre k m, pre ++ [k] <+: ks → k = .record_vote m ∨ k = .record_ack m → c.Foreign m →
    ∀ later, (c.after (pre ++ [k])).results later = (c.after pre).results later

/-- After a `begin_finalize` of `ks` the state stays as it was set, and another
`begin_finalize` would send the same messages. -/
def Irrevocable : Prop :=
  ∀ pre mid, pre ++ .begin_finalize :: mid <+: ks → (c.after (pre ++ .begin_finalize :: mid)).state
        = (c.after (pre ++ [.begin_finalize])).state
      ∧ (c.after (pre ++ .begin_finalize :: mid)).begin_finalize.2 = (c.after pre).begin_finalize.2

/-- The messages for a participant's shard that a call after `pre` may record. One of another
transaction has to repeat what is on record; a vote after the decision has to leave the
decision as it is. -/
def Harmless (pre : List Call) : Call → Prop
  | .record_vote m => ∀ v, m.vote = some v → m.shard_id ∈ c.shards →
      (m.txn_id ≠ c.txn_id → (c.after pre).prepare_votes m.shard_id = some v)
        ∧ (.begin_finalize ∈ pre →
            ((c.after pre).insert_vote m.shard_id v).commit = (c.after pre).commit)
  | .begin_finalize => True
  | .record_ack m => m.is_ack = true → m.shard_id ∈ c.shards → m.txn_id ≠ c.txn_id →
      ((c.after pre).finalize_acks m.shard_id).isSome = true

@[simp] theorem after_concat (k : Call) : c.after (ks ++ [k]) = ((c.after ks).call k).1 := by
  simp [after]

@[simp] theorem call_keeps (k : Call) : (c.call k).1.participants = c.participants
      ∧ (c.call k).1.txn_id = c.txn_id := by
  cases k with
  | record_vote m => exact record_vote_keeps c m
  | begin_finalize => exact ⟨rfl, rfl⟩
  | record_ack m => simp only [call, record_ack]; split_ifs <;> exact ⟨rfl, rfl⟩

@[simp] theorem after_keeps : (c.after ks).participants = c.participants
      ∧ (c.after ks).txn_id = c.txn_id := by
  induction ks using reverseRecOn with
  | nil => exact ⟨rfl, rfl⟩
  | append_singleton ks k ih => simp [ih]

theorem results_append (ks' : List Call) :
    c.results (ks ++ ks') = c.results ks ++ (c.after ks).results ks' := by
  induction ks generalizing c with
  | nil => rfl
  | cons k ks ih => simp [results, ih, after]

theorem length_results : (c.results ks).length = ks.length := by
  induction ks generalizing c with
  | nil => rfl
  | cons k ks ih => simp [results, ih]

/-! ### What can be seen of a coordinator -/

/-- The coordinators differ at most in the maps' entries for other shards. -/
structure Same (c c' : TwoPhaseCoordinator) : Prop where
  txn_id : c'.txn_id = c.txn_id
  state : c'.state = c.state
  participants : c'.participants = c.participants
  votes : ∀ p ∈ c.participants, c'.prepare_votes p.shard_id = c.prepare_votes p.shard_id
  acks : ∀ p ∈ c.participants,
    (c'.finalize_acks p.shard_id).isSome = (c.finalize_acks p.shard_id).isSome

namespace Same

variable {c c' : TwoPhaseCoordinator} (h : Same c c')

include h

theorem all_eq {f f' : Participant → Bool} (hf : ∀ p ∈ c.participants, f' p = f p) :
    c'.participants.all f' = c.participants.all f := by
  rw [h.participants, Bool.eq_iff_iff, all_eq_true, all_eq_true]
  exact forall₂_congr fun p hp => by rw [hf p hp]

theorem commit : c'.commit = c.commit := h.all_eq fun p hp => by rw [h.votes p hp]

theorem all_voted : c'.all_voted = c.all_voted := h.all_eq fun p hp => by rw [h.votes p hp]

theorem is_complete : c'.is_complete = c.is_complete := h.all_eq h.acks

theorem insert_vote (s : ShardId) (v : Bool) : Same (c.insert_vote s v) (c'.insert_vote s v) := by
  refine ⟨h.txn_id, h.state, h.participants, fun p hp => ?_, h.acks⟩
  simp only [TwoPhaseCoordinator.insert_vote, update_apply]
  rw [h.votes p hp]

theorem record_vote (m : ParticipantMsg) :
    Same (c.record_vote m).1 (c'.record_vote m).1 ∧ (c'.record_vote m).2 = (c.record_vote m).2 := by
  cases hv : m.vote with
  | none =>
    rw [record_vote_of_none c hv, record_vote_of_none c' hv]
    exact ⟨h, rfl⟩
  | some v =>
    rw [record_vote_fst c hv, record_vote_fst c' hv]
    have hsame := h.insert_vote m.shard_id v
    refine ⟨hsame, ?_⟩
    simp only [TwoPhaseCoordinator.record_vote, hv, hsame.all_voted]
    split_ifs <;> rfl

theorem call (k : Call) : Same (c.call k).1 (c'.call k).1 ∧ (c'.call k).2 = (c.call k).2 := by
  cases k with
  | record_vote m =>
    obtain ⟨hsame, hret⟩ := h.record_vote m
    exact ⟨hsame, congrArg Returned.vote hret⟩
  | begin_finalize =>
    refine ⟨⟨h.txn_id, ?_, h.participants, h.votes, h.acks⟩, ?_⟩
    · simp only [TwoPhaseCoordinator.call, begin_finalize, h.commit]
    · simp only [TwoPhaseCoordinator.call, begin_finalize, h.commit, h.participants, h.txn_id]
  | record_ack m =>
    refine ⟨?_, rfl⟩
    simp only [TwoPhaseCoordinator.call, record_ack]
    split_ifs
    · refine ⟨h.txn_id, h.state, h.participants, h.votes, fun p hp => ?_⟩
      simp only [update_apply]
      split_ifs
      · rfl
      · exact h.acks p hp
    · exact h

theorem results (ks : List Call) : c'.results ks = c.results ks := by
  induction ks generalizing c c' with
  | nil => rfl
  | cons k ks ih =>
    obtain ⟨hsame, hret⟩ := h.call k
    simp only [TwoPhaseCoordinator.results, hret, hsame.state, hsame.is_complete, ih hsame]

end Same

/-- Coordinators that cannot be told apart are not told apart after more calls either. -/
theorem results_after {c c' : TwoPhaseCoordinator} (h : ∀ ks, c'.results ks = c.results ks)
    (ks later : List Call) : (c'.after ks).results later = (c.after ks).results later := by
  have := h (ks ++ later)
  rw [results_append, results_append] at this
  exact (append_inj this (by simp [length_results])).2

/-- A yes from every participant except the one of shard `s`. -/
def others_ok (s : ShardId) : List Call :=
  (c.shards.filter (· ≠ s)).map fun q => .record_vote (.PrepareOk c.txn_id q)

/-- An acknowledgement from every participant except the one of shard `s`. -/
def others_ack (s : ShardId) : List Call :=
  (c.shards.filter (· ≠ s)).map fun q => .record_ack (.CommitAck c.txn_id q)

theorem after_oks (t : TxnId) (qs : List ShardId) (q : ShardId) :
    (c.after (qs.map fun q => .record_vote (.PrepareOk t q))).prepare_votes q
      = if q ∈ qs then some true else c.prepare_votes q := by
  induction qs using reverseRecOn with
  | nil => simp [after]
  | append_singleton qs r ih =>
    have hv : ((PrepareOk t r).vote) = some true := rfl
    rw [map_append, map_singleton, after_concat]
    simp only [call, record_vote_fst _ hv, insert_vote, ParticipantMsg.shard_id, update_apply, ih]
    by_cases hr : q = r <;> simp [hr]

theorem after_acks (t : TxnId) (qs : List ShardId) (q : ShardId) :
    (c.after (qs.map fun q => .record_ack (.CommitAck t q))).finalize_acks q
      = if q ∈ qs then some true else c.finalize_acks q := by
  induction qs using reverseRecOn with
  | nil => simp [after]
  | append_singleton qs r ih =>
    rw [map_append, map_singleton, after_concat]
    simp only [call, record_ack, is_ack, if_true, ParticipantMsg.shard_id, update_apply, ih]
    by_cases hr : q = r <;> simp [hr]

/-- With a yes on record for all others, the entry of shard `s` decides. -/
theorem all_of_others {c' : TwoPhaseCoordinator} (hc : c'.participants = c.participants)
    (hs : s ∈ c.shards) {votes : ShardId → Option Bool} {v : Option Bool} (g : Option Bool → Bool)
    (hg : g (some true) = true) (h : ∀ q ∈ c.shards, votes q = if q = s then v else some true) :
    (c'.participants.all fun p => g (votes p.shard_id)) = g v := by
  rw [hc, Bool.eq_iff_iff, all_eq_true]
  constructor
  · intro hall
    obtain ⟨p, hp, rfl⟩ := mem_map.mp hs
    simpa [h _ hs] using hall p hp
  · intro hv p hp
    rw [h _ (mem_map.mpr ⟨p, hp, rfl⟩)]
    split_ifs
    · exact hv
    · exact hg

theorem commit_others_ok (hs : s ∈ c.shards) :
    (c.after (c.others_ok s)).commit = (c.prepare_votes s).getD false := by
  refine c.all_of_others (after_keeps c _).1 hs (·.getD false) rfl fun q hq => ?_
  by_cases hqs : q = s <;> simp [others_ok, after_oks, hq, hqs]

theorem all_voted_others_ok (hs : s ∈ c.shards) {f : ShardId} (hf : f ∉ c.shards) :
    ((c.after (c.others_ok s)).insert_vote f true).all_voted = (c.prepare_votes s).isSome := by
  refine c.all_of_others (after_keeps c _).1 hs (·.isSome) rfl fun q hq => ?_
  simp only [insert_vote, update_of_ne (ne_of_mem_of_not_mem hq hf)]
  by_cases hqs : q = s <;> simp [others_ok, after_oks, hq, hqs]

theorem is_complete_others_ack (hs : s ∈ c.shards) :
    (c.after (c.others_ack s)).is_complete = (c.finalize_acks s).isSome := by
  refine c.all_of_others (after_keeps c _).1 hs (·.isSome) rfl fun q hq => ?_
  by_cases hqs : q = s <;> simp [others_ack, after_acks, hq, hqs]

/-- A vote that cannot be seen afterwards was on record already. -/
theorem vote_of_unseen {c : TwoPhaseCoordinator} {v : Bool} (hs : s ∈ c.shards)
    (h : ∀ ks, (c.insert_vote s v).results ks = c.results ks) : c.prepare_votes s = some v := by
  have hs' : s ∈ (c.insert_vote s v).shards := hs
  have hnew : (c.insert_vote s v).prepare_votes s = some v := by simp [insert_vote]
  -- a yes of some other shard is answered with commit if all participants have a vote
  have hsome : (c.prepare_votes s).isSome = true := by
    obtain ⟨f, hf⟩ := Infinite.exists_notMem_finset c.shards.toFinset
    rw [mem_toFinset] at hf
    have := results_after h (c.others_ok s) [.record_vote (.PrepareOk c.txn_id f)]
    simp only [results, call, cons.injEq, Prod.mk.injEq, Returned.vote.injEq] at this
    have hiff := record_vote_eq_true (c.after (c.others_ok s)) (.PrepareOk c.txn_id f)
    rw [← this.1.1] at hiff
    have hyes : ((PrepareOk c.txn_id f).vote) = some true := rfl
    rw [record_vote_eq_true, record_vote_fst _ hyes, record_vote_fst _ hyes] at hiff
    change _ ∧ ((((c.insert_vote s v).after ((c.insert_vote s v).others_ok s)).insert_vote
      f true).all_voted = true) ↔ _ ∧ (((c.after (c.others_ok s)).insert_vote f true).all_voted
        = true) at hiff
    rw [all_voted_others_ok _ hs' hf, all_voted_others_ok _ hs hf, hnew] at hiff
    exact (hiff.mp ⟨rfl, rfl⟩).2
  -- the state `begin_finalize` sets shows which vote it is
  have hcommit : (c.prepare_votes s).getD false = v := by
    have := results_after h (c.others_ok s) [.begin_finalize]
    simp only [results, call, begin_finalize, cons.injEq, Prod.mk.injEq] at this
    have hstate := this.1.2.1
    change (if ((c.insert_vote s v).after ((c.insert_vote s v).others_ok s)).commit
      then TxnState.Committed else .Aborted) = _ at hstate
    rw [commit_others_ok _ hs', commit_others_ok _ hs, hnew] at hstate
    revert hstate
    cases (c.prepare_votes s).getD false <;> cases v <;> simp
  obtain ⟨b, hb⟩ := Option.isSome_iff_exists.mp hsome
  rw [hb] at hcommit ⊢
  exact congrArg some hcommit

/-- An acknowledgement that cannot be seen afterwards was on record already. -/
theorem ack_of_unseen {c : TwoPhaseCoordinator} {m : ParticipantMsg} (hs : m.shard_id ∈ c.shards)
    (hm : m.is_ack = true) (h : ∀ ks, (c.record_ack m).results ks = c.results ks) :
    (c.finalize_acks m.shard_id).isSome = true := by
  have hrec : c.record_ack m
      = { c with finalize_acks := update c.finalize_acks m.shard_id (some true) } := by
    simp [record_ack, hm]
  have hs' : m.shard_id ∈ (c.record_ack m).shards := by rw [hrec]; exact hs
  have hothers : (c.record_ack m).others_ack m.shard_id = c.others_ack m.shard_id := by
    rw [hrec]
    rfl
  -- recording a vote as an acknowledgement changes nothing
  have := results_after h (c.others_ack m.shard_id) [.record_ack (.PrepareOk c.txn_id 0)]
  simp only [results, call, cons.injEq, Prod.mk.injEq] at this
  have hcomplete := this.1.2.2
  change ((c.record_ack m).after _).is_complete = _ at hcomplete
  rw [← hothers, is_complete_others_ack _ hs', hothers] at hcomplete
  change _ = (c.after (c.others_ack m.shard_id)).is_complete at hcomplete
  rw [is_complete_others_ack _ hs, hrec] at hcomplete
  simpa using hcomplete.symm

/-! ### Which calls are harmless -/

theorem Same.refl : Same c c :=
  ⟨rfl, rfl, rfl, fun _ _ => rfl, fun _ _ => rfl⟩

/-- A vote that is on record, or of another shard. -/
theorem same_insert_vote (s : ShardId) (v : Bool) (h : s ∈ c.shards → c.prepare_votes s = some v) :
    Same c (c.insert_vote s v) := by
  refine ⟨rfl, rfl, rfl, fun p hp => ?_, fun _ _ => rfl⟩
  by_cases hps : p.shard_id = s
  · subst hps
    rw [h (mem_map.mpr ⟨p, hp, rfl⟩)]
    simp [insert_vote]
  · simp [insert_vote, update_of_ne hps]

theorem same_record_ack
    (h : m.is_ack = true → m.shard_id ∈ c.shards → (c.finalize_acks m.shard_id).isSome = true) :
    Same c (c.record_ack m) := by
  by_cases hm : m.is_ack = true
  · simp only [record_ack, hm, if_true]
    refine ⟨rfl, rfl, rfl, fun _ _ => rfl, fun p hp => ?_⟩
    dsimp only
    by_cases hps : p.shard_id = m.shard_id
    · rw [hps, update_self, h hm (hps ▸ mem_map.mpr ⟨p, hp, rfl⟩)]
      rfl
    · rw [update_of_ne hps]
  · simp only [record_ack, hm]
    exact Same.refl c

theorem after_shards : (c.after ks).shards = c.shards := by
  simp [shards]

variable {c}

theorem isolated_of_harmless {ks : List Call}
    (h : ∀ pre k, pre ++ [k] <+: ks → c.Harmless pre k) : c.Isolated ks := by
  intro pre k m hpre hk hforeign later
  rw [after_concat]
  refine Same.results ?_ later
  have hk' := h pre k hpre
  have htxn : m.shard_id ∈ c.shards → m.txn_id ≠ c.txn_id := fun hs =>
    hforeign.resolve_right (not_not_intro hs)
  rcases hk with rfl | rfl
  · cases hv : m.vote with
    | none => simp only [call, record_vote_of_none _ hv]; exact Same.refl _
    | some v =>
      simp only [call, record_vote_fst _ hv]
      refine same_insert_vote _ _ _ fun hs => ?_
      rw [after_shards] at hs
      exact (hk' v hv hs).1 (htxn hs)
  · refine same_record_ack _ m fun hm hs => ?_
    rw [after_shards] at hs
    exact hk' hm hs (htxn hs)

variable {pre : List Call}

/-- A harmless call after the decision leaves the decision as it is. -/
theorem commit_of_harmless {k : Call} (h : c.Harmless pre k)
    (hdone : .begin_finalize ∈ pre) : ((c.after pre).call k).1.commit = (c.after pre).commit := by
  cases k with
  | begin_finalize => rfl
  | record_ack m => simp only [call, record_ack]; split_ifs <;> rfl
  | record_vote m =>
    cases hv : m.vote with
    | none => simp only [call, record_vote_of_none _ hv]
    | some v =>
      simp only [call, record_vote_fst _ hv]
      by_cases hs : m.shard_id ∈ c.shards
      · exact (h v hv hs).2 hdone
      · refine (same_insert_vote _ _ _ fun hs' => ?_).commit
        exact absurd (after_shards c pre ▸ hs') hs

/-- The state that `begin_finalize` sets. -/
def decided : TxnState := if c.commit then .Committed else .Aborted

/-- Harmless calls after a `begin_finalize` keep the decision and the state. -/
theorem decided_of_harmless (mid : List Call)
    (h : ∀ ks k, ks ++ [k] <+: pre ++ .begin_finalize :: mid → c.Harmless ks k) :
    (c.after (pre ++ .begin_finalize :: mid)).commit = (c.after pre).commit
      ∧ (c.after (pre ++ .begin_finalize :: mid)).state = (c.after pre).decided := by
  induction mid using reverseRecOn with
  | nil =>
    rw [after_concat]
    exact ⟨rfl, rfl⟩
  | append_singleton mid k ih =>
    have hsplit : pre ++ Call.begin_finalize :: (mid ++ [k])
        = (pre ++ .begin_finalize :: mid) ++ [k] := by simp
    rw [hsplit] at h ⊢
    obtain ⟨hcommit, hstate⟩ := ih fun ks k' hk => h ks k' (hk.trans (prefix_append _ _))
    have hsame := commit_of_harmless (h _ k (prefix_refl _)) (by simp)
    rw [after_concat]
    refine ⟨hsame.trans hcommit, ?_⟩
    cases k with
    | begin_finalize =>
      change (c.after (pre ++ .begin_finalize :: mid)).decided = _
      rw [decided, hcommit, decided]
    | record_ack m =>
      rw [← hstate]
      simp only [call, record_ack]
      split_ifs <;> rfl
    | record_vote m =>
      rw [← hstate]
      cases hv : m.vote with
      | none => simp only [call, record_vote_of_none _ hv]
      | some v => simp only [call, record_vote_fst _ hv]; rfl

theorem irrevocable_of_harmless {ks : List Call}
    (h : ∀ pre k, pre ++ [k] <+: ks → c.Harmless pre k) : c.Irrevocable ks := by
  intro pre mid hmid
  have hall : ∀ ks' k, ks' ++ [k] <+: pre ++ .begin_finalize :: mid → c.Harmless ks' k :=
    fun ks' k hk => h ks' k (hk.trans hmid)
  obtain ⟨hcommit, hstate⟩ := decided_of_harmless mid hall
  refine ⟨?_, ?_⟩
  · rw [hstate, after_concat]
    rfl
  · simp only [begin_finalize, hcommit, after_keeps]

theorem commit_eq_of_sent {c c' : TwoPhaseCoordinator} (hs : s ∈ c.shards)
    (h : c'.begin_finalize.2 = c.begin_finalize.2) (hps : c'.participants = c.participants)
    (htxn : c'.txn_id = c.txn_id) : c'.commit = c.commit := by
  obtain ⟨p, hp, -⟩ := mem_map.mp hs
  simp only [begin_finalize, hps, htxn, map_inj_left] at h
  have := (Prod.mk.inj (h p hp)).2
  revert this
  cases c'.commit <;> cases c.commit <;> simp

theorem harmless_of_isolated {k : Call} (hiso : c.Isolated (pre ++ [k]))
    (hirr : c.Irrevocable (pre ++ [k])) : c.Harmless pre k := by
  cases k with
  | begin_finalize => trivial
  | record_ack m =>
    intro hm hs htxn
    refine ack_of_unseen (by rwa [after_shards]) hm fun later => ?_
    have := hiso pre _ m (prefix_refl _) (.inr rfl) (.inl htxn) later
    rwa [after_concat] at this
  | record_vote m =>
    intro v hv hs
    have hcall : ((c.after pre).call (.record_vote m)).1 = (c.after pre).insert_vote m.shard_id v :=
      record_vote_fst _ hv
    refine ⟨fun htxn => ?_, fun hdone => ?_⟩
    · refine vote_of_unseen (by rwa [after_shards]) fun later => ?_
      have := hiso pre _ m (prefix_refl _) (.inl rfl) (.inl htxn) later
      rwa [after_concat, hcall] at this
    · -- what is sent now and what would be sent after the vote is what was sent first
      obtain ⟨p₁, p₂, rfl⟩ := append_of_mem hdone
      have hnow := (hirr p₁ p₂ (prefix_append _ _)).2
      have hthen := (hirr p₁ (p₂ ++ [.record_vote m]) (by simp)).2
      rw [← hnow, ← cons_append, ← append_assoc, after_concat, hcall] at hthen
      exact commit_eq_of_sent (by rwa [after_shards]) hthen rfl rfl

/-- Foreign messages are without influence and the decision is final exactly when every call
of the sequence is harmless. -/
theorem irrevocable_isolated_iff (c : TwoPhaseCoordinator) (ks : List Call) :
    c.Isolated ks ∧ c.Irrevocable ks ↔ ∀ pre k, pre ++ [k] <+: ks → c.Harmless pre k := by
  constructor
  · rintro ⟨hiso, hirr⟩ pre k hpre
    refine harmless_of_isolated ?_ ?_
    · exact fun pre' k' m hp => hiso pre' k' m (hp.trans hpre)
    · exact fun pre' mid hp => hirr pre' mid (hp.trans hpre)
  · exact fun h => ⟨isolated_of_harmless h, irrevocable_of_harmless h⟩

/-- A committed transaction is aborted by a late vote of another transaction. -/
theorem foreign_vote_revokes :
    ((new 7 [⟨1, 10⟩]).after [.record_vote (.PrepareOk 7 1), .begin_finalize]).state = .Committed
      ∧ (((new 7 [⟨1, 10⟩]).after [.record_vote (.PrepareOk 7 1), .begin_finalize,
          .record_vote (.PrepareAbort 8 1)]).begin_finalize).2 = [(⟨1, 10⟩, .Abort 7)]
      ∧ ¬ (new 7 [⟨1, 10⟩]).Isolated [.record_vote (.PrepareOk 7 1), .begin_finalize,
          .record_vote (.PrepareAbort 8 1)]
      ∧ ¬ (new 7 [⟨1, 10⟩]).Irrevocable [.record_vote (.PrepareOk 7 1), .begin_finalize,
          .record_vote (.PrepareAbort 8 1)] := by
  refine ⟨by decide, by decide, fun h => ?_, fun h => ?_⟩
  · have := h [.record_vote (.PrepareOk 7 1), .begin_finalize] _ (.PrepareAbort 8 1)
      (prefix_refl _) (.inl rfl) (.inl (by decide)) [.begin_finalize]
    revert this
    decide
  · have := h [.record_vote (.PrepareOk 7 1)] [.record_vote (.PrepareAbort 8 1)]
      (prefix_refl _)
    revert this
    decide

end TwoPhaseCoordinator

end Oigrap.Raft
