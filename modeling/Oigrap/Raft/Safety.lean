/-
State-machine safety.

Committed entries agree in every run that meets three conditions, each of which says that a
message arrives while what it says still holds: votes and acknowledgements reach a candidate
or leader of the term they were given in (`fresh_votes`, `fresh_acks`), and a node that finds
everything a request carries already in its log has no older entries behind it
(`clean_tail`). The last one is needed because a node answers with the length of its log, not
with how much of it the request has confirmed; a leader that counts the answer then takes
entries it never had for replicated (`stale_tail_breaks_agreement`).

The proof is a simulation: every action of the cluster is a few steps of the abstract
protocol (`Sim`), whose invariant says that later leaders have what was committed.
-/
import Oigrap.Raft.LogMatching

namespace Oigrap.Raft

open ReplicatedLog RaftNode Function List LogEntry Step
open Prod (fst)

/-! ## Conditions on a run -/

/-- No acknowledgement of an earlier term reaches a leader. -/
def fresh_acks (c : Cluster) : Action → Bool
  | .deliver k =>
    match c.net[k]? with
    | some (.AppendEntriesReply _ dst resp) =>
      !resp.success || decide ((c.nodes dst).role ≠ .Leader)
        || decide ((c.nodes dst).current_term ≤ resp.term)
    | _ => true
  | _ => true

/-- Everything the request carries is in the log. -/
def has_entries (n : RaftNode) (req : AppendEntriesReq) : Bool :=
  (n.log.get req.prev_log_index).any (fun e => decide (e.term = req.prev_log_term))
    && req.entries.all fun e => (n.log.get e.index).any fun x => decide (x.term = e.term)

/-- A node that has everything a request carries has nothing behind it but entries of the
term of the request. -/
def clean_tail (c : Cluster) : Action → Bool
  | .deliver k =>
    match c.net[k]? with
    | some (.AppendEntries dst req) =>
      decide (req.term < (c.nodes dst).current_term) || !has_entries (c.nodes dst) req
        || decide ((c.nodes dst).log.last_index ≤ req.prev_log_index + req.entries.length)
        || decide ((c.nodes dst).log.last_term = req.term)
    | _ => true
  | _ => true

/-- All messages come from the nodes themselves. -/
def own_messages : Action → Bool
  | .handle_append_entries _ _ => false
  | _ => true

/-- The conditions together. -/
def timely (c : Cluster) (a : Action) : Bool :=
  own_messages a && fresh_votes c a && fresh_acks c a && clean_tail c a

/-! ## Quorums -/

/-- The sets that elect and commit. -/
def Members.quorums (m : Members) : Set (Finset NodeId) :=
  {q | q ⊆ m.ids ∧ ∃ i ∈ m.ids, m.quorum i ≤ q.card}

theorem Members.quorums_inter (m : Members) :
    ∀ a ∈ m.quorums, ∀ b ∈ m.quorums, ∃ v, v ∈ a ∧ v ∈ b := by
  rintro a ⟨ha, i, hi, hqa⟩ b ⟨hb, j, hj, hqb⟩
  exact Members.quorums_meet hi hj ha hb hqa hqb

theorem Members.quorums_nonempty {m : Members} (h : m.ids.Nonempty) : m.quorums.Nonempty := by
  obtain ⟨i, hi⟩ := h
  have hlen := m.length_peers hi
  refine ⟨m.ids, subset_rfl, i, hi, ?_⟩
  unfold Members.quorum
  omega

/-! ## The simulation -/

/-- The steps of the abstract protocol among the members. -/
abbrev Members.Step (m : Members) := ReplicatedLog.Step LogEntry.term m.quorums

abbrev Members.Steps (m : Members) := Relation.ReflTransGen m.Step

/-- What a leader knows of its peers is true in the abstract state. -/
structure LeaderOk (A : State NodeId LogEntry) (n : RaftNode) : Prop where
  pos : 0 < n.current_term
  elected : A.elected n.current_term ≠ none
  next : ∀ p ∈ n.next_index, p.2 ≤ n.log.entries.length
  acked : ∀ p ∈ n.match_index, p.2 = 0 ∨ A.acked p.1 n.current_term (p.2 + 1)

/-- What a message says is true in the abstract state. -/
def MsgOk (m : Members) (c : Cluster) (A : State NodeId LogEntry) : Message → Prop
  | .RequestVote _ req => ∃ l, Traced LogEntry.term A l ∧ (∀ e ∈ l, e.term < req.term)
    ∧ req.last_log_index + 1 = l.length ∧ req.last_log_term = last_term LogEntry.term l
    ∧ ((c.nodes req.candidate_id).role = .Candidate →
      (c.nodes req.candidate_id).current_term = req.term →
      l = (c.nodes req.candidate_id).log.entries)
  | .RequestVoteReply _ _ _ => True
  | .AppendEntries _ req => ∃ l L, Whole l ∧ Carries l req ∧ A.leader req.term = some L
    ∧ l <+: L ∧ req.prev_log_index < l.length
    ∧ Certified LogEntry.term m.quorums A req.term (req.leader_commit + 1)
  | .AppendEntriesReply src _ resp =>
    resp.success = true → A.acked src resp.term (resp.match_index + 1)

/-- The cluster `c`, reached by `tr`, does what the abstract state `A` says. -/
structure Sim (m : Members) (tr : List Cluster) (c : Cluster) (A : State NodeId LogEntry) :
    Prop where
  elections : Elections m tr c
  follows : Follows tr c A
  inv : Inv LogEntry.term m.quorums A
  commit : ∀ i, A.commit i = (c.nodes i).commit_index + 1
  keys : ∀ i, (c.nodes i).match_index.map Prod.fst = m.peers i
  leads : ∀ i, (c.nodes i).role = .Leader → LeaderOk A (c.nodes i)
  /-- who voted for a candidate endorsed its log, unless the election is over -/
  votes : ∀ v a, (c.nodes a).role = .Candidate → Voted tr v (c.nodes a).current_term a →
    A.elected (c.nodes a).current_term = none →
    A.endorsed v (c.nodes a).current_term (c.nodes a).log.entries
  msgs : ∀ msg ∈ c.net, MsgOk m c A msg

variable {tr : List Cluster} {c c' : Cluster} {m : Members} {A A' : State NodeId LogEntry}
  {n : RaftNode} {i : NodeId}

section Frame

variable {msg : Message}

theorem LeaderOk.mono (hx : Extends A A') (h : LeaderOk A n) : LeaderOk A' n := by
  refine ⟨h.pos, ?_, h.next, ?_⟩
  · obtain ⟨l, hl⟩ := Option.ne_none_iff_exists'.mp h.elected
    rw [hx.elected _ _ hl]
    exact nofun
  · intro p hp
    exact (h.acked p hp).imp_right (hx.acked _ _ _)

theorem LeaderOk.congr {n' : RaftNode} (h : LeaderOk A n)
    (hterm : n'.current_term = n.current_term) (hlog : n'.log.entries = n.log.entries)
    (hnext : n'.next_index = n.next_index) (hmatch : n'.match_index = n.match_index) :
    LeaderOk A n' := by
  refine ⟨?_, ?_, ?_, ?_⟩
  · rw [hterm]
    exact h.pos
  · rw [hterm]
    exact h.elected
  · rw [hnext, hlog]
    exact h.next
  · rw [hterm, hmatch]
    exact h.acked

/-- Messages stay true, if a candidate of the same term is still the same candidate. -/
theorem MsgOk.mono (hx : Extends A A') (hcand : ∀ dst req, msg = .RequestVote dst req →
      (c'.nodes req.candidate_id).role = .Candidate →
      (c'.nodes req.candidate_id).current_term = req.term →
      (c.nodes req.candidate_id).role = .Candidate
        ∧ (c.nodes req.candidate_id).current_term = req.term
        ∧ (c'.nodes req.candidate_id).log.entries = (c.nodes req.candidate_id).log.entries)
    (h : MsgOk m c A msg) : MsgOk m c' A' msg := by
  cases msg with
  | RequestVote dst req =>
    obtain ⟨l, hl, hterms, hidx, hlast, hsame⟩ := h
    refine ⟨l, hl.mono hx, hterms, hidx, hlast, fun hrole hterm => ?_⟩
    obtain ⟨hrole, hterm, hlog⟩ := hcand dst req rfl hrole hterm
    rw [hlog]
    exact hsame hrole hterm
  | RequestVoteReply src dst resp => trivial
  | AppendEntries dst req =>
    obtain ⟨l, L, hl, hreq, hL, hp, hlen, hcert⟩ := h
    obtain ⟨L', hL', hp'⟩ := hx.leader _ _ hL
    exact ⟨l, L', hl, hreq, hL', hp.trans hp', hlen, hcert.mono hx le_rfl⟩
  | AppendEntriesReply src dst resp => exact fun hs => hx.acked _ _ _ (h hs)

theorem elected_none_of_extends (hx : Extends A A') {T : Term} (h : A'.elected T = none) :
    A.elected T = none := by
  by_contra hne
  obtain ⟨l, hl⟩ := Option.ne_none_iff_exists'.mp hne
  simp [hx.elected T l hl] at h

theorem MsgOk.backed {dst : NodeId} {req : AppendEntriesReq}
    (h : MsgOk m c A (.AppendEntries dst req)) : Backed A req := by
  obtain ⟨l, L, hl, hreq, hL, hp, -, -⟩ := h
  exact ⟨l, L, hl, hreq, hL, hp⟩

theorem step_advance (h : Sim m (c :: tr) c A) (hle : (c.nodes i).current_term ≤ n.current_term) :
    m.Step A (A.advance i n.current_term) :=
  advance i _ (by rw [h.follows.term]; exact hle)

/-- The node keeps its entries and its vote, and does not become a candidate or a leader. -/
structure Idle (n n' : RaftNode) : Prop where
  entries : n'.log.entries = n.log.entries
  base : n'.log.base_index = n.log.base_index
  moves : (n'.current_term = n.current_term ∧ n'.voted_for = n.voted_for
      ∧ (n'.role = n.role ∨ n'.role = .Follower))
    ∨ (n.current_term < n'.current_term ∧ n'.voted_for = none ∧ n'.role = .Follower)

theorem Idle.refl (n : RaftNode) : Idle n n := ⟨rfl, rfl, .inl ⟨rfl, rfl, .inl rfl⟩⟩

theorem Idle.term_le {n n' : RaftNode} (h : Idle n n') : n.current_term ≤ n'.current_term := by
  rcases h.moves with ⟨heq, -, -⟩ | ⟨hlt, -, -⟩
  · exact heq.ge
  · exact hlt.le

theorem Idle.passive {n n' : RaftNode} (h : Idle n n') : Passive n n' := by
  refine ⟨h.entries, h.base, ?_⟩
  rcases h.moves with ⟨hterm, -, hrole⟩ | ⟨hterm, -, hrole⟩
  · exact .inl ⟨hterm, hrole⟩
  · exact .inr ⟨hterm, by rw [hrole]; exact nofun⟩

variable (h : Sim m (c :: tr) c A) (hE : Elections m (c' :: c :: tr) c')

include h hE

section Moved

variable (hF : Follows (c' :: c :: tr) c' A') (hsteps : m.Steps A A')
  (hc : c'.nodes = update c.nodes i n)
  (hcommit : A'.commit = update A.commit i (n.commit_index + 1))
  (hkeys : n.match_index.map fst = (c.nodes i).match_index.map fst)

include hF hsteps hc hcommit hkeys

/-- The other nodes are as before; what is to be shown is about the node that moved. -/
theorem Sim.put (hleads : n.role = .Leader → LeaderOk A' n)
    (hcand : n.role = .Candidate → (c.nodes i).current_term < n.current_term
      ∨ (n.current_term = (c.nodes i).current_term ∧ (c.nodes i).role = .Candidate
        ∧ n.log.entries = (c.nodes i).log.entries))
    (hown : n.role = .Candidate → (c.nodes i).current_term < n.current_term →
      A'.elected n.current_term = none → A'.endorsed i n.current_term n.log.entries)
    (hvote : ∀ a, a ≠ i → n.voted_for = some a → Voted (c :: tr) i n.current_term a
      ∨ ((c.nodes a).role = .Candidate → (c.nodes a).current_term = n.current_term →
        A'.elected n.current_term = none → A'.endorsed i n.current_term (c.nodes a).log.entries))
    (hmsgs : ∀ msg ∈ c'.net, msg ∈ c.net ∨ MsgOk m c' A' msg) : Sim m (c' :: c :: tr) c' A' := by
  obtain ⟨hinv, hx⟩ := steps_inv m.quorums_inter hsteps h.inv
  have hnode := Cluster.moved_cases hc
  -- what was endorsed before still is
  have hkept : ∀ v a, (c.nodes a).role = .Candidate → Voted (c :: tr) v (c.nodes a).current_term a →
      A'.elected (c.nodes a).current_term = none →
      A'.endorsed v (c.nodes a).current_term (c.nodes a).log.entries := fun v a hrole hold hopen =>
    hx.endorsed _ _ _ (h.votes v a hrole hold (elected_none_of_extends hx hopen))
  refine ⟨hE, hF, hinv, ?_, ?_, ?_, ?_, ?_⟩
  · intro j
    rcases hnode j with ⟨rfl, hn⟩ | ⟨hj, hn⟩ <;> rw [hn, hcommit]
    · exact update_self ..
    · rw [update_of_ne hj, h.commit j]
  · intro j
    rcases hnode j with ⟨rfl, hn⟩ | ⟨-, hn⟩ <;> rw [hn]
    · rw [hkeys, h.keys j]
    · exact h.keys j
  · intro j hrole
    rcases hnode j with ⟨rfl, hn⟩ | ⟨-, hn⟩ <;> rw [hn] at hrole ⊢
    · exact hleads hrole
    · exact (h.leads j hrole).mono hx
  · intro v a hrole hv hopen
    rcases hnode a with ⟨rfl, hn⟩ | ⟨ha, hn⟩ <;> rw [hn] at hrole hv hopen ⊢
    · rcases hcand hrole with hlt | ⟨hterm, hwas, hlog⟩
      · -- nobody can have voted before in the new term
        rcases (voted_step hc).mp hv with ⟨rfl, -, -⟩ | hold
        · exact hown hrole hlt hopen
        · exact absurd (h.elections.stood v _ a hold) (not_le.mpr hlt)
      · rw [hterm] at hv hopen ⊢
        rw [hlog]
        refine hkept v a hwas ?_ hopen
        rcases (voted_step hc).mp hv with ⟨rfl, -, -⟩ | hold
        · refine ⟨c, mem_cons_self, rfl, h.elections.own v ?_⟩
          rw [hwas]
          exact nofun
        · exact hold
    · rcases (voted_step hc).mp hv with ⟨rfl, hterm, hfor⟩ | hold
      · rw [← hterm] at hopen ⊢
        rcases hvote a ha hfor with hold | hnew
        · rw [hterm] at hold hopen ⊢
          exact hkept v a hrole hold hopen
        · exact hnew hrole hterm.symm hopen
      · exact hkept v a hrole hold hopen
  · intro msg hmsg
    rcases hmsgs msg hmsg with hold | hnew
    · refine (h.msgs msg hold).mono hx ?_
      rintro dst req rfl hrole hterm
      rcases hnode req.candidate_id with ⟨ha, hn⟩ | ⟨-, hn⟩ <;> rw [hn] at hrole hterm ⊢
      · rw [ha]
        rcases hcand hrole with hlt | ⟨hsame, hwas, hlog⟩
        · -- a request for the new term was not sent before
          have hle := (h.elections.request dst req hold).2
          rw [ha] at hle
          exact absurd hle (not_le.mpr (hterm ▸ hlt))
        · exact ⟨hwas, hsame.symm.trans hterm, hlog⟩
      · exact ⟨hrole, hterm, rfl⟩
    · exact hnew

/-- A leader that stays the leader of its term and keeps its vote. -/
theorem Sim.leading (hrole : n.role = .Leader) (hterm : n.current_term = (c.nodes i).current_term)
    (hvote : n.voted_for = (c.nodes i).voted_for) (hok : LeaderOk A' n)
    (hmsgs : c'.net ⊆ c.net) : Sim m (c' :: c :: tr) c' A' := by
  have hno : n.role ≠ .Candidate := by simp [hrole]
  refine h.put hE hF hsteps hc hcommit hkeys (fun _ => hok) (fun hr => absurd hr hno)
    (fun hr => absurd hr hno) ?_ fun _ hmsg => .inl (hmsgs hmsg)
  intro a _ ha
  exact .inl ⟨c, mem_cons_self, hterm.symm, hvote ▸ ha⟩

end Moved

/-- A node that takes no part in elections and keeps its commit index. -/
theorem Sim.idle (hc : c'.nodes = update c.nodes i n) (hq : Idle (c.nodes i) n) (hnext : n.NextPos)
    (hcommit : n.commit_index = (c.nodes i).commit_index)
    (hkeys : n.match_index.map fst = (c.nodes i).match_index.map fst)
    (hleads : n.role = .Leader → LeaderOk A n)
    (hmsgs : ∀ msg ∈ c'.net, msg ∈ c.net ∨ ∀ d, MsgOk m d A msg) :
    ∃ A', Sim m (c' :: c :: tr) c' A' := by
  have hstep : m.Step A (A.advance i n.current_term) :=
    step_advance h hq.term_le
  have hF : Follows (c' :: c :: tr) c' (A.advance i n.current_term) := by
    refine h.follows.passive hc hq.passive hnext rfl rfl rfl fun dst req hreq => ?_
    exact (hmsgs _ hreq).imp_right fun hok => (hok c).backed
  have hsame : ∀ a, n.voted_for = some a → n.current_term = (c.nodes i).current_term
      ∧ (c.nodes i).voted_for = some a := by
    intro a ha
    rcases hq.moves with ⟨hterm, hvote, -⟩ | ⟨-, hnone, -⟩
    · exact ⟨hterm, hvote ▸ ha⟩
    · simp [hnone] at ha
  have hcand : n.role = .Candidate → n.current_term = (c.nodes i).current_term
      ∧ (c.nodes i).role = .Candidate := by
    intro hrole
    rcases hq.moves with ⟨hterm, -, hsame | hfollow⟩ | ⟨-, -, hfollow⟩
    · exact ⟨hterm, hsame ▸ hrole⟩
    · simp [hfollow] at hrole
    · simp [hfollow] at hrole
  refine ⟨_, h.put hE hF (.single hstep) hc ?_ hkeys ?_ ?_ ?_ ?_ ?_⟩
  · rw [hcommit, ← h.commit i, update_eq_self]
    rfl
  · intro hrole
    exact (hleads hrole).mono extends_advance
  · intro hrole
    exact .inr ⟨(hcand hrole).1, (hcand hrole).2, hq.entries⟩
  · intro hrole hlt
    exact absurd (hcand hrole).1 hlt.ne'
  · intro a _ ha
    obtain ⟨hterm, hfor⟩ := hsame a ha
    exact .inl ⟨c, mem_cons_self, hterm.symm, hfor⟩
  · intro msg hmsg
    exact (hmsgs msg hmsg).imp_right fun hok =>
      (hok c').mono extends_advance fun _ _ _ hrole hterm => ⟨hrole, hterm, rfl⟩

end Frame

/-! ## Elections -/

section Votes

variable {l : List LogEntry} {T : Term}

theorem Sim.one_leader (h : Elections m tr c) : OneLeader tr := fun _ _ _ hi hj =>
  h.leader_unique hi hj

theorem Sim.traced (h : Sim m tr c A) (i : NodeId) :
    Traced term A (c.nodes i).log.entries := by
  rw [← h.follows.log]
  exact h.inv.traced_log i

theorem Sim.log_terms (h : Sim m tr c A) (i : NodeId) :
    ∀ e ∈ (c.nodes i).log.entries, e.term ≤ (c.nodes i).current_term := by
  rw [← h.follows.log, ← h.follows.term]
  exact h.inv.log_terms i

/-- The node moves to term `T` and endorses `l` there, if the election is not over. -/
theorem Sim.endorse_steps (h : Sim m tr c A) (hle : (c.nodes i).current_term ≤ T)
    (hl : Traced term A l) (hterms : ∀ e ∈ l, e.term < T)
    (hup : UpToDate term l (c.nodes i).log.entries) : ∃ A', m.Steps A A'
      ∧ A'.term = update A.term i T ∧ A'.log = A.log ∧ A'.leader = A.leader
      ∧ A'.commit = A.commit ∧ A'.elected = A.elected
      ∧ (A.elected T = none → A'.endorsed i T l) := by
  have hadvance : m.Step A (A.advance i T) :=
    advance i T (by rw [h.follows.term]; exact hle)
  have hterm : (A.advance i T).term i = T := update_self ..
  by_cases hopen : A.elected T = none
  · refine ⟨(A.advance i T).endorse i l, ?_, rfl, rfl, rfl, rfl, rfl,
      fun _ => .inr ⟨rfl, hterm.symm, rfl⟩⟩
    refine (Relation.ReflTransGen.single hadvance).tail (endorse i l ?_ ?_ ?_ ?_)
    · rwa [hterm]
    · exact hl.mono extends_advance
    · rwa [hterm]
    · show UpToDate term l (A.log i)
      rwa [h.follows.log]
  · exact ⟨A.advance i T, .single hadvance, rfl, rfl, rfl, rfl, rfl, fun h => absurd h hopen⟩

theorem upToDate_refl (l : List LogEntry) : UpToDate term l l := .inr ⟨rfl, le_rfl⟩

/-- A leader that has just been elected knows nothing of its peers. -/
theorem leaderOk_become_leader (hplain : n.log.Plain) (hpos : 0 < n.current_term)
    (hel : A.elected n.current_term ≠ none) : LeaderOk A n.become_leader := by
  refine ⟨hpos, hel, ?_, ?_⟩
  · intro p hp
    obtain ⟨q, -, rfl⟩ := mem_map.mp hp
    exact hplain.last_index.le
  · intro p hp
    obtain ⟨q, -, rfl⟩ := mem_map.mp hp
    exact .inl rfl

theorem keys_become_leader (n : RaftNode) :
    n.become_leader.match_index.map fst = n.match_index.map fst := by
  simp [become_leader, comp_def]

theorem candidate_not_leader (n : RaftNode) : n.candidate.role ≠ .Leader := nofun

variable {req : RequestVoteReq}

theorem upToDate_of_logOk (h : n.log.Plain) (hidx : req.last_log_index + 1 = l.length)
    (hlast : req.last_log_term = last_term term l) (hok : n.LogOk req) :
    UpToDate term l n.log.entries := by
  unfold LogOk at hok
  rw [hlast] at hok
  refine hok.imp_right ?_
  rintro ⟨heq, hle⟩
  refine ⟨heq.symm, ?_⟩
  rw [← hidx, ← h.last_index]
  exact Nat.succ_le_succ hle

variable (h : Sim m (c :: tr) c A) (hE : Elections m (c' :: c :: tr) c')

include h hE

/-- The node wins the election of its term with the endorsements of a quorum. -/
theorem Sim.win (hsteps : m.Steps A A')
    (hfields : A'.term = update A.term i n.current_term ∧ A'.log = A.log
      ∧ A'.leader = A.leader ∧ A'.commit = A.commit ∧ A'.elected = A.elected)
    (hc : c'.nodes = update c.nodes i n.become_leader)
    (hw : Wins (c.nodes i) n.become_leader) (hcommit : n.commit_index = (c.nodes i).commit_index)
    (hkeys : n.match_index = (c.nodes i).match_index) (hself : n.voted_for = some i)
    {q : Finset NodeId} (hq : q ∈ m.quorums) (hall : A.elected n.current_term = none →
      ∀ v ∈ q, A'.endorsed v n.current_term (c.nodes i).log.entries)
    (hmsgs : c'.net ⊆ c.net) : ∃ A'', Sim m (c' :: c :: tr) c' A'' := by
  obtain ⟨hterm, hlog, hleader, hcm, hel⟩ := hfields
  obtain ⟨hpos, hfree⟩ := h.follows.no_leader hc (Sim.one_leader hE) hw
  have hopen : A.elected n.current_term = none := by
    by_contra hne
    obtain ⟨l, hl⟩ := Option.ne_none_iff_exists'.mp hne
    obtain ⟨-, L, hL, -⟩ := h.inv.elections _ l hl
    simp [show A.leader n.current_term = none from hfree] at hL
  have hstep : m.Step A' (A'.elect n.current_term (c.nodes i).log.entries) :=
    elect _ _ q hpos (by rw [hel]; exact hopen) hq (hall hopen)
  have hnext : n.become_leader.NextPos := nextPos_become_leader n
  have hentries : n.become_leader.log.entries = (c.nodes i).log.entries := hw.entries
  have hF : Follows (c' :: c :: tr) c' (A'.elect n.current_term (c.nodes i).log.entries) := by
    refine h.follows.win hc (Sim.one_leader hE) hw hnext hterm hlog ?_
      fun _ _ hreq => .inl (hmsgs hreq)
    rw [hentries, ← hleader]
    rfl
  refine ⟨_, h.put hE hF (hsteps.tail hstep) hc ?_ ?_ ?_ ?_ ?_ ?_ fun _ hmsg => .inl (hmsgs hmsg)⟩
  · show A'.commit = update A.commit i (n.commit_index + 1)
    rw [hcm, hcommit, ← h.commit i, update_eq_self]
  · rw [keys_become_leader, hkeys]
  · intro _
    refine leaderOk_become_leader ?_ hpos ?_
    · exact (h.follows.plain i).congr hw.entries hw.base
    · show update A'.elected n.current_term _ n.current_term ≠ none
      rw [update_self]
      exact nofun
  · intro hno
    cases hno
  · intro hno
    cases hno
  · intro a ha hfor
    exact absurd (Option.some.inj (hself.symm.trans hfor)).symm ha

theorem Sim.start_election (hi : i ∈ m.ids) (hfits : (c.nodes i).TermFits)
    (hc' : c' = c.put i (c.nodes i).start_election.1
      ((c.nodes i).start_election.2.map fun r => .RequestVote r.1 r.2)) :
    ∃ A', Sim m (c' :: c :: tr) c' A' := by
  have hid : (c.nodes i).config.node_id = i := by rw [h.elections.config i hi]
  have hlt : (c.nodes i).current_term < (c.nodes i).candidate.current_term :=
    term_lt_candidate hfits
  have hterms : ∀ e ∈ (c.nodes i).log.entries, e.term < (c.nodes i).candidate.current_term :=
    fun e he => (h.log_terms i e he).trans_lt hlt
  obtain ⟨A', hsteps, hterm, hlog, hleader, hcm, hel, hendorsed⟩ :=
    h.endorse_steps hlt.le (h.traced i) hterms (upToDate_refl _)
  have hself : (c.nodes i).candidate.voted_for = some i := by
    show some (c.nodes i).config.node_id = some i
    rw [hid]
  -- a node that is a quorum by itself leads at once, by its own vote
  rcases start_election_cases (c.nodes i) with ⟨hquorum, heq⟩ | ⟨-, heq⟩
  · have hnodes : c'.nodes = update c.nodes i (c.nodes i).candidate.become_leader := by
      rw [hc', heq]
      rfl
    refine h.win hE hsteps ⟨hterm, hlog, hleader, hcm, hel⟩ hnodes
      ⟨rfl, rfl, rfl, .inr hlt⟩ rfl rfl hself (q := {i}) ⟨?_, i, hi, ?_⟩ ?_ ?_
    · exact Finset.singleton_subset_iff.mpr hi
    · rw [Finset.card_singleton]
      rwa [RaftNode.quorum, candidate, h.elections.config i hi] at hquorum
    · intro hopen v hv
      rw [Finset.mem_singleton.mp hv]
      exact hendorsed hopen
    · intro msg hmsg
      rw [hc', heq] at hmsg
      simpa [Cluster.put] using hmsg
  · have hnodes : c'.nodes = update c.nodes i (c.nodes i).candidate := by
      rw [hc', heq]
      rfl
    have hnet : ∀ msg ∈ c'.net, msg ∈ c.net
        ∨ ∃ peer, msg = .RequestVote peer (c.nodes i).candidate.vote_request := by
      intro msg hmsg
      rw [hc', heq] at hmsg
      refine (mem_append.mp hmsg).imp_right fun hnew => ?_
      obtain ⟨r, hr, rfl⟩ := mem_map.mp hnew
      obtain ⟨peer, -, rfl⟩ := mem_map.mp hr
      exact ⟨peer, rfl⟩
    have hx := (steps_inv m.quorums_inter hsteps h.inv).2
    have hF : Follows (c' :: c :: tr) c' A' := by
      refine h.follows.passive hnodes ⟨rfl, rfl, .inr ⟨hlt, candidate_not_leader _⟩⟩
        (h.follows.next i) hterm hlog
        hleader fun dst req hreq => ?_
      rcases hnet _ hreq with hold | ⟨peer, hnew⟩
      · exact .inl hold
      · cases hnew
    refine ⟨A', h.put hE hF hsteps hnodes ?_ rfl (fun hr => absurd hr (candidate_not_leader _))
      (fun _ => .inl hlt) ?_ ?_ ?_⟩
    · show A'.commit = update A.commit i ((c.nodes i).commit_index + 1)
      rw [hcm, ← h.commit i, update_eq_self]
    · intro _ _ hopen
      exact hendorsed (hel ▸ hopen)
    · intro a ha hfor
      exact absurd (Option.some.inj (hself.symm.trans hfor)).symm ha
    · intro msg hmsg
      refine (hnet msg hmsg).imp_right ?_
      rintro ⟨peer, rfl⟩
      refine ⟨(c.nodes i).log.entries, (h.traced i).mono hx, hterms,
        (h.follows.plain i).last_index, rfl, fun _ _ => ?_⟩
      have hcandidate : (c.nodes i).candidate.vote_request.candidate_id = i := hid
      rw [hcandidate, hnodes, update_self]
      rfl

theorem Sim.grant (hin : Message.RequestVote i req ∈ c.net)
    (hc : c'.nodes = update c.nodes i n)
    (hF : ∀ {A' : State NodeId LogEntry}, A'.term = update A.term i n.current_term →
      A'.log = A.log → A'.leader = A.leader → Follows (c' :: c :: tr) c' A')
    (hok : (c.nodes i).LogOk req) (hterm : n.current_term = req.term)
    (hle : (c.nodes i).current_term ≤ req.term) (hfor : n.voted_for = some req.candidate_id)
    (hlog : n.log = (c.nodes i).log) (hcommit : n.commit_index = (c.nodes i).commit_index)
    (hkeys : n.match_index = (c.nodes i).match_index)
    (hnext : n.next_index = (c.nodes i).next_index)
    (hrole : (n.role = (c.nodes i).role ∧ req.term = (c.nodes i).current_term) ∨ n.role = .Follower)
    (hmsgs : ∀ msg ∈ c'.net, msg ∈ c.net ∨ ∀ d A, MsgOk m d A msg) :
    ∃ A', Sim m (c' :: c :: tr) c' A' := by
  obtain ⟨l, hl, hterms, hidx, hlast, hsame⟩ := h.msgs _ hin
  obtain ⟨A', hsteps, hA₁, hA₂, hA₃, hcm, hel, hendorsed⟩ := h.endorse_steps hle hl hterms
    (upToDate_of_logOk (h.follows.plain i) hidx hlast hok)
  have hx := (steps_inv m.quorums_inter hsteps h.inv).2
  refine ⟨A', h.put hE (hF (by rw [hterm]; exact hA₁) hA₂ hA₃) hsteps hc ?_ (by rw [hkeys]) ?_ ?_
    ?_ ?_ ?_⟩
  · rw [hcm, hcommit, ← h.commit i, update_eq_self]
  · intro hlead
    rcases hrole with ⟨hsame, heq⟩ | hfollow
    · exact ((h.leads i (hsame ▸ hlead)).mono hx).congr (hterm.trans heq) (by rw [hlog]) hnext hkeys
    · simp [hfollow] at hlead
  · intro hcand
    rcases hrole with ⟨hsame, heq⟩ | hfollow
    · exact .inr ⟨hterm.trans heq, hsame ▸ hcand, by rw [hlog]⟩
    · simp [hfollow] at hcand
  · intro hcand hlt
    rcases hrole with ⟨-, heq⟩ | hfollow
    · exact absurd (hterm.trans heq) hlt.ne'
    · simp [hfollow] at hcand
  · intro a _ ha
    obtain rfl : req.candidate_id = a := Option.some.inj (hfor.symm.trans ha)
    right
    intro hcand hat hopen
    rw [hterm] at hat hopen ⊢
    rw [← hsame hcand hat]
    exact hendorsed (hel ▸ hopen)
  · intro msg hmsg
    exact (hmsgs msg hmsg).imp_right fun hok => hok c' A'

theorem Sim.request_vote (hin : Message.RequestVote i req ∈ c.net)
    (hc : c'.nodes = update c.nodes i ((c.nodes i).handle_request_vote req).1)
    (hnet : ∀ msg ∈ c'.net, msg ∈ c.net ∨ ∃ src dst resp, msg = .RequestVoteReply src dst resp) :
    ∃ A', Sim m (c' :: c :: tr) c' A' := by
  have hmsgs : ∀ msg ∈ c'.net, msg ∈ c.net ∨ ∀ d A, MsgOk m d A msg := by
    intro msg hmsg
    refine (hnet msg hmsg).imp_right ?_
    rintro ⟨src, dst, resp, rfl⟩ d A
    trivial
  have hidle {n : RaftNode} (hc : c'.nodes = update c.nodes i n)
      (hq : Idle (c.nodes i) n) (hcommit : n.commit_index = (c.nodes i).commit_index)
      (hkeys : n.match_index = (c.nodes i).match_index)
      (hnext : n.next_index = (c.nodes i).next_index)
      (hlead : n.role = .Leader → n = c.nodes i) : ∃ A', Sim m (c' :: c :: tr) c' A' := by
    refine h.idle hE hc hq (fun p hp => h.follows.next i p (hnext ▸ hp)) hcommit (by rw [hkeys]) ?_
      fun msg hmsg => (hmsgs msg hmsg).imp_right fun hok d => hok d A
    intro hrole
    have heq := hlead hrole
    rw [heq] at hrole ⊢
    exact h.leads i hrole
  have hF {A' : State NodeId LogEntry} (hA₁ : A'.term = update A.term i
      ((c.nodes i).handle_request_vote req).1.current_term) (hA₂ : A'.log = A.log)
      (hA₃ : A'.leader = A.leader) : Follows (c' :: c :: tr) c' A' := by
    have hnext : ((c.nodes i).apply (.handle_request_vote req)).NextPos :=
      nextPos_apply (h.follows.next i)
    refine h.follows.passive hc (passive_handle_request_vote _ req) hnext hA₁ hA₂ hA₃
      fun dst req hreq => ?_
    exact (hmsgs _ hreq).imp_right fun hok => (hok c A).backed
  rcases handle_request_vote_cases (c.nodes i) req with
    ⟨-, heq | ⟨hlt, heq⟩⟩ | ⟨-, hok, ⟨hterm, -, heq⟩ | ⟨hlt, heq⟩⟩
  · rw [heq] at hc
    exact hidle hc (Idle.refl _) rfl rfl rfl fun _ => rfl
  · rw [heq] at hc
    exact hidle hc ⟨rfl, rfl, .inr ⟨hlt, rfl, rfl⟩⟩ rfl rfl rfl nofun
  · rw [heq] at hc hF
    exact h.grant hE hin hc hF hok hterm.symm hterm.ge rfl rfl rfl rfl rfl (.inl ⟨rfl, hterm⟩)
      hmsgs
  · rw [heq] at hc hF
    exact h.grant hE hin hc hF hok rfl hlt.le rfl rfl rfl rfl rfl (.inr rfl) hmsgs

/-- A vote is counted, and may be the decisive one. -/
theorem Sim.vote_response {src : NodeId} {resp : RequestVoteResp}
    (hi : i ∈ m.ids)
    (hc : c'.nodes = update c.nodes i ((c.nodes i).handle_vote_response src resp).1)
    (hnet : c'.net ⊆ c.net) : ∃ A', Sim m (c' :: c :: tr) c' A' := by
  have hmsgs : ∀ msg ∈ c'.net, msg ∈ c.net ∨ ∀ d, MsgOk m d A msg :=
    fun _ hmsg => .inl (hnet hmsg)
  have hleads := h.leads i
  rcases handle_vote_response_cases (c.nodes i) src resp with
    heq | ⟨hlt, heq⟩ | ⟨-, hcand, -, ⟨-, heq⟩ | ⟨-, heq⟩⟩
  · rw [heq] at hc
    exact h.idle hE hc (Idle.refl _) (h.follows.next i) rfl rfl hleads hmsgs
  · rw [heq] at hc
    exact h.idle hE hc ⟨rfl, rfl, .inr ⟨hlt, rfl, rfl⟩⟩ (h.follows.next i) rfl rfl nofun hmsgs
  · rw [heq] at hc
    refine h.idle hE hc ⟨rfl, rfl, .inl ⟨rfl, rfl, .inl rfl⟩⟩ (h.follows.next i) rfl rfl ?_ hmsgs
    intro hrole
    exact absurd hrole (by rw [hcand]; exact nofun)
  · rw [heq] at hc
    have hvoted : (c.nodes i).voted_for = some i :=
      h.elections.own i (by rw [hcand]; exact nofun)
    have hterm : A.term = update A.term i (c.nodes i).current_term := by
      rw [← h.follows.term i, update_eq_self]
    -- the supporters on record are those of the new state
    have hled : Led (c' :: c :: tr) (c.nodes i).current_term i :=
      (led_step hc).mpr (.inl ⟨rfl, rfl, rfl⟩)
    refine h.win (n := { c.nodes i with votes_received := (c.nodes i).votes_received + 1 }) hE .refl
      ⟨hterm, rfl, rfl, rfl, rfl⟩ hc ⟨rfl, rfl, rfl, .inl ⟨rfl, hcand⟩⟩ rfl rfl hvoted
      (q := supporters m (c' :: c :: tr) (c.nodes i).current_term i)
      ⟨fun v hv => (mem_supporters.mp hv).1, i, hi, (hE.led _ i hled).2⟩ ?_ hnet
    intro hopen v hv
    refine h.votes v i hcand ?_ hopen
    rcases (voted_step hc).mp (mem_supporters.mp hv).2 with ⟨rfl, -, -⟩ | hold
    · exact ⟨c, mem_cons_self, rfl, hvoted⟩
    · exact hold

end Votes

variable {A : State NodeId LogEntry}

/-! ## Replication -/

section Replication

variable {req : AppendEntriesReq} {k : LogIndex} {L : List LogEntry}

theorem next_index_for_le (h : ∀ p ∈ n.next_index, p.2 ≤ k) (hk : 1 ≤ k) (peer : NodeId) :
    n.next_index_for peer ≤ k := by
  unfold next_index_for
  cases hfind : n.next_index.find? (fun e => e.1 = peer) with
  | none => exact hk
  | some p => exact h p (mem_of_find?_eq_some hfind)

theorem Sim.certified (h : Sim m tr c A) (i : NodeId) :
    Certified term m.quorums A (c.nodes i).current_term ((c.nodes i).commit_index + 1) := by
  obtain ⟨-, T, k, L, hcommitted, hT, hk, -⟩ := h.inv.commits i
  rw [h.follows.term] at hT
  rw [h.commit] at hk
  exact ⟨T, k, L, hcommitted, hT, hk⟩

/-- A log that has all of `l` has all that a request carrying `l` asks for. -/
theorem has_entries_of_contained {l : List LogEntry} (h : n.log.Plain) (hl : Whole l)
    (hreq : Carries l req) (hlen : req.prev_log_index < l.length) (hp : l <+: n.log.entries) :
    has_entries n req = true := by
  have hget : ∀ (k : ℕ) (e : LogEntry), l[k]? = some e → n.log.get k = some e := by
    intro k e he
    rw [h.get]
    exact prefix_getElem? hp he
  have hat : l[req.prev_log_index]? = some l[req.prev_log_index] := getElem?_eq_getElem hlen
  unfold has_entries
  rw [Bool.and_eq_true, hget _ _ hat, all_eq_true]
  refine ⟨?_, fun e he => ?_⟩
  · rw [Option.any_some, decide_eq_true_eq, hreq.prev, hat]
    rfl
  · rw [hreq.entries] at he
    obtain ⟨k, hk⟩ := mem_iff_getElem?.mp he
    rw [getElem?_drop] at hk
    rw [hl.index _ _ hk, hget _ _ hk, Option.any_some, decide_eq_true_eq]

/-- Under the condition on tails, a node that accepts a request ends with a part of the leader's
log. -/
theorem Sim.accepted_contained (h : Sim m tr c A) {l : List LogEntry} {n' : RaftNode}
    (hl : Whole l) (hreq : Carries l req) (hL : A.leader req.term = some L) (hp : l <+: L)
    (hlen : req.prev_log_index < l.length)
    (htail : has_entries (c.nodes i) req = true → (c.nodes i).log.last_index ≤ req.prev_log_index + req.entries.length ∨ (c.nodes i).log.last_term = req.term)
    (hacc : Accepts (c.nodes i) n' req l) : n'.log.entries <+: L := by
  have hplain := h.follows.plain i
  rcases hacc.2.1 hlen with ⟨heq, hin⟩ | ⟨heq, -⟩
  · rw [heq]
    rcases htail (has_entries_of_contained hplain hl hreq hlen hin) with hshort | hterm
    · -- nothing stands behind the leader's entries
      have hle : (c.nodes i).log.entries.length ≤ l.length := by
        rw [hreq.entries, length_drop] at hshort
        rw [← hplain.last_index]
        lia
      rwa [← hin.eq_of_length_le hle]
    · -- the last entry is of the leader's term
      have hne : (c.nodes i).log.entries ≠ [] :=
        ne_nil_of_length_pos hplain.whole.length_pos
      obtain ⟨L', hL', hp'⟩ := (h.traced i).last hne
      have hterm : last_term term (c.nodes i).log.entries = req.term := hterm
      rw [hterm, hL] at hL'
      cases hL'
      exact hp'
  · rwa [heq]

/-- What the node shares with the leader it keeps. -/
theorem shared_kept (prev : LogIndex) {l l' old : List LogEntry} (hp : l <+: L)
    (hcase : l' = old ∨ (l' = l ∧ ¬ l <+: old) ∨ ∃ x y, old[prev]? = some x ∧ l[prev]? = some y
      ∧ x.term ≠ y.term ∧ l' = old.take prev)
    : ∀ k, old.take k <+: L → old.take k <+: l' := by
  intro k hk
  rcases hcase with rfl | ⟨rfl, hnot⟩ | ⟨x, y, hx, hy, hne, rfl⟩
  · exact take_prefix _ _
  · rcases le_total (old.take k).length l'.length with hle | hle
    · exact prefix_of_prefix_length_le hk hp hle
    · exact absurd ((prefix_of_prefix_length_le hp hk hle).trans ( take_prefix _ _)) hnot
  · rcases lt_or_ge prev k with hlt | hle
    · -- the leader has another entry there
      have hat : (old.take k)[prev]? = some x := by
        rwa [getElem?_take_of_lt hlt]
      have heq := (prefix_getElem? hk hat).symm.trans (prefix_getElem? hp hy)
      rw [Option.some.inj heq] at hne
      exact absurd rfl hne
    · exact take_prefix_take_left hle

/-- The node moves to the term of the request and takes over its new log. -/
theorem Sim.receive_steps (h : Sim m tr c A) (l' : List LogEntry)
    (hterm : (c.nodes i).current_term ≤ req.term) (hL : A.leader req.term = some L)
    (hl : l' <+: L ∨ l' <+: (c.nodes i).log.entries)
    (hshare : ∀ k, (c.nodes i).log.entries.take k <+: L → (c.nodes i).log.entries.take k <+: l') :
    m.Steps A ((A.advance i req.term).receive i l') := by
  have hadvance : m.Step A (A.advance i req.term) :=
    advance i _ (by rw [h.follows.term]; exact hterm)
  have hat : (A.advance i req.term).term i = req.term := update_self ..
  rw [← h.follows.log] at hl hshare
  refine (Relation.ReflTransGen.single hadvance).tail (receive i l' L ?_ hl hshare)
  rwa [hat]

/-- A node that has a part of the leader's log acknowledges it, and may learn that more of it is
committed. -/
theorem ack_steps (m : Members) (A' : State NodeId LogEntry) (i : NodeId) (k lc : LogIndex)
    (hL : A'.leader (A'.term i) = some L) (hp : A'.log i <+: L) (hpos : 0 < (A'.log i).length)
    (hcert : Certified term m.quorums A' (A'.term i) (lc + 1))
    (hold : A'.commit i = k + 1) : ∃ A'', m.Steps A' A''
      ∧ A''.term = A'.term ∧ A''.log = A'.log ∧ A''.leader = A'.leader
      ∧ A''.acked i (A'.term i) (A'.log i).length ∧ A''.commit = update A'.commit i
        ((if lc > k then min lc ((A'.log i).length - 1) else k) + 1) := by
  have hack : m.Step A' (A'.ack i) := ack i L hL hp
  have hacked : (A'.ack i).acked i (A'.term i) (A'.log i).length := .inr ⟨rfl, rfl, le_rfl⟩
  by_cases hlc : lc > k
  · refine ⟨(A'.ack i).settle i (min lc ((A'.log i).length - 1) + 1),
      (Relation.ReflTransGen.single hack).tail (settle i _ L hL hp ?_ ?_), rfl, rfl, rfl,
      hacked, ?_⟩
    · show min lc ((A'.log i).length - 1) + 1 ≤ (A'.log i).length
      lia
    · obtain ⟨T, j, L', hc, hT, hj⟩ := hcert.mono extends_ack le_rfl
      exact ⟨T, j, L', hc, hT, (Nat.succ_le_succ (Nat.min_le_left _ _)).trans hj⟩
    · rw [if_pos hlc]
      rfl
  · refine ⟨A'.ack i, .single hack, rfl, rfl, rfl, hacked, ?_⟩
    rw [if_neg hlc, ← hold, update_eq_self]
    rfl

theorem handle_append_response_cases (n : RaftNode) (src : NodeId) (resp : AppendEntriesResp) :
    n.handle_append_response src resp = n ∨ (n.current_term < resp.term
        ∧ n.handle_append_response src resp = n.step_down resp.term)
      ∨ (resp.term ≤ n.current_term ∧ n.role = .Leader ∧ resp.success = true
        ∧ n.handle_append_response src resp
          = ((n.set_match_index src resp.match_index).set_next_index src
            (resp.match_index + 1)).advance_commit_index)
      ∨ (n.role = .Leader ∧ ∃ k, 1 ≤ k ∧ k ≤ max (n.next_index_for src) 1
        ∧ n.handle_append_response src resp = n.set_next_index src k) := by
  unfold handle_append_response
  split
  case isTrue hgt => exact .inr (.inl ⟨hgt, rfl⟩)
  case isFalse hle =>
    split
    case isTrue => exact .inl rfl
    case isFalse hrole =>
      split
      case isTrue hs => exact .inr (.inr (.inl ⟨not_lt.mp hle, not_not.mp hrole, hs, rfl⟩))
      case isFalse =>
        refine .inr (.inr (.inr ⟨not_not.mp hrole, ?_⟩))
        dsimp only
        split
        case isTrue hlt =>
          exact ⟨_, le_max_right _ 1, max_le_max_right 1 hlt.le, rfl⟩
        case isFalse =>
          exact ⟨_, le_max_right _ 1, max_le_max_right 1 (Nat.sub_le _ 1), rfl⟩

theorem advance_commit_index_cases (n : RaftNode) :
    n.advance_commit_index = n
      ∨ ∃ k, n.commit_index < k ∧ k ≤ n.log.last_index ∧ n.committable k = true
        ∧ n.advance_commit_index
          = { n with commit_index := k, log := n.log.advance_commit k } := by
  unfold advance_commit_index
  dsimp only
  split
  case h_1 k hk =>
    have hmem := mem_of_find?_eq_some hk
    rw [mem_reverse, mem_range'_1] at hmem
    refine .inr ⟨k, ?_, ?_, find?_some hk, rfl⟩ <;> lia
  case h_2 => exact .inl rfl

variable {src : NodeId}

theorem LeaderOk.set_next (h : LeaderOk A n) (hk : k ≤ n.log.entries.length) :
    LeaderOk A (n.set_next_index src k) := by
  refine ⟨h.pos, h.elected, fun p hp => ?_, h.acked⟩
  rcases mem_set_index hp with hold | rfl
  · exact h.next p hold
  · exact hk

theorem LeaderOk.set_match (h : LeaderOk A n) (hk : A.acked src n.current_term (k + 1)) :
    LeaderOk A (n.set_match_index src k) := by
  refine ⟨h.pos, h.elected, h.next, fun p hp => ?_⟩
  rcases mem_set_index hp with hold | rfl
  · exact h.acked p hold
  · exact .inr hk

/-- The peers that have an entry, and the leader itself. -/
def replicas (n : RaftNode) (i : NodeId) (k : LogIndex) : Finset NodeId :=
  insert i ((n.match_index.filter fun e => k ≤ e.2).map Prod.fst).toFinset

theorem replicas_quorum (hi : i ∈ m.ids) (hkeys : n.match_index.map fst = m.peers i)
    (hconfig : n.config = ⟨i, m.peers i⟩) (hk : n.committable k = true) :
    replicas n i k ∈ m.quorums := by
  have hsub : ((n.match_index.filter fun e => k ≤ e.2).map fst).Sublist (m.peers i) := by
    rw [← hkeys]
    exact filter_sublist.map _
  have hpeers : ∀ p ∈ (n.match_index.filter fun e => k ≤ e.2).map fst, p ∈ m.ids ∧ p ≠ i :=
    fun p hp => (m.mem_peers i hi p).mp (hsub.subset hp)
  refine ⟨?_, i, hi, ?_⟩
  · intro v hv
    rcases Finset.mem_insert.mp hv with rfl | hv
    · exact hi
    · exact (hpeers v (mem_toFinset.mp hv)).1
  · have hnot : i ∉ ((n.match_index.filter fun e => k ≤ e.2).map fst).toFinset :=
      fun hin => (hpeers i (mem_toFinset.mp hin)).2 rfl
    rw [replicas, Finset.card_insert_of_notMem hnot,
      toFinset_card_of_nodup (hsub.nodup (m.nodup i hi)), length_map,
      ← countP_eq_length_filter]
    unfold committable at hk
    rw [Bool.and_eq_true, decide_eq_true_eq, decide_eq_true_eq] at hk
    have hq := hk.2
    rw [RaftNode.quorum, hconfig] at hq
    exact hq.trans (Nat.add_comm _ _).le

theorem committable_own (h : n.log.Plain) (hpos : 0 < n.current_term)
    (hk : n.committable k = true) : Own term n.current_term (k + 1) n.log.entries := by
  unfold committable at hk
  rw [Bool.and_eq_true, decide_eq_true_eq, h.get] at hk
  cases he : n.log.entries[k]? with
  | none =>
    rw [he] at hk
    exact absurd hk.1 hpos.ne
  | some e =>
    rw [he] at hk
    exact ⟨k, e, rfl, he, hk.1⟩

/-- A leader commits what a quorum has acknowledged. -/
theorem Sim.commit_steps (h : Sim m tr c A) {n : RaftNode} (hok : LeaderOk A n) (hi : i ∈ m.ids)
    (hrole : (c.nodes i).role = .Leader) (hterm : n.current_term = (c.nodes i).current_term)
    (hlog : n.log = (c.nodes i).log) (hconfig : n.config = (c.nodes i).config)
    (hkeys : n.match_index.map fst = m.peers i) (hpos : 0 < k) (hle : k ≤ n.log.last_index)
    (hk : n.committable k = true) : m.Steps A ((A.ack i).settle i (k + 1)) := by
  have hplain : n.log.Plain := hlog ▸ h.follows.plain i
  have hat : A.term i = n.current_term := (h.follows.term i).trans hterm.symm
  have hlogi : A.log i = n.log.entries := by
    rw [h.follows.log, hlog]
  have hL : A.leader (A.term i) = some (A.log i) := by
    rw [h.follows.term, h.follows.log]
    exact h.follows.leads i hrole
  have hlen : k + 1 ≤ (A.log i).length := by
    rw [hlogi, ← hplain.last_index]
    exact Nat.succ_le_succ hle
  have hack : m.Step A (A.ack i) := ack i _ hL prefix_rfl
  have hquorum : ∀ v ∈ replicas n i k, (A.ack i).acked v (A.term i) (k + 1) := by
    intro v hv
    rcases Finset.mem_insert.mp hv with rfl | hv
    · exact .inr ⟨rfl, rfl, hlen⟩
    · left
      obtain ⟨p, hp, rfl⟩ := mem_map.mp (mem_toFinset.mp hv)
      obtain ⟨hin, hge⟩ := mem_filter.mp hp
      have hge : k ≤ p.2 := of_decide_eq_true hge
      rcases hok.acked p hin with hzero | hacked
      · exact absurd hge (by rw [hzero]; exact not_le.mpr hpos)
      · rw [hat]
        exact h.inv.acked_less _ _ _ _ hacked (Nat.succ_le_succ hge)
  have hown : Own term (A.term i) (k + 1) (A.log i) := by
    rw [hat, hlogi]
    exact committable_own hplain hok.pos hk
  have hconfig' : n.config = ⟨i, m.peers i⟩ := hconfig.trans (h.elections.config i hi)
  have hcert : Certified term m.quorums (A.ack i) (A.term i) (k + 1) :=
    ⟨A.term i, k + 1, A.log i, ⟨hL, hown, _, replicas_quorum hi hkeys hconfig' hk, hquorum⟩,
      le_rfl, le_rfl⟩
  exact (Relation.ReflTransGen.single hack).tail
    (settle i (k + 1) _ hL prefix_rfl hlen hcert)

variable (h : Sim m (c :: tr) c A) (hE : Elections m (c' :: c :: tr) c')

include h hE

theorem Sim.propose {data : List UInt8}
    (hc' : c' = c.put i ((c.nodes i).propose data).1 []) :
    ∃ A', Sim m (c' :: c :: tr) c' A' := by
  have hnet : c'.net ⊆ c.net := by
    intro msg hmsg
    rw [hc'] at hmsg
    simpa [Cluster.put] using hmsg
  by_cases hrole : (c.nodes i).role = .Leader
  · have hc : c'.nodes = update c.nodes i { c.nodes i with
        log := ((c.nodes i).log.append (c.nodes i).current_term data).1 } := by
      rw [hc', RaftNode.propose, if_neg (not_not.mpr hrole)]
      rfl
    have hok := h.leads i hrole
    have hL : A.leader (A.term i) = some (A.log i) := by
      rw [h.follows.term, h.follows.log]
      exact h.follows.leads i hrole
    have hstep : m.Step A (A.extend i (proposal (c.nodes i) data)) := by
      refine extend i _ ?_ hL ?_
      · rw [h.follows.term]
        exact hok.elected
      · rw [h.follows.term]
        rfl
    have hF : Follows (c' :: c :: tr) c' (A.extend i (proposal (c.nodes i) data)) :=
      h.follows.propose hc (Sim.one_leader h.elections) hrole rfl rfl hrole (h.follows.next i)
        ⟨rfl, rfl, rfl⟩ fun _ _ hreq => .inl (hnet hreq)
    refine ⟨_, h.leading hE hF (.single hstep) hc ?_ rfl hrole rfl rfl ?_ hnet⟩
    · show A.commit = update A.commit i ((c.nodes i).commit_index + 1)
      rw [← h.commit i, update_eq_self]
    · have hold := hok.mono (extends_extend (e := proposal (c.nodes i) data) hL)
      refine ⟨hold.pos, hold.elected, fun p hp => (hold.next p hp).trans ?_, hold.acked⟩
      rw [(h.follows.plain i).append_entries, length_append]
      exact Nat.le_add_right _ _
  · have hc : c'.nodes = update c.nodes i (c.nodes i) := by
      rw [hc', RaftNode.propose, if_pos hrole]
      rfl
    exact h.idle hE hc (Idle.refl _) (h.follows.next i) rfl rfl (h.leads i)
      fun _ hmsg => .inl (hnet hmsg)

theorem Sim.heartbeat
    (hc' : c' = c.put i (c.nodes i) ((c.nodes i).heartbeat.map fun r => .AppendEntries r.1 r.2)) :
    ∃ A', Sim m (c' :: c :: tr) c' A' := by
  refine h.idle hE (by rw [hc']; rfl) (Idle.refl _) (h.follows.next i) rfl rfl (h.leads i)
    fun msg hmsg => ?_
  rw [hc'] at hmsg
  refine (mem_append.mp hmsg).imp_right fun hnew d => ?_
  obtain ⟨⟨dst, req⟩, hr, rfl⟩ := mem_map.mp hnew
  have hrole := heartbeat_leader hr
  have hplain := h.follows.plain i
  obtain rfl := eq_append_request hr
  have hnext : (c.nodes i).next_index_for dst ≤ (c.nodes i).log.entries.length :=
    next_index_for_le (h.leads i hrole).next hplain.whole.length_pos dst
  refine ⟨_, _, hplain.whole, carries_append_request hplain (h.follows.next i) dst,
    h.follows.leads i hrole, prefix_rfl, ?_, h.certified i⟩
  exact Nat.sub_lt_of_pos_le Nat.one_pos (next_index_for_pos (h.follows.next i)) |>.trans_le hnext

theorem Sim.follower {A' : State NodeId LogEntry} (hF : Follows (c' :: c :: tr) c' A')
    (hsteps : m.Steps A A') (hc : c'.nodes = update c.nodes i n)
    (hcommit : A'.commit = update A.commit i (n.commit_index + 1))
    (hkeys : n.match_index = (c.nodes i).match_index) (hrole : n.role = .Follower)
    (hq : Quiet (c.nodes i) n) (hmsgs : ∀ msg ∈ c'.net, msg ∈ c.net ∨ MsgOk m c' A' msg) :
    Sim m (c' :: c :: tr) c' A' := by
  have hno : ∀ r, r ≠ .Follower → n.role ≠ r := fun r hr heq => hr (heq.symm.trans hrole)
  refine h.put hE hF hsteps hc hcommit (by rw [hkeys]) (fun hr => absurd hr (hno _ nofun))
    (fun hr => absurd hr (hno _ nofun)) (fun hr => absurd hr (hno _ nofun)) ?_ hmsgs
  intro a _ ha
  rcases hq.moves with ⟨hterm, hvote, -⟩ | ⟨-, hnone, -⟩
  · exact .inl ⟨c, mem_cons_self, hterm.symm, hvote ▸ ha⟩
  · simp [hnone] at ha

theorem Sim.append_entries (dst : NodeId) (hin : Message.AppendEntries i req ∈ c.net)
    (hc : c'.nodes = update c.nodes i ((c.nodes i).handle_append_entries req).1)
    (hnet : ∀ msg ∈ c'.net, msg ∈ c.net
      ∨ msg = .AppendEntriesReply i dst ((c.nodes i).handle_append_entries req).2)
    (htail : (c.nodes i).current_term ≤ req.term → has_entries (c.nodes i) req = true →
      (c.nodes i).log.last_index ≤ req.prev_log_index + req.entries.length
        ∨ (c.nodes i).log.last_term = req.term) :
    ∃ A', Sim m (c' :: c :: tr) c' A' := by
  by_cases hstale : req.term < (c.nodes i).current_term
  · rw [handle_append_entries_stale hstale] at hc
    refine h.idle hE hc (Idle.refl _) (h.follows.next i) rfl rfl (h.leads i) fun msg hmsg => ?_
    refine (hnet msg hmsg).imp_right ?_
    rintro rfl d hsuccess
    rw [handle_append_entries, if_pos hstale] at hsuccess
    cases hsuccess
  · have hterm := not_lt.mp hstale
    obtain ⟨l, L, hl, hreq, hL, hp, hlen, hcert⟩ := h.msgs _ hin
    obtain ⟨hterm', hrole⟩ := handle_append_entries_follower hterm
    obtain ⟨hplain, hcases⟩ := h.follows.append_entries_cases hl hreq hL hp hterm
    obtain ⟨-, hkeys, hresp⟩ := handle_append_entries_fields (c.nodes i) req
    have hq := handle_append_entries_quiet (c.nodes i) req
    have hfollows {A' : State NodeId LogEntry}
        (hA₁ : A'.term = update A.term i ((c.nodes i).handle_append_entries req).1.current_term)
        (hA₂ : A'.log = update A.log i ((c.nodes i).handle_append_entries req).1.log.entries)
        (hA₃ : A'.leader = A.leader) : Follows (c' :: c :: tr) c' A' := by
      refine h.follows.append_entries hin hc hA₁ hA₂ hA₃ fun dst req hreq => ?_
      exact (hnet _ hreq).imp_right nofun
    have hat : l[req.prev_log_index]? = some l[req.prev_log_index] := getElem?_eq_getElem hlen
    have hprefix (hacc : Accepts (c.nodes i) ((c.nodes i).handle_append_entries req).1 req l) :=
      h.accepted_contained hl hreq hL hp hlen (htail hterm) hacc
    generalize ((c.nodes i).handle_append_entries req).1 = n' at *
    generalize ((c.nodes i).handle_append_entries req).2 = resp at *
    have hfollows' : Follows (c' :: c :: tr) c' ((A.advance i req.term).receive i n'.log.entries) :=
      hfollows (by rw [hterm']; rfl) rfl rfl
    -- a refusal keeps the log or cuts it at the conflict; it acknowledges nothing
    rcases hcases with ⟨hno, hcommit, hlog⟩ | ⟨hyes, hmatch, hacc⟩
    · have hsteps := h.receive_steps n'.log.entries hterm hL ?_
        (shared_kept req.prev_log_index hp ?_)
      · refine ⟨_, h.follower hE hfollows' hsteps hc ?_ hkeys hrole hq fun msg hmsg => ?_⟩
        · rw [hcommit, ← h.commit i, update_eq_self]
          rfl
        · refine (hnet msg hmsg).imp_right ?_
          rintro rfl hsuccess
          rw [hno] at hsuccess
          cases hsuccess
      · rcases hlog with heq | ⟨x, -, -, heq⟩
        · exact .inr (by rw [heq])
        · exact .inr (by rw [heq]; exact take_prefix _ _)
      · rcases hlog with heq | ⟨x, hx, hne, heq⟩
        · exact .inl heq
        · refine .inr (.inr ⟨x, _, hx, hat, ?_, heq⟩)
          rwa [hreq.prev, hat] at hne
    · have hin := hprefix hacc
      have hsteps := h.receive_steps n'.log.entries hterm hL (.inl hin)
        (shared_kept req.prev_log_index hp ?_)
      · have hx := (steps_inv m.quorums_inter hsteps h.inv).2
        have hat' : ((A.advance i req.term).receive i n'.log.entries).term i = req.term :=
          update_self ..
        have hlog' : ((A.advance i req.term).receive i n'.log.entries).log i = n'.log.entries :=
          update_self ..
        -- taken over: first the log is received, then it is acknowledged and committed
        obtain ⟨A', hsteps', hA₁, hA₂, hA₃, hacked, hcm⟩ := ack_steps m
          ((A.advance i req.term).receive i n'.log.entries) i (c.nodes i).commit_index
          req.leader_commit (by rw [hat']; exact hL) (by rw [hlog']; exact hin)
          (by rw [hlog']; exact hplain.whole.length_pos)
          (by rw [hat']; exact hcert.mono hx le_rfl) (h.commit i)
        rw [hat', hlog'] at hacked
        rw [hlog', ← hplain.last_index, Nat.add_sub_cancel, ← hacc.1] at hcm
        refine ⟨A', h.follower hE ?_ (hsteps.trans hsteps') hc hcm hkeys hrole hq
          fun msg hmsg => ?_⟩
        · refine hfollows ?_ hA₂ hA₃
          rw [hA₁, hterm']
          rfl
        · refine (hnet msg hmsg).imp_right ?_
          rintro rfl _
          rwa [hresp, hterm', hmatch, hplain.last_index]
      · rcases hacc.2.1 hlen with ⟨heq, -⟩ | hnew
        · exact .inl heq
        · exact .inr (.inl hnew)

/-! ### Acknowledgements -/

theorem Sim.append_response {resp : AppendEntriesResp}
    (hin : Message.AppendEntriesReply src i resp ∈ c.net) (hi : i ∈ m.ids)
    (hc : c'.nodes = update c.nodes i ((c.nodes i).handle_append_response src resp))
    (hnet : c'.net ⊆ c.net)
    (hfresh : resp.success = true → (c.nodes i).role = .Leader → (c.nodes i).current_term ≤ resp.term) :
    ∃ A', Sim m (c' :: c :: tr) c' A' := by
  have hmsgs : ∀ msg ∈ c'.net, msg ∈ c.net ∨ ∀ d, MsgOk m d A msg :=
    fun _ hmsg => .inl (hnet hmsg)
  have hnext : ((c.nodes i).apply (.handle_append_response src resp)).NextPos :=
    nextPos_apply (h.follows.next i)
  change ((c.nodes i).handle_append_response src resp).NextPos at hnext
  have hlen := (h.follows.plain i).whole.length_pos
  rcases handle_append_response_cases (c.nodes i) src resp with
    heq | ⟨hlt, heq⟩ | ⟨hle, hrole, hs, heq⟩ | ⟨hrole, k, -, hk, heq⟩
  · rw [heq] at hc hnext
    exact h.idle hE hc (Idle.refl _) hnext rfl rfl (h.leads i) hmsgs
  · rw [heq] at hc hnext
    exact h.idle hE hc ⟨rfl, rfl, .inr ⟨hlt, rfl, rfl⟩⟩ hnext rfl rfl nofun hmsgs
  · -- the response is of the leader's term, so what it says is about the leader's log
    have hterm : resp.term = (c.nodes i).current_term := le_antisymm hle (hfresh hs hrole)
    have hacked : A.acked src (c.nodes i).current_term (resp.match_index + 1) :=
      hterm ▸ h.msgs _ hin hs
    have hbound : resp.match_index + 1 ≤ (c.nodes i).log.entries.length := by
      obtain ⟨-, L, hL, hle, -⟩ := h.inv.keep _ _ _ hacked
      rw [h.follows.leads i hrole] at hL
      cases hL
      exact hle
    have hok : LeaderOk A (((c.nodes i).set_match_index src resp.match_index).set_next_index src
        (resp.match_index + 1)) := ((h.leads i hrole).set_match hacked).set_next hbound
    have hkeys : (((c.nodes i).set_match_index src resp.match_index).set_next_index src
        (resp.match_index + 1)).match_index.map fst = (c.nodes i).match_index.map fst :=
      keys_set_index _ _ _
    rw [heq] at hc hnext
    rcases advance_commit_index_cases (((c.nodes i).set_match_index src
      resp.match_index).set_next_index src (resp.match_index + 1)) with heq | ⟨k, hlt, hle, hk, heq⟩
    · rw [heq] at hc hnext
      exact h.idle hE hc ⟨rfl, rfl, .inl ⟨rfl, rfl, .inl rfl⟩⟩ hnext rfl hkeys (fun _ => hok)
        hmsgs
    · rw [heq] at hc hnext
      obtain ⟨hents, hbase, -⟩ := RaftLog.advance_commit_fields (c.nodes i).log k
      have hsteps := h.commit_steps hok hi hrole rfl rfl rfl (hkeys.trans (h.keys i))
        (Nat.zero_lt_of_lt hlt) hle hk
      have hx := (steps_inv m.quorums_inter hsteps h.inv).2
      have hterm : ((A.ack i).settle i (k + 1)).term
          = update A.term i (c.nodes i).current_term := by
        rw [← h.follows.term i, update_eq_self]
        rfl
      have hF : Follows (c' :: c :: tr) c' ((A.ack i).settle i (k + 1)) :=
        h.follows.passive hc ⟨hents, hbase, .inl ⟨rfl, .inl rfl⟩⟩ hnext hterm rfl rfl
          fun _ _ hreq => .inl (hnet hreq)
      exact ⟨_, h.leading hE hF hsteps hc rfl hkeys hrole rfl rfl
        ((hok.mono hx).congr rfl hents rfl rfl) hnet⟩
  · rw [heq] at hc hnext
    have hbound : k ≤ (c.nodes i).log.entries.length :=
      hk.trans (max_le (next_index_for_le (h.leads i hrole).next hlen src) hlen)
    exact h.idle hE hc ⟨rfl, rfl, .inl ⟨rfl, rfl, .inl rfl⟩⟩ hnext rfl rfl
      (fun _ => (h.leads i hrole).set_next hbound) hmsgs

end Replication

/-! ## Runs -/

section Runs

theorem sim_init (h : m.ids.Nonempty) : Sim m [Cluster.init m.peers] (Cluster.init m.peers)
    (State.init [RaftLog.sentinel]) := by
  have hzero : ∀ e ∈ [RaftLog.sentinel], term e = 0 := by
    intro e he
    rw [mem_singleton.mp he]
    rfl
  refine ⟨init_elections m, follows_init m.peers,
    Inv.init (Members.quorums_nonempty h) (cons_ne_nil _ _) hzero, fun _ => rfl, fun i => ?_,
    nofun, nofun, nofun⟩
  show ((m.peers i).map fun p => (p, 0)).map fst = m.peers i
  simp [comp_def]

theorem fresh_acks_reply {k : ℕ} {src dst : NodeId} {resp : AppendEntriesResp}
    (hfresh : fresh_acks c (.deliver k))
    (hk : c.net[k]? = some (.AppendEntriesReply src dst resp)) (hs : resp.success = true)
    (hrole : (c.nodes dst).role = .Leader) : (c.nodes dst).current_term ≤ resp.term := by
  simpa [fresh_acks, hk, hs, hrole] using hfresh

theorem clean_tail_request {k : ℕ} {dst : NodeId} {req : AppendEntriesReq}
    (hclean : clean_tail c (.deliver k)) (hk : c.net[k]? = some (.AppendEntries dst req))
    (hterm : (c.nodes dst).current_term ≤ req.term) (hhas : has_entries (c.nodes dst) req = true) :
    (c.nodes dst).log.last_index ≤ req.prev_log_index + req.entries.length
      ∨ (c.nodes dst).log.last_term = req.term := by
  simpa [clean_tail, hk, hhas, not_lt.mpr hterm] using hclean

theorem Sim.deliver (h : Sim m (c :: tr) c A) {k : ℕ} {msg : Message} (hk : c.net[k]? = some msg)
    (hfresh : fresh_acks c (.deliver k)) (hclean : clean_tail c (.deliver k))
    (hc' : Cluster.receive { c with net := c.net.eraseIdx k } msg = c')
    (hE : Elections m (c' :: c :: tr) c') : ∃ A', Sim m (c' :: c :: tr) c' A' := by
  have hin : msg ∈ c.net := mem_of_getElem? hk
  have hdst := (h.elections.parties msg hin).2
  have herase : ∀ x ∈ c.net.eraseIdx k, x ∈ c.net := fun x hx => (eraseIdx_subset hx)
  cases msg with
  | RequestVote dst req =>
    refine h.request_vote hE hin (by rw [← hc']; rfl) (fun msg hmsg => ?_)
    rw [← hc'] at hmsg
    rcases mem_append.mp hmsg with hold | hnew
    · exact .inl (herase _ hold)
    · exact .inr ⟨_, _, _, mem_singleton.mp hnew⟩
  | RequestVoteReply src dst resp =>
    refine h.vote_response hE hdst (by rw [← hc']; rfl) (fun msg hmsg => ?_)
    rw [← hc'] at hmsg
    exact herase _ (by simpa [Cluster.receive, Cluster.put] using hmsg)
  | AppendEntries dst req =>
    refine h.append_entries hE req.leader_id hin (by rw [← hc']; rfl) (fun msg hmsg => ?_)
      (clean_tail_request hclean hk)
    rw [← hc'] at hmsg
    rcases mem_append.mp hmsg with hold | hnew
    · exact .inl (herase _ hold)
    · exact .inr (mem_singleton.mp hnew)
  | AppendEntriesReply src dst resp =>
    refine h.append_response hE hin hdst (by rw [← hc']; rfl) (fun msg hmsg => ?_)
      (fresh_acks_reply hfresh hk)
    rw [← hc'] at hmsg
    exact herase _ (by simpa [Cluster.receive, Cluster.put] using hmsg)

/-- **Every action of a timely run is simulated.** -/
theorem Sim.step (h : Sim m (c :: tr) c A) {a : Action} (hby : a.by m.ids)
    (hok : timely c a) (hstep : c.step a = some c') : ∃ A', Sim m (c' :: c :: tr) c' A' := by
  unfold timely at hok
  rw [Bool.and_eq_true, Bool.and_eq_true, Bool.and_eq_true] at hok
  obtain ⟨⟨⟨hown, hvotes⟩, hacks⟩, hclean⟩ := hok
  have hE := h.elections.step hby hvotes hstep
  cases a with
  | start_election i =>
    exact h.start_election hE (of_decide_eq_true hby) (of_decide_eq_true hvotes)
      (Option.some.inj hstep).symm
  | propose i data => exact h.propose hE (Option.some.inj hstep).symm
  | heartbeat i => exact h.heartbeat hE (Option.some.inj hstep).symm
  | deliver k =>
    obtain ⟨msg, hk, hc'⟩ := Option.map_eq_some_iff.mp hstep
    exact h.deliver hk hacks hclean hc' hE
  | handle_append_entries i req => cases hown

theorem Run.sim (hne : m.ids.Nonempty) (hr : Run m timely tr) :
    ∃ c rest A, tr = c :: rest ∧ Sim m tr c A := by
  induction hr with
  | init => exact ⟨_, _, _, rfl, sim_init hne⟩
  | step a _ hby hok hstep ih =>
    obtain ⟨c, rest, A, heq, h⟩ := ih
    cases heq
    obtain ⟨A', h'⟩ := h.step hby hok hstep
    exact ⟨_, _, A', rfl, h'⟩

/-- **State-machine safety.** In every state of a timely run, two members that have an index
committed hold the same entry there. -/
theorem state_machine_safety (m : Members) (c : Cluster) (rest : List Cluster)
    (hr : Run m timely (c :: rest)) (i j : NodeId) (hi : i ∈ m.ids) (k : LogIndex)
    (hki : k ≤ (c.nodes i).commit_index) (hkj : k ≤ (c.nodes j).commit_index) :
    ∃ e, (c.nodes i).log.get k = some e ∧ (c.nodes j).log.get k = some e := by
  obtain ⟨c, rest, A, heq, h⟩ := hr.sim ⟨i, hi⟩
  cases heq
  have htake := h.inv.agreement m.quorums_inter (k := k + 1) i j
    (by rw [h.commit]; exact Nat.succ_le_succ hki) (by rw [h.commit]; exact Nat.succ_le_succ hkj)
  rw [h.follows.log, h.follows.log] at htake
  have hlen : k < (c.nodes i).log.entries.length := by
    have hcommit := (h.inv.commits i).1
    rw [h.commit, h.follows.log] at hcommit
    exact lt_of_lt_of_le (Nat.lt_succ_of_le hki) hcommit
  have hat := congrArg (fun l : List LogEntry => l[k]?) htake
  simp only [getElem?_take_of_lt (Nat.lt_succ_self k)] at hat
  rw [(h.follows.plain i).get, (h.follows.plain j).get, ← hat]
  exact ⟨_, getElem?_eq_getElem hlen, getElem?_eq_getElem hlen⟩

/-- Node 1 is elected, replicates an entry to node 2 and tells it that it is committed. -/
def commit_run : List Action :=
  [.start_election 1, .deliver 0, .deliver 1, .propose 1 [7], .heartbeat 1, .deliver 1,
    .deliver 2, .heartbeat 1, .deliver 2]

theorem state_machine_safety_trio : ∃ c rest, Run trio timely (c :: rest)
    ∧ (c.nodes 1).commit_index = 1 ∧ (c.nodes 2).commit_index = 1
    ∧ ∃ e, (c.nodes 1).log.get 1 = some e ∧ (c.nodes 2).log.get 1 = some e := by
  obtain ⟨tr, hr, hP⟩ := exists_run trio timely commit_run
    (fun tr => tr.head?.any fun c : Cluster =>
      decide ((c.nodes 1).commit_index = 1 ∧ (c.nodes 2).commit_index = 1)) (by decide +kernel)
  cases tr with
  | nil => cases hP
  | cons c rest =>
    have hP : decide ((c.nodes 1).commit_index = 1 ∧ (c.nodes 2).commit_index = 1) = true := hP
    obtain ⟨h1, h2⟩ := of_decide_eq_true hP
    refine ⟨c, rest, hr, h1, h2, ?_⟩
    exact state_machine_safety trio c rest hr 1 2 (by decide) 1 h1.ge h2.ge

/-- **Two nodes commit different entries.** Node 1, leader of term 1, has an entry nobody else
has. Node 2, leader of term 2, sends an empty request before it has anything to replicate, and
node 1 answers with the length of its log. Node 2 then proposes an entry and counts the answer
for it. Node 1 does not have it, is elected in term 3 and commits its own. All votes and
acknowledgements are fresh. -/
theorem stale_tail_breaks_agreement :
    ∃ tr, Run trio (fun c a => own_messages a && fresh_votes c a && fresh_acks c a) tr
      ∧ ∃ c ∈ tr, 1 ≤ (c.nodes 1).commit_index ∧ 1 ≤ (c.nodes 2).commit_index
        ∧ (c.nodes 1).log.get 1 = some ⟨1, 1, [7]⟩ ∧ (c.nodes 2).log.get 1 = some ⟨2, 1, [8]⟩ := by
  obtain ⟨tr, hr, hP⟩ := exists_run trio
    (fun c a => own_messages a && fresh_votes c a && fresh_acks c a)
    [.start_election 1, .deliver 0, .deliver 1, .propose 1 [7], .start_election 2, .deliver 2,
      .deliver 2, .heartbeat 2, .deliver 2, .propose 2 [8], .deliver 3, .start_election 1,
      .deliver 4, .deliver 4, .propose 1 [9], .heartbeat 1, .deliver 5, .deliver 5, .heartbeat 1,
      .deliver 6, .deliver 6]
    (fun tr => tr.any fun c => decide (1 ≤ (c.nodes 1).commit_index
      ∧ 1 ≤ (c.nodes 2).commit_index ∧ (c.nodes 1).log.get 1 = some ⟨1, 1, [7]⟩
      ∧ (c.nodes 2).log.get 1 = some ⟨2, 1, [8]⟩)) (by decide +kernel)
  obtain ⟨c, hc, hlead⟩ := any_eq_true.mp hP
  exact ⟨tr, hr, c, hc, of_decide_eq_true hlead⟩

/-- **Leader completeness.** In every state of a timely run, a leader whose term is not older
than that of a member holds every entry the member has committed. -/
theorem leader_completeness (m : Members) (c : Cluster) (rest : List Cluster)
    (hr : Run m timely (c :: rest)) (i j : NodeId) (hi : i ∈ m.ids)
    (hj : (c.nodes j).role = .Leader) (hterm : (c.nodes i).current_term ≤ (c.nodes j).current_term)
    (k : LogIndex) (hk : k ≤ (c.nodes i).commit_index) :
    ∃ e, (c.nodes i).log.get k = some e ∧ (c.nodes j).log.get k = some e := by
  obtain ⟨c, rest, A, heq, h⟩ := hr.sim ⟨i, hi⟩
  cases heq
  obtain ⟨hlen, T, n, L, hc, hT, hn, htake⟩ := h.inv.commits i
  rw [h.commit, h.follows.log] at hlen htake
  rw [h.commit] at hn
  rw [h.follows.term] at hT
  -- what was committed in `T` is in the log of every leader from then on
  have hp := h.inv.complete_leader m.quorums_inter hc (hT.trans hterm) (h.follows.leads j hj)
  have hlt := Nat.lt_succ_of_le hk
  rw [(h.follows.plain i).get, (h.follows.plain j).get]
  refine ⟨_, getElem?_eq_getElem (hlt.trans_le hlen), prefix_getElem? hp ?_⟩
  rw [getElem?_take_of_lt (hlt.trans_le hn), ← getElem?_take_of_lt hlt, ← htake,
    getElem?_take_of_lt hlt, getElem?_eq_getElem]

/-- Node 1 leads and has committed an entry, node 2 has learnt of it. -/
theorem leader_completeness_trio : ∃ c rest, Run trio timely (c :: rest)
    ∧ (c.nodes 1).role = .Leader ∧ (c.nodes 2).commit_index = 1
    ∧ ∃ e, (c.nodes 2).log.get 1 = some e ∧ (c.nodes 1).log.get 1 = some e := by
  obtain ⟨tr, hr, hP⟩ := exists_run trio timely commit_run
    (fun tr => tr.head?.any fun c : Cluster => decide ((c.nodes 1).role = .Leader
      ∧ (c.nodes 2).commit_index = 1 ∧ (c.nodes 2).current_term ≤ (c.nodes 1).current_term))
    (by decide +kernel)
  cases tr with
  | nil => cases hP
  | cons c rest =>
    obtain ⟨hrole, hcommit, hterm⟩ := of_decide_eq_true (id hP)
    exact ⟨c, rest, hr, hrole, hcommit,
      leader_completeness trio c rest hr 2 1 (by decide) hrole hterm 1 hcommit.ge⟩

end Runs

end Oigrap.Raft
