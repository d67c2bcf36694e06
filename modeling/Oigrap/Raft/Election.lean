/-
Elections.

Votes are counted with a bare counter, so that the counter being right is a fact about the
messages: between the request for a vote and the moment the vote is counted there is one
message in the network that stands for the vote. `Elections` is the invariant: every vote
a candidate counted was given by another node in the candidate's term, and its message is
gone. A leader then has a quorum of nodes that voted for it in its term, and no node votes
twice in a term.

The counter is wrong when a reply of an earlier candidacy of the same node arrives during
a later one: `handle_vote_response` does not look at the term of a reply that is not newer.
`two_leaders_in_a_term` uses this; `election_safety` excludes it.
-/
import Oigrap.Raft.Cluster

namespace Oigrap.Raft

open RaftNode Function List Message
open Option (some)

/-! ## What happened in a run -/

/-- Node `v` voted for `a` in term `T`. -/
def Voted (tr : List Cluster) (v : NodeId) (T : Term) (a : NodeId) : Prop :=
  ∃ c ∈ tr, (c.nodes v).current_term = T ∧ (c.nodes v).voted_for = some a

/-- Node `a` was the leader of term `T`. -/
def Led (tr : List Cluster) (T : Term) (a : NodeId) : Prop :=
  ∃ c ∈ tr, (c.nodes a).role = .Leader ∧ (c.nodes a).current_term = T

/-- The message stands for the vote of `v` for `a` in term `T`: it asks for the vote, or
grants it. -/
def Message.ballot (v a : NodeId) (T : Term) : Message → Bool
  | .RequestVote dst req => decide (dst = v ∧ req.candidate_id = a ∧ req.term = T)
  | .RequestVoteReply src dst resp =>
    decide (src = v ∧ dst = a ∧ resp.term = T ∧ resp.vote_granted = true)
  | .AppendEntries _ _ => false
  | .AppendEntriesReply _ _ _ => false

/-- How many such messages there are. -/
def ballots (net : List Message) (v a : NodeId) (T : Term) : ℕ := net.countP (Message.ballot v a T)

variable {tr : List Cluster} {c c' : Cluster}

section History

variable {i v a : NodeId} {n : RaftNode} {T : Term}

/-- Something was true of a node at some time: it is now, or it was before. -/
theorem ever_step (P : RaftNode → Prop) (hc : c'.nodes = update c.nodes i n) :
    (∃ d ∈ c' :: c :: tr, P (d.nodes v)) ↔ (v = i ∧ P n) ∨ ∃ d ∈ c :: tr, P (d.nodes v) := by
  constructor
  · rintro ⟨d, hd, hP⟩
    rcases mem_cons.mp hd with rfl | hd
    · rcases Cluster.moved_cases hc v with ⟨hv, hn⟩ | ⟨-, hn⟩ <;> rw [hn] at hP
      · exact .inl ⟨hv, hP⟩
      · exact .inr ⟨c, mem_cons_self, hP⟩
    · exact .inr ⟨d, hd, hP⟩
  · rintro (⟨rfl, hP⟩ | ⟨d, hd, hP⟩)
    · exact ⟨c', mem_cons_self, by rwa [hc, update_self]⟩
    · exact ⟨d, mem_cons_of_mem _ hd, hP⟩

theorem voted_step (hc : c'.nodes = update c.nodes i n) : Voted (c' :: c :: tr) v T a ↔
      (v = i ∧ n.current_term = T ∧ n.voted_for = some a) ∨ Voted (c :: tr) v T a :=
  ever_step (fun n => n.current_term = T ∧ n.voted_for = some a) hc

theorem led_step (hc : c'.nodes = update c.nodes i n) : Led (c' :: c :: tr) T a ↔
      (a = i ∧ n.role = .Leader ∧ n.current_term = T) ∨ Led (c :: tr) T a :=
  ever_step (fun n => n.role = .Leader ∧ n.current_term = T) hc

end History

/-! ## The invariant -/

open Classical in
/-- The members that voted for `a` in term `T`. -/
noncomputable def supporters (m : Members) (tr : List Cluster) (T : Term) (a : NodeId) :
    Finset NodeId := m.ids.filter fun v => Voted tr v T a

open Classical in
/-- Those of the others whose vote is no longer under way. -/
noncomputable def arrived (m : Members) (tr : List Cluster) (net : List Message) (T : Term)
    (a : NodeId) : Finset NodeId :=
  (m.ids.erase a).filter fun v => Voted tr v T a ∧ ballots net v a T = 0

theorem mem_supporters {m : Members} {tr : List Cluster} {T : Term} {a v : NodeId} :
    v ∈ supporters m tr T a ↔ v ∈ m.ids ∧ Voted tr v T a := by
  classical exact Finset.mem_filter

theorem mem_arrived {m : Members} {tr : List Cluster} {net : List Message} {T : Term}
    {a v : NodeId} : v ∈ arrived m tr net T a ↔
      (v ≠ a ∧ v ∈ m.ids) ∧ Voted tr v T a ∧ ballots net v a T = 0 := by
  classical rw [arrived, Finset.mem_filter, Finset.mem_erase]

structure Elections (m : Members) (tr : List Cluster) (c : Cluster) : Prop where
  config : ∀ i ∈ m.ids, (c.nodes i).config = ⟨i, m.peers i⟩
  unique : ∀ v T a b, Voted tr v T a → Voted tr v T b → a = b
  past : ∀ v T a, Voted tr v T a → T ≤ (c.nodes v).current_term
  /-- a vote stays on record as long as the term lasts -/
  now : ∀ v a, Voted tr v (c.nodes v).current_term a → (c.nodes v).voted_for = some a
  stood : ∀ v T a, Voted tr v T a → T ≤ (c.nodes a).current_term
  own : ∀ a, (c.nodes a).role ≠ .Follower → (c.nodes a).voted_for = some a
  parties : ∀ msg ∈ c.net, msg.src ∈ m.ids ∧ msg.dst ∈ m.ids
  request : ∀ v req, .RequestVote v req ∈ c.net →
    v ≠ req.candidate_id ∧ req.term ≤ (c.nodes req.candidate_id).current_term
  reply : ∀ v a resp, .RequestVoteReply v a resp ∈ c.net → resp.vote_granted = true →
    v ≠ a ∧ Voted tr v resp.term a
  once : ∀ v a T, ballots c.net v a T ≤ 1
  votes : ∀ a, (c.nodes a).role = .Candidate →
    (c.nodes a).votes_received ≤ 1 + (arrived m tr c.net (c.nodes a).current_term a).card
  led : ∀ T a, Led tr T a → a ∈ m.ids ∧ m.quorum a ≤ (supporters m tr T a).card
  led_past : ∀ T a, Led tr T a → T ≤ (c.nodes a).current_term
  /-- a leader is not a candidate of the same term again -/
  not_again : ∀ a, (c.nodes a).role = .Candidate → ¬ Led tr (c.nodes a).current_term a

section Steps

variable {m : Members} {i : NodeId} {n : RaftNode}

theorem init_elections (m : Members) :
    Elections m [Cluster.init m.peers] (Cluster.init m.peers) := by
  have hvoted : ∀ v T a, ¬ Voted [Cluster.init m.peers] v T a := by
    rintro v T a ⟨d, hd, -, hvote⟩
    rw [mem_singleton.mp hd] at hvote
    cases hvote
  have hled : ∀ T a, ¬ Led [Cluster.init m.peers] T a := by
    rintro T a ⟨d, hd, hrole, -⟩
    rw [mem_singleton.mp hd] at hrole
    cases hrole
  refine ⟨fun _ _ => rfl, ?_, ?_, ?_, ?_, ?_, ?_, ?_, ?_, fun _ _ _ => Nat.zero_le _, ?_, ?_, ?_, ?_⟩
  · exact fun v T a _ h => absurd h (hvoted v T a)
  · exact fun v T a h => absurd h (hvoted v T a)
  · exact fun v a h => absurd h (hvoted v _ a)
  · exact fun v T a h => absurd h (hvoted v T a)
  · exact fun a h => absurd rfl h
  · exact fun msg h => absurd h not_mem_nil
  · exact fun v req h => absurd h not_mem_nil
  · exact fun v a resp h => absurd h not_mem_nil
  · intro a h
    cases h
  · exact fun T a h => absurd h (hled T a)
  · exact fun T a h => absurd h (hled T a)
  · exact fun a _ h => absurd h (hled _ a)

variable {net msgs net₁ net₂ : List Message}

/-- More votes that are no longer under way, more votes one may have counted. -/
theorem arrived_card_mono {tr' : List Cluster} {net' : List Message} {T : Term} {a : NodeId}
    (hvoted : ∀ v, Voted tr v T a → Voted tr' v T a)
    (hballots : ∀ v, ballots net v a T = 0 → Voted tr v T a → ballots net' v a T = 0) :
    (arrived m tr net T a).card ≤ (arrived m tr' net' T a).card := by
  refine Finset.card_le_card ?_
  intro v hv
  rw [mem_arrived] at hv ⊢
  exact ⟨hv.1, hvoted v hv.2.1, hballots v hv.2.2 hv.2.1⟩

theorem supporters_card_mono {tr' : List Cluster} {T : Term} {a : NodeId}
    (hvoted : ∀ v, Voted tr v T a → Voted tr' v T a) :
    (supporters m tr T a).card ≤ (supporters m tr' T a).card := by
  refine Finset.card_le_card ?_
  intro v hv
  rw [mem_supporters] at hv ⊢
  exact ⟨hv.1, hvoted v hv.2⟩

theorem ballots_append (net net' : List Message) (v a : NodeId) (T : Term) :
    ballots (net ++ net') v a T = ballots net v a T + ballots net' v a T :=
  countP_append

/-- The requests of a candidate: one to each peer. -/
theorem ballots_requests {peers : List NodeId} (hnd : peers.Nodup) (f : NodeId → Message)
    (req : RequestVoteReq) (hf : ∀ p, f p = .RequestVote p req) (v a : NodeId) (T : Term) :
    ballots (peers.map f) v a T ≤ 1
      ∧ (¬ (req.candidate_id = a ∧ req.term = T) → ballots (peers.map f) v a T = 0) := by
  have hcount : ballots (peers.map f) v a T
      = peers.countP (fun p => decide (p = v ∧ req.candidate_id = a ∧ req.term = T)) := by
    rw [ballots, countP_map]
    refine countP_congr ?_
    simp [hf, ballot]
  rw [hcount]
  constructor
  · refine le_trans (countP_mono_left (q := fun p => decide (p = v)) ?_) ?_
    · intro p _ hp
      exact decide_eq_true (of_decide_eq_true hp).1
    · exact nodup_iff_count_le_one.mp hnd v
  · intro hne
    refine countP_eq_zero.mpr ?_
    intro p _ hp
    exact hne (of_decide_eq_true hp).2

theorem mem_of_mem_rest {msg x : Message} (hold : net = net₁ ++ msg :: net₂)
    (hx : x ∈ net₁ ++ net₂) : x ∈ net :=
  hold ▸ ((sublist_cons_self msg net₂).append_left net₁).subset hx

theorem ballots_deliver (net₁ net₂ msgs : List Message) (msg : Message) (v a : NodeId) (T : Term) :
    ballots (net₁ ++ net₂ ++ msgs) v a T + (if msg.ballot v a T then 1 else 0)
      = ballots (net₁ ++ msg :: net₂) v a T + ballots msgs v a T := by
  simp only [ballots, countP_append, countP_cons]
  omega

theorem deliver_net {k : ℕ} {msg : Message} (h : net[k]? = some msg) :
    ∃ net₁ net₂, net = net₁ ++ msg :: net₂ ∧ net.eraseIdx k = net₁ ++ net₂ := by
  obtain ⟨hk, rfl⟩ := List.getElem?_eq_some_iff.mp h
  refine ⟨net.take k, net.drop (k + 1), ?_, eraseIdx_eq_take_drop_succ _ _⟩
  rw [← drop_eq_getElem_cons hk, take_append_drop]

theorem Elections.no_ballots (h : Elections m (c :: tr) c) {v a : NodeId} {T : Term}
    (hT : (c.nodes a).current_term < T) : ballots c.net v a T = 0 := by
  refine countP_eq_zero.mpr ?_
  intro msg hmsg hb
  cases msg with
  | RequestVote dst req =>
    obtain ⟨-, rfl, rfl⟩ := of_decide_eq_true hb
    exact absurd (h.request dst req hmsg).2 (not_le.mpr hT)
  | RequestVoteReply src dst resp =>
    obtain ⟨-, rfl, rfl, hgrant⟩ := of_decide_eq_true hb
    exact absurd (h.stood _ _ _ (h.reply src dst resp hmsg hgrant).2) (not_le.mpr hT)
  | AppendEntries dst req | AppendEntriesReply src dst resp => cases hb

section Moved

variable (h : Elections m (c :: tr) c) (hc : c'.nodes = update c.nodes i n)
  (hconfig : n.config = (c.nodes i).config)
include hc

theorem Voted.kept {v a : NodeId} {T : Term} (hv : Voted (c :: tr) v T a) :
    Voted (c' :: c :: tr) v T a := (voted_step hc).mpr (.inr hv)

include h

section

include hconfig

/-- Node `i` becomes `n`; the other nodes are as before. What is to be shown is about the vote of
`n`, the messages that are new, and the votes `n` has counted. -/
theorem Elections.put (hge : (c.nodes i).current_term ≤ n.current_term)
    (hsame : ∀ a, Voted (c :: tr) i n.current_term a → n.voted_for = some a)
    (hstood : ∀ a, n.voted_for = some a → a ≠ i → n.current_term ≤ (c.nodes a).current_term)
    (hown : n.role ≠ .Follower → n.voted_for = some i)
    (hparties : ∀ msg ∈ c'.net, msg ∈ c.net ∨ (msg.src ∈ m.ids ∧ msg.dst ∈ m.ids))
    (hrequest : ∀ v req, .RequestVote v req ∈ c'.net → .RequestVote v req ∈ c.net
      ∨ (v ≠ i ∧ req.candidate_id = i ∧ req.term = n.current_term))
    (hreply : ∀ v a resp, .RequestVoteReply v a resp ∈ c'.net → resp.vote_granted = true →
      .RequestVoteReply v a resp ∈ c.net ∨ (v ≠ a ∧ Voted (c' :: c :: tr) v resp.term a))
    (honce : ∀ v a T, ballots c'.net v a T ≤ 1)
    (hfew : ∀ v a T, a ≠ i → ballots c'.net v a T ≤ ballots c.net v a T)
    (hvotes : n.role = .Candidate →
      n.votes_received ≤ 1 + (arrived m (c' :: c :: tr) c'.net n.current_term i).card)
    (hled : n.role = .Leader → Led (c :: tr) n.current_term i
      ∨ (i ∈ m.ids ∧ m.quorum i ≤ (supporters m (c' :: c :: tr) n.current_term i).card))
    (hagain : n.role = .Candidate → ¬ Led (c :: tr) n.current_term i) :
    Elections m (c' :: c :: tr) c' := by
  have hnode := Cluster.moved_cases hc
  have hself : c'.nodes i = n := by rw [hc, update_self]
  have hmono : ∀ v, (c.nodes v).current_term ≤ (c'.nodes v).current_term := by
    intro v
    rcases hnode v with ⟨rfl, hn⟩ | ⟨-, hn⟩ <;> rw [hn]
    exact hge
  have hsupport : ∀ T a, Led (c :: tr) T a →
      a ∈ m.ids ∧ m.quorum a ≤ (supporters m (c' :: c :: tr) T a).card := by
    intro T a ha
    obtain ⟨h1, h2⟩ := h.led T a ha
    exact ⟨h1, h2.trans (supporters_card_mono fun _ => .kept hc)⟩
  -- new are the vote and the role of `i`: `voted_step` and `led_step` split them off
  refine ⟨?_, ?_, ?_, ?_, ?_, ?_, ?_, ?_, ?_, honce, ?_, ?_, ?_, ?_⟩
  · intro j hj
    rcases hnode j with ⟨rfl, hn⟩ | ⟨-, hn⟩ <;> rw [hn]
    · rw [hconfig, h.config j hj]
    · exact h.config j hj
  · intro v T a b ha hb
    rw [voted_step hc] at ha hb
    rcases ha with ⟨rfl, rfl, ha⟩ | ha <;> rcases hb with ⟨hv, hT, hb⟩ | hb
    · exact some.inj (ha.symm.trans hb)
    · exact some.inj (ha.symm.trans (hsame b hb))
    · subst hv hT
      exact some.inj ((hsame a ha).symm.trans hb)
    · exact h.unique v T a b ha hb
  · intro v T a ha
    rcases (voted_step hc).mp ha with ⟨rfl, rfl, -⟩ | ha
    · rw [hself]
    · exact (h.past v T a ha).trans (hmono v)
  · intro v a ha
    rcases hnode v with ⟨rfl, hn⟩ | ⟨hv, hn⟩ <;> rw [hn] at ha ⊢
    · rcases (voted_step hc).mp ha with ⟨-, -, ha⟩ | ha
      · exact ha
      · exact hsame a ha
    · exact h.now v a (((voted_step hc).mp ha).resolve_left fun hnew => hv hnew.1)
  · intro v T a ha
    rw [voted_step hc] at ha
    rcases ha with ⟨rfl, rfl, ha⟩ | ha
    · rcases hnode a with ⟨-, hn⟩ | ⟨hv, hn⟩ <;> rw [hn]
      exact hstood a ha hv
    · exact (h.stood v T a ha).trans (hmono a)
  · intro a ha
    rcases hnode a with ⟨rfl, hn⟩ | ⟨-, hn⟩ <;> rw [hn] at ha ⊢
    · exact hown ha
    · exact h.own a ha
  · intro msg hmsg
    exact (hparties msg hmsg).elim (h.parties msg) id
  · intro v req hin
    rcases hrequest v req hin with hold | ⟨hv, hcand, hterm⟩
    · exact ⟨(h.request v req hold).1, (h.request v req hold).2.trans (hmono _)⟩
    · rw [hcand, hself]
      exact ⟨hv, hterm.le⟩
  · intro v a resp hin hgrant
    rcases hreply v a resp hin hgrant with hold | hnew
    · exact ⟨(h.reply v a resp hold hgrant).1, .kept hc (h.reply v a resp hold hgrant).2⟩
    · exact hnew
  · intro a ha
    rcases hnode a with ⟨rfl, hn⟩ | ⟨hv, hn⟩ <;> rw [hn] at ha ⊢
    · exact hvotes ha
    · refine (h.votes a ha).trans (Nat.add_le_add_left (arrived_card_mono (fun _ => .kept hc) ?_) 1)
      intro v hzero _
      exact Nat.le_zero.mp (hzero ▸ hfew v a _ hv)
  · intro T a ha
    rcases (led_step hc).mp ha with ⟨rfl, hrole, rfl⟩ | ha
    · exact (hled hrole).elim (hsupport _ a) id
    · exact hsupport T a ha
  · intro T a ha
    rcases (led_step hc).mp ha with ⟨rfl, -, rfl⟩ | ha
    · rw [hself]
    · exact (h.led_past T a ha).trans (hmono a)
  · intro a ha hl
    rcases hnode a with ⟨rfl, hn⟩ | ⟨hv, hn⟩ <;> rw [hn] at ha hl
    · rcases (led_step hc).mp hl with ⟨-, hrole, -⟩ | hl
      · exact absurd (ha.symm.trans hrole) (by decide)
      · exact hagain ha hl
    · exact h.not_again a ha (((led_step hc).mp hl).resolve_left fun hnew => hv hnew.1)

/-- A candidacy begins. -/
theorem Elections.stand (hi : i ∈ m.ids) (hnet : c'.net = c.net ++ msgs)
    (hterm : n.current_term = (c.nodes i).current_term + 1) (hvote : n.voted_for = some i)
    (hvotes : n.votes_received = 1) (hleader : n.role = .Leader → m.quorum i ≤ 1)
    {req : RequestVoteReq} (hcand : req.candidate_id = i) (hreq : req.term = n.current_term)
    {dsts : List NodeId} (hdsts : dsts.Sublist (m.peers i))
    (hmsgs : msgs = dsts.map fun p => .RequestVote p req) : Elections m (c' :: c :: tr) c' := by
  have hlt : (c.nodes i).current_term < n.current_term := by
    rw [hterm]
    exact Nat.lt_succ_self _
  have hnd : dsts.Nodup := (m.nodup i hi).sublist hdsts
  have hpeer : ∀ p ∈ dsts, p ∈ m.ids ∧ p ≠ i := fun p hp => (m.mem_peers i hi p).mp (hdsts.subset hp)
  have hnew : ∀ msg ∈ c'.net, msg ∈ c.net ∨ ∃ p ∈ dsts, .RequestVote p req = msg := by
    intro msg hmsg
    rw [hnet, hmsgs] at hmsg
    exact (mem_append.mp hmsg).imp_right mem_map.mp
  have hballots : ∀ v a T, ballots c'.net v a T ≤ 1
      ∧ (a ≠ i → ballots c'.net v a T ≤ ballots c.net v a T) := by
    intro v a T
    obtain ⟨h1, h2⟩ := ballots_requests hnd _ req (fun _ => rfl) v a T
    rw [hnet, hmsgs, ballots_append]
    by_cases hown : a = i ∧ T = n.current_term
    · obtain ⟨rfl, rfl⟩ := hown
      rw [h.no_ballots hlt, Nat.zero_add]
      exact ⟨h1, fun hne => absurd rfl hne⟩
    · rw [h2 (fun heq => hown ⟨heq.1.symm.trans hcand, heq.2.symm.trans hreq⟩), Nat.add_zero]
      exact ⟨h.once v a T, fun _ => le_rfl⟩
  refine h.put hc hconfig hlt.le ?_ ?_ (fun _ => hvote) ?_ ?_ ?_ (fun v a T => (hballots v a T).1)
    (fun v a T => (hballots v a T).2) ?_ ?_ ?_
  · exact fun a ha => absurd (h.past _ _ _ ha) (not_le.mpr hlt)
  · exact fun a ha hne => absurd (some.inj (hvote.symm.trans ha)).symm hne
  · intro msg hmsg
    refine (hnew msg hmsg).imp_right ?_
    rintro ⟨p, hp, rfl⟩
    exact ⟨by rw [src, hcand]; exact hi, (hpeer p hp).1⟩
  · intro v r hin
    refine (hnew _ hin).imp_right ?_
    rintro ⟨p, hp, heq⟩
    cases heq
    exact ⟨(hpeer v hp).2, hcand, hreq⟩
  · intro v a resp hin _
    refine (hnew _ hin).imp_right ?_
    rintro ⟨p, -, heq⟩
    cases heq
  · intro _
    rw [hvotes]
    exact Nat.le_add_right _ _
  · intro hrole
    refine .inr ⟨hi, (hleader hrole).trans (Finset.card_pos.mpr ⟨i, ?_⟩)⟩
    exact mem_supporters.mpr ⟨hi, (voted_step hc).mpr (.inl ⟨rfl, rfl, hvote⟩)⟩
  · exact fun _ hl => absurd (h.led_past _ _ hl) (not_le.mpr hlt)

/-- A vote is granted: the reply takes the place of the request. -/
theorem Elections.grant {req : RequestVoteReq}
    (hold : c.net = net₁ ++ .RequestVote i req :: net₂)
    (hnet : c'.net = net₁ ++ net₂ ++ [.RequestVoteReply i req.candidate_id ⟨req.term, true⟩])
    (hterm : n.current_term = req.term) (hvote : n.voted_for = some req.candidate_id)
    (hcase : (req.term = (c.nodes i).current_term ∧ n.role = (c.nodes i).role
      ∧ ((c.nodes i).voted_for = none ∨ (c.nodes i).voted_for = some req.candidate_id))
      ∨ ((c.nodes i).current_term < req.term ∧ n.role = .Follower)) :
    Elections m (c' :: c :: tr) c' := by
  have hin : .RequestVote i req ∈ c.net := by
    rw [hold]
    exact mem_append_right _ mem_cons_self
  obtain ⟨hne, hstood⟩ := h.request i req hin
  -- a leader or candidate has voted for itself, and not for the one that asks
  have hfollows : n.role = .Follower := by
    rcases hcase with ⟨-, hrole, hfree⟩ | ⟨-, hrole⟩
    · by_contra hactive
      rw [hrole] at hactive
      have hown := h.own i hactive
      rw [hown] at hfree
      rcases hfree with hfree | hfree
      · cases hfree
      · exact hne (some.inj hfree)
    · exact hrole
  have hballots : ∀ v a T, ballots c'.net v a T = ballots c.net v a T := by
    intro v a T
    have hd := ballots_deliver net₁ net₂ [.RequestVoteReply i req.candidate_id ⟨req.term, true⟩]
      (.RequestVote i req) v a T
    have hsingle : ballots [.RequestVoteReply i req.candidate_id ⟨req.term, true⟩] v a T
        = if (Message.RequestVote i req).ballot v a T then 1 else 0 := by
      simp [ballots, countP_singleton, ballot]
    rw [← hnet, ← hold, hsingle] at hd
    exact Nat.add_right_cancel hd
  have hnew : ∀ msg ∈ c'.net,
      msg ∈ c.net ∨ msg = .RequestVoteReply i req.candidate_id ⟨req.term, true⟩ := by
    intro msg hmsg
    rw [hnet] at hmsg
    exact (mem_append.mp hmsg).imp (mem_of_mem_rest hold) mem_singleton.mp
  refine h.put hc hconfig ?_ ?_ ?_ (fun ha => absurd hfollows ha) ?_ ?_ ?_
    (fun v a T => (hballots v a T).le.trans (h.once v a T)) (fun v a T _ => (hballots v a T).le)
    (by simp [hfollows]) (by simp [hfollows]) (by simp [hfollows])
  · rw [hterm]
    rcases hcase with ⟨heq, -⟩ | ⟨hlt, -⟩
    · exact heq.ge
    · exact hlt.le
  · -- an earlier vote in this term went to the same candidate
    intro a ha
    rw [hterm] at ha
    rcases hcase with ⟨heq, -, hfree⟩ | ⟨hlt, -⟩
    · rw [heq] at ha
      rw [h.now i a ha] at hfree
      rcases hfree with hfree | hfree
      · cases hfree
      · exact hvote.trans hfree.symm
    · exact absurd (h.past _ _ _ ha) (not_le.mpr hlt)
  · intro a ha _
    rwa [hterm, ← some.inj (hvote.symm.trans ha)]
  · intro msg hmsg
    refine (hnew msg hmsg).imp_right ?_
    rintro rfl
    exact ⟨(h.parties _ hin).2, (h.parties _ hin).1⟩
  · intro v r hmsg
    refine (hnew _ hmsg).imp_right fun heq => ?_
    cases heq
  · intro v a resp hmsg _
    refine (hnew _ hmsg).imp_right fun heq => ?_
    cases heq
    exact ⟨hne, (voted_step hc).mpr (.inl ⟨rfl, hterm, hvote⟩)⟩

/-- A vote is counted, and with it the candidate may win. -/
theorem Elections.count {src : NodeId} {resp : RequestVoteResp}
    (hold : c.net = net₁ ++ .RequestVoteReply src i resp :: net₂) (hnet : c'.net = net₁ ++ net₂ ++ [])
    (hgrant : resp.vote_granted = true) (hcand : (c.nodes i).role = .Candidate)
    (hresp : resp.term = (c.nodes i).current_term)
    (hterm : n.current_term = (c.nodes i).current_term)
    (hvote : n.voted_for = (c.nodes i).voted_for)
    (hvotes : n.votes_received = (c.nodes i).votes_received + 1)
    (hrole : n.role = .Candidate ∨ (n.role = .Leader ∧ m.quorum i ≤ n.votes_received)) :
    Elections m (c' :: c :: tr) c' := by
  have hin : .RequestVoteReply src i resp ∈ c.net := by
    rw [hold]
    exact mem_append_right _ mem_cons_self
  obtain ⟨hsrc, hdst⟩ := h.parties _ hin
  obtain ⟨hne, hbacked⟩ := h.reply src i resp hin hgrant
  have hself : (c.nodes i).voted_for = some i := h.own i (by rw [hcand]; decide)
  have hballots : ∀ v a T, ballots c'.net v a T ≤ ballots c.net v a T := by
    intro v a T
    have hd := ballots_deliver net₁ net₂ [] (.RequestVoteReply src i resp) v a T
    rw [← hnet, ← hold] at hd
    simp only [ballots, countP_nil] at hd ⊢
    omega
  -- the vote that arrived was under way, and now it is not
  have hbefore : ballots c.net src i resp.term ≠ 0 := by
    intro hzero
    have := countP_eq_zero.mp hzero _ hin
    simp [ballot, hgrant] at this
  have hafter : ballots c'.net src i resp.term = 0 := by
    have hd := ballots_deliver net₁ net₂ [] (.RequestVoteReply src i resp) src i resp.term
    have hb : (Message.RequestVoteReply src i resp).ballot src i resp.term = true := by
      simp [ballot, hgrant]
    rw [← hnet, ← hold, if_pos hb] at hd
    have hone := h.once src i resp.term
    simp only [ballots, countP_nil] at hd hone ⊢
    omega
  have hmore : (arrived m (c :: tr) c.net resp.term i).card + 1
      ≤ (arrived m (c' :: c :: tr) c'.net resp.term i).card := by
    have hnot : src ∉ arrived m (c :: tr) c.net resp.term i :=
      fun hmem => hbefore (mem_arrived.mp hmem).2.2
    rw [← Finset.card_insert_of_notMem hnot]
    refine Finset.card_le_card ?_
    intro v hv
    rcases Finset.mem_insert.mp hv with rfl | hv
    · exact mem_arrived.mpr ⟨⟨hne, hsrc⟩, .kept hc hbacked, hafter⟩
    · obtain ⟨h1, h2, h3⟩ := mem_arrived.mp hv
      exact mem_arrived.mpr ⟨h1, .kept hc h2, Nat.le_zero.mp (h3 ▸ hballots v i _)⟩
  have hcount : n.votes_received
      ≤ 1 + (arrived m (c' :: c :: tr) c'.net n.current_term i).card := by
    rw [hvotes, hterm, ← hresp]
    exact (Nat.succ_le_succ (hresp ▸ h.votes i hcand)).trans (Nat.add_le_add_left hmore 1)
  have hsub : ∀ msg ∈ c'.net, msg ∈ c.net := by
    intro msg hmsg
    rw [hnet, append_nil] at hmsg
    exact mem_of_mem_rest hold hmsg
  refine h.put hc hconfig hterm.ge ?_ ?_ (fun _ => hvote.trans hself)
    (fun msg hmsg => .inl (hsub msg hmsg)) (fun v r hmsg => .inl (hsub _ hmsg))
    (fun v a r hmsg _ => .inl (hsub _ hmsg)) (fun v a T => (hballots v a T).trans (h.once v a T))
    (fun v a T _ => hballots v a T) (fun _ => hcount) ?_ ?_
  · intro a ha
    rw [hterm] at ha
    exact hvote.trans (h.now i a ha)
  · intro a ha hne
    exact absurd (some.inj ((hvote.trans hself).symm.trans ha)).symm hne
  · intro hleads
    refine .inr ⟨hdst, ?_⟩
    rcases hrole with hstill | ⟨-, hq⟩
    · simp [hstill] at hleads
    · refine hq.trans (hcount.trans ?_)
      -- the supporters are the candidate itself and those whose votes arrived
      have hnot : i ∉ arrived m (c' :: c :: tr) c'.net n.current_term i :=
        fun hmem => (mem_arrived.mp hmem).1.1 rfl
      rw [Nat.add_comm, ← Finset.card_insert_of_notMem hnot]
      refine Finset.card_le_card ?_
      intro v hv
      rcases Finset.mem_insert.mp hv with rfl | hv
      · exact mem_supporters.mpr
          ⟨hdst, (voted_step hc).mpr (.inl ⟨rfl, rfl, hvote.trans hself⟩)⟩
      · obtain ⟨h1, h2, -⟩ := mem_arrived.mp hv
        exact mem_supporters.mpr ⟨h1.2, h2⟩
  · intro _
    rw [hterm]
    exact h.not_again i hcand

end

/-- A step in which no vote is asked for, given or counted. -/
theorem Elections.quiet (hq : Quiet (c.nodes i) n)
    (hnew : ∀ msg ∈ c'.net, msg ∈ c.net ∨ ∀ v a T, msg.ballot v a T = false)
    (hfew : ∀ v a T, ballots c'.net v a T ≤ ballots c.net v a T)
    (hparties : ∀ msg ∈ c'.net, msg.src ∈ m.ids ∧ msg.dst ∈ m.ids) :
    Elections m (c' :: c :: tr) c' := by
  have hactive : n.role ≠ .Follower → n.role = (c.nodes i).role
      ∧ n.current_term = (c.nodes i).current_term ∧ n.voted_for = (c.nodes i).voted_for := by
    intro ha
    rcases hq.moves with ⟨h1, h2, h3 | h3⟩ | ⟨-, -, h3⟩
    · exact ⟨h3, h1, h2⟩
    · exact absurd h3 ha
    · exact absurd h3 ha
  refine h.put hc hq.config hq.term_le ?_ ?_ ?_ (fun msg hmsg => .inr (hparties msg hmsg)) ?_ ?_
    (fun v a T => (hfew v a T).trans (h.once v a T)) (fun v a T _ => hfew v a T) ?_ ?_ ?_
  · intro a ha
    rcases hq.moves with ⟨h1, h2, -⟩ | ⟨hlt, -, -⟩
    · rw [h1] at ha
      exact h2.trans (h.now i a ha)
    · exact absurd (h.past _ _ _ ha) (not_le.mpr hlt)
  · intro a ha _
    rcases hq.moves with ⟨h1, h2, -⟩ | ⟨-, hnone, -⟩
    · rw [h1]
      exact h.stood i _ a ⟨c, mem_cons_self, rfl, h2.symm.trans ha⟩
    · simp [hnone] at ha
  · intro ha
    obtain ⟨h1, -, h3⟩ := hactive ha
    rw [h3]
    exact h.own i (by rwa [← h1])
  · intro v req hin
    refine (hnew _ hin).imp_right fun hnone => ?_
    have := hnone v req.candidate_id req.term
    simp [ballot] at this
  · intro v a resp hin hgrant
    refine (hnew _ hin).imp_right fun hnone => ?_
    have := hnone v a resp.term
    simp [ballot, hgrant] at this
  · intro ha
    obtain ⟨h1, h2, -⟩ := hactive (by rw [ha]; decide)
    rw [hq.votes, h2]
    refine (h.votes i (h1.symm.trans ha)).trans (Nat.add_le_add_left (arrived_card_mono ?_ ?_) 1)
    · exact fun _ => .kept hc
    · exact fun v hzero _ => Nat.le_zero.mp (hzero ▸ hfew v i _)
  · intro hrole
    obtain ⟨h1, h2, -⟩ := hactive (by rw [hrole]; decide)
    exact .inl ⟨c, mem_cons_self, h1.symm.trans hrole, h2.symm⟩
  · intro ha
    obtain ⟨h1, h2, -⟩ := hactive (by rw [ha]; decide)
    rw [h2]
    exact h.not_again i (h1.symm.trans ha)

/-- A quiet step with or without a delivery, whose messages are no votes. -/
theorem Elections.quiet_net {gone : List Message} (hold : c.net = net₁ ++ gone ++ net₂)
    (hq : Quiet (c.nodes i) n) (hnet : c'.net = net₁ ++ net₂ ++ msgs)
    (hmsgs : ∀ msg ∈ msgs, ∀ v a T, msg.ballot v a T = false)
    (hparties : ∀ msg ∈ msgs, msg.src ∈ m.ids ∧ msg.dst ∈ m.ids) :
    Elections m (c' :: c :: tr) c' := by
  have hsub : ∀ msg ∈ net₁ ++ net₂, msg ∈ c.net := by
    rw [hold]
    exact ((sublist_append_left net₁ gone).append_right net₂).subset
  refine h.quiet hc hq ?_ ?_ ?_
  · intro msg hmsg
    rw [hnet] at hmsg
    exact (mem_append.mp hmsg).imp (hsub msg) (hmsgs msg)
  · intro v a T
    have hzero : ballots msgs v a T = 0 :=
      countP_eq_zero.mpr fun msg hmsg => by simp [hmsgs msg hmsg v a T]
    rw [hnet, hold, ballots_append, ballots_append, ballots_append, ballots_append, hzero]
    omega
  · intro msg hmsg
    rw [hnet] at hmsg
    rcases mem_append.mp hmsg with hmsg | hmsg
    · exact h.parties msg (hsub msg hmsg)
    · exact hparties msg hmsg

end Moved

theorem Elections.quiet_put (h : Elections m (c :: tr) c) (hq : Quiet (c.nodes i) n)
    (hmsgs : ∀ msg ∈ msgs, ∀ v a T, msg.ballot v a T = false)
    (hparties : ∀ msg ∈ msgs, msg.src ∈ m.ids ∧ msg.dst ∈ m.ids) :
    Elections m (c.put i n msgs :: c :: tr) (c.put i n msgs) := by
  have hold : c.net = c.net ++ [] ++ [] := by simp
  have hnet : (c.put i n msgs).net = c.net ++ [] ++ msgs := by simp [Cluster.put]
  exact h.quiet_net rfl hold hq hnet hmsgs hparties

end Steps

/-! ## Runs -/

/-- No vote of an earlier term is delivered to a candidate, and no election begins in the last
term. -/
def fresh_votes (c : Cluster) : Action → Bool
  | .start_election i => decide (c.nodes i).TermFits
  | .deliver k =>
    match c.net[k]? with
    | some (.RequestVoteReply _ dst resp) =>
      !resp.vote_granted || decide ((c.nodes dst).role ≠ .Candidate)
        || decide ((c.nodes dst).current_term ≤ resp.term)
    | _ => true
  | _ => true

section Runs

variable {m : Members}

theorem Elections.receive (h : Elections m (c :: tr) c) {net₁ net₂ : List Message} {msg : Message}
    (hold : c.net = net₁ ++ msg :: net₂)
    (hfresh : ∀ src dst resp, msg = .RequestVoteReply src dst resp → resp.vote_granted = true →
      (c.nodes dst).role = .Candidate → (c.nodes dst).current_term ≤ resp.term)
    (hc' : c' = Cluster.receive { c with net := net₁ ++ net₂ } msg) :
    Elections m (c' :: c :: tr) c' := by
  have hin : msg ∈ c.net := by
    rw [hold]
    exact mem_append_right _ mem_cons_self
  have hgone : c.net = net₁ ++ [msg] ++ net₂ := by rw [hold, append_assoc]; rfl
  obtain ⟨hsrc, hdst⟩ := h.parties msg hin
  cases msg with
  | RequestVote dst req =>
    rcases handle_request_vote_cases (c.nodes dst) req with ⟨hno, hn⟩ | ⟨hyes, -, hn⟩
    · refine h.quiet_net (n := ((c.nodes dst).handle_request_vote req).1) (by rw [hc']; rfl) hgone
        ?_ (by rw [hc']; rfl) ?_ ?_
      · rcases hn with hn | ⟨hlt, hn⟩ <;> rw [hn]
        · exact Quiet.refl _
        · exact quiet_step_down hlt
      · intro msg hmsg v a T
        rw [mem_singleton.mp hmsg]
        show decide (_ ∧ _ ∧ _ ∧ ((c.nodes dst).handle_request_vote req).2.vote_granted = true) = false
        rw [hno]
        simp
      · intro msg hmsg
        rw [mem_singleton.mp hmsg]
        exact ⟨hdst, hsrc⟩
    · have hnet : c'.net = net₁ ++ net₂
          ++ [.RequestVoteReply dst req.candidate_id ⟨req.term, true⟩] := by
        rw [hc', ← hyes]
        rfl
      have hnodes : c'.nodes = update c.nodes dst ((c.nodes dst).handle_request_vote req).1 := by
        rw [hc']
        rfl
      rcases hn with ⟨heq, hfree, hn⟩ | ⟨hlt, hn⟩ <;> rw [hn] at hnodes
      · exact h.grant hnodes rfl hold hnet heq.symm rfl (.inl ⟨heq, rfl, hfree⟩)
      · exact h.grant hnodes rfl hold hnet rfl rfl (.inr ⟨hlt, rfl⟩)
  | RequestVoteReply src dst resp =>
    have hnodes : c'.nodes
        = update c.nodes dst ((c.nodes dst).handle_vote_response src resp).1 := by
      rw [hc']
      rfl
    have hnet : c'.net = net₁ ++ net₂ ++ [] := by
      rw [hc']
      rfl
    rcases handle_vote_response_cases (c.nodes dst) src resp with hn | ⟨hlt, hn⟩ |
      ⟨hle, hcand, hgrant, hn⟩
    · rw [hn] at hnodes
      exact h.quiet_net hnodes hgone (Quiet.refl _) hnet (by simp) (by simp)
    · rw [hn] at hnodes
      exact h.quiet_net hnodes hgone (quiet_step_down hlt) hnet (by simp) (by simp)
    · have hresp := le_antisymm hle (hfresh src dst resp rfl hgrant hcand)
      rcases hn with ⟨hfew, hn⟩ | ⟨hwon, hn⟩ <;> rw [hn] at hnodes
      · exact h.count hnodes rfl hold hnet hgrant hcand hresp rfl rfl rfl (.inl hcand)
      · refine h.count hnodes rfl hold hnet hgrant hcand hresp rfl rfl rfl (.inr ⟨rfl, ?_⟩)
        rwa [quorum, h.config dst hdst] at hwon
  | AppendEntries dst req =>
    refine h.quiet_net (by rw [hc']; rfl) hgone (handle_append_entries_quiet (c.nodes dst) req)
      (by rw [hc']; rfl) ?_ ?_
    · intro msg hmsg v a T
      rw [mem_singleton.mp hmsg]
      rfl
    · intro msg hmsg
      rw [mem_singleton.mp hmsg]
      exact ⟨hdst, hsrc⟩
  | AppendEntriesReply src dst resp =>
    exact h.quiet_net (by rw [hc']; rfl) hgone
      (handle_append_response_quiet (c.nodes dst) src resp) (by rw [hc']; rfl) (by simp) (by simp)

theorem fresh_votes_reply {k : ℕ} {src dst : NodeId} {resp : RequestVoteResp}
    (hfresh : fresh_votes c (.deliver k)) (hk : c.net[k]? = some (.RequestVoteReply src dst resp))
    (hgrant : resp.vote_granted = true) (hcand : (c.nodes dst).role = .Candidate) :
    (c.nodes dst).current_term ≤ resp.term := by
  simpa [fresh_votes, hk, hgrant, hcand] using hfresh

/-- **Every step of a run keeps the invariant.** -/
theorem Elections.step (h : Elections m (c :: tr) c) {a : Action} (hby : a.by m.ids)
    (hfresh : fresh_votes c a) (hstep : c.step a = some c') : Elections m (c' :: c :: tr) c' := by
  cases a with
  | start_election i =>
    have hi : i ∈ m.ids := of_decide_eq_true hby
    have hcand : (c.nodes i).candidate.voted_for = some i := by
      rw [candidate, h.config i hi]
    have hid : (c.nodes i).candidate.vote_request.candidate_id = i := by
      rw [vote_request, candidate, h.config i hi]
    have hterm := candidate_term (of_decide_eq_true hfresh)
    cases some.inj hstep
    rcases start_election_cases (c.nodes i) with ⟨hq, hrun⟩ | ⟨-, hrun⟩ <;> rw [hrun]
    · refine h.stand rfl rfl hi rfl hterm hcand rfl (fun _ => ?_) hid rfl (nil_sublist _) rfl
      rwa [quorum, candidate, h.config i hi] at hq
    · refine h.stand rfl rfl hi rfl hterm hcand rfl (fun hl => ?_) hid rfl (List.Sublist.refl _) ?_
      · cases hl
      · rw [h.config i hi, map_map]
        rfl
  | propose i data =>
    cases some.inj hstep
    exact h.quiet_put (propose_quiet _ data) (by simp) (by simp)
  | heartbeat i =>
    have hi : i ∈ m.ids := of_decide_eq_true hby
    cases some.inj hstep
    refine h.quiet_put (Quiet.refl _) ?_ ?_
    · intro msg hmsg v a T
      obtain ⟨r, -, rfl⟩ := mem_map.mp hmsg
      rfl
    · intro msg hmsg
      obtain ⟨r, hr, rfl⟩ := mem_map.mp hmsg
      unfold heartbeat at hr
      split at hr
      case isTrue => cases hr
      case isFalse =>
        obtain ⟨peer, hpeer, rfl⟩ := mem_map.mp hr
        rw [h.config i hi] at hpeer
        refine ⟨?_, ((m.mem_peers i hi peer).mp hpeer).1⟩
        rwa [src, append_request, h.config i hi]
  | deliver k =>
    obtain ⟨msg, hk, hc'⟩ := Option.map_eq_some_iff.mp hstep
    obtain ⟨net₁, net₂, hold, herase⟩ := deliver_net hk
    rw [herase] at hc'
    refine h.receive hold ?_ hc'.symm
    rintro src dst resp rfl hgrant hcand
    exact fresh_votes_reply hfresh hk hgrant hcand
  | handle_append_entries i req =>
    cases some.inj hstep
    exact h.quiet_put (handle_append_entries_quiet _ req) (by simp) (by simp)

theorem Run.elections {ok : Cluster → Action → Bool} (hok : ∀ c a, ok c a → fresh_votes c a)
    (hr : Run m ok tr) : ∃ c rest, tr = c :: rest ∧ Elections m tr c := by
  induction hr with
  | init => exact ⟨_, _, rfl, init_elections m⟩
  | step a _ hby hfresh hstep ih =>
    obtain ⟨c, rest, heq, h⟩ := ih
    cases heq
    exact ⟨_, _, rfl, h.step hby (hok _ a hfresh) hstep⟩

theorem Elections.leader_unique (h : Elections m tr c) {T : Term} {i j : NodeId}
    (hi : Led tr T i) (hj : Led tr T j) : i = j := by
  obtain ⟨hmi, hqi⟩ := h.led T i hi
  obtain ⟨hmj, hqj⟩ := h.led T j hj
  have hsub : ∀ a, supporters m tr T a ⊆ m.ids := fun a v hv => (mem_supporters.mp hv).1
  obtain ⟨v, hvi, hvj⟩ := Members.quorums_meet hmi hmj (hsub i) (hsub j) hqi hqj
  exact h.unique v T i j (mem_supporters.mp hvi).2 (mem_supporters.mp hvj).2

/-- **Election safety.** In a run in which no vote of an earlier term is delivered to a
candidate and no election begins in the last term, two nodes that lead the same term, be it at the same moment or at different ones,
are the same node. -/
theorem election_safety (hr : Run m fresh_votes tr) {c c' : Cluster} (hc : c ∈ tr) (hc' : c' ∈ tr)
    {i j : NodeId} (hi : (c.nodes i).role = .Leader) (hj : (c'.nodes j).role = .Leader)
    (hterm : (c.nodes i).current_term = (c'.nodes j).current_term) : i = j := by
  obtain ⟨d, rest, -, h⟩ := hr.elections (fun _ _ hf => hf)
  exact h.leader_unique ⟨c, hc, hi, rfl⟩ ⟨c', hc', hj, hterm.symm⟩

/-- Three nodes. -/
def trio : Members where
  ids := {1, 2, 3}
  peers := fun i => [1, 2, 3].filter fun j => j ≠ i
  nodup := by decide
  mem_peers := by
    intro i _ j
    simp

/-- Node 1 is elected by node 2, and whoever leads term 1 is node 1. -/
theorem election_safety_trio : ∃ tr, Run trio fresh_votes tr
    ∧ (∃ c ∈ tr, (c.nodes 1).role = .Leader ∧ (c.nodes 1).current_term = 1)
    ∧ ∀ c ∈ tr, ∀ j, (c.nodes j).role = .Leader → (c.nodes j).current_term = 1 → 1 = j := by
  obtain ⟨tr, hr, hP⟩ := exists_run trio fresh_votes [.start_election 1, .deliver 0, .deliver 1]
    (fun tr => tr.any fun c =>
      decide ((c.nodes 1).role = .Leader ∧ (c.nodes 1).current_term = 1)) (by decide +kernel)
  obtain ⟨c, hc, hlead⟩ := any_eq_true.mp hP
  obtain ⟨hrole, hterm⟩ := of_decide_eq_true hlead
  refine ⟨tr, hr, ⟨c, hc, hrole, hterm⟩, ?_⟩
  intro c' hc' j hj ht
  exact election_safety hr hc hc' hrole hj (hterm.trans ht.symm)

/-- **Two leaders in one term.** Node 2 votes for node 1 in term 1, the reply is delayed.
Node 1 stands again in term 2, and the reply of term 1 makes it the leader of term 2. Node
2, which has not voted in term 2, elects node 3 in the same term. -/
theorem two_leaders_in_a_term : ∃ tr, Run trio (fun _ _ => true) tr ∧ ∃ c ∈ tr,
    (c.nodes 1).role = .Leader ∧ (c.nodes 1).current_term = 2
      ∧ (c.nodes 3).role = .Leader ∧ (c.nodes 3).current_term = 2 := by
  obtain ⟨tr, hr, hP⟩ := exists_run trio (fun _ _ => true)
    [.start_election 1, .deliver 0, .start_election 1, .deliver 1, .start_election 3,
      .start_election 3, .deliver 6, .deliver 6]
    (fun tr => tr.any fun c => decide ((c.nodes 1).role = .Leader
      ∧ (c.nodes 1).current_term = 2 ∧ (c.nodes 3).role = .Leader ∧ (c.nodes 3).current_term = 2))
    (by decide +kernel)
  obtain ⟨c, hc, hlead⟩ := any_eq_true.mp hP
  exact ⟨tr, hr, c, hc, of_decide_eq_true hlead⟩

end Runs

end Oigrap.Raft
