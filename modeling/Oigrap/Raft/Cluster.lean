/-
Runs of a cluster of nodes.

The nodes of a cluster exchange the messages their methods return. A message that was sent
is in the network until it is delivered, which may happen at any later moment, in any
order, or never; a delivered message is gone. One action is one call of a node's method:
a timeout, a client's proposal, a heartbeat, or the delivery of a message, whose reply goes
back to the network. Requests to append entries may also come from elsewhere, with any
content; elections are safe even so, as long as none begins in the last term, which a forged
request can bring about.

A run is recorded with all the states it went through, the last one first.
-/
import Oigrap.Raft.Node
import Mathlib.Data.Finset.Card

namespace Oigrap.Raft

/-! ## Steps -/

inductive Message where
  | RequestVote (dst : NodeId) (req : RequestVoteReq)
  | RequestVoteReply (src dst : NodeId) (resp : RequestVoteResp)
  | AppendEntries (dst : NodeId) (req : AppendEntriesReq)
  | AppendEntriesReply (src dst : NodeId) (resp : AppendEntriesResp)
  deriving DecidableEq, Repr

namespace Message

def dst : Message → NodeId
  | RequestVote dst _ => dst
  | RequestVoteReply _ dst _ => dst
  | AppendEntries dst _ => dst
  | AppendEntriesReply _ dst _ => dst

def src : Message → NodeId
  | RequestVote _ req => req.candidate_id
  | RequestVoteReply src _ _ => src
  | AppendEntries _ req => req.leader_id
  | AppendEntriesReply src _ _ => src

end Message

structure Cluster where
  nodes : NodeId → RaftNode
  /-- the messages that were sent and not delivered -/
  net : List Message

inductive Action where
  | start_election (i : NodeId)
  | propose (i : NodeId) (data : List UInt8)
  | heartbeat (i : NodeId)
  /-- the `k`-th message of the network arrives -/
  | deliver (k : ℕ)
  /-- a request that no node of the cluster sent -/
  | handle_append_entries (i : NodeId) (req : AppendEntriesReq)

namespace Cluster

def init (peers : NodeId → List NodeId) : Cluster where
  nodes := fun i => RaftNode.new ⟨i, peers i⟩
  net := []

/-- Node `i` becomes `n` and sends `msgs`. -/
def put (c : Cluster) (i : NodeId) (n : RaftNode) (msgs : List Message) : Cluster where
  nodes := Function.update c.nodes i n
  net := c.net ++ msgs

def receive (c : Cluster) : Message → Cluster
  | .RequestVote dst req =>
    let r := (c.nodes dst).handle_request_vote req
    c.put dst r.1 [.RequestVoteReply dst req.candidate_id r.2]
  | .RequestVoteReply src dst resp => c.put dst ((c.nodes dst).handle_vote_response src resp).1 []
  | .AppendEntries dst req =>
    let r := (c.nodes dst).handle_append_entries req
    c.put dst r.1 [.AppendEntriesReply dst req.leader_id r.2]
  | .AppendEntriesReply src dst resp =>
    c.put dst ((c.nodes dst).handle_append_response src resp) []

def step (c : Cluster) : Action → Option Cluster
  | .start_election i =>
    let r := (c.nodes i).start_election
    some (c.put i r.1 (r.2.map fun m => .RequestVote m.1 m.2))
  | .propose i data => some (c.put i ((c.nodes i).propose data).1 [])
  | .heartbeat i =>
    some (c.put i (c.nodes i) ((c.nodes i).heartbeat.map fun m => .AppendEntries m.1 m.2))
  | .deliver k => (c.net[k]?).map fun m => receive { c with net := c.net.eraseIdx k } m
  | .handle_append_entries i req =>
    some (c.put i ((c.nodes i).handle_append_entries req).1 [])

theorem moved_cases {c c' : Cluster} {i : NodeId} {n : RaftNode}
    (hc : c'.nodes = Function.update c.nodes i n) (j : NodeId) :
    (j = i ∧ c'.nodes j = n) ∨ (j ≠ i ∧ c'.nodes j = c.nodes j) := by
  by_cases hj : j = i
  · exact .inl ⟨hj, by rw [hc, hj, Function.update_self]⟩
  · exact .inr ⟨hj, by rw [hc, Function.update_of_ne hj]⟩

end Cluster

/-! ## Runs -/

/-- The members of a cluster, each of which has exactly the others as its peers. -/
structure Members where
  ids : Finset NodeId
  peers : NodeId → List NodeId
  nodup : ∀ i ∈ ids, (peers i).Nodup
  mem_peers : ∀ i ∈ ids, ∀ j, j ∈ peers i ↔ j ∈ ids ∧ j ≠ i

/-- The action is one of a member. -/
def Action.by (ids : Finset NodeId) : Action → Bool
  | .start_election i => decide (i ∈ ids)
  | .propose i _ => decide (i ∈ ids)
  | .heartbeat i => decide (i ∈ ids)
  | .deliver _ => true
  | .handle_append_entries i _ => decide (i ∈ ids)

/-- The states of a run whose actions all meet the condition `ok`, the last one first. -/
inductive Run (m : Members) (ok : Cluster → Action → Bool) : List Cluster → Prop
  | init : Run m ok [Cluster.init m.peers]
  | step {c c' : Cluster} {tr : List Cluster} (a : Action) : Run m ok (c :: tr) → a.by m.ids →
      ok c a → c.step a = some c' → Run m ok (c' :: c :: tr)

/-- Performing actions one after the other, as long as they meet the condition. -/
def trace (m : Members) (ok : Cluster → Action → Bool) :
    List Cluster → List Action → Option (List Cluster)
  | tr, [] => some tr
  | [], _ :: _ => none
  | c :: tr, a :: as =>
    if a.by m.ids && ok c a then (c.step a).bind fun c' => trace m ok (c' :: c :: tr) as
    else none

theorem Run.trace {m : Members} {ok : Cluster → Action → Bool} (as : List Action) :
    ∀ {tr tr' : List Cluster}, Run m ok tr → trace m ok tr as = some tr' → Run m ok tr' := by
  induction as with
  | nil =>
    intro tr tr' hr h
    cases tr <;> cases h <;> exact hr
  | cons a as ih =>
    intro tr tr' hr h
    cases tr with
    | nil => cases h
    | cons c tr =>
      rw [Raft.trace] at h
      split at h
      case isTrue hok =>
        obtain ⟨c', hstep, hrest⟩ := Option.bind_eq_some_iff.mp h
        rw [Bool.and_eq_true] at hok
        exact ih (hr.step a hok.1 hok.2 hstep) hrest
      case isFalse => cases h

/-- A run that was performed. -/
theorem exists_run (m : Members) (ok : Cluster → Action → Bool) (as : List Action)
    (P : List Cluster → Bool) (h : (trace m ok [Cluster.init m.peers] as).any P = true) :
    ∃ tr, Run m ok tr ∧ P tr = true := by
  cases htr : trace m ok [Cluster.init m.peers] as with
  | none =>
    simp [htr] at h
  | some tr =>
    rw [htr] at h
    exact ⟨tr, Run.init.trace as htr, h⟩

namespace Members

variable (m : Members)

/-- The number of votes that elect. -/
def quorum (i : NodeId) : ℕ := ((m.peers i).length + 1) / 2 + 1

variable {m}

theorem length_peers {i : NodeId} (hi : i ∈ m.ids) : (m.peers i).length + 1 = m.ids.card := by
  have hset : (m.peers i).toFinset = m.ids.erase i := by
    ext j
    rw [List.mem_toFinset, m.mem_peers i hi, Finset.mem_erase, and_comm]
  rw [← List.toFinset_card_of_nodup (m.nodup i hi), hset, Finset.card_erase_add_one hi]

theorem quorums_meet {i j : NodeId} (hi : i ∈ m.ids) (hj : j ∈ m.ids) {a b : Finset NodeId}
    (ha : a ⊆ m.ids) (hb : b ⊆ m.ids) (hqa : m.quorum i ≤ a.card) (hqb : m.quorum j ≤ b.card) :
    ∃ v, v ∈ a ∧ v ∈ b := by
  have h1 := m.length_peers hi
  have h2 := m.length_peers hj
  unfold quorum at hqa hqb
  obtain ⟨v, hv⟩ := Finset.inter_nonempty_of_card_lt_card_add_card ha hb (by omega)
  exact ⟨v, Finset.mem_inter.mp hv⟩

end Members

end Oigrap.Raft
