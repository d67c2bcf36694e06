/-
Log matching.

Here nothing is assumed about the network: a message stays deliverable after it was
delivered, so it may be lost, late, out of order or duplicated, and votes and responses may
also come from elsewhere with any content. Only requests to append entries are those that
some leader sent, and no election begins in the last term (`TermFits`). If no two nodes are ever leaders of one term, the logs still match: entries
of one term in one place stand in equal logs (`log_matching`).

The proof reads the cluster as a state of the abstract protocol, in which every term has at
most one growing leader's log. `Follows` is that reading. It is the part of the argument that
state-machine safety needs as well, so its lemmas say what they need of the abstract state
and leave the rest of it open.
-/
import Oigrap.Raft.Election
import Oigrap.Raft.Replication

namespace Oigrap.Raft

open ReplicatedLog RaftNode Function List Cluster

/-- The request carries a part of the log of the leader of its term. -/
def Backed (A : State NodeId LogEntry) (req : AppendEntriesReq) : Prop :=
  ∃ l L, Whole l ∧ Carries l req ∧ A.leader req.term = some L ∧ l <+: L

/-- The cluster `c`, reached by `tr`, read as a state of the abstract protocol. -/
structure Follows (tr : List Cluster) (c : Cluster) (A : State NodeId LogEntry) : Prop where
  matching : Matching LogEntry.term A
  term : ∀ i, A.term i = (c.nodes i).current_term
  log : ∀ i, A.log i = (c.nodes i).log.entries
  plain : ∀ i, (c.nodes i).log.Plain
  next : ∀ i, (c.nodes i).NextPos
  leads : ∀ i, (c.nodes i).role = .Leader →
    A.leader (c.nodes i).current_term = some (c.nodes i).log.entries
  /-- a candidate has no entry of the term it stands for -/
  stands : ∀ i, (c.nodes i).role = .Candidate →
    ∀ e ∈ (c.nodes i).log.entries, e.term < (c.nodes i).current_term
  led : ∀ T L, A.leader T = some L → T = 0 ∨ ∃ i, Led tr T i
  past : ∀ T i, Led tr T i → T ≤ (c.nodes i).current_term
    ∧ (T = (c.nodes i).current_term → (c.nodes i).role ≠ .Candidate)
  sent : ∀ dst req, Message.AppendEntries dst req ∈ c.net → Backed A req

/-- The states of the run have no two leaders of one term. -/
def OneLeader (tr : List Cluster) : Prop := ∀ T i j, Led tr T i → Led tr T j → i = j

/-- The requests for entries that a step adds are backed. -/
def Sends (c c' : Cluster) (A : State NodeId LogEntry) : Prop :=
  ∀ dst req, Message.AppendEntries dst req ∈ c'.net →
    Message.AppendEntries dst req ∈ c.net ∨ Backed A req

section Follows

variable {tr : List Cluster} {c c' : Cluster} {A A' : State NodeId LogEntry} {i : NodeId}
  {n : RaftNode} {req : AppendEntriesReq}

theorem Backed.grow (hx : ∀ T L, A.leader T = some L → ∃ L', A'.leader T = some L' ∧ L <+: L')
    (h : Backed A req) : Backed A' req := by
  obtain ⟨l, L, hl, hreq, hL, hp⟩ := h
  obtain ⟨L', hL', hp'⟩ := hx _ _ hL
  exact ⟨l, L', hl, hreq, hL', hp.trans hp'⟩

/-- The node keeps its entries and does not become a leader. -/
structure Passive (n n' : RaftNode) : Prop where
  entries : n'.log.entries = n.log.entries
  base : n'.log.base_index = n.log.base_index
  moves : (n'.current_term = n.current_term ∧ (n'.role = n.role ∨ n'.role = .Follower))
    ∨ (n.current_term < n'.current_term ∧ n'.role ≠ .Leader)

theorem Passive.of_quiet {n n' : RaftNode} (hq : Quiet n n')
    (he : n'.log.entries = n.log.entries) (hb : n'.log.base_index = n.log.base_index) :
    Passive n n' := by
  refine ⟨he, hb, ?_⟩
  rcases hq.moves with ⟨hterm, -, hrole⟩ | ⟨hterm, -, hrole⟩
  · exact .inl ⟨hterm, hrole⟩
  · exact .inr ⟨hterm, by rw [hrole]; exact nofun⟩

/-- The node has stood for the term it is to lead, and has no entry of it. -/
structure Wins (n n' : RaftNode) : Prop where
  entries : n'.log.entries = n.log.entries
  base : n'.log.base_index = n.log.base_index
  role : n'.role = .Leader
  moves : (n'.current_term = n.current_term ∧ n.role = .Candidate)
    ∨ n.current_term < n'.current_term

theorem Wins.le {n n' : RaftNode} (h : Wins n n') : n.current_term ≤ n'.current_term := by
  rcases h.moves with ⟨heq, -⟩ | hlt
  · exact heq.ge
  · exact hlt.le

/-- What a leader appends for a client. -/
def proposal (n : RaftNode) (data : List UInt8) : LogEntry :=
  ⟨n.current_term, n.log.entries.length, data⟩

/-! ## One lemma for each kind of step -/

section Moved

variable (h : Follows (c :: tr) c A)
include h

theorem Follows.win_terms (hw : Wins (c.nodes i) n) :
    ∀ e ∈ n.log.entries, e.term < n.current_term := by
  intro e he
  rw [hw.entries] at he
  rcases hw.moves with ⟨heq, hcand⟩ | hlt
  · rw [heq]
    exact h.stands i hcand e he
  · have hold := h.matching.log_terms i e (by rw [h.log]; exact he)
    rw [h.term] at hold
    exact hold.trans_lt hlt

variable (hc : c'.nodes = update c.nodes i n)
include hc

/-- The other nodes are as before; what is to be shown is about the node that moved. -/
theorem Follows.put (hmatch : Matching LogEntry.term A') (hterm : A'.term = update A.term i n.current_term)
    (hlog : A'.log = update A.log i n.log.entries)
    (hgrow : ∀ T L, A.leader T = some L → ∃ L', A'.leader T = some L' ∧ L <+: L')
    (hothers : ∀ j, j ≠ i → (c.nodes j).role = .Leader →
      A'.leader (c.nodes j).current_term = A.leader (c.nodes j).current_term)
    (hled : ∀ T L, A'.leader T = some L → A.leader T ≠ none
      ∨ (n.role = .Leader ∧ n.current_term = T)) (hplain : n.log.Plain) (hnext : n.NextPos)
    (hleads : n.role = .Leader → A'.leader n.current_term = some n.log.entries)
    (hstands : n.role = .Candidate → ∀ e ∈ n.log.entries, e.term < n.current_term)
    (hle : (c.nodes i).current_term ≤ n.current_term)
    (hcand : n.role = .Candidate → (c.nodes i).current_term < n.current_term
      ∨ (c.nodes i).role = .Candidate) (hsent : Sends c c' A) : Follows (c' :: c :: tr) c' A' := by
  have hnode := moved_cases hc
  refine ⟨hmatch, ?_, ?_, ?_, ?_, ?_, ?_, ?_, ?_, ?_⟩
  · intro j
    rcases hnode j with ⟨rfl, hn⟩ | ⟨hj, hn⟩ <;> rw [hn, hterm]
    · exact update_self ..
    · rw [update_of_ne hj, h.term j]
  · intro j
    rcases hnode j with ⟨rfl, hn⟩ | ⟨hj, hn⟩ <;> rw [hn, hlog]
    · exact update_self ..
    · rw [update_of_ne hj, h.log j]
  · intro j
    rcases hnode j with ⟨rfl, hn⟩ | ⟨-, hn⟩ <;> rw [hn]
    · exact hplain
    · exact h.plain j
  · intro j
    rcases hnode j with ⟨rfl, hn⟩ | ⟨-, hn⟩ <;> rw [hn]
    · exact hnext
    · exact h.next j
  · intro j hrole
    rcases hnode j with ⟨rfl, hn⟩ | ⟨hj, hn⟩ <;> rw [hn] at hrole ⊢
    · exact hleads hrole
    · rw [hothers j hj hrole]
      exact h.leads j hrole
  · intro j hrole
    rcases hnode j with ⟨rfl, hn⟩ | ⟨-, hn⟩ <;> rw [hn] at hrole ⊢
    · exact hstands hrole
    · exact h.stands j hrole
  · intro T L hL
    rcases hled T L hL with hne | ⟨hrole, hT⟩
    · obtain ⟨L₀, hL₀⟩ := Option.ne_none_iff_exists'.mp hne
      refine (h.led T L₀ hL₀).imp_right ?_
      rintro ⟨j, hj⟩
      exact ⟨j, (led_step hc).mpr (.inr hj)⟩
    · exact .inr ⟨i, (led_step hc).mpr (.inl ⟨rfl, hrole, hT⟩)⟩
  · intro T j hT
    rcases hnode j with ⟨rfl, hn⟩ | ⟨hj, hn⟩ <;> rw [hn]
    · rcases (led_step hc).mp hT with ⟨-, hrole, rfl⟩ | hT
      · exact ⟨le_rfl, fun _ hno => by rw [hrole] at hno; cases hno⟩
      · obtain ⟨hpast, hagain⟩ := h.past T j hT
        refine ⟨hpast.trans hle, fun heq hrole => ?_⟩
        rcases hcand hrole with hlt | hold
        · exact absurd hpast (not_le.mpr (heq ▸ hlt))
        · exact hagain (le_antisymm hpast (heq ▸ hle)) hold
    · exact h.past T j (((led_step hc).mp hT).resolve_left fun hnew => hj hnew.1)
  · intro dst req hreq
    exact ((hsent dst req hreq).elim (h.sent dst req) id).grow hgrow

theorem Follows.passive (hp : Passive (c.nodes i) n) (hnext : n.NextPos)
    (hterm : A'.term = update A.term i n.current_term) (hlog : A'.log = A.log)
    (hleader : A'.leader = A.leader) (hsent : Sends c c' A) : Follows (c' :: c :: tr) c' A' := by
  have hle : (c.nodes i).current_term ≤ n.current_term := by
    rcases hp.moves with ⟨heq, -⟩ | ⟨hlt, -⟩
    · exact heq.ge
    · exact hlt.le
  have hgrow : ∀ T L, A.leader T = some L → ∃ L', A'.leader T = some L' ∧ L <+: L' := by
    intro T L hL
    exact ⟨L, by rw [hleader]; exact hL, prefix_rfl⟩
  have hmatch : Matching LogEntry.term A' := by
    have hadvance := h.matching.advance (v := i) (T := n.current_term) (by rw [h.term]; exact hle)
    exact hadvance.congr hterm hlog hleader
  refine h.put hc hmatch hterm ?_ hgrow ?_ ?_ ((h.plain i).congr hp.entries hp.base) hnext ?_ ?_
    hle ?_ hsent
  · rw [hlog, hp.entries, ← h.log i, update_eq_self]
  · intro j _ _
    rw [hleader]
  · intro T L hL
    rw [hleader] at hL
    exact .inl (by rw [hL]; exact nofun)
  · intro hrole
    rcases hp.moves with ⟨heq, hsame | hfollow⟩ | ⟨-, hno⟩
    · rw [hleader, heq, hp.entries]
      exact h.leads i (hsame ▸ hrole)
    · simp [hfollow] at hrole
    · exact absurd hrole hno
  · intro hrole e he
    rw [hp.entries] at he
    rcases hp.moves with ⟨heq, hsame | hfollow⟩ | ⟨hlt, -⟩
    · rw [heq]
      exact h.stands i (hsame ▸ hrole) e he
    · simp [hfollow] at hrole
    · -- a candidate of a new term
      have hold := h.matching.log_terms i e (by rw [h.log]; exact he)
      rw [h.term] at hold
      exact hold.trans_lt hlt
  · intro hrole
    rcases hp.moves with ⟨-, hsame | hfollow⟩ | ⟨hlt, -⟩
    · exact .inr (hsame ▸ hrole)
    · simp [hfollow] at hrole
    · exact .inl hlt

theorem Follows.no_leader (hone : OneLeader (c' :: c :: tr)) (hw : Wins (c.nodes i) n) :
    0 < n.current_term ∧ A.leader n.current_term = none := by
  have hpos : 0 < n.current_term := by
    have hhead := (h.plain i).whole.head
    rw [← hw.entries] at hhead
    exact Nat.zero_lt_of_lt (h.win_terms hw _ (mem_of_getElem? hhead))
  refine ⟨hpos, ?_⟩
  by_contra hne
  obtain ⟨L, hL⟩ := Option.ne_none_iff_exists'.mp hne
  rcases h.led _ L hL with hzero | ⟨j, hj⟩
  · exact hpos.ne' hzero
  · -- the earlier leader could only be the node itself
    obtain rfl : i = j := hone _ i j ((led_step hc).mpr (.inl ⟨rfl, hw.role, rfl⟩))
      ((led_step hc).mpr (.inr hj))
    obtain ⟨hpast, hagain⟩ := h.past _ i hj
    rcases hw.moves with ⟨heq, hcand⟩ | hlt
    · exact hagain heq hcand
    · exact absurd hpast (not_le.mpr hlt)

theorem Follows.win (hone : OneLeader (c' :: c :: tr)) (hw : Wins (c.nodes i) n) (hnext : n.NextPos)
    (hterm : A'.term = update A.term i n.current_term) (hlog : A'.log = A.log)
    (hleader : A'.leader = update A.leader n.current_term (some n.log.entries))
    (hsent : Sends c c' A) : Follows (c' :: c :: tr) c' A' := by
  obtain ⟨-, hfree⟩ := h.no_leader hc hone hw
  have hself : A'.leader n.current_term = some n.log.entries := by
    rw [hleader, update_self]
  have hother : ∀ T, T ≠ n.current_term → A'.leader T = A.leader T :=
    fun T hT => by rw [hleader, update_of_ne hT]
  have hne : ∀ T L, A.leader T = some L → T ≠ n.current_term := by
    rintro T L hL rfl
    simp [hfree] at hL
  have hmatch : Matching LogEntry.term A' := by
    have hadvance := h.matching.advance (v := i) (T := n.current_term) (by rw [h.term]; exact hw.le)
    have htraced : Traced LogEntry.term (A.advance i n.current_term) n.log.entries := by
      rw [hw.entries, ← h.log]
      exact hadvance.traced_log i
    exact (hadvance.elect hfree htraced fun e he => (h.win_terms hw e he).le).congr hterm hlog
      hleader
  refine h.put hc hmatch hterm ?_ ?_ ?_ ?_ ((h.plain i).congr hw.entries hw.base) hnext
    (fun _ => hself) ?_ hw.le ?_ hsent
  · rw [hlog, hw.entries, ← h.log i, update_eq_self]
  · intro T L hL
    exact ⟨L, by rw [hother T (hne T L hL)]; exact hL, prefix_rfl⟩
  · intro j _ hrole
    exact hother _ (hne _ _ (h.leads j hrole))
  · intro T L hL
    by_cases hT : T = n.current_term
    · exact .inr ⟨hw.role, hT.symm⟩
    · rw [hother T hT] at hL
      exact .inl (by rw [hL]; exact nofun)
  · intro hrole
    simp [hw.role] at hrole
  · intro hrole
    simp [hw.role] at hrole

theorem Follows.propose (hone : OneLeader (c :: tr)) {data : List UInt8}
    (hrole : (c.nodes i).role = .Leader) (hlog : n.log = ((c.nodes i).log.append
      (c.nodes i).current_term data).1) (hterm : n.current_term = (c.nodes i).current_term)
    (hnrole : n.role = .Leader) (hnext : n.NextPos)
    (hA : A'.term = A.term ∧ A'.log = (A.extend i (proposal (c.nodes i) data)).log
      ∧ A'.leader = (A.extend i (proposal (c.nodes i) data)).leader)
    (hsent : Sends c c' A) : Follows (c' :: c :: tr) c' A' := by
  obtain ⟨hA₁, hA₂, hA₃⟩ := hA
  have hplain := h.plain i
  have hentries : n.log.entries = A.log i ++ [proposal (c.nodes i) data] := by
    rw [hlog, hplain.append_entries, h.log]
    rfl
  have hL : A.leader (A.term i) = some (A.log i) := by
    rw [h.term, h.log]
    exact h.leads i hrole
  have hmatch : Matching LogEntry.term A' := by
    have hextend := h.matching.extend (e := proposal (c.nodes i) data) hL (by rw [h.term]; rfl)
    exact hextend.congr hA₁ hA₂ hA₃
  have hother : ∀ T, T ≠ n.current_term → A'.leader T = A.leader T := by
    intro T hT
    rw [hterm, ← h.term i] at hT
    rw [hA₃]
    exact update_of_ne hT _ _
  refine h.put hc hmatch ?_ ?_ ?_ ?_ ?_ ?_ hnext ?_ ?_ hterm.ge ?_ hsent
  · rw [hA₁, hterm, ← h.term i, update_eq_self]
  · rw [hA₂, hentries]
    rfl
  · rw [hA₃]
    exact (extends_extend hL).leader
  · intro j hj hjrole
    refine hother _ fun heq => hj ?_
    exact hone _ j i ⟨c, mem_cons_self, hjrole, heq⟩
      ⟨c, mem_cons_self, hrole, hterm.symm⟩
  · intro T L hT
    by_cases heq : T = n.current_term
    · exact .inr ⟨hnrole, heq.symm⟩
    · rw [hother T heq] at hT
      exact .inl (by rw [hT]; exact nofun)
  · rw [hlog]
    exact hplain.append _ data
  · intro _
    rw [hA₃, hentries, hterm, ← h.term i]
    exact update_self _ _ _
  · intro hno
    simp [hnrole] at hno
  · intro hno
    simp [hnrole] at hno

end Moved

theorem match_of_traced {l l' : List LogEntry} (hl : Traced LogEntry.term A l)
    (hl' : Traced LogEntry.term A l') : Match l l' :=
  fun _ _ _ he he' ht => hl.agree hl' he he' ht

theorem handle_append_entries_stale {n : RaftNode} (h : req.term < n.current_term) :
    (n.handle_append_entries req).1 = n := by
  unfold handle_append_entries
  rw [if_pos h]
  rfl

/-- A request that carries a part of a leader's log meets a node whose log matches it. -/
theorem Follows.append_entries_cases (h : Follows tr c A) {l L : List LogEntry} (hl : Whole l)
    (hreq : Carries l req) (hL : A.leader req.term = some L) (hp : l <+: L)
    (hterm : (c.nodes i).current_term ≤ req.term) :
    ((c.nodes i).handle_append_entries req).1.log.Plain ∧
      ((((c.nodes i).handle_append_entries req).2.success = false
          ∧ Refuses (c.nodes i) ((c.nodes i).handle_append_entries req).1 req)
        ∨ (((c.nodes i).handle_append_entries req).2.success = true
          ∧ ((c.nodes i).handle_append_entries req).2.match_index
            = ((c.nodes i).handle_append_entries req).1.log.last_index
          ∧ Accepts (c.nodes i) ((c.nodes i).handle_append_entries req).1 req l)) := by
  have hm : Match (c.nodes i).log.entries l := by
    refine match_of_traced (A := A) ?_ ((h.matching.traced_leader _ L hL).restrict hp)
    rw [← h.log]
    exact h.matching.traced_log i
  exact handle_append_entries_cases (h.plain i) hl hreq hm hterm

theorem Follows.append_entries (h : Follows (c :: tr) c A) {dst : NodeId}
    (hreq : Message.AppendEntries dst req ∈ c.net)
    (hc : c'.nodes = update c.nodes i ((c.nodes i).handle_append_entries req).1)
    (hA : A'.term = update A.term i ((c.nodes i).handle_append_entries req).1.current_term)
    (hlog : A'.log = update A.log i ((c.nodes i).handle_append_entries req).1.log.entries)
    (hleader : A'.leader = A.leader) (hsent : Sends c c' A) : Follows (c' :: c :: tr) c' A' := by
  have hnext : ((c.nodes i).apply (.handle_append_entries req)).NextPos := nextPos_apply (h.next i)
  change ((c.nodes i).handle_append_entries req).1.NextPos at hnext
  by_cases hstale : req.term < (c.nodes i).current_term
  · rw [handle_append_entries_stale hstale] at hc hA hlog hnext
    refine h.passive hc ⟨rfl, rfl, .inl ⟨rfl, .inl rfl⟩⟩ hnext hA ?_ hleader hsent
    rw [hlog, ← h.log i, update_eq_self]
  · have hterm := not_lt.mp hstale
    obtain ⟨hterm', hrole⟩ := handle_append_entries_follower hterm
    obtain ⟨l, L, hl, hcarries, hL, hp⟩ := h.sent dst req hreq
    obtain ⟨hplain, hcases⟩ := h.append_entries_cases hl hcarries hL hp hterm
    generalize ((c.nodes i).handle_append_entries req).1 = n' at *
    have hl : n'.log.entries <+: L ∨ n'.log.entries <+: A.log i := by
      rw [h.log]
      rcases hcases with ⟨-, -, heq | ⟨x, -, -, heq⟩⟩ | ⟨-, -, -, hin, hout⟩
      · exact .inr (by rw [heq])
      · exact .inr (by rw [heq]; exact take_prefix _ _)
      · rcases lt_or_ge req.prev_log_index l.length with hlt | hge
        · rcases hin hlt with ⟨heq, -⟩ | ⟨heq, -⟩
          · exact .inr (by rw [heq])
          · exact .inl (by rw [heq]; exact hp)
        · exact .inr (by rw [hout hge])
    have hmatch : Matching LogEntry.term A' := by
      have hadvance := h.matching.advance (v := i) (T := n'.current_term)
        (by rw [h.term, hterm']; exact hterm)
      have hreceive := hadvance.receive (v := i) (l := n'.log.entries) (L := L)
        (by simpa [State.advance, hterm'] using hL) hl
      exact hreceive.congr hA hlog hleader
    refine h.put hc hmatch hA hlog ?_ ?_ ?_ hplain hnext ?_ ?_ (by rw [hterm']; exact hterm) ?_ hsent
    · intro T L hL
      exact ⟨L, by rw [hleader]; exact hL, prefix_rfl⟩
    · intro j _ _
      rw [hleader]
    · intro T L hL
      rw [hleader] at hL
      exact .inl (by simp [hL])
    all_goals
      intro hno
      simp [hrole] at hno

end Follows

/-! ## What the other methods do -/

section Methods

variable (n : RaftNode)

theorem passive_handle_request_vote (req : RequestVoteReq) :
    Passive n (n.handle_request_vote req).1 := by
  have hlog := (untouched_handle_request_vote n req).1
  refine ⟨by rw [hlog], by rw [hlog], ?_⟩
  rcases handle_request_vote_cases n req with
    ⟨-, heq | ⟨hlt, heq⟩⟩ | ⟨-, -, ⟨-, -, heq⟩ | ⟨hlt, heq⟩⟩
  · rw [heq]
    exact .inl ⟨rfl, .inl rfl⟩
  · rw [heq]
    exact .inr ⟨hlt, nofun⟩
  · rw [heq]
    exact .inl ⟨rfl, .inl rfl⟩
  · rw [heq]
    exact .inr ⟨hlt, nofun⟩

theorem passive_or_wins_handle_vote_response (src : NodeId) (resp : RequestVoteResp) :
    Passive n (n.handle_vote_response src resp).1 ∨ Wins n (n.handle_vote_response src resp).1 := by
  have hlog := (untouched_handle_vote_response n src resp).1
  rcases handle_vote_response_cases n src resp with
    heq | ⟨hlt, heq⟩ | ⟨-, hcand, -, ⟨-, heq⟩ | ⟨-, heq⟩⟩
  · exact .inl ⟨by rw [hlog], by rw [hlog], .inl ⟨by rw [heq], .inl (by rw [heq])⟩⟩
  · refine .inl ⟨by rw [hlog], by rw [hlog], .inr ?_⟩
    rw [heq]
    exact ⟨hlt, nofun⟩
  · exact .inl ⟨by rw [hlog], by rw [hlog], .inl ⟨by rw [heq], .inl (by rw [heq])⟩⟩
  · exact .inr ⟨by rw [hlog], by rw [hlog], by rw [heq]; rfl, .inl ⟨by rw [heq]; rfl, hcand⟩⟩

theorem passive_or_wins_start_election (hfits : n.TermFits) :
    Passive n n.start_election.1 ∨ Wins n n.start_election.1 := by
  have hlog := (untouched_start_election n).1
  rcases start_election_cases n with ⟨-, heq⟩ | ⟨-, heq⟩
  · refine .inr ⟨by rw [hlog], by rw [hlog], by rw [heq]; rfl, .inr ?_⟩
    rw [heq]
    exact term_lt_candidate hfits
  · refine .inl ⟨by rw [hlog], by rw [hlog], .inr ?_⟩
    rw [heq]
    exact ⟨term_lt_candidate hfits, nofun⟩

theorem passive_handle_append_response (src : NodeId) (resp : AppendEntriesResp) :
    Passive n (n.handle_append_response src resp) := by
  have hquiet := handle_append_response_quiet n src resp
  rcases commits_handle_append_response n src resp with ⟨hlog, -⟩ | ⟨k, -, -, -, hlog⟩
  · exact Passive.of_quiet hquiet (by rw [hlog]) (by rw [hlog])
  · obtain ⟨he, hb, -⟩ := RaftLog.advance_commit_fields n.log k
    exact Passive.of_quiet hquiet (by rw [hlog]; exact he) (by rw [hlog]; exact hb)

end Methods

/-! ## Runs -/

inductive Event where
  | start_election (i : NodeId)
  | propose (i : NodeId) (data : List UInt8)
  | heartbeat (i : NodeId)
  /-- the `k`-th message that was ever sent arrives, perhaps not for the first time -/
  | deliver (k : ℕ)
  | handle_request_vote (i : NodeId) (req : RequestVoteReq)
  | handle_vote_response (i src : NodeId) (resp : RequestVoteResp)
  | handle_append_response (i src : NodeId) (resp : AppendEntriesResp)

namespace Cluster

def handle (c : Cluster) : Event → Cluster
  | .start_election i =>
    let r := (c.nodes i).start_election
    c.put i r.1 (r.2.map fun m => .RequestVote m.1 m.2)
  | .propose i data => c.put i ((c.nodes i).propose data).1 []
  | .heartbeat i =>
    c.put i (c.nodes i) ((c.nodes i).heartbeat.map fun m => .AppendEntries m.1 m.2)
  | .deliver k => (c.net[k]?).elim c c.receive
  | .handle_request_vote i req => c.put i ((c.nodes i).handle_request_vote req).1 []
  | .handle_vote_response i src resp => c.put i ((c.nodes i).handle_vote_response src resp).1 []
  | .handle_append_response i src resp => c.put i ((c.nodes i).handle_append_response src resp) []

/-- No election begins in the last term. -/
def TermFits (c : Cluster) : Event → Prop
  | .start_election i => (c.nodes i).TermFits
  | _ => True

instance (c : Cluster) (e : Event) : Decidable (c.TermFits e) := by
  unfold TermFits
  split <;> infer_instance

end Cluster

/-- The states of a run in which no election begins in the last term, the last one first. -/
inductive History (peers : NodeId → List NodeId) : List Cluster → Prop
  | init : History peers [Cluster.init peers]
  | step {c : Cluster} {tr : List Cluster} (e : Event) : History peers (c :: tr) → c.TermFits e →
      History peers (c.handle e :: c :: tr)

/-- The run that ends in `c` can be read as a run of the protocol. -/
abbrev Followed (c : Cluster) (tr : List Cluster) : Prop := ∃ A, Follows (c :: tr) c A

section Runs

variable {tr : List Cluster} {c : Cluster} {A : State NodeId LogEntry} {i : NodeId} {n : RaftNode}
  {msgs : List Message}

theorem follows_init (peers : NodeId → List NodeId) :
    Follows [Cluster.init peers] (Cluster.init peers) (State.init [RaftLog.sentinel]) := by
  have hled : ∀ T i, ¬ Led [init peers] T i := by
    rintro T i ⟨d, hd, hrole, -⟩
    rw [mem_singleton.mp hd] at hrole
    cases hrole
  refine ⟨Matching.init ?_, fun _ => rfl, fun _ => rfl, fun _ => RaftLog.plain_new,
    fun i => nextPos_new _, fun _ hrole => ?_, fun _ hrole => ?_, fun T L hL => ?_,
    fun T i hT => absurd hT (hled T i), fun dst req hreq => ?_⟩
  · intro e he
    rw [mem_singleton.mp he]
    rfl
  · cases hrole
  · cases hrole
  · exact .inl (leader_init hL).1
  · cases hreq

theorem Follows.put_passive (h : Follows (c :: tr) c A) (hp : Passive (c.nodes i) n)
    (hnext : n.NextPos) (hmsgs : ∀ dst req, Message.AppendEntries dst req ∈ msgs → Backed A req) :
    Followed (c.put i n msgs) (c :: tr) := by
  refine ⟨A.advance i n.current_term, h.passive rfl hp hnext rfl rfl rfl fun dst req hreq => ?_⟩
  exact (mem_append.mp hreq).imp_right (hmsgs dst req)

theorem Follows.put_wins (h : Follows (c :: tr) c A) (hone : OneLeader (c.put i n msgs :: c :: tr))
    (hw : Wins (c.nodes i) n) (hnext : n.NextPos)
    (hmsgs : ∀ dst req, Message.AppendEntries dst req ∉ msgs) :
    Followed (c.put i n msgs) (c :: tr) := by
  refine ⟨(A.advance i n.current_term).elect n.current_term n.log.entries,
    h.win rfl hone hw hnext rfl rfl rfl fun dst req hreq => ?_⟩
  exact (mem_append.mp hreq).imp_right fun hnew => absurd hnew (hmsgs dst req)

theorem heartbeat_leader {m : NodeId × AppendEntriesReq} (h : m ∈ n.heartbeat) :
    n.role = .Leader := by
  unfold heartbeat at h
  split at h
  case isTrue => cases h
  case isFalse hrole => exact not_not.mp hrole

theorem Follows.backed_heartbeat (h : Follows tr c A) {dst : NodeId} {req : AppendEntriesReq}
    (hreq : (dst, req) ∈ (c.nodes i).heartbeat) : Backed A req := by
  have hleads := h.leads i (heartbeat_leader hreq)
  obtain rfl := eq_append_request hreq
  exact ⟨_, _, (h.plain i).whole, carries_append_request (h.plain i) (h.next i) dst, hleads,
    prefix_rfl⟩

section

variable (h : Follows (c :: tr) c A)
include h

theorem Follows.vote_response {src : NodeId} {resp : RequestVoteResp}
    (hone : OneLeader (c.put i ((c.nodes i).handle_vote_response src resp).1 [] :: c :: tr)) :
    Followed (c.put i ((c.nodes i).handle_vote_response src resp).1 []) (c :: tr) := by
  have hnext : ((c.nodes i).apply (.handle_vote_response src resp)).NextPos :=
    nextPos_apply (h.next i)
  rcases passive_or_wins_handle_vote_response (c.nodes i) src resp with hp | hw
  · exact h.put_passive hp hnext nofun
  · exact h.put_wins hone hw hnext nofun

theorem Follows.request_vote (req : RequestVoteReq)
    (hmsgs : ∀ dst req, Message.AppendEntries dst req ∉ msgs) :
    Followed (c.put i ((c.nodes i).handle_request_vote req).1 msgs) (c :: tr) := by
  have hnext : ((c.nodes i).apply (.handle_request_vote req)).NextPos := nextPos_apply (h.next i)
  exact h.put_passive (passive_handle_request_vote _ req) hnext
    fun dst req hreq => absurd hreq (hmsgs dst req)

theorem Follows.append_response (src : NodeId) (resp : AppendEntriesResp) :
    Followed (c.put i ((c.nodes i).handle_append_response src resp) []) (c :: tr) := by
  have hnext : ((c.nodes i).apply (.handle_append_response src resp)).NextPos :=
    nextPos_apply (h.next i)
  exact h.put_passive (passive_handle_append_response _ src resp) hnext nofun

theorem Follows.receive {msg : Message} (hin : msg ∈ c.net)
    (hone : OneLeader (c.receive msg :: c :: tr)) :
    Followed (c.receive msg) (c :: tr) := by
  cases msg with
  | RequestVote dst req => exact h.request_vote req (by simp)
  | RequestVoteReply src dst resp => exact h.vote_response hone
  | AppendEntries dst req =>
    let n := ((c.nodes dst).handle_append_entries req).1
    refine ⟨(A.advance dst n.current_term).receive dst n.log.entries,
      h.append_entries hin rfl rfl rfl rfl fun dst req hreq => ?_⟩
    exact .inl (by simpa [Cluster.receive, Cluster.put] using hreq)
  | AppendEntriesReply src dst resp => exact h.append_response src resp

/-- Every step of a run with one leader a term can be read as steps of the protocol. -/
theorem Follows.handle (e : Event) (hfits : c.TermFits e) (hone : OneLeader (c.handle e :: c :: tr)) :
    Followed (c.handle e) (c :: tr) := by
  have hstay : Follows (c :: c :: tr) c A := by
    refine h.passive (i := 0) (n := c.nodes 0) (update_eq_self 0 c.nodes).symm
      ⟨rfl, rfl, .inl ⟨rfl, .inl rfl⟩⟩ (h.next 0) ?_ rfl rfl fun _ _ => .inl
    rw [← h.term, update_eq_self]
  cases e with
  | start_election i =>
    have hnext : ((c.nodes i).apply .start_election).NextPos := nextPos_apply (h.next i)
    rcases passive_or_wins_start_election (c.nodes i) hfits with hp | hw
    · exact h.put_passive hp hnext (by simp)
    · exact h.put_wins hone hw hnext (by simp)
  | propose i data =>
    have hnext : ((c.nodes i).apply (.propose data)).NextPos := nextPos_apply (h.next i)
    simp only [Cluster.handle, RaftNode.apply] at hone hnext ⊢
    unfold RaftNode.propose at hone hnext ⊢
    split at hone
    case isTrue hrole =>
      rw [if_pos hrole] at hnext ⊢
      exact h.put_passive ⟨rfl, rfl, .inl ⟨rfl, .inl rfl⟩⟩ hnext (by simp)
    case isFalse hrole =>
      rw [if_neg hrole] at hnext ⊢
      have hrole := not_not.mp hrole
      have hone' : OneLeader (c :: tr) := by
        intro T a b ha hb
        exact hone T a b ((led_step rfl).mpr (.inr ha)) ((led_step rfl).mpr (.inr hb))
      refine ⟨A.extend i (proposal (c.nodes i) data), h.propose rfl hone' hrole rfl rfl hrole hnext
        ⟨rfl, rfl, rfl⟩ fun dst req hreq => ?_⟩
      exact .inl (by simpa [Cluster.put] using hreq)
  | heartbeat i =>
    refine h.put_passive ⟨rfl, rfl, .inl ⟨rfl, .inl rfl⟩⟩ (h.next i) fun dst req hreq => ?_
    obtain ⟨m, hm, heq⟩ := mem_map.mp hreq
    cases heq
    exact h.backed_heartbeat hm
  | deliver k =>
    simp only [Cluster.handle] at hone ⊢
    cases hk : c.net[k]? with
    | none => exact ⟨A, hstay⟩
    | some msg =>
      rw [hk] at hone
      exact h.receive (mem_of_getElem? hk) hone
  | handle_request_vote i req => exact h.request_vote req (by simp)
  | handle_vote_response i src resp => exact h.vote_response hone
  | handle_append_response i src resp => exact h.append_response src resp

end

theorem OneLeader.tail (h : OneLeader (c :: tr)) : OneLeader tr := by
  rintro T i j ⟨d, hd, hi⟩ ⟨d', hd', hj⟩
  exact h T i j ⟨d, mem_cons_of_mem _ hd, hi⟩ ⟨d', mem_cons_of_mem _ hd', hj⟩

theorem History.follows {peers : NodeId → List NodeId} (hr : History peers tr)
    (hone : OneLeader tr) : ∃ c rest A, tr = c :: rest ∧ Follows tr c A := by
  induction hr with
  | init => exact ⟨_, _, _, rfl, follows_init peers⟩
  | step e _ hfits ih =>
    obtain ⟨c, rest, A, heq, h⟩ := ih hone.tail
    cases heq
    obtain ⟨A', h'⟩ := h.handle e hfits hone
    exact ⟨_, _, A', rfl, h'⟩

/-- **Log matching.** In every state of a run without two leaders of one term, two logs that hold
entries of one term at one index are the same up to there. -/
theorem log_matching (peers : NodeId → List NodeId) (c : Cluster) (rest : List Cluster)
    (hr : History peers (c :: rest)) (hone : OneLeader (c :: rest)) (i j : NodeId) (k : LogIndex)
    (e e' : LogEntry) (he : (c.nodes i).log.get k = some e) (he' : (c.nodes j).log.get k = some e')
    (hterm : e.term = e'.term) : ∀ m, m ≤ k → (c.nodes i).log.get m = (c.nodes j).log.get m := by
  obtain ⟨c, rest, A, heq, h⟩ := hr.follows hone
  cases heq
  rw [(h.plain i).get] at he
  rw [(h.plain j).get] at he'
  have htake : (c.nodes i).log.entries.take (k + 1) = (c.nodes j).log.entries.take (k + 1) := by
    have hi := h.matching.traced_log i
    have hj := h.matching.traced_log j
    rw [h.log] at hi hj
    exact hi.agree hj he he' hterm
  intro m hm
  have hat := congrArg (fun l : List LogEntry => l[m]?) htake
  simp only [getElem?_take_of_lt (Nat.lt_succ_of_le hm)] at hat
  rwa [(h.plain i).get, (h.plain j).get]

/-! ## A run with one leader -/

/-- The node whose method an event calls. -/
def Cluster.party (c : Cluster) : Event → NodeId
  | .start_election i | .propose i _ | .heartbeat i | .handle_request_vote i _
  | .handle_vote_response i _ _ | .handle_append_response i _ _ => i
  | .deliver k => ((c.net[k]?).map Message.dst).getD 0

theorem handle_nodes (c : Cluster) (e : Event) :
    (c.handle e).nodes = update c.nodes (c.party e) ((c.handle e).nodes (c.party e)) := by
  have hput : ∀ i n msgs, (c.put i n msgs).nodes
      = update c.nodes i ((c.put i n msgs).nodes i) := by
    simp [put]
  cases e with
  | deliver k =>
    simp only [handle, party]
    cases c.net[k]? with
    | none => exact (update_eq_self 0 c.nodes).symm
    | some msg => cases msg <;> exact hput _ _ _
  | _ => exact hput _ _ _

/-- The run `tr` goes on with the event. -/
def record : List Cluster → Event → List Cluster
  | [], _ => []
  | c :: tr, e => c.handle e :: c :: tr

/-- The event makes no leader of a term but the one of `leader`. -/
def LeaderIs (leader : Term → NodeId) : List Cluster → Event → Prop
  | [], _ => True
  | c :: _, e => ((c.handle e).nodes (c.party e)).role = .Leader →
      c.party e = leader ((c.handle e).nodes (c.party e)).current_term

instance (leader : Term → NodeId) : ∀ tr e, Decidable (LeaderIs leader tr e)
  | [], _ => isTrue trivial
  | _ :: _, _ => inferInstanceAs (Decidable (_ → _))

theorem oneLeader_of_leaderIs (peers : NodeId → List NodeId) (leader : Term → NodeId)
    (es : List Event) (h : Along record (LeaderIs leader) [Cluster.init peers] es) :
    OneLeader (es.foldl record [Cluster.init peers]) := by
  have hinv := h.invariant (P := fun tr => ∀ T i, Led tr T i → i = leader T) ?_ ?_
  · exact fun T i j hi hj => (hinv T i hi).trans (hinv T j hj).symm
  · rintro T i ⟨d, hd, hrole, -⟩
    rw [mem_singleton.mp hd] at hrole
    cases hrole
  · intro tr e hled hok T i hT
    cases tr with
    | nil => exact hled T i hT
    | cons c tr =>
      rcases (led_step (handle_nodes c e)).mp hT with ⟨rfl, hrole, rfl⟩ | hold
      · exact hok hrole
      · exact hled T i hold

/-- A run that starts no election in the last term. -/
theorem history_of_termFits (peers : NodeId → List NodeId) (es : List Event)
    (h : Along record (fun tr e => ∀ c ∈ tr.head?, c.TermFits e) [Cluster.init peers] es) :
    History peers (es.foldl record [Cluster.init peers]) := by
  refine h.invariant .init fun tr e hr hok => ?_
  cases tr with
  | nil => exact hr
  | cons c tr => exact hr.step e (hok c rfl)

/-- Node 1 is elected by node 2 and sends it an entry, twice. -/
def one_leader_run : List Event :=
  [.start_election 1, .deliver 0, .deliver 1, .propose 1 [7], .heartbeat 1, .deliver 2, .deliver 2]

def pair (i : NodeId) : List NodeId := if i = 1 then [2] else [1]

theorem log_matching_one_leader : ∃ c rest,
    one_leader_run.foldl record [Cluster.init pair] = c :: rest
      ∧ (c.nodes 1).log.get 1 = some ⟨1, 1, [7]⟩ ∧ (c.nodes 2).log.get 1 = some ⟨1, 1, [7]⟩
      ∧ ∀ m, m ≤ 1 → (c.nodes 1).log.get m = (c.nodes 2).log.get m := by
  have hr := history_of_termFits pair one_leader_run (by decide +kernel)
  have hone := oneLeader_of_leaderIs pair (fun _ => 1) one_leader_run (by decide +kernel)
  refine ⟨_, _, rfl, by decide +kernel, by decide +kernel, ?_⟩
  exact log_matching pair _ _ hr hone 1 2 1 ⟨1, 1, [7]⟩ ⟨1, 1, [7]⟩ (by decide +kernel)
    (by decide +kernel) rfl

/-- Node 1 leads term 1 and sends two entries to node 2. Node 3 leads term 2 and replaces them in
node 1's log, which then hears of the last term and stands twice. -/
def wrapping_run : List Event :=
  [.start_election 1, .handle_vote_response 1 2 ⟨1, true⟩, .propose 1 [7], .propose 1 [8],
    .heartbeat 1, .deliver 2, .start_election 3, .start_election 3,
    .handle_vote_response 3 2 ⟨2, true⟩, .propose 3 [9], .heartbeat 3, .deliver 9,
    .handle_request_vote 1 ⟨2 ^ 64 - 1, 2, 0, 0⟩, .start_election 1, .start_election 1,
    .handle_vote_response 1 2 ⟨1, true⟩, .propose 1 [10]]

def three (i : NodeId) : List NodeId := [1, 2, 3].filter (· ≠ i)

/-- **Wrapped terms.** Node 1 leads term 1 for a second time, no term has two leaders, and its new
entry has the index and the term of an older one. -/
theorem term_wraps_unmatched : ∃ c rest, wrapping_run.foldl record [Cluster.init three] = c :: rest
    ∧ OneLeader (c :: rest) ∧ (c.nodes 1).log.get 2 = some ⟨1, 2, [10]⟩
    ∧ (c.nodes 2).log.get 2 = some ⟨1, 2, [8]⟩ :=
  ⟨_, _, rfl, oneLeader_of_leaderIs three (fun T => if T = 2 then 3 else 1) wrapping_run
    (by decide +kernel), by decide +kernel, by decide +kernel⟩

end Runs

end Oigrap.Raft
