/-
Replicated logs under leaders that are elected by term.

The abstract protocol behind log replication by election. Nodes have a term and a log. In
each term at most one log is elected, by a quorum whose members endorsed it; from then on
it is the log of the leader of that term and only grows. Nodes take over parts of the
leader's log and acknowledge them, and what a quorum acknowledged in the leader's own term
is committed.

There are no messages and no candidates here: a candidate is the log it stands with, and
a message is the step it enables. What is left is the argument that committed entries
stay. `Inv` is the invariant; its two working parts are that a node gives up what it
acknowledged only to a later leader that never had it (`keep`), and that an endorsement
weighs everything its giver acknowledged (`good`). `Inv.complete` puts the two together:
later leaders have what was committed.
-/
import Mathlib.Data.Finset.Basic
import Mathlib.Data.List.Infix
import Mathlib.Logic.Relation

namespace ReplicatedLog

open Function List

/-- The nodes, and what happened so far in each term. -/
structure State (N E : Type) where
  term : N → ℕ
  log : N → List E
  /-- how many entries a node regards as committed -/
  commit : N → ℕ
  /-- the log that was elected in a term -/
  elected : ℕ → Option (List E)
  /-- the log of the leader of a term: the elected one and what was appended since -/
  leader : ℕ → Option (List E)
  /-- the node supports the election of the log in the term -/
  endorsed : N → ℕ → List E → Prop
  /-- the node had the first `n` entries of the leader's log, in the leader's term -/
  acked : N → ℕ → ℕ → Prop

variable {N E : Type}

section Protocol

variable (tm : E → ℕ) (Q : Set (Finset N))

/-! ## The protocol -/

/-- The term of the last entry. -/
def last_term (l : List E) : ℕ := (l.getLast?.map tm).getD 0

/-- `l` is at least as good as `l'`: it ends in a later term, or in the same one and is not
shorter. -/
def UpToDate (l l' : List E) : Prop :=
  last_term tm l' < last_term tm l ∨ (last_term tm l' = last_term tm l ∧ l'.length ≤ l.length)

/-- Every entry of `l` is in the log of the leader of its term, with all that precedes it. -/
def Traced (s : State N E) (l : List E) : Prop :=
  ∀ k e, l[k]? = some e → ∃ L, s.leader (tm e) = some L ∧ l.take (k + 1) <+: L

/-- The last of the first `n` entries of `L` is of term `T`. -/
def Own (T n : ℕ) (L : List E) : Prop := ∃ m e, n = m + 1 ∧ L[m]? = some e ∧ tm e = T

/-- Any two quorums share a node. -/
def Intersecting : Prop := ∀ a ∈ Q, ∀ b ∈ Q, ∃ v, v ∈ a ∧ v ∈ b

/-- A quorum acknowledged the first `n` entries of the leader of `T`, the last of which is
of that term. -/
structure Committed (s : State N E) (T n : ℕ) (L : List E) : Prop where
  leader : s.leader T = some L
  own : Own tm T n L
  quorum : ∃ q ∈ Q, ∀ v ∈ q, s.acked v T n

/-- `k` entries are committed by a leader of a term up to `T`. -/
def Certified (s : State N E) (T k : ℕ) : Prop :=
  ∃ T₀ n L, Committed tm Q s T₀ n L ∧ T₀ ≤ T ∧ k ≤ n

namespace State

variable [DecidableEq N] (s : State N E) (v : N)

def advance (T : ℕ) : State N E :=
  { s with term := update s.term v T }

def endorse (l : List E) : State N E :=
  { s with endorsed := fun w T m => s.endorsed w T m ∨ (w = v ∧ T = s.term v ∧ m = l) }

def elect (T : ℕ) (l : List E) : State N E :=
  { s with elected := update s.elected T (some l), leader := update s.leader T (some l) }

def extend (e : E) : State N E :=
  { s with leader := update s.leader (s.term v) (some (s.log v ++ [e])),
           log := update s.log v (s.log v ++ [e]) }

def receive (l : List E) : State N E :=
  { s with log := update s.log v l }

def ack : State N E :=
  { s with acked := fun w T n => s.acked w T n ∨ (w = v ∧ T = s.term v ∧ n ≤ (s.log v).length) }

def settle (k : ℕ) : State N E :=
  { s with commit := update s.commit v k }

/-- All nodes start with the log `l`, which counts as acknowledged by all. -/
def init (l : List E) : State N E where
  term := fun _ => 0
  log := fun _ => l
  commit := fun _ => l.length
  elected := fun _ => none
  leader := fun T => if T = 0 then some l else none
  endorsed := fun _ _ _ => False
  acked := fun _ T n => T = 0 ∧ n ≤ l.length

end State

variable [DecidableEq N]

/-- One step of the protocol. -/
inductive Step : State N E → State N E → Prop
  /-- a node learns of a later term -/
  | advance {s : State N E} (v : N) (T : ℕ) : s.term v ≤ T → Step s (s.advance v T)
  /-- a node endorses a log that is no worse than its own, before the election is over -/
  | endorse {s : State N E} (v : N) (l : List E) : s.elected (s.term v) = none → Traced tm s l →
      (∀ e ∈ l, tm e < s.term v) → UpToDate tm l (s.log v) → Step s (s.endorse v l)
  | elect {s : State N E} (T : ℕ) (l : List E) (q : Finset N) : 0 < T → s.elected T = none →
      q ∈ Q → (∀ v ∈ q, s.endorsed v T l) → Step s (s.elect T l)
  /-- a leader appends an entry of its term -/
  | extend {s : State N E} (v : N) (e : E) : s.elected (s.term v) ≠ none →
      s.leader (s.term v) = some (s.log v) → tm e = s.term v → Step s (s.extend v e)
  /-- a node drops entries or takes over some of the leader's, but keeps all it shares with
  the leader -/
  | receive {s : State N E} (v : N) (l L : List E) : s.leader (s.term v) = some L →
      (l <+: L ∨ l <+: s.log v) → (∀ n, (s.log v).take n <+: L → (s.log v).take n <+: l) →
      Step s (s.receive v l)
  | ack {s : State N E} (v : N) (L : List E) : s.leader (s.term v) = some L →
      s.log v <+: L → Step s (s.ack v)
  /-- a node whose log is the leader's so far learns how much of it is committed -/
  | settle {s : State N E} (v : N) (k : ℕ) (L : List E) : s.leader (s.term v) = some L →
      s.log v <+: L → k ≤ (s.log v).length → Certified tm Q s (s.term v) k →
      Step s (s.settle v k)

end Protocol

/-! ## The invariant -/

section Invariant

variable (tm : E → ℕ) (Q : Set (Finset N))

/-- A leader elected after `T` and before `B` does not have the entries `pre`. -/
def Lost (s : State N E) (T : ℕ) (pre : List E) (B : ℕ) : Prop :=
  ∃ T' l, T < T' ∧ T' < B ∧ s.elected T' = some l ∧ ¬ pre <+: l

/-- The log `l` for term `B` has what `v` acknowledged in terms before, or was preceded by a
leader that did not have it. -/
def Good (s : State N E) (v : N) (B : ℕ) (l : List E) : Prop :=
  ∀ T n L, T < B → s.acked v T n → s.leader T = some L → Own tm T n L →
    L.take n <+: l ∨ Lost s T (L.take n) B

/-- The part of the invariant that elections and acknowledgements have no share in. -/
structure Matching (s : State N E) : Prop where
  traced_log : ∀ v, Traced tm s (s.log v)
  traced_leader : ∀ T L, s.leader T = some L → Traced tm s L
  leader_terms : ∀ T L, s.leader T = some L → ∀ e ∈ L, tm e ≤ T
  log_terms : ∀ v, ∀ e ∈ s.log v, tm e ≤ s.term v

structure Inv (s : State N E) : Prop extends matching : Matching tm s where
  endorsements : ∀ v T l, s.endorsed v T l → Traced tm s l ∧ (∀ e ∈ l, tm e < T) ∧ T ≤ s.term v
  elections : ∀ T l, s.elected T = some l → (∀ e ∈ l, tm e < T) ∧ ∃ L, s.leader T = some L ∧ l <+: L
  led : ∀ T L, s.leader T = some L → T = 0 ∨ ∃ l, s.elected T = some l
  keep : ∀ v T n, s.acked v T n → T ≤ s.term v ∧ ∃ L, s.leader T = some L ∧ n ≤ L.length
    ∧ (L.take n <+: s.log v ∨ Lost s T (L.take n) (s.term v + 1))
  acked_less : ∀ v T n k, s.acked v T n → k ≤ n → s.acked v T k
  good : ∀ v T l, s.elected T = none → s.endorsed v T l → Good tm s v T l
  won : ∀ T l, s.elected T = some l → ∃ q ∈ Q, ∀ v ∈ q, T ≤ s.term v ∧ Good tm s v T l
  commits : ∀ v, s.commit v ≤ (s.log v).length ∧ ∃ T n L, Committed tm Q s T n L
    ∧ T ≤ s.term v ∧ s.commit v ≤ n ∧ (s.log v).take (s.commit v) = L.take (s.commit v)

/-- What no step undoes. -/
structure Extends (s s' : State N E) : Prop where
  leader : ∀ T L, s.leader T = some L → ∃ L', s'.leader T = some L' ∧ L <+: L'
  elected : ∀ T l, s.elected T = some l → s'.elected T = some l
  acked : ∀ v T n, s.acked v T n → s'.acked v T n
  endorsed : ∀ v T l, s.endorsed v T l → s'.endorsed v T l

section Lemmas

variable {tm Q} {s s' s'' : State N E} {l l' L L' : List E} {T n k : ℕ} {v : N}

theorem Extends.refl (s : State N E) : Extends s s :=
  ⟨fun _ L h => ⟨L, h, prefix_rfl⟩, fun _ _ h => h, fun _ _ _ h => h, fun _ _ _ h => h⟩

theorem Extends.trans (h : Extends s s') (h' : Extends s' s'') : Extends s s'' where
  leader := by
    intro T L hL
    obtain ⟨L', hL', hp⟩ := h.leader T L hL
    obtain ⟨L'', hL'', hp'⟩ := h'.leader T L' hL'
    exact ⟨L'', hL'', hp.trans hp'⟩
  elected := fun T l hl => h'.elected T l (h.elected T l hl)
  acked := fun v T n ha => h'.acked v T n (h.acked v T n ha)
  endorsed := fun v T l he => h'.endorsed v T l (h.endorsed v T l he)

theorem prefix_take_eq (h : l <+: l') (hn : n ≤ l.length) : l'.take n = l.take n := by
  obtain ⟨r, rfl⟩ := h
  exact take_append_of_le_length hn

theorem prefix_getElem? (h : l <+: l') {e : E} (he : l[k]? = some e) : l'[k]? = some e := by
  obtain ⟨r, rfl⟩ := h
  obtain ⟨hk, -⟩ := List.getElem?_eq_some_iff.mp he
  rwa [getElem?_append_left hk]

theorem Own.le_length (h : Own tm T n L) : n ≤ L.length := by
  obtain ⟨m, e, rfl, he, -⟩ := h
  exact (List.getElem?_eq_some_iff.mp he).1

theorem Own.grow (h : Own tm T n L) (hp : L <+: L') : Own tm T n L' := by
  obtain ⟨m, e, hm, he, ht⟩ := h
  exact ⟨m, e, hm, prefix_getElem? hp he, ht⟩

theorem Own.restrict (h : Own tm T n L') (hp : L <+: L') (hn : n ≤ L.length) : Own tm T n L := by
  obtain ⟨m, e, rfl, he, ht⟩ := h
  refine ⟨m, e, rfl, ?_, ht⟩
  obtain ⟨r, rfl⟩ := hp
  rwa [getElem?_append_left hn] at he

theorem Lost.mono (hx : Extends s s') {pre : List E} {B B' : ℕ} (hB : B ≤ B')
    (h : Lost s T pre B) : Lost s' T pre B' := by
  obtain ⟨T', l, h1, h2, h3, h4⟩ := h
  exact ⟨T', l, h1, h2.trans_le hB, hx.elected _ _ h3, h4⟩

theorem Traced.grow (hx : ∀ T L, s.leader T = some L → ∃ L', s'.leader T = some L' ∧ L <+: L')
    (h : Traced tm s l) : Traced tm s' l := by
  intro k e he
  obtain ⟨L, hL, hp⟩ := h k e he
  obtain ⟨L', hL', hp'⟩ := hx _ _ hL
  exact ⟨L', hL', hp.trans hp'⟩

theorem Traced.mono (hx : Extends s s') (h : Traced tm s l) : Traced tm s' l := h.grow hx.leader

/-- **Log matching.** Two logs that have entries of one term in one place agree up to there. -/
theorem Traced.agree (hl : Traced tm s l) (hl' : Traced tm s l') {e e' : E}
    (he : l[k]? = some e) (he' : l'[k]? = some e') (ht : tm e = tm e') :
    l.take (k + 1) = l'.take (k + 1) := by
  obtain ⟨L, hL, hp⟩ := hl k e he
  obtain ⟨L', hL', hp'⟩ := hl' k e' he'
  rw [ht, hL'] at hL
  cases hL
  have hlen : (l.take (k + 1)).length = (l'.take (k + 1)).length := by
    have h1 := (List.getElem?_eq_some_iff.mp he).1
    have h2 := (List.getElem?_eq_some_iff.mp he').1
    rw [length_take, length_take]
    omega
  exact (prefix_of_prefix_length_le hp hp' hlen.le).eq_of_length hlen

theorem Traced.restrict (h : Traced tm s l') (hp : l <+: l') : Traced tm s l := by
  intro k e he
  obtain ⟨L, hL, hpre⟩ := h k e (prefix_getElem? hp he)
  refine ⟨L, hL, ?_⟩
  rwa [prefix_take_eq hp (List.getElem?_eq_some_iff.mp he).1] at hpre

theorem last_term_concat (l : List E) (e : E) : last_term tm (l ++ [e]) = tm e := by
  rw [last_term, getLast?_concat]
  rfl

/-- A log that is not empty is part of the log of the leader of its last term. -/
theorem Traced.last (h : Traced tm s l) (hne : l ≠ []) :
    ∃ L, s.leader (last_term tm l) = some L ∧ l <+: L := by
  obtain ⟨r, e, rfl⟩ : ∃ r e, l = r ++ [e] :=
    ⟨_, _, (dropLast_append_getLast hne).symm⟩
  obtain ⟨L, hL, hp⟩ := h r.length e getElem?_concat_length
  rw [last_term_concat]
  rw [take_of_length_le (by rw [length_append, length_singleton])] at hp
  exact ⟨L, hL, hp⟩

theorem Committed.mono (hx : Extends s s') (h : Committed tm Q s T n L) :
    ∃ L', Committed tm Q s' T n L' ∧ L <+: L' := by
  obtain ⟨L', hL', hp⟩ := hx.leader _ _ h.leader
  obtain ⟨q, hq, hall⟩ := h.quorum
  exact ⟨L', ⟨hL', h.own.grow hp, q, hq, fun v hv => hx.acked v T n (hall v hv)⟩, hp⟩

theorem Certified.mono (hx : Extends s s') {T' : ℕ} (hT : T ≤ T') (h : Certified tm Q s T k) :
    Certified tm Q s' T' k := by
  obtain ⟨T₀, n, L, hc, hT₀, hk⟩ := h
  obtain ⟨L', hc', -⟩ := hc.mono hx
  exact ⟨T₀, n, L', hc', hT₀.trans hT, hk⟩

variable (h : Inv tm Q s)
include h

/-- Terms do not go down along a log. -/
theorem Inv.le_last_term (hl : Traced tm s l) {e : E} (he : e ∈ l) :
    tm e ≤ last_term tm l := by
  obtain ⟨L, hL, hp⟩ := hl.last (ne_nil_of_mem he)
  exact h.leader_terms _ _ hL e (hp.subset he)

/-- What is acknowledged is in the leader's log, however long it has become. -/
theorem Inv.acked_leader (hx : Extends s s') (ha : s.acked v T n) (hL : s'.leader T = some L') :
    ∃ L, s.leader T = some L ∧ L <+: L' ∧ n ≤ L.length ∧ L'.take n = L.take n := by
  obtain ⟨-, L, hl, hn, -⟩ := h.keep v T n ha
  obtain ⟨L'', hl'', hp⟩ := hx.leader _ _ hl
  rw [hL] at hl''
  cases hl''
  exact ⟨L, hl, hp, hn, prefix_take_eq hp hn⟩

theorem Good.mono (hx : Extends s s') {B : ℕ}
    (hacked : ∀ T n, T < B → s'.acked v T n → s.acked v T n) (hg : Good tm s v B l) :
    Good tm s' v B l := by
  intro T n L' hT ha hL' hown
  have ha' := hacked T n hT ha
  obtain ⟨L, hL, hp, hn, htake⟩ := h.acked_leader hx ha' hL'
  rw [htake]
  rcases hg T n L hT ha' hL (hown.restrict hp hn) with hpre | hlost
  · exact .inl hpre
  · exact .inr (hlost.mono hx le_rfl)

/-- **Endorsing keeps.** A log at least as good as one with the first `n` entries of the
leader of `T` has them too, unless some leader in between did not. -/
theorem Inv.dominates {B : ℕ} (hl : Traced tm s l) (hB : ∀ e ∈ l, tm e < B)
    (hl' : Traced tm s l') (hup : UpToDate tm l l') (hown : Own tm T n L)
    (hpre : L.take n <+: l') : L.take n <+: l ∨ Lost s T (L.take n) B := by
  have hT : T ≤ last_term tm l' := by
    obtain ⟨m, e, rfl, he, ht⟩ := hown
    rw [← ht]
    have hm : (L.take (m + 1))[m]? = some e := by
      rwa [getElem?_take_of_lt (Nat.lt_succ_self m)]
    exact h.le_last_term hl' (hpre.subset (mem_of_getElem? hm))
  have hne' : l' ≠ [] := by
    rintro rfl
    obtain ⟨m, e, rfl, he, -⟩ := hown
    have hlen := hpre.length_le
    have := (List.getElem?_eq_some_iff.mp he).1
    rw [length_take, length_nil] at hlen
    omega
  obtain ⟨L₁, hL₁, hp₁⟩ := hl'.last hne'
  rcases hup with hlt | ⟨heq, hlen⟩
  · have hne : l ≠ [] := by
      rintro rfl
      exact Nat.not_lt_zero _ hlt
    obtain ⟨L₂, hL₂, hp₂⟩ := hl.last hne
    obtain ⟨r, e, rfl⟩ : ∃ r e, l = r ++ [e] := ⟨_, _, (dropLast_append_getLast hne).symm⟩
    rw [last_term_concat] at hlt hL₂
    rcases h.led _ _ hL₂ with h0 | ⟨l₂, hl₂⟩
    · omega
    · by_cases hp : L.take n <+: l₂
      · -- the elected log of that term is shorter than `l`, whose last entry came later
        left
        obtain ⟨hterms, L₃, hL₃, hp₃⟩ := h.elections _ _ hl₂
        rw [hL₂] at hL₃
        cases hL₃
        refine hp.trans (prefix_of_prefix_length_le hp₃ hp₂ ?_)
        by_contra hlong
        have hin : r ++ [e] <+: l₂ :=
          prefix_of_prefix_length_le hp₂ hp₃ (le_of_lt (not_le.mp hlong))
        exact absurd (hterms e (hin.subset (mem_append_right _ mem_cons_self)))
          (lt_irrefl _)
      · exact .inr ⟨tm e, l₂, hT.trans_lt hlt, hB e (mem_append_right _ mem_cons_self), hl₂, hp⟩
  · -- both end in the same term, so one is part of the other
    left
    have hne : l ≠ [] := by
      rintro rfl
      exact hne' (length_eq_zero_iff.mp (Nat.le_zero.mp hlen))
    obtain ⟨L₂, hL₂, hp₂⟩ := hl.last hne
    rw [heq, hL₂] at hL₁
    cases hL₁
    exact hpre.trans (prefix_of_prefix_length_le hp₁ hp₂ hlen)

variable (hQ : Intersecting Q)
include hQ

/-- **Leader completeness.** What is committed in `T` is in every log elected later. -/
theorem Inv.complete (hc : Committed tm Q s T n L) :
    ∀ T' l, T < T' → s.elected T' = some l → L.take n <+: l := by
  intro T'
  -- strong induction on the term of the election
  induction T' using Nat.strong_induction_on with
  | _ T' ih =>
    intro l hT hl
    obtain ⟨q, hq, hgood⟩ := h.won T' l hl
    obtain ⟨q', hq', hack⟩ := hc.quorum
    obtain ⟨v, hv, hv'⟩ := hQ q hq q' hq'
    rcases (hgood v hv).2 T n L hT (hack v hv') hc.leader hc.own with hp | hlost
    · exact hp
    · obtain ⟨T'', l'', h1, h2, h3, h4⟩ := hlost
      exact absurd (ih T'' h2 l'' h1 h3) h4

theorem Inv.complete_leader (hc : Committed tm Q s T n L) {T' : ℕ} (hT : T ≤ T')
    (hL' : s.leader T' = some L') : L.take n <+: L' := by
  rcases hT.eq_or_lt with rfl | hlt
  · have := hc.leader
    rw [hL'] at this
    cases this
    exact take_prefix _ _
  · rcases h.led _ _ hL' with h0 | ⟨l, hl⟩
    · omega
    · obtain ⟨-, L₁, hL₁, hp⟩ := h.elections _ _ hl
      rw [hL'] at hL₁
      cases hL₁
      exact (h.complete hQ hc T' l hlt hl).trans hp

theorem Inv.agreement (v w : N) (hv : k ≤ s.commit v)
    (hw : k ≤ s.commit w) : (s.log v).take k = (s.log w).take k := by
  obtain ⟨-, T, n, L, hc, -, hn, heq⟩ := h.commits v
  obtain ⟨-, T', n', L', hc', -, hn', heq'⟩ := h.commits w
  have hL : (s.log v).take k = L.take k := by
    rw [← min_eq_left hv, ← take_take, heq, take_take]
  have hL' : (s.log w).take k = L'.take k := by
    rw [← min_eq_left hw, ← take_take, heq', take_take]
  have hlen : k ≤ (L.take n).length ∧ k ≤ (L'.take n').length := by
    have h1 := hc.own.le_length
    have h2 := hc'.own.le_length
    rw [length_take, length_take]
    omega
  have hLL : L.take k = L'.take k := by
    rcases le_total T T' with hT | hT
    · have hp := h.complete_leader hQ hc hT hc'.leader
      rw [prefix_take_eq hp hlen.1, take_take, min_eq_left (hv.trans hn)]
    · have hp := h.complete_leader hQ hc' hT hc.leader
      rw [prefix_take_eq hp hlen.2, take_take, min_eq_left (hw.trans hn')]
  rw [hL, hL', hLL]

end Lemmas

end Invariant

/-! ## The steps keep it -/

section Steps

variable {tm : E → ℕ} {Q : Set (Finset N)} {s s' : State N E} {l L : List E} {T k : ℕ} {v : N}

/-- Only terms, logs and leaders matter. -/
theorem Matching.congr (h : Matching tm s) (hterm : s'.term = s.term) (hlog : s'.log = s.log)
    (hleader : s'.leader = s.leader) : Matching tm s' := by
  have hgrow : ∀ T L, s.leader T = some L → ∃ L', s'.leader T = some L' ∧ L <+: L' := by
    intro T L hL
    exact ⟨L, by rw [hleader]; exact hL, prefix_rfl⟩
  refine ⟨?_, ?_, ?_, ?_⟩
  · intro v
    rw [hlog]
    exact (h.traced_log v).grow hgrow
  · intro T L hL
    rw [hleader] at hL
    exact (h.traced_leader T L hL).grow hgrow
  · rw [hleader]
    exact h.leader_terms
  · rw [hlog, hterm]
    exact h.log_terms

theorem leader_init (hL : (State.init l : State N E).leader T = some L) : T = 0 ∧ L = l := by
  simp only [State.init, Option.ite_none_right_eq_some, Option.some.injEq] at hL
  exact ⟨hL.1, hL.2.symm⟩

theorem Matching.init (hl : ∀ e ∈ l, tm e = 0) : Matching tm (State.init l : State N E) := by
  have htraced : Traced tm (State.init l : State N E) l := by
    intro k e he
    refine ⟨l, ?_, take_prefix _ _⟩
    rw [hl e (mem_of_getElem? he)]
    rfl
  refine ⟨fun _ => htraced, ?_, ?_, fun _ e he => (hl e he).le⟩
  · intro T L hL
    rwa [(leader_init hL).2]
  · intro T L hL e he
    rw [(leader_init hL).2] at he
    rw [hl e he]
    exact Nat.zero_le _

theorem Inv.init (hQ : Q.Nonempty) (hne : l ≠ []) (hl : ∀ e ∈ l, tm e = 0) :
    Inv tm Q (State.init l : State N E) := by
  have hm : Matching tm (State.init l : State N E) := Matching.init hl
  refine ⟨hm, fun _ _ _ => False.elim,
    fun _ _ he => ?_, ?_, ?_, fun _ _ _ _ ha hk => ⟨ha.1, hk.trans ha.2⟩,
    fun _ _ _ _ => False.elim, fun _ _ he => ?_, ?_⟩
  · cases he
  · intro T L hL
    exact .inl (leader_init hL).1
  · rintro v T n ⟨rfl, hn⟩
    exact ⟨le_rfl, l, rfl, hn, .inl ( take_prefix _ _)⟩
  · cases he
  · intro v
    obtain ⟨q, hq⟩ := hQ
    obtain ⟨r, e, hr⟩ : ∃ r e, l = r ++ [e] := ⟨_, _, (dropLast_append_getLast hne).symm⟩
    have hown : Own tm 0 l.length l := by
      refine ⟨r.length, e, by rw [hr, length_append, length_singleton], ?_, ?_⟩
      · rw [hr]
        exact getElem?_concat_length
      · exact hl e (by rw [hr]; exact mem_append_right _ mem_cons_self)
    exact ⟨le_rfl, 0, l.length, l, ⟨rfl, hown, q, hq, fun _ _ => ⟨rfl, le_rfl⟩⟩, le_rfl, le_rfl, rfl⟩

/-- A node's commitments survive a step that keeps the committed part of its log. -/
theorem Inv.commits_mono (h : Inv tm Q s) (hx : Extends s s')
    (hlen : s.commit v ≤ (s'.log v).length)
    (hlog : (s'.log v).take (s.commit v) = (s.log v).take (s.commit v))
    (hterm : s.term v ≤ s'.term v) :
    s.commit v ≤ (s'.log v).length ∧ ∃ T n L, Committed tm Q s' T n L ∧ T ≤ s'.term v
      ∧ s.commit v ≤ n ∧ (s'.log v).take (s.commit v) = L.take (s.commit v) := by
  obtain ⟨-, T, n, L, hc, hT, hn, heq⟩ := h.commits v
  obtain ⟨L', hc', hp⟩ := hc.mono hx
  refine ⟨hlen, T, n, L', hc', hT.trans hterm, hn, ?_⟩
  rw [hlog, heq, prefix_take_eq hp (hn.trans hc.own.le_length)]

theorem extends_endorse : Extends s (s.endorse v l) :=
  { Extends.refl s with endorsed := fun _ _ _ he => .inl he }

theorem extends_ack : Extends s (s.ack v) :=
  { Extends.refl s with acked := fun _ _ _ ha => .inl ha }

/-- A node's vote weighs what it acknowledged. -/
theorem Inv.endorse (h : Inv tm Q s) (hopen : s.elected (s.term v) = none) (hl : Traced tm s l)
    (hterms : ∀ e ∈ l, tm e < s.term v) (hup : UpToDate tm l (s.log v)) :
    Inv tm Q (s.endorse v l) := by
  refine { h with endorsements := ?_, good := ?_, commits := ?_ }
  · rintro w B m (he | ⟨rfl, rfl, rfl⟩)
    · exact h.endorsements w B m he
    · exact ⟨hl, hterms, le_rfl⟩
  · rintro w B m hB (he | ⟨rfl, rfl, rfl⟩)
    · exact h.good w B m hB he
    · intro T n L hT ha hL hown
      obtain ⟨-, L', hL', hn, hkeep⟩ := h.keep w T n ha
      have : s.leader T = some L := hL
      rw [hL'] at this
      cases this
      rcases hkeep with hpre | ⟨T', l', h1, h2, h3, h4⟩
      · exact h.dominates hl hterms (h.traced_log w) hup hown hpre
      · have hne : T' ≠ s.term w := by
          rintro rfl
          rw [hopen] at h3
          cases h3
        exact .inr ⟨T', l', h1, by omega, h3, h4⟩
  · exact fun w => h.commits_mono extends_endorse (h.commits w).1 rfl le_rfl

theorem leader_elect {B : ℕ} (hL : (s.elect T l).leader B = some L) :
    (B = T ∧ L = l) ∨ (B ≠ T ∧ s.leader B = some L) := by
  by_cases hB : B = T
  · subst hB
    left
    simpa [State.elect, eq_comm] using hL
  · right
    simpa [State.elect, update_of_ne hB, hB] using hL

theorem grow_elect (hfree : s.leader T = none) :
    ∀ B L, s.leader B = some L → ∃ L', (s.elect T l).leader B = some L' ∧ L <+: L' := by
  intro B L hL
  have hB : B ≠ T := by
    rintro rfl
    simp [hfree] at hL
  exact ⟨L, by simpa [State.elect, update_of_ne hB] using hL, prefix_rfl⟩

theorem Matching.elect (h : Matching tm s) (hfree : s.leader T = none) (hl : Traced tm s l)
    (hterms : ∀ e ∈ l, tm e ≤ T) : Matching tm (s.elect T l) := by
  have hgrow := grow_elect (l := l) hfree
  refine ⟨fun w => (h.traced_log w).grow hgrow, ?_, ?_, h.log_terms⟩
  · intro B L hL
    rcases leader_elect hL with ⟨-, rfl⟩ | ⟨-, hL⟩
    · exact hl.grow hgrow
    · exact (h.traced_leader B L hL).grow hgrow
  · intro B L hL e he
    rcases leader_elect hL with ⟨rfl, rfl⟩ | ⟨-, hL⟩
    · exact hterms e he
    · exact h.leader_terms B L hL e he

theorem Inv.leader_free (h : Inv tm Q s) (hT : 0 < T) (hopen : s.elected T = none) :
    s.leader T = none := by
  by_contra hne
  obtain ⟨L, hL⟩ := Option.ne_none_iff_exists'.mp hne
  rcases h.led T L hL with h0 | ⟨l, hl⟩
  · omega
  · simp [hopen] at hl

theorem extends_elect (h : Inv tm Q s) (hT : 0 < T) (hopen : s.elected T = none) :
    Extends s (s.elect T l) := by
  refine ⟨grow_elect (h.leader_free hT hopen), ?_, fun _ _ _ ha => ha, fun _ _ _ he => he⟩
  intro B m hm
  have hB : B ≠ T := by
    rintro rfl
    simp [hopen] at hm
  simpa [State.elect, update_of_ne hB] using hm

theorem Inv.elect (h : Inv tm Q s) (hQ : Intersecting Q) (hT : 0 < T)
    (hopen : s.elected T = none) {q : Finset N} (hq : q ∈ Q) (hall : ∀ v ∈ q, s.endorsed v T l) :
    Inv tm Q (s.elect T l) := by
  have hx : Extends s (s.elect T l) := extends_elect h hT hopen
  obtain ⟨v₀, hv₀, -⟩ := hQ q hq q hq
  obtain ⟨hl, hterms, -⟩ := h.endorsements v₀ T l (hall v₀ hv₀)
  have hm : Matching tm (s.elect T l) :=
    h.matching.elect (h.leader_free hT hopen) hl fun e he => (hterms e he).le
  have helected : ∀ B m, (s.elect T l).elected B = some m →
      (B = T ∧ m = l) ∨ (B ≠ T ∧ s.elected B = some m) := by
    intro B m hm
    by_cases hB : B = T
    · subst hB
      left
      simpa [State.elect, eq_comm] using hm
    · right
      simpa [State.elect, update_of_ne hB, hB] using hm
  have hgood : ∀ w B m, Good tm s w B m → Good tm (s.elect T l) w B m :=
    fun w B m hg => hg.mono h hx (fun _ _ _ ha => ha)
  refine ⟨hm, ?_, ?_, ?_, ?_, h.acked_less, ?_, ?_, ?_⟩
  · intro w B m he
    obtain ⟨h1, h2, h3⟩ := h.endorsements w B m he
    exact ⟨h1.mono hx, h2, h3⟩
  · intro B m hm
    rcases helected B m hm with ⟨rfl, rfl⟩ | ⟨-, hm⟩
    · exact ⟨hterms, m, by simp [State.elect], prefix_rfl⟩
    · obtain ⟨h1, L, hL, hp⟩ := h.elections B m hm
      obtain ⟨L', hL', hp'⟩ := hx.leader B L hL
      exact ⟨h1, L', hL', hp.trans hp'⟩
  · intro B L hL
    rcases leader_elect hL with ⟨rfl, rfl⟩ | ⟨-, hL⟩
    · exact .inr ⟨L, by simp [State.elect]⟩
    · rcases h.led B L hL with h0 | ⟨m, hm⟩
      · exact .inl h0
      · exact .inr ⟨m, hx.elected B m hm⟩
  · intro w B n ha
    obtain ⟨h1, L, hL, hn, hkeep⟩ := h.keep w B n ha
    obtain ⟨L', hL', hp⟩ := hx.leader B L hL
    refine ⟨h1, L', hL', hn.trans hp.length_le, ?_⟩
    rw [prefix_take_eq hp hn]
    exact hkeep.imp_right (Lost.mono hx le_rfl)
  · intro w B m hB he
    refine hgood w B m (h.good w B m ?_ he)
    -- a term without a winner now had none before
    by_contra hne
    obtain ⟨m', hm'⟩ := Option.ne_none_iff_exists'.mp hne
    simp [hx.elected B m' hm'] at hB
  · intro B m hm
    rcases helected B m hm with ⟨rfl, rfl⟩ | ⟨-, hm⟩
    · refine ⟨q, hq, fun w hw => ⟨(h.endorsements w B m (hall w hw)).2.2, ?_⟩⟩
      exact hgood w B m (h.good w B m hopen (hall w hw))
    · obtain ⟨q', hq', hall'⟩ := h.won B m hm
      exact ⟨q', hq', fun w hw => ⟨(hall' w hw).1, hgood w B m (hall' w hw).2⟩⟩
  · exact fun w => h.commits_mono hx (h.commits w).1 (by rfl) le_rfl

/-- An acknowledgement in the current term says nothing to the endorsements so far. -/
theorem Inv.ack (h : Inv tm Q s) (hL : s.leader (s.term v) = some L) (hp : s.log v <+: L) :
    Inv tm Q (s.ack v) := by
  have hgood : ∀ w B m, B ≤ s.term w → Good tm s w B m → Good tm (s.ack v) w B m := by
    intro w B m hB hg
    refine hg.mono h extends_ack ?_
    rintro T n hT (ha | ⟨rfl, rfl, -⟩)
    · exact ha
    · exact absurd hT (not_lt.mpr hB)
  refine { h with keep := ?_, acked_less := ?_, good := ?_, won := ?_, commits := ?_ }
  · rintro w B n (ha | ⟨rfl, rfl, hn⟩)
    · exact h.keep w B n ha
    · refine ⟨le_rfl, L, hL, hn.trans hp.length_le, .inl ?_⟩
      rw [prefix_take_eq hp hn]
      exact take_prefix _ _
  · rintro w B n k (ha | ⟨rfl, rfl, hn⟩) hk
    · exact .inl (h.acked_less w B n k ha hk)
    · exact .inr ⟨rfl, rfl, hk.trans hn⟩
  · intro w B m hB he
    exact hgood w B m (h.endorsements w B m he).2.2 (h.good w B m hB he)
  · intro B m hm
    obtain ⟨q, hq, hall⟩ := h.won B m hm
    exact ⟨q, hq, fun w hw => ⟨(hall w hw).1, hgood w B m (hall w hw).1 (hall w hw).2⟩⟩
  · exact fun w => h.commits_mono extends_ack (h.commits w).1 rfl le_rfl

variable [DecidableEq N]

theorem extends_advance : Extends s (s.advance v T) :=
  { Extends.refl s with }

theorem extends_receive : Extends s (s.receive v l) :=
  { Extends.refl s with }

theorem extends_settle : Extends s (s.settle v k) :=
  { Extends.refl s with }

theorem extends_extend {e : E} (hL : s.leader (s.term v) = some (s.log v)) :
    Extends s (s.extend v e) := by
  refine { Extends.refl s with leader := ?_ }
  intro T L hT
  by_cases hB : T = s.term v
  · subst hB
    rw [hL] at hT
    cases hT
    exact ⟨s.log v ++ [e], by simp [State.extend], prefix_append _ _⟩
  · exact ⟨L, by simpa [State.extend, update_of_ne hB] using hT, prefix_rfl⟩

theorem le_term_advance (hT : s.term v ≤ T) (w : N) : s.term w ≤ (s.advance v T).term w := by
  by_cases hw : w = v
  · subst hw
    simpa [State.advance] using hT
  · simp [State.advance, update_of_ne hw]

theorem Matching.advance (h : Matching tm s) (hT : s.term v ≤ T) : Matching tm (s.advance v T) :=
  { h with log_terms := fun w e he => (h.log_terms w e he).trans (le_term_advance hT w) }

theorem Inv.advance (h : Inv tm Q s) (hT : s.term v ≤ T) : Inv tm Q (s.advance v T) := by
  have hle : ∀ w, s.term w ≤ (s.advance v T).term w := le_term_advance hT
  refine { h with
    endorsements := ?_, log_terms := (h.matching.advance hT).log_terms, keep := ?_
    won := ?_, commits := ?_ }
  · intro w B l he
    obtain ⟨h1, h2, h3⟩ := h.endorsements w B l he
    exact ⟨h1, h2, h3.trans (hle w)⟩
  · intro w B n ha
    obtain ⟨h1, L, hL, hn, hkeep⟩ := h.keep w B n ha
    refine ⟨h1.trans (hle w), L, hL, hn, hkeep.imp_right ?_⟩
    exact Lost.mono extends_advance (Nat.succ_le_succ (hle w))
  · intro B l hl
    obtain ⟨q, hq, hall⟩ := h.won B l hl
    exact ⟨q, hq, fun w hw => ⟨(hall w hw).1.trans (hle w), (hall w hw).2⟩⟩
  · exact fun w => h.commits_mono extends_advance (h.commits w).1 rfl (hle w)

theorem leader_extend {e : E} {B : ℕ} (hL : (s.extend v e).leader B = some L) :
    (B = s.term v ∧ L = s.log v ++ [e]) ∨ (B ≠ s.term v ∧ s.leader B = some L) := by
  by_cases hv : B = s.term v
  · subst hv
    left
    simpa [State.extend, eq_comm] using hL
  · right
    simpa [State.extend, update_of_ne hv, hv] using hL

theorem log_extend (e : E) (w : N) : s.log w <+: (s.extend v e).log w := by
  by_cases hw : w = v
  · subst hw
    simp [State.extend]
  · simp [State.extend, update_of_ne hw]

theorem Matching.extend (h : Matching tm s) {e : E} (hL : s.leader (s.term v) = some (s.log v))
    (he : tm e = s.term v) : Matching tm (s.extend v e) := by
  have hx : Extends s (s.extend v e) := extends_extend hL
  have htraced : Traced tm (s.extend v e) (s.log v ++ [e]) := by
    intro i x hi
    rcases lt_or_ge i (s.log v).length with hlt | hge
    · rw [getElem?_append_left hlt] at hi
      rw [take_append_of_le_length hlt]
      exact (h.traced_log v).mono hx i x hi
    · -- the new entry is the last one
      rw [getElem?_append_right hge] at hi
      obtain ⟨hi0, rfl⟩ := List.getElem?_eq_some_iff.mp hi
      rw [getElem_singleton, he]
      exact ⟨_, by simp [State.extend], take_prefix _ _⟩
  have hterms : ∀ x ∈ s.log v ++ [e], tm x ≤ s.term v := by
    intro x hin
    rcases mem_append.mp hin with hin | hin
    · exact h.log_terms v x hin
    · rw [mem_singleton.mp hin, he]
  refine ⟨?_, ?_, ?_, ?_⟩
  · intro w
    by_cases hw : w = v
    · subst hw
      simpa [State.extend] using htraced
    · simpa [State.extend, update_of_ne hw] using (h.traced_log w).mono hx
  · intro B L hB
    rcases leader_extend hB with ⟨-, rfl⟩ | ⟨-, hB⟩
    · exact htraced
    · exact (h.traced_leader B L hB).mono hx
  · intro B L hB x hin
    rcases leader_extend hB with ⟨rfl, rfl⟩ | ⟨-, hB⟩
    · exact hterms x hin
    · exact h.leader_terms B L hB x hin
  · intro w x hin
    by_cases hw : w = v
    · subst hw
      exact hterms x (by simpa [State.extend] using hin)
    · exact h.log_terms w x (by simpa [State.extend, update_of_ne hw] using hin)

theorem Inv.extend (h : Inv tm Q s) {e : E} (hled : s.elected (s.term v) ≠ none)
    (hL : s.leader (s.term v) = some (s.log v)) (he : tm e = s.term v) :
    Inv tm Q (s.extend v e) := by
  have hx : Extends s (s.extend v e) := extends_extend hL
  have hm : Matching tm (s.extend v e) := h.matching.extend hL he
  have hlog : ∀ w, s.log w <+: (s.extend v e).log w := log_extend e
  have hgood : ∀ w B m, Good tm s w B m → Good tm (s.extend v e) w B m :=
    fun w B m hg => hg.mono h hx (fun _ _ _ ha => ha)
  refine ⟨hm, ?_, ?_, ?_, ?_, h.acked_less, ?_, ?_, ?_⟩
  · intro w B m hm
    obtain ⟨h1, h2, h3⟩ := h.endorsements w B m hm
    exact ⟨h1.mono hx, h2, h3⟩
  · intro B m hm
    obtain ⟨h1, L, hB, hp⟩ := h.elections B m hm
    obtain ⟨L', hB', hp'⟩ := hx.leader B L hB
    exact ⟨h1, L', hB', hp.trans hp'⟩
  · intro B L hB
    rcases leader_extend hB with ⟨rfl, rfl⟩ | ⟨-, hB⟩
    · exact .inr (Option.ne_none_iff_exists'.mp hled)
    · exact h.led B L hB
  · intro w B n ha
    obtain ⟨h1, L, hB, hn, hkeep⟩ := h.keep w B n ha
    obtain ⟨L', hB', hp⟩ := hx.leader B L hB
    refine ⟨h1, L', hB', hn.trans hp.length_le, ?_⟩
    rw [prefix_take_eq hp hn]
    exact hkeep.imp (fun hpre => hpre.trans (hlog w)) (Lost.mono hx le_rfl)
  · exact fun w B m hB hm => hgood w B m (h.good w B m hB hm)
  · intro B m hm
    obtain ⟨q, hq, hall⟩ := h.won B m hm
    exact ⟨q, hq, fun w hw => ⟨(hall w hw).1, hgood w B m (hall w hw).2⟩⟩
  · intro w
    have hc := (h.commits w).1
    exact h.commits_mono hx (hc.trans (hlog w).length_le) (prefix_take_eq (hlog w) hc) le_rfl

theorem log_receive (w : N) : (s.receive v l).log w = if w = v then l else s.log w := by
  simp [State.receive, update_apply]

theorem Matching.receive (h : Matching tm s) (hL : s.leader (s.term v) = some L)
    (hl : l <+: L ∨ l <+: s.log v) : Matching tm (s.receive v l) := by
  refine ⟨?_, h.traced_leader, h.leader_terms, ?_⟩
  · intro w
    rw [log_receive]
    split
    · rcases hl with hl | hl
      · exact (h.traced_leader _ L hL).restrict hl
      · exact (h.traced_log v).restrict hl
    · exact h.traced_log w
  · intro w x hx
    rw [log_receive] at hx
    split at hx
    case isTrue hw =>
      rw [hw]
      rcases hl with hl | hl
      · exact h.leader_terms _ L hL x (hl.subset hx)
      · exact h.log_terms v x (hl.subset hx)
    case isFalse => exact h.log_terms w x hx

theorem Inv.receive (h : Inv tm Q s) (hQ : Intersecting Q)
    (hL : s.leader (s.term v) = some L) (hl : l <+: L ∨ l <+: s.log v)
    (hshare : ∀ n, (s.log v).take n <+: L → (s.log v).take n <+: l) : Inv tm Q (s.receive v l) := by
  -- what the leader has of the node's log stays
  have hstay : ∀ pre : List E, pre <+: s.log v → pre <+: L → pre <+: l := by
    intro pre hpre hpL
    have heq : (s.log v).take pre.length = pre := (prefix_iff_eq_take.mp hpre).symm
    rw [← heq]
    exact hshare _ (by rwa [heq])
  have hlog : ∀ w, w ≠ v → (s.receive v l).log w = s.log w :=
    fun w hw => by simp [State.receive, update_of_ne hw]
  have hself : (s.receive v l).log v = l := by simp [State.receive]
  have hm : Matching tm (s.receive v l) := h.matching.receive hL hl
  refine { h with traced_log := hm.traced_log, log_terms := hm.log_terms, keep := ?_, commits := ?_ }
  · intro w B n ha
    obtain ⟨h1, LB, hB, hn, hkeep⟩ := h.keep w B n ha
    refine ⟨h1, LB, hB, hn, ?_⟩
    by_cases hw : w = v
    · subst hw
      rw [hself]
      rcases hkeep with hpre | hlost
      · rcases h1.eq_or_lt with rfl | hlt
        · rw [hB] at hL
          cases hL
          exact .inl (hstay _ hpre ( take_prefix _ _))
        · -- a later leader: it has the entries, or was elected without them
          rcases h.led _ L hL with h0 | ⟨m, hm⟩
          · omega
          · obtain ⟨-, L', hL', hp⟩ := h.elections _ m hm
            rw [hL] at hL'
            cases hL'
            by_cases hpm : LB.take n <+: m
            · exact .inl (hstay _ hpre (hpm.trans hp))
            · exact .inr ⟨_, m, hlt, Nat.lt_succ_self _, hm, hpm⟩
      · exact .inr hlost
    · rwa [hlog w hw]
  · intro w
    by_cases hw : w = v
    · subst hw
      obtain ⟨hlen, B, n, LB, hc, hB, hn, heq⟩ := h.commits w
      have hpre : (s.log w).take (s.commit w) <+: l := by
        refine hstay _ ( take_prefix _ _) ?_
        rw [heq, ← min_eq_left hn, ← take_take]
        exact ( take_prefix _ _).trans (h.complete_leader hQ hc hB hL)
      have hcl : ((s.log w).take (s.commit w)).length = s.commit w := by
        rw [length_take, min_eq_left hlen]
      refine h.commits_mono extends_receive ?_ ?_ le_rfl
      · rw [hself, ← hcl]
        exact hpre.length_le
      · rw [hself, prefix_take_eq hpre hcl.ge, take_take, Nat.min_self]
    · exact h.commits_mono extends_receive (by rw [hlog w hw]; exact (h.commits w).1)
        (by rw [hlog w hw]) le_rfl

theorem Inv.settle (h : Inv tm Q s) (hQ : Intersecting Q)
    (hL : s.leader (s.term v) = some L) (hp : s.log v <+: L) (hk : k ≤ (s.log v).length)
    (hc : Certified tm Q s (s.term v) k) : Inv tm Q (s.settle v k) := by
  refine { h with commits := ?_ }
  intro w
  by_cases hw : w = v
  · subst hw
    obtain ⟨B, n, LB, hc, hB, hn⟩ := hc
    have hpre := h.complete_leader hQ hc hB hL
    have hlen : k ≤ (LB.take n).length := by
      rw [length_take]
      exact le_min hn (hn.trans hc.own.le_length)
    have heq : (s.log w).take k = LB.take k := by
      rw [← prefix_take_eq hp hk, prefix_take_eq hpre hlen, take_take, min_eq_left hn]
    simp only [State.settle, update_self]
    exact ⟨hk, B, n, LB, ⟨hc.leader, hc.own, hc.quorum⟩, hB, hn, heq⟩
  · have hcommit : (s.settle v k).commit w = s.commit w := by
      simp [State.settle, update_of_ne hw]
    rw [hcommit]
    exact h.commits_mono extends_settle (h.commits w).1 rfl le_rfl

/-- **Every step keeps the invariant** and undoes nothing. -/
theorem Step.kept (hQ : Intersecting Q) (hs : Step tm Q s s')
    (h : Inv tm Q s) : Inv tm Q s' ∧ Extends s s' := by
  cases hs with
  | advance v T hT => exact ⟨h.advance hT, extends_advance⟩
  | endorse v l hopen hl hterms hup => exact ⟨h.endorse hopen hl hterms hup, extends_endorse⟩
  | elect T l q hT hopen hq hall => exact ⟨h.elect hQ hT hopen hq hall, extends_elect h hT hopen⟩
  | extend v e hled hL he => exact ⟨h.extend hled hL he, extends_extend hL⟩
  | receive v l L hL hl hshare => exact ⟨h.receive hQ hL hl hshare, extends_receive⟩
  | ack v L hL hp => exact ⟨h.ack hL hp, extends_ack⟩
  | settle v k L hL hp hk hc => exact ⟨h.settle hQ hL hp hk hc, extends_settle⟩

/-- **Runs.** -/
theorem steps_inv (hQ : Intersecting Q)
    (hs : Relation.ReflTransGen (Step tm Q) s s') (h : Inv tm Q s) :
    Inv tm Q s' ∧ Extends s s' := by
  induction hs with
  | refl => exact ⟨h, Extends.refl s⟩
  | tail _ hstep ih =>
    obtain ⟨hinv, hx⟩ := hstep.kept hQ ih.1
    exact ⟨hinv, ih.2.trans hx⟩

end Steps

end ReplicatedLog
