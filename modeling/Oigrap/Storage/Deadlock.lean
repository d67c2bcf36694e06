/-
Deadlocks in the lock manager.

`acquire` calls `detect_deadlock` before it puts the requester into the queue, and after a
wake-up it has taken it out again. The check therefore asks whether the requester is on a
cycle of the waits-for graph without its new edges, and the request that closes a cycle is
not the one that is refused: `opposite_orders_deadlock` is two transactions taking two
locks in opposite orders. `deadlock_detection_iff` says in which runs the check is good
enough. The argument from there to the absence of deadlocks is that only enqueuing adds
edges: a grant needs an empty queue, and releases and wake-ups remove edges.
-/
import Oigrap.Storage.Lock

namespace Oigrap.Storage

open List LockEntry

namespace LockTable

variable {l l' : LockTable} {req : LockRequest}

/-! ## How the waits-for graph changes -/

theorem is_waiting_of_subset {e e' : LockEntry} (h : e.waiters ⊆ e'.waiters) {x : Xid}
    (hx : e.is_waiting x = true) : e'.is_waiting x = true := by
  obtain ⟨m, hm⟩ := is_waiting_iff.mp hx
  exact is_waiting_iff.mpr ⟨m, h hm⟩

def Acyclic (l : LockTable) : Prop := ∀ x, ¬ l.OnCycle x

section

variable (h : l.Acyclic)
include h

/-- Smaller queues and fewer holders make fewer edges. -/
theorem Acyclic.of_subset (hw : ∀ t, (l'.entry t).waiters ⊆ (l.entry t).waiters)
    (hh : ∀ t, (l'.entry t).holders ⊆ (l.entry t).holders) : l'.Acyclic := by
  intro x hx
  refine h x (Relation.TransGen.mono (fun a b hab => ?_) x x hx)
  obtain ⟨hne, t, ht, m, hm⟩ := hab
  exact ⟨hne, t, is_waiting_of_subset (hw t) ht, m, hh t hm⟩

theorem Acyclic.leave (req : LockRequest) : (l.leave req).Acyclic := by
  refine h.of_subset (fun t => ?_) fun t => ?_
  · rw [waiters_leave]
    split_ifs
    · exact filter_subset_self _
    · exact List.Subset.refl _
  · rw [holders_leave]
    exact List.Subset.refl _

theorem Acyclic.release (xid : Xid) : (l.release xid).Acyclic :=
  h.of_subset (fun _ => List.Subset.refl _) fun _ => filter_subset_self _

/-- A grant finds the queue empty, so nobody waits for the new holder. -/
theorem Acyclic.grant (hg : l.grantable req = true) : (l.grant req).Acyclic := by
  intro x hx
  refine h x (Relation.TransGen.mono (fun a b hab => ?_) x x hx)
  obtain ⟨hne, t, ht, m, hm⟩ := hab
  have hwait : (l.entry t).is_waiting a = true :=
    is_waiting_of_subset (by rw [waiters_grant]; exact List.Subset.refl _) ht
  refine ⟨hne, t, hwait, m, ?_⟩
  have htarget : t ≠ req.target := by
    rintro rfl
    rw [grantable, Bool.and_eq_true, List.isEmpty_iff] at hg
    obtain ⟨m', hm'⟩ := is_waiting_iff.mp hwait
    rw [hg.2] at hm'
    simp at hm'
  rwa [holders_grant, if_neg htarget, append_nil] at hm

theorem Acyclic.enqueue (hc : ¬ l.Closes req) : (l.enqueue req).Acyclic := by
  refine Search.acyclic_of_new_edges (fun a b hab => ?_) h hc
  obtain ⟨hne, t, ht, m, hm⟩ := hab
  rw [holders_enqueue] at hm
  obtain ⟨m', hm'⟩ := is_waiting_iff.mp ht
  rcases mem_waiters_enqueue hm' with hw | ⟨-, hx⟩
  · exact .inl ⟨hne, t, is_waiting_iff.mpr ⟨m', hw⟩, m, hm⟩
  · exact .inr hx

theorem Acyclic.congr (he : l'.entry = l.entry) : l'.Acyclic :=
  fun x hx => h x ((onCycle_congr he).mp hx)

/-- If the requests that close a cycle come from transactions that are on one already, an
attempt makes no cycle. -/
theorem Acyclic.attempt (hc : l.grantable req = false → l.Closes req → l.OnCycle req.xid) :
    (l.attempt req).1.Acyclic := by
  rcases attempt_cases l req with ⟨hg, -, he⟩ | ⟨-, -, -, he⟩ | ⟨hg, -, -, he⟩
  · exact (h.grant hg).congr he
  · exact h.congr he
  · exact (h.enqueue fun hcl => h _ (hc hg hcl)).congr he

end

theorem finite_waiting (l : LockTable) : {x | ∃ t, (l.entry t).is_waiting x = true}.Finite := by
  refine Set.Finite.subset l.waiting.toFinset.finite_toSet ?_
  rintro x ⟨t, ht⟩
  obtain ⟨m, hm⟩ := is_waiting_iff.mp ht
  have hk : t ∈ l.keys := by
    by_contra hk
    rw [l.absent t hk] at hm
    simp [new] at hm
  simp only [coe_toFinset, Set.mem_ofPred_eq, waiting, mem_dedup, mem_flatMap]
  exact ⟨t, hk, mem_map.mpr ⟨_, hm, rfl⟩⟩

end LockTable

namespace LockManager

open LockTable

variable {s : LockManager} {a : Action} {l : LockTable} {req : LockRequest}

/-! ## Detection -/

/-- A transaction calls `acquire` only when it is not asleep in another call. -/
def Sequential (s : LockManager) : Action → Prop
  | .acquire req => ∀ c ∈ s.asleep, c.req.xid ≠ req.xid
  | _ => True

/-- A request that cannot be granted and closes a cycle is refused. -/
def Detects (s : LockManager) (a : Action) : Prop :=
  ∀ l req, s.attempts a = some (l, req) → l.grantable req = false → l.Closes req →
    (l.attempt req).2 = some (.error "deadlock")

/-- A request that cannot be granted and closes a cycle comes from a transaction that is on a
cycle already. In a run of sequential transactions, in which no cycle arises otherwise, that is to
say that no request closes a cycle. -/
def Foreseen (s : LockManager) (a : Action) : Prop :=
  ∀ l req, s.attempts a = some (l, req) → l.grantable req = false → l.Closes req → l.OnCycle req.xid

theorem detects_iff_foreseen : s.Detects a ↔ s.Foreseen a := by
  constructor
  · intro h l req ha hg hc
    exact ((attempt_eq_deadlock l req).mp (h l req ha hg hc)).2
  · intro h l req ha hg hc
    exact (attempt_eq_deadlock l req).mpr ⟨hg, h l req ha hg hc⟩

/-- The transactions of `S` are asleep, each on a target that is held by others, and all of
these are in `S`. -/
def Deadlocked (s : LockManager) (S : Set Xid) : Prop :=
  S.Nonempty ∧ ∀ x ∈ S, ∃ c ∈ s.asleep, c.req.xid = x
    ∧ (∃ h ∈ (s.locks.entry c.req.target).holders, h.1 ≠ x)
    ∧ ∀ h ∈ (s.locks.entry c.req.target).holders, h.1 ≠ x → h.1 ∈ S

/-- Each transaction sleeps in one call at most, and is in the queue of its target. -/
structure Sleeping (s : LockManager) : Prop where
  distinct : (s.asleep.map fun c => c.req.xid).Nodup
  queued : ∀ c ∈ s.asleep, (s.locks.entry c.req.target).is_waiting c.req.xid = true

/-- The other sleepers are still in their queues when the attempt is made, and none of them
is the requester. -/
theorem Sleeping.others (h : s.Sleeping) (hseq : s.Sequential a)
    (ha : s.attempts a = some (l, req)) :
    ((s.others a).map fun c => c.req.xid).Nodup ∧ (∀ c ∈ s.others a, c.req.xid ≠ req.xid)
      ∧ ∀ c ∈ s.others a, (l.entry c.req.target).is_waiting c.req.xid = true := by
  rcases attempts_cases ha with ⟨rfl, rfl, ho⟩ | ⟨k, c, -, hk, rfl, rfl, ho⟩
  · rw [ho]
    exact ⟨h.distinct, hseq, h.queued⟩
  · have hne : ∀ c' ∈ s.others a, c'.req.xid ≠ c.req.xid := by
      intro c' hc' hx
      rw [ho, mem_eraseIdx_iff_getElem?] at hc'
      obtain ⟨i, hik, hi⟩ := hc'
      have hget {j : ℕ} {d : Sleeper} (hd : s.asleep[j]? = some d) :
          (s.asleep.map fun c => c.req.xid)[j]? = some d.req.xid := by
        rw [getElem?_map, hd]
        rfl
      have hlt : i < (s.asleep.map fun c => c.req.xid).length := by
        rw [length_map]
        exact (List.getElem?_eq_some_iff.mp hi).1
      exact hik ((getElem?_inj hlt h.distinct).mp
        ((hget hi).trans ((congrArg some hx).trans (hget hk).symm)))
    refine ⟨?_, hne, fun c' hc' => ?_⟩
    · rw [ho]
      exact h.distinct.sublist ((eraseIdx_sublist _ _).map _)
    · obtain ⟨m, hm⟩ := is_waiting_iff.mp (h.queued c' (mem_asleep_of_others hc'))
      refine is_waiting_iff.mpr ⟨m, ?_⟩
      rw [waiters_leave]
      split_ifs
      · exact mem_filter.mpr ⟨hm, by simpa using hne c' hc'⟩
      · exact hm

theorem Sleeping.step (h : s.Sleeping) (hseq : s.Sequential a) : (s.step a).Sleeping := by
  rcases step_cases s a with ⟨xid, -, heq⟩ | heq | ⟨l, req, ha, heq⟩
  · rw [heq]
    refine ⟨?_, fun c hc => ?_⟩
    · simpa [release_all, Function.comp_def] using h.distinct
    · obtain ⟨c', hc', rfl⟩ := mem_map.mp hc
      exact h.queued c' hc'
  · rwa [heq]
  · rw [heq]
    obtain ⟨hnodup, hne, hwait⟩ := h.others hseq ha
    rcases attempt_cases l req with ⟨-, hr, he⟩ | ⟨-, -, hr, he⟩ | ⟨-, -, hr, he⟩
    · simp only [conclude, hr]
      refine ⟨hnodup, fun c hc => is_waiting_of_subset ?_ (hwait c hc)⟩
      rw [he, waiters_grant]
      exact List.Subset.refl _
    · simp only [conclude, hr]
      exact ⟨hnodup, fun c hc => by rw [he]; exact hwait c hc⟩
    · simp only [conclude, hr, Option.isNone_none, if_true]
      refine ⟨?_, fun c hc => ?_⟩
      · rw [map_append, nodup_append]
        refine ⟨hnodup, by simp, fun x hx y hy => ?_⟩
        obtain ⟨c, hc, rfl⟩ := mem_map.mp hx
        obtain rfl : y = req.xid := by simpa using hy
        exact hne c hc
      · rw [he]
        rcases mem_append.mp hc with hc | hc
        · exact is_waiting_of_subset (waiters_subset_enqueue l req _) (hwait c hc)
        · rw [mem_singleton.mp hc]
          exact is_waiting_enqueue l req

theorem acyclic_step (h : s.locks.Acyclic) (hf : s.Foreseen a) : (s.step a).locks.Acyclic := by
  rcases step_cases s a with ⟨xid, -, heq⟩ | heq | ⟨l, req, ha, heq⟩
  · rw [heq]
    exact h.release xid
  · rwa [heq]
  · rw [heq]
    refine Acyclic.attempt ?_ (hf l req ha)
    rcases attempts_cases ha with ⟨-, rfl, -⟩ | ⟨k, c, -, -, -, rfl, -⟩
    · exact h
    · exact h.leave req

/-- Without a cycle there is no deadlocked set: each of its members would wait for another. -/
theorem not_deadlocked (h : s.Sleeping) (hac : s.locks.Acyclic) (S : Set Xid) :
    ¬ s.Deadlocked S := by
  rintro ⟨hne, hS⟩
  have hfin : S.Finite := by
    refine s.locks.finite_waiting.subset fun x hx => ?_
    obtain ⟨c, hc, rfl, -⟩ := hS x hx
    exact ⟨c.req.target, h.queued c hc⟩
  obtain ⟨x, hx⟩ := Search.exists_cycle (r := s.locks.Waits) hfin hne fun x hx => by
    obtain ⟨c, hc, rfl, ⟨p, hp, hpne⟩, hall⟩ := hS x hx
    exact ⟨p.1, hall p hp hpne, hpne.symm, c.req.target, h.queued c hc, p.2, hp⟩
  exact hac x hx

/-- In runs of sequential transactions, the check refuses every request that closes a cycle,
and then no deadlock arises, exactly when each such request comes from a transaction that is
on a cycle already. -/
theorem deadlock_detection_iff (as : List Action) (hseq : Along step Sequential new as) :
    (Along step Detects new as ∧ ∀ pre, pre <+: as → ∀ S, ¬ (run pre).Deadlocked S)
      ↔ Along step Foreseen new as := by
  constructor
  · intro h pre a ha
    exact detects_iff_foreseen.mp (h.1 pre a ha)
  · intro h
    refine ⟨fun pre a ha => detects_iff_foreseen.mpr (h pre a ha), fun pre hpre => ?_⟩
    have hsleep : (run pre).Sleeping := by
      refine (hseq.initial hpre).invariant ⟨by simp [new], by simp [new]⟩ ?_
      exact fun s a hs hok => hs.step hok
    have hac : (run pre).locks.Acyclic := by
      refine (h.initial hpre).invariant (P := fun s => s.locks.Acyclic) ?_
        fun s a hs hok => acyclic_step hs hok
      exact fun x => not_onCycle_of_not_waiting fun t => rfl
    exact not_deadlocked hsleep hac

instance (s : LockManager) : ∀ a, Decidable (s.Sequential a)
  | .acquire req => inferInstanceAs (Decidable (∀ c ∈ s.asleep, c.req.xid ≠ req.xid))
  | .wake _ | .release_all _ => isTrue trivial

instance (l : LockTable) (x : Xid) : Decidable (l.OnCycle x) :=
  decidable_of_iff _ (detect_deadlock_iff x l)

instance (s : LockManager) (a : Action) : Decidable (s.Foreseen a) :=
  decidable_of_iff (∀ r ∈ s.attempts a, r.1.grantable r.2 = false →
      (r.1.enqueue r.2).OnCycle r.2.xid → r.1.OnCycle r.2.xid)
    ⟨fun h l req ha => h (l, req) ha, fun h r ha => h r.1 r.2 ha⟩

theorem deadlock_detection_same_order :
    let calls : List Action := [.acquire ⟨1, .Table 1, .Exclusive⟩,
      .acquire ⟨2, .Table 1, .Exclusive⟩, .acquire ⟨1, .Table 2, .Exclusive⟩]
    Along step Sequential new calls ∧ (Along step Detects new calls
      ∧ ∀ pre, pre <+: calls → ∀ S, ¬ (run pre).Deadlocked S) := by
  intro calls
  have hseq : Along step Sequential new calls := by decide +kernel
  exact ⟨hseq, (deadlock_detection_iff _ hseq).mpr (by decide +kernel)⟩

/-- Two transactions take two locks in opposite orders. The request that closes the cycle is
not refused, and both sleep for good. -/
theorem opposite_orders_deadlock :
    let opened : List Action := [.acquire ⟨1, .Table 1, .Exclusive⟩,
      .acquire ⟨2, .Table 2, .Exclusive⟩, .acquire ⟨1, .Table 2, .Exclusive⟩]
    let closing : Action := .acquire ⟨2, .Table 1, .Exclusive⟩
    Along step Sequential new (opened ++ [closing]) ∧ ¬ (run opened).Detects closing
      ∧ (run (opened ++ [closing])).Deadlocked {1, 2} := by
  intro opened closing
  refine ⟨by decide +kernel, ?_, ?_⟩
  · rw [detects_iff_foreseen]
    decide +kernel
  · refine ⟨⟨1, by simp⟩, ?_⟩
    have hall : ∀ p ∈ [(1, 1), (2, 2)], ∀ h ∈ ((run (opened ++ [closing])).locks.entry
        (.Table p.1)).holders, h.1 = p.2 := by
      decide +kernel
    rintro x (rfl | rfl)
    · exact ⟨⟨⟨1, .Table 2, .Exclusive⟩, false⟩, by decide +kernel, rfl, by decide +kernel,
        fun h hh _ => .inr (hall (2, 2) (by decide) h hh)⟩
    · exact ⟨⟨⟨2, .Table 1, .Exclusive⟩, false⟩, by decide +kernel, rfl, by decide +kernel,
        fun h hh _ => .inl (hall (1, 1) (by decide) h hh)⟩

end LockManager

end Oigrap.Storage
