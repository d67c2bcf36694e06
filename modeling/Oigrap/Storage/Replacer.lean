/-
`replacer.rs`: what the LRU replacer is for.

`Recency` is the replacer's purpose: the accessed frames in the order of their last access,
and the set of those that may be evicted. The replacer keeps the same list as two maps
between timestamps and frames. `Wf` says that the maps are inverse to each other and that
no timestamp is ahead of the clock, so that a new access goes to the end of the order.
-/
import Oigrap.Storage.BufferPool

namespace Oigrap.Storage

open Function List Option

namespace LruReplacer

/-- The two maps of the replacer are inverse to each other, and no timestamp is ahead of
the clock. -/
structure Wf (r : LruReplacer) : Prop where
  order_iff : ∀ ts f, (ts, f) ∈ r.access_order ↔ r.frame_timestamp f = some ts
  inj : ∀ ts f g, r.frame_timestamp f = some ts → r.frame_timestamp g = some ts → f = g
  le_clock : ∀ ts f, r.frame_timestamp f = some ts → ts ≤ r.clock

theorem new_wf : new.Wf := by
  refine ⟨?_, ?_, ?_⟩
  · simp [new]
  · intro ts f g hf
    simp [new] at hf
  · intro ts f hf
    simp [new] at hf

variable {f : FrameId} {r : LruReplacer}

/-- A timestamp ahead of all others goes to the end of the map. -/
theorem order_insert_ahead {ts : ℕ} {l : List (ℕ × FrameId)} (h : ∀ e ∈ l, e.1 < ts) :
    order_insert ts f l = l ++ [(ts, f)] := by
  induction l with
  | nil => rfl
  | cons a l ih =>
    have ha : a.1 < ts := h a mem_cons_self
    rw [order_insert, if_neg (by omega), if_neg (by omega),
      ih fun e he => h e (mem_cons_of_mem _ he), cons_append]

theorem order_without_eq (h : r.Wf) (f : FrameId) :
    r.order_without f = r.access_order.filter fun e => e.2 ≠ f := by
  unfold order_without
  cases hf : r.frame_timestamp f with
  | none =>
    -- without a last access there is no entry to remove
    refine (filter_eq_self.mpr fun e he => decide_eq_true ?_).symm
    rintro rfl
    simp [(h.order_iff e.1 e.2).mp he] at hf
  | some old =>
    refine filter_congr fun e he => decide_eq_decide.mpr (not_congr ?_)
    have hg := (h.order_iff e.1 e.2).mp he
    constructor
    · rintro rfl
      exact h.inj e.1 e.2 f hg hf
    · rintro rfl
      exact some.inj (hg.symm.trans hf)

theorem record_access_order (h : r.Wf) (f : FrameId) : (r.record_access f).access_order
    = (r.access_order.filter fun e => e.2 ≠ f) ++ [(r.clock + 1, f)] := by
  show order_insert (r.clock + 1) f (r.order_without f) = _
  rw [order_without_eq h]
  refine order_insert_ahead fun e he => Nat.lt_succ_of_le ?_
  exact h.le_clock _ _ ((h.order_iff e.1 e.2).mp (mem_of_mem_filter he))

theorem record_access_wf (h : r.Wf) (f : FrameId) : (r.record_access f).Wf := by
  -- the new timestamp is ahead of every old one, so it is fresh
  have hfresh : ∀ ts g, r.frame_timestamp g = some ts → ts ≠ r.clock + 1 := by
    intro ts g hg
    have := h.le_clock ts g hg
    omega
  refine ⟨?_, ?_, ?_⟩
  · intro ts g
    rw [record_access_order h, mem_append, mem_filter, h.order_iff]
    by_cases hg : g = f
    · simp [hg, record_access, eq_comm]
    · simp [hg, record_access]
  · intro ts g g' hg hg'
    simp only [record_access, update_apply] at hg hg'
    split at hg <;> split at hg'
    · rename_i h1 h2
      rw [h1, h2]
    · exact absurd (some.inj hg).symm (hfresh ts g' hg')
    · exact absurd (some.inj hg').symm (hfresh ts g hg)
    · exact h.inj ts g g' hg hg'
  · intro ts g hg
    simp only [record_access, update_apply] at hg ⊢
    split at hg
    · rw [← some.inj hg]
    · exact Nat.le_succ_of_le (h.le_clock ts g hg)

theorem record_access_timestamp (r : LruReplacer) (f g : FrameId) :
    ((r.record_access f).frame_timestamp g).isSome = true
      ↔ g = f ∨ (r.frame_timestamp g).isSome = true := by
  simp only [record_access, update_apply]
  by_cases h : g = f <;> simp [h]

theorem set_evictable_wf (h : r.Wf) (f : FrameId) (b : Bool) :
    (r.set_evictable f b).Wf := ⟨h.order_iff, h.inj, h.le_clock⟩

theorem evict_none (h : r.Wf) (he : r.evict = none) (hf : (r.frame_timestamp f).isSome)
    : f ∉ r.evictable := by
  obtain ⟨ts, hts⟩ := isSome_iff_exists.mp hf
  unfold evict at he
  split at he
  · rename_i hnone
    have := find?_eq_none.mp hnone (ts, f) ((h.order_iff ts f).mpr hts)
    simpa using this
  · cases he

theorem remove_wf (h : r.Wf) (f : FrameId) : (r.remove f).Wf := by
  refine ⟨?_, ?_, ?_⟩
  · intro ts g
    show (ts, g) ∈ r.order_without f ↔ update r.frame_timestamp f none g = _
    rw [order_without_eq h, mem_filter, h.order_iff]
    by_cases hg : g = f <;> simp [hg]
  · intro t f1 f2 h1 h2
    simp only [remove, update_apply] at h1 h2
    split at h1
    · cases h1
    · split at h2
      · cases h2
      · exact h.inj t f1 f2 h1 h2
  · intro t f1 h1
    simp only [remove, update_apply] at h1
    split at h1
    · cases h1
    · exact h.le_clock t f1 h1

theorem pinned_evictable (r : LruReplacer) {n : ℕ} (hn : n ≠ 0) (g : FrameId) :
    g ∈ ((r.set_evictable f false).record_access f).evictable
      ↔ if g = f then n = 0 else g ∈ r.evictable := by
  show g ∈ r.evictable.erase f ↔ _
  by_cases hg : g = f
  · simp [hg, hn]
  · simp [hg]

section Unpinned

/-! One pin less, `n` are left: the frame is evictable if that was the last one. -/

variable (n : ℕ)

theorem unpinned_wf (h : r.Wf) : (if n = 0 then r.set_evictable f true else r).Wf := by
  split
  · exact set_evictable_wf h f true
  · exact h

theorem unpinned_evictable (hf : f ∉ r.evictable) (g : FrameId) :
    g ∈ (if n = 0 then r.set_evictable f true else r).evictable
      ↔ if g = f then n = 0 else g ∈ r.evictable := by
  by_cases hg : g = f
  · by_cases hn : n = 0
    · simp [hg, hn, set_evictable]
    · simp [hg, hn, hf]
  · by_cases hn : n = 0
    · simp [hg, hn, set_evictable]
    · simp [hg, hn]

theorem unpinned_timestamp (r : LruReplacer) (g : FrameId) :
    (if n = 0 then r.set_evictable f true else r).frame_timestamp g = r.frame_timestamp g := by
  split <;> rfl

end Unpinned

theorem evict_some {r' : LruReplacer} (h : r.Wf) (he : r.evict = some (f, r')) :
    f ∈ r.evictable ∧ r' = r.remove f := by
  unfold evict at he
  split at he
  · cases he
  · rename_i ts g hsome
    obtain ⟨rfl, rfl⟩ := Prod.mk.inj (some.inj he)
    have hts := (h.order_iff ts g).mp (mem_of_find?_eq_some hsome)
    refine ⟨by simpa using find?_some hsome, ?_⟩
    simp only [remove, order_without, hts]

end LruReplacer

/-! ## The order of the last accesses -/

inductive ReplacerOp where
  | record_access (frame_id : FrameId)
  | set_evictable (frame_id : FrameId) (evictable : Bool)
  | evict
  | remove (frame_id : FrameId)

/-- The accessed frames, the one whose last access is the oldest first, and the frames that
are marked evictable. -/
structure Recency where
  frames : List FrameId
  evictable : Finset FrameId

namespace Recency

variable (q : Recency)

def forget (frame_id : FrameId) : Recency :=
  ⟨q.frames.filter (· ≠ frame_id), q.evictable.erase frame_id⟩

def victim : Option FrameId := q.frames.find? (· ∈ q.evictable)

def apply : ReplacerOp → Recency
  | .record_access f => { q with frames := q.frames.filter (· ≠ f) ++ [f] }
  | .set_evictable f b =>
    { q with evictable := if b then insert f q.evictable else q.evictable.erase f }
  | .evict => q.victim.elim q q.forget
  | .remove f => q.forget f

end Recency

namespace LruReplacer

variable {r : LruReplacer}

def apply (r : LruReplacer) : ReplacerOp → LruReplacer
  | .record_access f => r.record_access f
  | .set_evictable f b => r.set_evictable f b
  | .evict => r.evict.elim r Prod.snd
  | .remove f => r.remove f

def recency (r : LruReplacer) : Recency := ⟨r.access_order.map Prod.snd, r.evictable⟩

theorem filter_order (l : List (ℕ × FrameId)) (f : FrameId) :
    (l.filter fun e => e.2 ≠ f).map Prod.snd = (l.map Prod.snd).filter (· ≠ f) := by
  rw [List.filter_map]
  rfl

theorem recency_remove (h : r.Wf) (f : FrameId) : (r.remove f).recency = r.recency.forget f := by
  simp only [recency, remove, Recency.forget, order_without_eq h, filter_order]

theorem evict_victim (r : LruReplacer) : r.evict.map Prod.fst = r.recency.victim := by
  unfold evict Recency.victim recency
  rw [find?_map]
  show _ = Option.map Prod.snd (r.access_order.find? fun e => decide (e.2 ∈ r.evictable))
  split <;> simp only [*, Option.map_none, Option.map_some]

/-- The replacer's state: the maps agree and the order is that of the timestamps. -/
def Ordered (r : LruReplacer) : Prop := r.Wf ∧ r.access_order.Pairwise fun e e' => e.1 < e'.1

theorem remove_ordered (h : r.Ordered) (f : FrameId) : (r.remove f).Ordered := by
  refine ⟨remove_wf h.1 f, ?_⟩
  show (r.order_without f).Pairwise _
  rw [order_without_eq h.1]
  exact h.2.filter _

/-- One call keeps the maps in agreement and does to the list what it should. -/
theorem Ordered.step (h : r.Ordered) (op : ReplacerOp) :
    (r.apply op).Ordered ∧ (r.apply op).recency = r.recency.apply op := by
  cases op with
  | record_access f =>
    refine ⟨⟨record_access_wf h.1 f, ?_⟩, ?_⟩
    · -- the clock is ahead of every timestamp, so the new entry is the last
      rw [apply, record_access_order h.1, pairwise_append]
      refine ⟨h.2.filter _, pairwise_singleton _ _, fun e he e' he' => ?_⟩
      rw [mem_singleton.mp he']
      exact Nat.lt_succ_of_le
        (h.1.le_clock _ _ ((h.1.order_iff e.1 e.2).mp (mem_of_mem_filter he)))
    · simp only [recency, apply, record_access_order h.1, map_append, filter_order, map_cons,
        map_nil, Recency.apply]
      rfl
  | set_evictable f b => exact ⟨⟨set_evictable_wf h.1 f b, h.2⟩, rfl⟩
  | evict =>
    have hvictim := evict_victim r
    cases he : r.evict with
    | none =>
      rw [he] at hvictim
      simp only [apply, Recency.apply, he, ← hvictim]
      exact ⟨h, rfl⟩
    | some v =>
      obtain ⟨-, hv⟩ := evict_some h.1 (show r.evict = some (v.1, v.2) from he)
      rw [he] at hvictim
      simp only [apply, Recency.apply, he, ← hvictim, Option.elim_some, Option.map_some, hv]
      exact ⟨remove_ordered h v.1, recency_remove h.1 v.1⟩
  | remove f => exact ⟨remove_ordered h f, recency_remove h.1 f⟩

theorem Ordered.run (h : r.Ordered) (ops : List ReplacerOp) :
    (ops.foldl apply r).Ordered
      ∧ (ops.foldl apply r).recency = ops.foldl Recency.apply r.recency := by
  induction ops generalizing r with
  | nil => exact ⟨h, rfl⟩
  | cons op ops ih =>
    obtain ⟨hstep, hrec⟩ := h.step op
    rw [foldl_cons, foldl_cons, ← hrec]
    exact ih hstep

/-- After every sequence of calls the maps are inverse to each other, with one frame for each
timestamp, and the replacer is the list of the accessed frames by last access: its victim is
the first evictable one, if there is one. -/
theorem run_recency (ops : List ReplacerOp) :
    (∀ ts f, (ts, f) ∈ (ops.foldl apply new).access_order
        ↔ (ops.foldl apply new).frame_timestamp f = some ts)
      ∧ ((ops.foldl apply new).access_order.Pairwise fun e e' => e.1 < e'.1)
      ∧ (ops.foldl apply new).recency = ops.foldl Recency.apply ⟨[], ∅⟩
      ∧ (ops.foldl apply new).evict.map Prod.fst = (ops.foldl Recency.apply ⟨[], ∅⟩).victim
      ∧ ((ops.foldl apply new).evict = none ↔ ∀ f ∈ (ops.foldl Recency.apply ⟨[], ∅⟩).frames,
          f ∉ (ops.foldl Recency.apply ⟨[], ∅⟩).evictable) := by
  obtain ⟨⟨hwf, hsorted⟩, hrec⟩ := Ordered.run ⟨new_wf, .nil⟩ ops
  rw [show recency new = ⟨[], ∅⟩ from rfl] at hrec
  have hvictim := evict_victim (ops.foldl apply new)
  rw [hrec] at hvictim
  refine ⟨hwf.order_iff, hsorted, hrec, hvictim, ?_⟩
  rw [← Option.map_eq_none_iff, hvictim, Recency.victim, find?_eq_none]
  simp

end LruReplacer

end Oigrap.Storage
